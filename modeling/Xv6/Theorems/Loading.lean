import Xv6.Loader
import Xv6.Theorems.ForkMemory
import Xv6.Theorems.InitialStack

/-! What `exec` makes of a file with arbitrary headers. The pages below the size are exactly those that are mapped. Each
    byte of the image is what the last header that covers it says, and zero if none does. -/

namespace Xv6.Loader
open Lib Vm

/-! ### Bytes of user memory -/

def byte (M : Machine) (a : Nat) : Option Byte := (M.page (a / pgsize)).map fun p => p (a % pgsize)

/-- An address space under construction, of `sz` bytes. -/
structure Building (l : KernelLayout) (M : Machine) (sz : Nat) : Prop where
  sane : M.space.Sane l
  exact : M.space.dir.Exact sz
  below : sz < kernbase
  user : ∀ v e, v * pgsize < kernbase → M.space.dir.entry v = some e → e.flags = pteW ||| pteU ||| pteP
  kernel : ∀ v e, kernbase ≤ v * pgsize → M.space.dir.entry v = some e → e.flags &&& pteU = 0

section
variable {l : KernelLayout} {M M' : Machine} {sz a v : Nat} {file : Bytes} {e : Pte} {off x n addr offset sz' : Nat}
  {bs : Bytes} {d : Pgdir} {phs : List Proghdr}

theorem page_lt (h : a < kernbase) : a / pgsize * pgsize < kernbase := Nat.lt_of_le_of_lt (Nat.div_mul_le_self ..) h

theorem byte_of_kept (h : Vm.Kept M M' (a / pgsize)) : byte M' a = byte M a := by
  rw [byte, byte, h.2]

theorem Building.mapped (h : Building l M sz) (ha : a < pgroundup sz) (hk : a < kernbase) :
    ∃ e, M.space.dir.entry (a / pgsize) = some e :=
  Option.isSome_iff_exists.mp ((h.exact.2 _ (page_lt hk)).mpr (Nat.lt_of_le_of_lt (Nat.div_mul_le_self ..) ha))

theorem Building.of_space (h : Building l M sz) (hspace : M'.space = M.space) : Building l M' sz :=
  ⟨hspace ▸ h.sane, hspace ▸ h.exact, h.below, hspace ▸ h.user, hspace ▸ h.kernel⟩

theorem pgroundup_le (h : sz ≤ kernbase) : pgroundup sz ≤ kernbase := by
  simp only [pgroundup, pgsize, kernbase] at *
  omega

theorem div_mul_le_iff {lo : Nat} (hlo : lo % pgsize = 0) : lo ≤ a / pgsize * pgsize ↔ lo ≤ a := by
  simp only [pgsize] at *
  omega

theorem Building.allocuvm (h : Building l M sz) (newsz : Nat) : ∃ r M', M.allocuvm l sz newsz = some (r, M') ∧
    (r ≠ 0 → Building l M' r ∧ r = max sz newsz ∧ (∀ a < pgroundup sz, byte M' a = byte M a) ∧
      ∀ a, pgroundup sz ≤ a → a < pgroundup r → byte M' a = some 0) := by
  by_cases hbig : newsz ≥ kernbase
  · exact ⟨0, M, by rw [Machine.allocuvm, if_pos hbig], fun h => absurd rfl h⟩
  by_cases hless : newsz < sz
  · refine ⟨sz, M, by rw [Machine.allocuvm, if_neg hbig, if_pos hless],
      fun _ => ⟨h, (Nat.max_eq_left (Nat.le_of_lt hless)).symm,
      fun _ _ => rfl, fun a ha ha' => absurd ha' (Nat.not_lt.mpr ha)⟩⟩
  · obtain ⟨r, M', hM', hcase⟩ := allocuvm_spec h.sane (Nat.le_of_not_lt hless) (Nat.lt_of_not_le hbig) h.exact.upTo
    refine ⟨r, M', hM', fun hr => ?_⟩
    rcases hcase with ⟨rfl, hg⟩ | ⟨rfl, -⟩
    · have hexact := hg.exact h.exact (Nat.le_of_not_lt hless) (Nat.lt_of_not_le hbig)
      refine ⟨⟨allocuvm_sane h.sane hM', hexact, Nat.lt_of_not_le hbig, fun v e hv he => ?_, fun v e hv he => ?_⟩,
        (Nat.max_eq_right (Nat.le_of_not_lt hless)).symm, fun a ha => ?_, fun a ha ha' => ?_⟩
      · by_cases hrange : pgroundup sz ≤ v * pgsize ∧ v * pgsize < r
        · obtain ⟨f, hf, -⟩ := hg.new v hrange.1 hrange.2
          rw [hf] at he
          rw [← Option.some.inj he]
        · rw [hg.old v hrange] at he
          exact h.user v e hv he
      · rw [hg.old v fun hrange => hbig (Nat.le_of_lt (Nat.lt_of_le_of_lt hv hrange.2))] at he
        exact h.kernel v e hv he
      · have hlt : a < kernbase := Nat.lt_of_lt_of_le ha (pgroundup_le h.exact.1)
        refine byte_of_kept (hg.kept h.sane (page_lt hlt) fun hrange => ?_)
        exact Nat.not_lt.mpr ((div_mul_le_iff (pgroundup_mod sz)).mp hrange.1) ha
      · have hpage := (div_mul_le_iff (pgroundup_mod sz)).mpr ha
        have hlt : a / pgsize * pgsize < r := mul_lt_pgroundup.mp (Nat.lt_of_le_of_lt (Nat.div_mul_le_self ..) ha')
        obtain ⟨f, hf, hzero⟩ := hg.new (a / pgsize) hpage hlt
        rw [byte, Machine.page, hf, Option.map_some, Option.map_some, hzero]
        rfl
    · exact absurd rfl hr

/-! ### loaduvm -/

theorem Building.patch (h : Building l M sz) (hk : v * pgsize < kernbase)
    (he : M.space.dir.entry v = some e) (hx : x < kernbase) :
    byte { M with ram := Function.update M.ram e.frame ((M.ram e.frame).patch off bs) } x =
      if x / pgsize = v then some ((M.ram e.frame).patch off bs (x % pgsize)) else byte M x := by
  rw [byte, byte, Machine.page, Machine.page]
  dsimp only
  split_ifs with hv
  · rw [hv, he, Option.map_some, Function.update_self]
    rfl
  · cases hent : M.space.dir.entry (x / pgsize) with
    | none => rfl
    | some e' =>
      have hne : e'.frame ≠ e.frame := fun hf => hv (h.sane.inj (user_of_lt (page_lt hx)) (user_of_lt hk) hent he hf)
      simp only [Option.map_some, Function.update_of_ne hne]

theorem readi_some (h : readi file off n = some bs) :
    bs = (file.drop off).take n ∧ off ≤ file.length := by
  unfold readi at h
  split at h
  · cases h
  · exact ⟨(Option.some.inj h).symm, by omega⟩

theorem readi_none (h : readi file off n = none) (hfile : file.length < wordLimit) : file.length < off + n := by
  unfold readi at h
  split at h
  · rename_i hout
    rcases hout with hout | hout
    · omega
    · exact Nat.lt_of_lt_of_le hfile hout
  · cases h

theorem entry_table (ha : a < wordLimit) (he : d.entry (a / pgsize) = some e) :
    ∃ t, d.pde (pdx a) = some t ∧ t.pte (ptx a) = some e := by
  rw [Pgdir.entry, ← pdx_eq ha] at he
  obtain ⟨t, ht, he⟩ := Option.bind_eq_some_iff.mp he
  exact ⟨t, ht, he⟩

theorem patch_read {p : Page} : p.patch 0 ((file.drop off).take n) x =
    if x < n then (file[off + x]?).getD (p x) else p x := by
  rw [Page.patch, if_pos (Nat.zero_le _), Nat.sub_zero]
  split_ifs with hx
  · rw [List.getElem?_take_of_lt hx, List.getElem?_drop]
  · rw [List.getElem?_eq_none (by rw [List.length_take]; omega), Option.getD_none]

theorem eq_add_mod (hv : v % pgsize = 0) (h : a / pgsize = v / pgsize) : a = v + a % pgsize := by
  simp only [pgsize] at *
  omega

theorem add_pgsize_le (hv : v % pgsize = 0) (h : a / pgsize ≠ v / pgsize) : v + pgsize ≤ a ↔ v ≤ a := by
  simp only [pgsize] at *
  omega

theorem Building.loaduvmLoop {k i : Nat} (h : Building l M sz) (haddr : addr % pgsize = 0) (hi : i % pgsize = 0)
    (hle : addr + n ≤ sz) (hfile : file.length < wordLimit) (hoff : k ≠ 0 → offset + i < wordLimit)
    (hend : n ≤ i + k * pgsize)
    (hk : k ≠ 0 → i + k * pgsize < n + pgsize) :
    ∃ b M', Loader.loaduvmLoop addr file offset n k M i = some (b, M') ∧ M'.space = M.space ∧
      (offset + n ≤ file.length → b = true) ∧ (b = true → ∀ x < kernbase, byte M' x =
        if addr + i ≤ x ∧ x < addr + n then file[offset + (x - addr)]? else byte M x) := by
  induction k generalizing M i with
  | zero =>
    refine ⟨true, M, rfl, rfl, fun _ => rfl, fun _ x hx => (if_neg ?_).symm⟩
    omega
  | succ k ih =>
    have hk := hk (by simp)
    have hin : i < n := by
      rw [Nat.succ_mul] at hk
      omega
    have hlt : addr + i < kernbase := Nat.lt_trans (Nat.lt_of_lt_of_le (by omega) hle) h.below
    obtain ⟨e, he⟩ := h.mapped (Nat.lt_of_lt_of_le (Nat.lt_of_lt_of_le (by omega) hle) (le_pgroundup sz)) hlt
    obtain ⟨t, ht, hte⟩ := entry_table (Nat.lt_trans hlt (by decide)) he
    rw [Loader.loaduvmLoop, walkpgdir_look, ht]
    simp only [hte, Option.elim_some]
    rw [Nat.mod_eq_of_lt (hoff (by simp))]
    cases hread : readi file (offset + i) (min (n - i) pgsize) with
    | none =>
      refine ⟨false, M, rfl, rfl, fun hfits => ?_, fun h => by cases h⟩
      exact absurd (readi_none hread hfile) (by omega)
    | some bs =>
      obtain ⟨rfl, hstart⟩ := readi_some hread
      dsimp only
      split_ifs with hlen
      · refine ⟨false, _, rfl, rfl, fun hfits => ?_, fun h => by cases h⟩
        rw [List.length_take, List.length_drop] at hlen
        omega
      · have hlen : offset + i + min (n - i) pgsize ≤ file.length := by
          rw [not_not, List.length_take, List.length_drop] at hlen
          omega
        have hnext (hk0 : k ≠ 0) : offset + (i + pgsize) < wordLimit := by
          have : 1 * pgsize ≤ k * pgsize := Nat.mul_le_mul_right _ (Nat.pos_of_ne_zero hk0)
          have hfull : pgsize ≤ n - i := by
            rw [Nat.succ_mul] at hk
            omega
          rw [Nat.min_eq_right hfull] at hlen
          exact Nat.lt_of_le_of_lt (Nat.le_of_eq (Nat.add_assoc ..).symm |>.trans hlen) hfile
        have hkeep (ram : Ram) : Building l ⟨M.space, ram⟩ sz := h.of_space rfl
        obtain ⟨b, M', hloop, hspace, hfits, hbytes⟩ :=
          ih (i := i + pgsize) (hkeep _) (by rw [Nat.add_mod_right]; exact hi) hnext
          (by rw [Nat.succ_mul] at hend; omega) fun _ => by rw [Nat.succ_mul] at hk; omega
        refine ⟨b, M', hloop, hspace, hfits, fun hb x hx => ?_⟩
        rw [hbytes hb x hx, h.patch (page_lt hlt) he hx, patch_read]
        have hv : (addr + i) % pgsize = 0 := by rw [Nat.add_mod, haddr, hi]; rfl
        by_cases hpage : x / pgsize = (addr + i) / pgsize
        · have hxa := eq_add_mod hv hpage
          have hxlt : x % pgsize < pgsize := Nat.mod_lt _ (by decide)
          rw [if_neg (by omega), if_pos hpage]
          split_ifs with hin' hin' hin'
          · have hindex : offset + (x - addr) = offset + i + x % pgsize := by omega
            rw [hindex, List.getElem?_eq_getElem (by omega), Option.getD_some]
          · omega
          · omega
          · rw [byte, Machine.page, hpage, he]
            rfl
        · have hstep := add_pgsize_le hv hpage
          rw [if_neg hpage]
          refine if_congr ?_ rfl rfl
          rw [← Nat.add_assoc, hstep]

theorem Building.loaduvm (h : Building l M sz) (haddr : addr % pgsize = 0) (hle : addr + n ≤ sz)
    (hfile : file.length < wordLimit) (hoff : offset < wordLimit) :
    ∃ b M', Loader.loaduvm M addr file offset n = some (b, M') ∧ M'.space = M.space ∧
      (offset + n ≤ file.length → b = true) ∧ (b = true → ∀ x < kernbase, byte M' x =
        if addr ≤ x ∧ x < addr + n then file[offset + (x - addr)]? else byte M x) := by
  rw [Loader.loaduvm, if_neg (not_not.mpr haddr)]
  refine h.loaduvmLoop haddr (by decide) hle hfile (fun _ => hoff) ?_ fun _ => ?_
  · simp only [pgsize]
    omega
  · simp only [pgsize]
    omega

/-! ### The loop over the program headers -/

theorem byte_lt (b : Byte) : b.toNat < 256 := b.isLt

theorem uint_lt (bs : Bytes) (i : Nat) : uint bs i < wordLimit := by
  have h₀ := byte_lt (bs.getD i 0)
  have h₁ := byte_lt (bs.getD (i + 1) 0)
  have h₂ := byte_lt (bs.getD (i + 2) 0)
  have h₃ := byte_lt (bs.getD (i + 3) 0)
  simp only [uint, wordLimit]
  omega

/-- The program headers that the loop reads, `k` of them from offset `off` of the file on. -/
def headers (file : Bytes) : Nat → Nat → List Proghdr
  | 0, _ => []
  | k + 1, off =>
    Proghdr.ofBytes ((file.drop off).take sizeofProghdr) :: headers file k ((off + sizeofProghdr) % wordLimit)

/-- What is at address `a` once the segment `ph` is loaded, if it was `b` before. -/
def load (file : Bytes) (a : Nat) (b : Option Byte) (ph : Proghdr) : Option Byte :=
  if ph.type = elfProgLoad ∧ ph.vaddr ≤ a ∧ a < ph.vaddr + ph.filesz then file[ph.off + (a - ph.vaddr)]? else b

/-- The segments `phs` have been loaded. -/
structure Segments (l : KernelLayout) (file : Bytes) (M : Machine) (sz : Nat) (phs : List Proghdr) (M' : Machine)
    (sz' : Nat) :
    Prop where
  building : Building l M' sz'
  le : sz ≤ sz'
  inside : ∀ ph ∈ phs, ph.type = elfProgLoad → ph.filesz ≤ ph.memsz ∧ ph.vaddr + ph.memsz ≤ sz'
  bytes : ∀ a < pgroundup sz', byte M' a = phs.foldl (load file a) (if a < pgroundup sz then byte M a else some 0)

theorem pgroundup_mono (h : sz ≤ sz') : pgroundup sz ≤ pgroundup sz' := by
  simp only [pgroundup, pgsize]
  omega

theorem pgroundup_idem (sz : Nat) : pgroundup (pgroundup sz) = pgroundup sz := by
  simp only [pgroundup, pgsize]
  omega

theorem Building.round (h : Building l M sz) (hlt : pgroundup sz < kernbase) : Building l M (pgroundup sz) :=
  ⟨h.sane, ⟨Nat.le_of_lt hlt, by rw [pgroundup_idem]; exact h.exact.2⟩, hlt, h.user, h.kernel⟩

theorem add_lt_of_mod {y : Nat} (hy : y < wordLimit) (h : ¬(x + y) % wordLimit < x) : x + y < wordLimit := by
  simp only [wordLimit] at *
  omega

theorem segments_bad (M₁ : Machine) : ∃ o M', some ((none : Option Nat), M₁) = some (o, M') ∧
    ∀ sz', o = some sz' → Segments l file M sz phs M' sz' :=
  ⟨none, M₁, rfl, fun _ h => by cases h⟩

theorem Building.loadSegment (h : Building l M sz) (hfile : file.length < wordLimit) (ph : Proghdr)
    (hoff : ph.off < wordLimit)
    (hmem : ph.memsz < wordLimit) : ∃ o M', Loader.loadSegment l file ph M sz = some (o, M') ∧
      ∀ sz', o = some sz' → Segments l file M sz [ph] M' sz' := by
  unfold Loader.loadSegment
  by_cases htype : ph.type = elfProgLoad
  · rw [if_neg (not_not.mpr htype)]
    split
    · exact segments_bad M
    rename_i hsize
    split
    · exact segments_bad M
    rename_i hwrap
    have hend := add_lt_of_mod hmem hwrap
    rw [Nat.mod_eq_of_lt hend]
    obtain ⟨sz₁, M₁, halloc, hgrown⟩ := h.allocuvm (ph.vaddr + ph.memsz)
    rw [halloc]
    dsimp only
    split
    · exact segments_bad M₁
    rename_i hzero
    split
    · exact segments_bad M₁
    rename_i halign
    obtain ⟨hb₁, hmax, hold, hnew⟩ := hgrown hzero
    have hle₁ : sz ≤ sz₁ := hmax ▸ Nat.le_max_left ..
    have hle₁' : ph.vaddr + ph.memsz ≤ sz₁ := hmax ▸ Nat.le_max_right ..
    obtain ⟨b, M', hload, hspace, -, hbytes⟩ := hb₁.loaduvm (not_not.mp halign)
      (Nat.le_trans (Nat.add_le_add_left (Nat.le_of_not_lt hsize) _) hle₁') hfile hoff
    rw [hload]
    refine ⟨_, M', rfl, fun sz' hsz' => ?_⟩
    cases b with
    | false => cases hsz'
    | true =>
      obtain rfl := Option.some.inj hsz'
      refine ⟨hb₁.of_space hspace, hle₁, fun p hp _ => ?_, fun a ha => ?_⟩
      · rw [List.mem_singleton.mp hp]
        exact ⟨Nat.le_of_not_lt hsize, hle₁'⟩
      · rw [hbytes rfl a (Nat.lt_of_lt_of_le ha (pgroundup_le hb₁.exact.1)), List.foldl_cons, List.foldl_nil, load]
        refine if_congr ⟨fun hc => ⟨htype, hc⟩, fun hc => hc.2⟩ rfl ?_
        split_ifs with hlow
        · exact hold a hlow
        · exact hnew a (Nat.le_of_not_lt hlow) ha
  · rw [if_pos htype]
    refine ⟨some sz, M, rfl, fun sz' hsz' => ?_⟩
    obtain rfl := Option.some.inj hsz'
    refine ⟨h, Nat.le_refl _, fun p hp hload => ?_, fun a ha => ?_⟩
    · rw [List.mem_singleton.mp hp] at hload
      exact absurd hload htype
    · rw [if_pos ha]
      exact (if_neg fun hc => htype hc.1).symm

theorem foldl_load_of_notMem {b : Option Byte}
    (h : ∀ ph ∈ phs, ph.type = elfProgLoad → ¬(ph.vaddr ≤ a ∧ a < ph.vaddr + ph.filesz)) :
        phs.foldl (load file a) b = b := by
  induction phs generalizing b with
  | nil => rfl
  | cons ph phs ih =>
    have hph : load file a b ph = b := if_neg fun hc => h ph List.mem_cons_self hc.1 hc.2
    rw [List.foldl_cons, hph]
    exact ih fun ph hph => h ph (List.mem_cons_of_mem _ hph)

theorem Segments.trans {M₁ : Machine} {sz₁ : Nat} {phs' : List Proghdr} (h : Segments l file M sz phs M₁ sz₁)
    (h' : Segments l file M₁ sz₁ phs' M' sz') : Segments l file M sz (phs ++ phs') M' sz' := by
  refine ⟨h'.building, Nat.le_trans h.le h'.le, fun ph hph hload => ?_, fun a ha => ?_⟩
  · rcases List.mem_append.mp hph with hph | hph
    · obtain ⟨hsize, hend⟩ := h.inside ph hph hload
      exact ⟨hsize, Nat.le_trans hend h'.le⟩
    · exact h'.inside ph hph hload
  · rw [h'.bytes a ha, List.foldl_append]
    congr 1
    split_ifs with hlow hlow'
    · rw [h.bytes a hlow, if_pos hlow']
    · rw [h.bytes a hlow, if_neg hlow']
    · exact absurd (Nat.lt_of_lt_of_le ‹_› (pgroundup_mono h.le)) hlow
    · -- No segment of the first rounds reaches as far.
      refine (foldl_load_of_notMem fun ph hph hload hc => ?_).symm
      obtain ⟨hsize, hend⟩ := h.inside ph hph hload
      exact hlow (Nat.lt_of_lt_of_le (by omega) (le_pgroundup _))

theorem Building.loadSegments (h : Building l M sz) (hfile : file.length < wordLimit) (k off : Nat) :
    ∃ o M', Loader.loadSegments l file k off M sz = some (o, M') ∧
      ∀ sz', o = some sz' → Segments l file M sz (headers file k off) M' sz' := by
  induction k generalizing off M sz with
  | zero =>
    refine ⟨some sz, M, rfl, fun sz' hsz' => ?_⟩
    obtain rfl := Option.some.inj hsz'
    exact ⟨h, Nat.le_refl _, (fun ph hph => by cases hph), fun a ha => (if_pos ha).symm⟩
  | succ k ih =>
    rw [Loader.loadSegments]
    cases hread : readi file off sizeofProghdr with
    | none => exact segments_bad M
    | some bs =>
      obtain ⟨rfl, -⟩ := readi_some hread
      dsimp only
      split_ifs
      · exact segments_bad M
      · obtain ⟨o, M₁, hround, hseg⟩ := h.loadSegment hfile (Proghdr.ofBytes ((file.drop off).take sizeofProghdr))
          (uint_lt ..) (uint_lt ..)
        rw [hround]
        cases o with
        | none => exact segments_bad M₁
        | some sz₁ =>
          have hseg := hseg sz₁ rfl
          obtain ⟨o, M', hrest, hsegs⟩ := ih hseg.building ((off + sizeofProghdr) % wordLimit)
          exact ⟨o, M', hrest, fun sz' hsz' => hseg.trans (hsegs sz' hsz')⟩

/-! ### The pages of the stack -/

theorem clearpteu_entry {m : Space} {uva : Nat} (ha : uva < wordLimit) (he : m.dir.entry (uva / pgsize) = some e) :
    ∃ m', clearpteu m uva = some m' ∧
      m'.dir.entry = Function.update m.dir.entry (uva / pgsize) (some { e with flags := e.flags &&& ~~~pteU }) := by
  obtain ⟨t, ht, hte⟩ := entry_table ha he
  refine ⟨_, by rw [clearpteu, walkpgdir_look, ht], ?_⟩
  rw [Pgdir.entry_setPte ht ha, hte]
  rfl

/-- The image is loaded, and the stack is to be built in the last of its pages. -/
structure ForStack (d : Pgdir) (sz : Nat) : Prop where
  low : 2 * pgsize ≤ sz
  high : sz < kernbase
  sound : d.Sound
  allows : ∀ a, d.Allows a ↔ Accessible sz a

theorem div_eq_guard (hsz : sz % pgsize = 0) (hlow : 2 * pgsize ≤ sz) :
    a / pgsize = (sz - 2 * pgsize) / pgsize ↔ sz - 2 * pgsize ≤ a ∧ a < sz - pgsize := by
  simp only [pgsize] at *
  omega

theorem div_mul_lt_iff (hsz : sz % pgsize = 0) : a / pgsize * pgsize < sz ↔ a < sz := by
  simp only [pgsize] at *
  omega

theorem Building.usable (h : Building l M sz) (hsz : sz % pgsize = 0) :
    (∃ f, M.space.dir.Usable v f) ↔ v * pgsize < sz := by
  have hround : pgroundup sz = sz := by
    simp only [pgroundup, pgsize] at *
    omega
  constructor
  · rintro ⟨f, e, he, hu, -⟩
    have hk : v * pgsize < kernbase := Nat.lt_of_not_le fun hk => hu (h.kernel v e hk he)
    exact hround ▸ (h.exact.2 v hk).mp (by rw [he]; rfl)
  · intro hv
    have hk := Nat.lt_trans hv h.below
    obtain ⟨e, he⟩ := Option.isSome_iff_exists.mp ((h.exact.2 v hk).mpr (hround.symm ▸ hv))
    exact ⟨e.frame, e, he, by rw [h.user v e hk he]; decide, rfl⟩

theorem Building.forStack (h : Building l M sz) (hsz : sz % pgsize = 0) (hlow : 2 * pgsize ≤ sz)
    (he : M.space.dir.entry ((sz - 2 * pgsize) / pgsize) = some e)
    (hd : d.entry = Function.update M.space.dir.entry ((sz - 2 * pgsize) / pgsize)
      (some { e with flags := e.flags &&& ~~~pteU })) :
    ForStack d sz := by
  have hguard : (sz - 2 * pgsize) / pgsize * pgsize < kernbase :=
    Nat.lt_of_le_of_lt (Nat.div_mul_le_self ..) (Nat.lt_of_le_of_lt (Nat.sub_le ..) h.below)
  have husable (v : Nat) (f : Frame) : d.Usable v f ↔ v ≠ (sz - 2 * pgsize) / pgsize ∧ M.space.dir.Usable v f := by
    rw [Pgdir.Usable, Pgdir.Usable, hd, Function.update_apply]
    split_ifs with hv
    · refine ⟨?_, fun hc => absurd hv hc.1⟩
      rintro ⟨e', he', hu, -⟩
      refine absurd ?_ hu
      rw [← Option.some.inj he', h.user _ e hguard he]
      exact (by decide : (pteW ||| pteU ||| pteP) &&& ~~~pteU &&& pteU = 0)
    · exact ⟨fun hu => ⟨hv, hu⟩, fun hu => hu.2⟩
  have hlt (v : Nat) (f : Frame) (hu : d.Usable v f) : v * pgsize < kernbase :=
    Nat.lt_trans ((h.usable hsz).mp ⟨f, ((husable v f).mp hu).2⟩) h.below
  refine ⟨hlow, h.below, ⟨fun v f hu => ?_, fun v w f hv hw => ?_⟩, fun a => ?_⟩
  · obtain ⟨e', he', -, rfl⟩ := ((husable v f).mp hu).2
    exact (h.sane.user_valid (user_of_lt (hlt v _ hu)) he').2
  · have hv' := hlt v f hv
    have hw' := hlt w f hw
    obtain ⟨e₁, he₁, -, hf₁⟩ := ((husable v f).mp hv).2
    obtain ⟨e₂, he₂, -, hf₂⟩ := ((husable w f).mp hw).2
    exact h.sane.inj (user_of_lt hv') (user_of_lt hw') he₁ he₂ (hf₁.trans hf₂.symm)
  · simp only [Pgdir.Allows, husable, exists_and_left, h.usable hsz, Accessible, ne_eq, div_eq_guard hsz hlow,
      div_mul_lt_iff hsz]
    exact And.comm

theorem Building.loadImage (h : Building l M 0) (hfile : file.length < wordLimit) :
    ∃ o M', Loader.loadImage l file M = some (o, M') ∧ ∀ sz, o = some sz → ForStack M'.space.dir sz ∧
      ∃ sz₀ M₁, sz = pgroundup sz₀ + 2 * pgsize ∧
        Segments l file M 0 (headers file (elf file).phnum (elf file).phoff) M₁ sz₀ ∧
        ∀ a < pgroundup sz₀, byte M' a = byte M₁ a := by
  obtain ⟨o, M₁, hload, hsegs⟩ := h.loadSegments hfile (elf file).phnum (elf file).phoff
  unfold Loader.loadImage
  rw [hload]
  cases o with
  | none => exact ⟨none, M₁, rfl, fun _ h => by cases h⟩
  | some sz₀ =>
    have hs := hsegs sz₀ rfl
    dsimp only
    by_cases hbig : pgroundup sz₀ + 2 * pgsize ≥ kernbase
    · rw [Machine.allocuvm, if_pos hbig]
      exact ⟨none, M₁, rfl, fun _ h => by cases h⟩
    · have hb := hs.building.round (by omega)
      obtain ⟨r, M₂, halloc, hgrown⟩ := hb.allocuvm (pgroundup sz₀ + 2 * pgsize)
      rw [halloc]
      dsimp only
      split
      · exact ⟨none, M₂, rfl, fun _ h => by cases h⟩
      rename_i hzero
      obtain ⟨hb₂, hmax, hold, -⟩ := hgrown hzero
      obtain rfl : r = pgroundup sz₀ + 2 * pgsize := by rw [hmax, Nat.max_eq_right (Nat.le_add_right ..)]
      rw [Nat.add_sub_cancel]
      have hlt : pgroundup sz₀ < kernbase := hb.below
      obtain ⟨e, he⟩ :=
        hb₂.mapped (a := pgroundup sz₀) (Nat.lt_of_lt_of_le (Nat.lt_add_of_pos_right (by decide)) (le_pgroundup _)) hlt
      obtain ⟨m', hclear, hent⟩ := clearpteu_entry (Nat.lt_trans hlt (by decide)) he
      rw [hclear]
      refine ⟨some _, _, rfl, fun sz hsz => ?_⟩
      obtain rfl := Option.some.inj hsz
      refine ⟨hb₂.forStack ?_ (Nat.le_add_left ..) (by rw [Nat.add_sub_cancel]; exact he)
        (by rw [Nat.add_sub_cancel]; exact hent),
        sz₀, M₁, rfl, hs, fun a ha => ?_⟩
      · rw [Nat.add_mod, pgroundup_mod]
        rfl
      · rw [← hold a (by rw [pgroundup_idem]; exact ha), byte, byte, Machine.page, Machine.page, hent,
          Function.update_of_ne]
        intro hpage
        have := pgroundup_mod sz₀
        simp only [pgsize] at *
        omega

end

/-! ### The stack -/

section Stack
variable {d : Pgdir} {sz sp va : Nat} {ram ram' : Ram} {m : Mem} {buf : Bytes} {value : Int}

theorem copyout_copies (hd : d.Sound) (hva : va + buf.length ≤ wordLimit) (h : Vm.copyout d ram va buf = .ret value ram') :
    d.Copies ram va buf (.ret value ram') := by
  rcases copyout_cases hd hva ram with ⟨hfault, -⟩ | ⟨-, hcopies⟩
  · rw [hfault] at h
    cases h
  · rwa [h] at hcopies

theorem copyout_first (hd : d.Sound) (hva : va < wordLimit) (hne : buf ≠ []) (h : Vm.copyout d ram va buf = .ret value ram')
    (hval : ¬value < 0) : d.Allows va := by
  have hlen := List.length_pos_iff.mpr hne
  obtain ⟨k, hk⟩ : ∃ k, (va % pgsize + buf.length + pgsize - 1) / pgsize = k + 1 := by
    refine Nat.exists_eq_succ_of_ne_zero ?_
    simp only [pgsize]
    omega
  have hpage : va / pgsize * pgsize / pgsize = va / pgsize := Nat.mul_div_cancel _ (by decide)
  rw [Vm.copyout, hk, copyoutLoop, if_neg hne] at h
  dsimp only at h
  have hcases := uva2ka_cases hd (Nat.lt_of_le_of_lt (Nat.div_mul_le_self va pgsize) hva)
  rw [hpage] at hcases
  rcases hcases with ⟨hw, -⟩ | ⟨hw, -⟩ | ⟨f, -, -, huse⟩
  · rw [hw] at h
    cases h
  · rw [hw] at h
    cases h
    exact absurd (by decide) hval
  · exact ⟨f, huse⟩

theorem ForStack.copyout (h : ForStack d sz) (hva : va < wordLimit) (hlen : buf.length ≤ kernbase) (hne : buf ≠ [])
    (hc : Vm.copyout d ram va buf = .ret value ram') (hval : ¬value < 0) :
    (∀ i < buf.length, Accessible sz (va + i)) ∧ d.Stored va buf ram ram' := by
  have hfirst := ((h.allows va).mp (copyout_first h.sound hva hne hc hval)).1
  have hend : va + buf.length ≤ wordLimit :=
    Nat.le_trans (Nat.add_le_add (Nat.le_of_lt (Nat.lt_trans hfirst h.high)) hlen) (by decide)
  rcases copyout_copies h.sound hend hc with ⟨-, hall, hstored⟩ | ⟨hneg, -⟩
  · exact ⟨fun i hi => (h.allows _).mp (hall i hi), hstored⟩
  · rw [hneg] at hval
    exact absurd (by decide) hval

theorem below_lt (sp n : Nat) : below sp n < wordLimit := Nat.mod_lt _ (by decide)

/-- Where user code may read, the pages of `d` hold the bytes of `m`. -/
def Shows (d : Pgdir) (ram : Ram) (m : Mem) : Prop :=
  ∀ a f, d.Usable (a / pgsize) f → ram f (a % pgsize) = m (BitVec.ofNat 32 a)

theorem ForStack.toNat_ofNat {a : Nat} {f : Frame} (h : ForStack d sz) (huse : d.Usable (a / pgsize) f) :
    (BitVec.ofNat 32 a).toNat = a := by
  rw [BitVec.toNat_ofNat]
  exact Nat.mod_eq_of_lt (Nat.lt_trans ((h.allows a).mp ⟨f, huse⟩).1 (Nat.lt_trans h.high (by decide)))

theorem ForStack.copyout_shows (h : ForStack d sz) (hS : Shows d ram m) (hva : va < wordLimit)
    (hlen : buf.length ≤ kernbase)
    (hne : buf ≠ []) (hc : Vm.copyout d ram va buf = .ret value ram') (hval : ¬value < 0) :
    Xv6.copyout sz m va buf = .ok (storeBytes m va buf) ∧ Shows d ram' (storeBytes m va buf) := by
  obtain ⟨hacc, hstored⟩ := h.copyout hva hlen hne hc hval
  refine ⟨Xv6.copyout_accessible m hacc, fun a f huse => ?_⟩
  rw [storeBytes, h.toNat_ofNat huse]
  by_cases hin : va ≤ a ∧ a < va + buf.length
  · obtain ⟨hle, hlt⟩ := hin
    have hget : buf[a - va]? = some _ := List.getElem?_eq_getElem (by omega)
    have hbyte := hstored.1 (a - va) f
    rw [Nat.add_sub_cancel' hle] at hbyte
    rw [if_pos hle, hget, Option.getD_some, hbyte huse _ hget]
  · have hkept : ram' f (a % pgsize) = ram f (a % pgsize) := by
      refine hstored.2 _ _ fun i hi huse' hoff => ?_
      have hsame := h.sound.distinct _ _ _ huse' huse
      simp only [pgsize] at hsame hoff
      omega
    rw [hkept, hS a f huse]
    split
    · rw [List.getElem?_eq_none (by omega), Option.getD_none]
    · rfl

theorem ForStack.pushArgs {argv : List Bytes} {a b : Stack} (h : ForStack d sz) (hS : Shows d a.ram m)
    (hn : a.ustack.length ≤ maxarg) (hargv : ∀ s ∈ argv, s.length < kernbase)
    (hp : Loader.pushArgs d a argv = some (some b)) : b.ustack.length ≤ maxarg ∧
      ∃ m', ArgStack.pushArgs sz ⟨a.sp, m, a.ustack⟩ argv = .ok ⟨b.sp, m', b.ustack⟩ ∧ Shows d b.ram m' := by
  induction argv generalizing a m with
  | nil =>
    cases hp
    exact ⟨hn, m, rfl, hS⟩
  | cons s argv ih =>
    rw [Loader.pushArgs] at hp
    split at hp
    · cases hp
    · rename_i hmax
      dsimp only at hp
      split at hp
      · cases hp
      · rename_i value ram₁ hcopy
        split at hp
        · cases hp
        · rename_i hval
          have hlen : (s ++ [0]).length ≤ kernbase := by
            rw [List.length_append]
            exact hargv s List.mem_cons_self
          obtain ⟨hcopy', hS₁⟩ := h.copyout_shows hS (Nat.lt_of_le_of_lt (Nat.sub_le ..) (below_lt ..)) hlen (by simp) hcopy
            hval
          obtain ⟨hn', m', hargs, hS'⟩ := ih hS₁ (by simp only [List.length_append, List.length_singleton]; omega)
            (fun s hs => hargv s (List.mem_cons_of_mem _ hs)) hp
          refine ⟨hn', m', ?_, hS'⟩
          rw [ArgStack.pushArgs, if_neg hmax]
          dsimp only
          rw [hcopy']
          exact hargs

theorem words_length (a : Stack) : (a.words.flatMap wordBytes).length = (3 + a.ustack.length + 1) * 4 :=
  words_bytes ⟨a.sp, fun _ => 0, a.ustack⟩

/-- The stack is the one that `Image.buildStack` builds. -/
theorem ForStack.buildStack {argv : List Bytes} {a : Stack} {im : Xv6.Image} (h : ForStack d sz)
    (htop : im.stackTop = some sz) (hS : Shows d ram im.mem) (hargv : ∀ s ∈ argv, s.length < kernbase)
    (hb : Loader.buildStack d ram sz argv = some (some a)) :
    ∃ m', im.buildStack sz argv = .ok ⟨a.sp, m', a.ustack⟩ ∧ Shows d a.ram m' := by
  have hlow := h.low
  have hsig : sigretimplicitBytes.length = 4 := rfl
  have hlt := Nat.lt_trans h.high (show kernbase < wordLimit by decide)
  rw [Loader.buildStack] at hb
  split at hb
  · cases hb
  · rename_i value ram₁ hcopy
    have hval : ¬value < 0 := by
      have hend : sz - sigretimplicitBytes.length + sigretimplicitBytes.length ≤ wordLimit := by
        rw [Nat.sub_add_cancel (Nat.le_trans (by decide) hlow)]
        exact Nat.le_of_lt hlt
      rcases copyout_copies h.sound hend hcopy with ⟨hzero, -⟩ | ⟨-, i, hi, hno⟩
      · omega
      · refine absurd ((h.allows _).mpr ?_) hno
        simp only [Accessible, pgsize, hsig] at *
        omega
    obtain ⟨-, hS₁⟩ := h.copyout_shows hS (by omega) (by decide) (by decide) hcopy hval
    split at hb
    · cases hb
    · cases hb
    · rename_i b hargs
      obtain ⟨hn, m₂, hargs', hS₂⟩ :=
        h.pushArgs (a := ⟨sz - sigretimplicitBytes.length, ram₁, []⟩) hS₁ (Nat.zero_le _) hargv hargs
      rw [pushUstack] at hb
      split at hb
      · cases hb
      · rename_i value' ram₂ hcopy'
        have hb := Option.some.inj hb
        split at hb
        · cases hb
        · rename_i hval'
          obtain rfl := Option.some.inj hb
          obtain ⟨hcopy₂, hS₃⟩ := h.copyout_shows hS₂ (below_lt ..)
            (by rw [words_length]; simp only [maxarg, kernbase] at *; omega)
            (List.length_pos_iff.mp (by rw [words_length]; omega)) hcopy' hval'
          refine ⟨_, ?_, hS₃⟩
          rw [buildStack_eq argv htop]
          refine bind_eq_ok.mpr ⟨_, hargs', bind_eq_ok.mpr ⟨_, hcopy₂, rfl⟩⟩

end Stack

/-! ### exec -/

/-- The program headers of the file. -/
def programHeaders (file : Bytes) : List Proghdr :=
  headers file (elf file).phnum (elf file).phoff

def Proghdr.Covers (ph : Proghdr) (a : Nat) : Prop := ph.vaddr ≤ a ∧ a < ph.vaddr + ph.memsz

/-- The range of the header with number `i` overlaps no other one that is to be loaded. -/
def Alone (phs : List Proghdr) (i : Nat) (ph : Proghdr) : Prop :=
  ∀ j ph', j ≠ i → phs[j]? = some ph' → ph'.type = elfProgLoad → ∀ a, ph.Covers a → ¬ph'.Covers a

/-- The byte at address `a` of the image. -/
def Image.byte (img : Image) (a : Nat) : Option Byte :=
  (img.pgdir.entry (a / pgsize)).map fun e => img.ram e.frame (a % pgsize)

/-- The image holds the segment: its bytes of the file, and zeros. -/
def Image.Holds (img : Image) (file : Bytes) (ph : Proghdr) : Prop :=
  (∀ x < ph.filesz, ∃ b, file[ph.off + x]? = some b ∧ img.byte (ph.vaddr + x) = some b) ∧
  ∀ x, ph.filesz ≤ x → x < ph.memsz → img.byte (ph.vaddr + x) = some 0

section
variable {l : KernelLayout} {file : Bytes} {free free' : List Frame} {d : Pgdir} {ram : Ram} {argv : List Bytes}
  {img : Image}

theorem foldl_load_alone {phs : List Proghdr} {i a : Nat} {ph : Proghdr} {b : Option Byte} (hi : phs[i]? = some ph)
    (halone : Alone phs i ph) (hsizes : ∀ ph ∈ phs, ph.type = elfProgLoad → ph.filesz ≤ ph.memsz) (ha : ph.Covers a) :
    phs.foldl (load file a) b = load file a b ph := by
  obtain ⟨hlt, hget⟩ := List.getElem?_eq_some_iff.mp hi
  have hother (j : Nat) (hj : j ≠ i) (ph' : Proghdr) (hph' : phs[j]? = some ph') (htype : ph'.type = elfProgLoad) :
      ¬(ph'.vaddr ≤ a ∧ a < ph'.vaddr + ph'.filesz) := by
    intro hc
    have hsize := hsizes ph' (List.mem_of_getElem? hph') htype
    exact halone j ph' hj hph' htype a ha ⟨hc.1, by omega⟩
  have hsplit : phs = phs.take i ++ ph :: phs.drop (i + 1) := by
    rw [← hget, ← List.drop_eq_getElem_cons hlt, List.take_append_drop]
  rw [hsplit, List.foldl_append, List.foldl_cons, foldl_load_of_notMem, foldl_load_of_notMem]
  · intro ph' hph' htype
    obtain ⟨j, hj⟩ := List.mem_iff_getElem?.mp hph'
    rw [List.getElem?_take] at hj
    split at hj
    · rename_i hji
      exact hother j (Nat.ne_of_lt hji) ph' hj htype
    · cases hj
  · intro ph' hph' htype
    obtain ⟨j, hj⟩ := List.mem_iff_getElem?.mp hph'
    rw [List.getElem?_drop] at hj
    exact hother (i + 1 + j) (by omega) ph' hj htype

theorem setupkvm_building (ram : Ram) (hfree : free.Nodup) (hvalid : ∀ f ∈ free, l.Valid f)
    (h : setupkvm l free = some (some d, free')) :
    Building l ⟨⟨free', d⟩, ram⟩ 0 := by
  obtain ⟨o, free₁, hkvm, hkernel⟩ := setupkvm_total l free
  rw [h] at hkvm
  cases hkvm
  obtain ⟨hpart, hpages, -⟩ := setupkvm_some h
  have hnone (v : Nat) (hv : v * pgsize < kernbase) : d.entry v = none := hpart.entry_none hv
  refine ⟨⟨?_, fun f hf => ?_⟩,
    ⟨Nat.zero_le _, fun v hv => ?_⟩, by decide, fun v e hv he => ?_, fun v e _ he => hkernel d rfl v e he⟩
  · rw [Space.pages_mk, ← hpages]
    exact hfree
  · rw [Space.pages_mk, ← hpages] at hf
    exact hvalid f hf
  · rw [hnone v hv]
    exact ⟨(fun h => by cases h), fun h => absurd h (Nat.not_lt_zero _)⟩
  · rw [hnone v hv] at he
    cases he

theorem buildImage_some {M₀ : Machine} (h : buildImage l file argv M₀ = some (some img)) :
    ∃ M a, loadImage l file M₀ = some (some img.sz, M) ∧ buildStack M.space.dir M.ram img.sz argv = some (some a) ∧
      img.pgdir = M.space.dir ∧ img.ram = a.ram ∧ img.esp = a.sp ∧ img.entry = (elf file).entry := by
  unfold buildImage at h
  split at h
  · cases h
  · cases h
  · rename_i sz M hload
    obtain ⟨o, hstack, ho⟩ := Option.map_eq_some_iff.mp h
    obtain ⟨a, rfl, rfl⟩ := Option.map_eq_some_iff.mp ho
    exact ⟨M, a, hload, hstack, rfl, rfl, rfl, rfl⟩

theorem exec_some (h : exec l file argv free ram = some (some img)) :
    ∃ d free', setupkvm l free = some (some d, free') ∧ buildImage l file argv ⟨⟨free', d⟩, ram⟩ = some (some img) := by
  unfold exec at h
  split at h
  · cases h
  split at h
  · cases h
  split at h
  · cases h
  · cases h
  · exact ⟨_, _, ‹_›, h⟩

/-- What the image holds: the segments, and above them the stack that `Image.buildStack` builds. -/
theorem exec_image (hfree : free.Nodup) (hvalid : ∀ f ∈ free, l.Valid f) (hfile : file.length < wordLimit)
    (hargv : ∀ s ∈ argv, s.length < kernbase) (h : exec l file argv free ram = some (some img)) :
    ∃ (sz : Nat) (M₀ M : Machine) (im : Xv6.Image) (a : ArgStack), Segments l file M₀ 0 (programHeaders file) M sz ∧
      (∀ x < pgroundup sz, img.byte x = byte M x) ∧ im.stackTop = some img.sz ∧ im.buildStack img.sz argv = .ok a ∧
      im.entry.toNat = img.entry ∧ a.sp = img.esp ∧
      ∀ x, Accessible img.sz x → img.byte x = some (a.mem (BitVec.ofNat 32 x)) := by
  obtain ⟨d, free', hkvm, himage⟩ := exec_some h
  obtain ⟨M, a, hload, hstack, hdir, hram, hesp, hentry⟩ := buildImage_some himage
  obtain ⟨o, M', hload', hspec⟩ := (setupkvm_building ram hfree hvalid hkvm).loadImage hfile
  rw [hload] at hload'
  cases hload'
  obtain ⟨hfor, sz, M₁, hsz, hsegs, hbytes⟩ := hspec _ rfl
  let im : Xv6.Image := ⟨sz, fun x => (byte M x.toNat).getD 0, BitVec.ofNat 32 img.entry, 0, hsegs.building.below⟩
  have htop : im.stackTop = some img.sz := by
    have hhigh := hfor.high
    rw [hsz, Nat.add_comm] at hhigh ⊢
    exact if_neg (Nat.not_le_of_lt hhigh)
  have hS : Shows M.space.dir M.ram im.mem := by
    rintro x f ⟨e, he, hflags, rfl⟩
    have hmem : im.mem (BitVec.ofNat 32 x) = (byte M x).getD 0 := by
      change (byte M (BitVec.ofNat 32 x).toNat).getD 0 = _
      rw [hfor.toNat_ofNat ⟨e, he, hflags, rfl⟩]
    rw [hmem, byte, Machine.page, he]
    rfl
  obtain ⟨m', hbuild, hshows⟩ := hfor.buildStack htop hS hargv hstack
  have hbyte (x : Nat) (hx : Accessible img.sz x) : img.byte x = some (m' (BitVec.ofNat 32 x)) := by
    obtain ⟨f, e, he, hflags, rfl⟩ := (hfor.allows x).mpr hx
    rw [Image.byte, hdir, he, hram, Option.map_some, hshows x _ ⟨e, he, hflags, rfl⟩]
  refine ⟨sz, _, M₁, im, _, hsegs, fun x hx => ?_, htop, hbuild, ?_, hesp.symm, hbyte⟩
  · -- Below the page of the stack, memory is as it was loaded.
    have hx' : Accessible img.sz x := by
      simp only [Accessible, pgsize] at *
      omega
    obtain ⟨f, huse⟩ := (hfor.allows x).mpr hx'
    have hkept : m' (BitVec.ofNat 32 x) = im.mem (BitVec.ofNat 32 x) :=
      (buildStack_built htop hbuild).kept _ (by rw [hfor.toNat_ofNat huse]; simp only [pgsize] at *; omega)
    rw [hbyte x hx', hkept, ← hS x f huse, ← hbytes x hx]
    obtain ⟨e, he, -, rfl⟩ := huse
    rw [byte, Machine.page, he]
    rfl
  · rw [BitVec.toNat_ofNat, hentry]
    exact Nat.mod_eq_of_lt (uint_lt _ _)

/-- The image is the one that `Proc.exec` commits to. -/
theorem exec_commits (hfree : free.Nodup) (hvalid : ∀ f ∈ free, l.Valid f) (hfile : file.length < wordLimit)
    (hargv : ∀ s ∈ argv, s.length < kernbase) (h : exec l file argv free ram = some (some img)) :
    ∃ im : Xv6.Image, ∀ (p : Proc) path, ∃ q, p.exec (some im) path argv = some (0, q) ∧ q.sz = BitVec.ofNat 32 img.sz ∧
      q.frame.eip.toNat = img.entry ∧ q.frame.esp = BitVec.ofNat 32 img.esp ∧
      ∀ x, Accessible img.sz x → img.byte x = some (q.mem (BitVec.ofNat 32 x)) := by
  obtain ⟨sz, M₀, M, im, a, -, -, htop, hbuild, hentry, hesp, hbyte⟩ := exec_image hfree hvalid hfile hargv h
  refine ⟨im, fun p path => ⟨(p.setSigret img.sz).commit im img.sz a path, ?_, rfl, hentry,
    congrArg (BitVec.ofNat 32) hesp, hbyte⟩⟩
  rw [Proc.exec, htop]
  dsimp only
  rw [hbuild]

/-- `exec` of any file: neither `setupkvm` nor the loading panics, and an image holds every segment that overlaps no
    other. -/
theorem exec_loads (hfree : free.Nodup) (hvalid : ∀ f ∈ free, l.Valid f) (hfile : file.length < wordLimit) :
    (∃ o free', setupkvm l free = some (o, free') ∧
      ∀ d, o = some d → (loadImage l file ⟨⟨free', d⟩, ram⟩).isSome) ∧
    ∀ argv img, (∀ s ∈ argv, s.length < kernbase) → exec l file argv free ram = some (some img) →
      ∀ i ph, (programHeaders file)[i]? = some ph → ph.type = elfProgLoad → Alone (programHeaders file) i ph →
        img.Holds file ph := by
  constructor
  · obtain ⟨o, free', hkvm, -⟩ := setupkvm_total l free
    refine ⟨o, free', hkvm, fun d hd => ?_⟩
    subst hd
    obtain ⟨o, M', hload, -⟩ := (setupkvm_building ram hfree hvalid hkvm).loadImage hfile
    rw [hload]
    rfl
  · intro argv img hargv hexec i ph hi htype halone
    obtain ⟨sz₀, M₀, M₁, -, -, hsegs, hbytes, -⟩ := exec_image hfree hvalid hfile hargv hexec
    obtain ⟨hsize, hend⟩ := hsegs.inside ph (List.mem_of_getElem? hi) htype
    have hbyte (x : Nat) (hx : x < ph.memsz) : img.byte (ph.vaddr + x) = byte M₁ (ph.vaddr + x) :=
      hbytes _ (Nat.lt_of_lt_of_le (by omega) (le_pgroundup sz₀))
    have hload (x : Nat) (hx : x < ph.memsz) : byte M₁ (ph.vaddr + x) = load file (ph.vaddr + x) (some 0) ph := by
      rw [hsegs.bytes _ (Nat.lt_of_lt_of_le (by omega) (le_pgroundup sz₀)), show pgroundup 0 = 0 from rfl,
        if_neg (Nat.not_lt_zero _)]
      exact foldl_load_alone hi halone (fun ph' hph' htype' => (hsegs.inside ph' hph' htype').1)
        ⟨Nat.le_add_right .., by omega⟩
    refine ⟨fun x hx => ?_, fun x hx hx' => ?_⟩
    · have hfile := hload x (by omega)
      rw [load, if_pos ⟨htype, Nat.le_add_right .., by omega⟩, Nat.add_sub_cancel_left] at hfile
      obtain ⟨e, he⟩ := hsegs.building.mapped (a := ph.vaddr + x) (Nat.lt_of_lt_of_le (by omega) (le_pgroundup sz₀))
        (Nat.lt_trans (by omega) hsegs.building.below)
      have hsome : byte M₁ (ph.vaddr + x) = some (M₁.ram e.frame ((ph.vaddr + x) % pgsize)) := by
        rw [byte, Machine.page, he]
        rfl
      exact ⟨_, hfile.symm.trans hsome, (hbyte x (by omega)).trans hsome⟩
    · rw [hbyte x hx', hload x hx', load, if_neg (by omega)]

end

/-! ### A small program -/

/-- A program of one segment: four bytes of the file and four zeros. -/
def tiny : Bytes :=
  -- The ELF header: its magic number, `phoff` and `phnum`.
  [0x7F, 0x45, 0x4C, 0x46, 0, 0, 0, 0, 0, 0, 0, 0, 0, 0, 0, 0, 0, 0, 0, 0, 0, 0, 0, 0, 0, 0, 0, 0, 52, 0, 0, 0,
    0, 0, 0, 0, 0, 0, 0, 0, 0, 0, 0, 0, 1, 0, 0, 0, 0, 0, 0, 0] ++
  -- The program header: `type`, `off`, `filesz`, `memsz`, `flags` and `align`.
  [1, 0, 0, 0, 84, 0, 0, 0, 0, 0, 0, 0, 0, 0, 0, 0, 4, 0, 0, 0, 8, 0, 0, 0, 5, 0, 0, 0, 0, 16, 0, 0] ++
  [1, 2, 3, 4]

theorem programHeaders_tiny : programHeaders tiny = [⟨1, 84, 0, 4, 8⟩] := by
  decide +kernel

section
variable {l : KernelLayout} {M : Machine} {d : Pgdir} {sz newsz va : Nat} {ram : Ram} {buf : Bytes}

theorem mappage_enough {m : Space} {a : Nat} (pa : Nat) (perm : BitVec 12) (ha : a < wordLimit)
    (hnone : m.dir.entry (a / pgsize) = none)
    (hfree : 0 < m.free.length) : ∃ m', mappage m a pa perm = some (true, m') ∧ m.free.length ≤ m'.free.length + 1 ∧
      m'.dir.entry = Function.update m.dir.entry (a / pgsize) (some ⟨pa / pgsize, perm ||| pteP⟩) := by
  rcases mappage_spec pa perm ha hnone with ⟨-, hnil⟩ | ⟨m', hmap, -, hent, -⟩
  · rw [hnil] at hfree
    cases hfree
  · refine ⟨m', hmap, ?_, hent⟩
    unfold mappage at hmap
    rcases walkpgdir_cases m a with ⟨t, ht, hw⟩ | ⟨-, -, hw⟩ | ⟨v, free, hp, hf, hw⟩
    · rw [hw] at hmap
      dsimp only at hmap
      split at hmap
      · cases hmap
      · cases hmap
        exact Nat.le_succ _
    · rw [hw] at hmap
      cases hmap
    · rw [hw] at hmap
      cases hmap
      rw [hf]
      rfl

theorem allocuvmLoop_enough {oldsz k a : Nat} (hpage : a % pgsize = 0) (hend : a + k * pgsize ≤ kernbase)
    (hnone : ∀ v, a ≤ v * pgsize → v * pgsize < kernbase → M.space.dir.entry v = none)
    (hfree : 2 * k ≤ M.space.free.length) :
    ∃ M', M.allocuvmLoop l oldsz newsz k a = some (newsz, M') ∧ M.space.free.length ≤ M'.space.free.length + 2 * k := by
  induction k generalizing M a with
  | zero => exact ⟨M, rfl, Nat.le_refl _⟩
  | succ k ih =>
    rw [Nat.succ_mul] at hend
    obtain ⟨⟨free, d⟩, ram⟩ := M
    cases free with
    | nil => exact absurd hfree (by simp)
    | cons mem free =>
      have hlt : a < kernbase := by
        simp only [pgsize] at hend
        omega
      have hlt32 : a < wordLimit := Nat.lt_trans hlt (by decide)
      have hstart : a / pgsize * pgsize = a := Nat.div_mul_cancel (Nat.dvd_of_mod_eq_zero hpage)
      rw [List.length_cons] at hfree
      obtain ⟨m', hmap, hlen, hent⟩ := mappage_enough (m := ⟨free, d⟩) (mem * pgsize) (pteW ||| pteU) hlt32
        (hnone _ (Nat.le_of_eq hstart.symm) (Nat.lt_of_le_of_lt (Nat.le_of_eq hstart) hlt)) (by dsimp only; omega)
      obtain ⟨M', hloop, hlen'⟩ := ih (M := ⟨m', Function.update ram mem zeroPage⟩) (a := a + pgsize)
        (by rw [Nat.add_mod_right]; exact hpage) (by omega) (fun v hv hv' => by
          dsimp only
          rw [hent, Function.update_of_ne]
          · exact hnone v (Nat.le_trans (Nat.le_add_right ..) hv) hv'
          · rintro rfl
            rw [hstart] at hv
            simp only [pgsize] at hv
            omega) (by dsimp only at hlen ⊢; omega)
      refine ⟨M', ?_, ?_⟩
      · rw [Machine.allocuvmLoop]
        simp only [kalloc]
        rw [mappages_page hpage hlt32, hmap]
        exact hloop
      · dsimp only at hlen hlen' ⊢
        rw [List.length_cons]
        omega

theorem pages_le {p : Nat} (hp : p % pgsize = 0) (hle : p ≤ kernbase) (hlt : newsz < kernbase) :
    p + (newsz - p + pgsize - 1) / pgsize * pgsize ≤ kernbase := by
  simp only [pgsize, kernbase] at *
  omega

theorem Building.allocuvm_enough (h : Building l M sz) (newsz : Nat) (hle : sz ≤ newsz) (hlt : newsz < kernbase)
    (hfree : 2 * ((newsz - pgroundup sz + pgsize - 1) / pgsize) ≤ M.space.free.length) :
    ∃ M', M.allocuvm l sz newsz = some (newsz, M') ∧
      M.space.free.length ≤ M'.space.free.length + 2 * ((newsz - pgroundup sz + pgsize - 1) / pgsize) := by
  rw [Machine.allocuvm, if_neg (by omega), if_neg (by omega)]
  refine allocuvmLoop_enough (pgroundup_mod sz) ?_ (fun v hv hv' => ?_) hfree
  · exact pages_le (pgroundup_mod sz) (pgroundup_le h.exact.1) hlt
  · by_contra hne
    obtain ⟨e, he⟩ := Option.ne_none_iff_exists'.mp hne
    exact Nat.not_lt.mpr hv ((h.exact.2 v hv').mp (by rw [he]; rfl))

theorem ForStack.copyout_accessible (h : ForStack d sz) (ram : Ram) (va : Nat) (buf : Bytes)
    (hacc : ∀ i < buf.length, Accessible sz (va + i)) (hva : va + buf.length ≤ wordLimit) :
        ∃ ram', Vm.copyout d ram va buf = .ret 0 ram' := by
  rcases copyout_cases h.sound hva ram with ⟨-, htables⟩ | ⟨-, hcopies⟩
  · refine absurd (fun i hi _ => ?_) htables
    obtain ⟨f, e, he, -⟩ := (h.allows _).mpr (hacc i hi)
    obtain ⟨t, ht, -⟩ := Option.bind_eq_some_iff.mp he
    rw [ht]
    rfl
  · cases hret : Vm.copyout d ram va buf with
    | fault =>
      rw [hret] at hcopies
      exact absurd hcopies id
    | ret value ram' =>
      rw [hret] at hcopies
      rcases hcopies with ⟨rfl, -⟩ | ⟨-, i, hi, hno⟩
      · exact ⟨ram', rfl⟩
      · exact absurd ((h.allows _).mpr (hacc i hi)) hno

theorem pushUstack_ret {a : Stack} {ram' : Ram} {sp : Nat} (hsp : sp = below a.sp ((3 + a.ustack.length + 1) * 4))
    (h : Vm.copyout d a.ram sp (a.words.flatMap wordBytes) = .ret 0 ram') :
    pushUstack d a = some (some ⟨sp, ram', a.ustack⟩) := by
  rw [pushUstack, ← hsp, h]
  rfl

theorem ForStack.buildStack_nil (h : ForStack d sz) (ram : Ram) : ∃ a, Loader.buildStack d ram sz [] = some (some a) := by
  have hlow := h.low
  have hhigh := h.high
  have hsig : sigretimplicitBytes.length = 4 := rfl
  simp only [pgsize, kernbase] at hlow hhigh
  obtain ⟨ram₁, hcopy⟩ := h.copyout_accessible ram (sz - sigretimplicitBytes.length) sigretimplicitBytes
    (fun i hi => by
      simp only [Accessible, pgsize, hsig] at *
      omega) (by simp only [hsig, wordLimit]; omega)
  obtain ⟨a, ha⟩ : ∃ a : Stack, a = ⟨sz - sigretimplicitBytes.length, ram₁, []⟩ := ⟨_, rfl⟩
  have hwords : (a.words.flatMap wordBytes).length = 16 := by
    rw [words_length, ha]
    rfl
  have hbelow : sz - 20 = below a.sp ((3 + a.ustack.length + 1) * 4) := by
    simp only [ha, below, hsig, List.length_nil]
    omega
  obtain ⟨ram₂, hcopy'⟩ := h.copyout_accessible a.ram (sz - 20) (a.words.flatMap wordBytes)
    (fun i hi => by
      rw [hwords] at hi
      simp only [Accessible, pgsize]
      omega) (by rw [hwords]; simp only [wordLimit]; omega)
  have hustack := pushUstack_ret hbelow hcopy'
  rw [Loader.buildStack, hcopy]
  -- The function is not to be unfolded.
  generalize pushUstack = push at hustack ⊢
  subst ha
  exact ⟨_, hustack⟩

theorem loadSegment_tiny (hb : Building l M 0) (hfree : 2 ≤ M.space.free.length) :
    ∃ M', Loader.loadSegment l tiny ⟨1, 84, 0, 4, 8⟩ M 0 = some (some 8, M') ∧ Building l M' 8 ∧
      M.space.free.length ≤ M'.space.free.length + 2 := by
  obtain ⟨M₁, halloc, hlen⟩ := hb.allocuvm_enough 8 (by decide) (by decide) hfree
  obtain ⟨r, M₁', halloc', hgrown⟩ := hb.allocuvm 8
  rw [halloc] at halloc'
  cases halloc'
  obtain ⟨hb₁, -⟩ := hgrown (by decide)
  obtain ⟨b, M', hload, hspace, hfits, -⟩ := hb₁.loaduvm (by decide) (show 0 + 4 ≤ 8 by decide)
    (show tiny.length < wordLimit by decide +kernel) (show 84 < wordLimit by decide)
  obtain rfl := hfits (by decide +kernel)
  refine ⟨M', ?_, hb₁.of_space hspace, ?_⟩
  · unfold Loader.loadSegment
    rw [if_neg (by decide), if_neg (by decide), if_neg (by decide), show (0 + 8) % wordLimit = 8 from rfl, halloc]
    dsimp only
    rw [if_neg (by decide), if_neg (by decide), hload]
    rfl
  · rw [hspace]
    exact hlen

theorem loadImage_tiny (hb : Building l M 0) (hfree : 6 ≤ M.space.free.length) :
    ∃ sz M', Loader.loadImage l tiny M = some (some sz, M') := by
  obtain ⟨M₁, hseg, hb₁, hlen⟩ := loadSegment_tiny hb (Nat.le_trans (by decide) hfree)
  have hheader : (elf tiny).phnum = 1 ∧ (elf tiny).phoff = 52 := by decide +kernel
  have hread : readi tiny 52 sizeofProghdr = some ((tiny.drop 52).take sizeofProghdr) := by decide +kernel
  have hsegs : Loader.loadSegments l tiny 1 52 M 0 = some (some 8, M₁) := by
    rw [Loader.loadSegments, hread]
    dsimp only
    rw [if_neg (by decide +kernel), show Proghdr.ofBytes ((tiny.drop 52).take sizeofProghdr) =
      ⟨1, 84, 0, 4, 8⟩ by decide +kernel,
      hseg]
    rfl
  have hb₁ : Building l M₁ 4096 := hb₁.round (by decide)
  obtain ⟨M₂, halloc, -⟩ := hb₁.allocuvm_enough 12288 (by decide) (by decide)
    (by rw [show (12288 - pgroundup 4096 + pgsize - 1) / pgsize = 2 from rfl]; omega)
  obtain ⟨r, M₂', halloc', hgrown⟩ := hb₁.allocuvm 12288
  rw [halloc] at halloc'
  cases halloc'
  obtain ⟨hb₂, -⟩ := hgrown (by decide)
  obtain ⟨e, he⟩ := hb₂.mapped (a := 4096) (by decide) (by decide)
  obtain ⟨m', hclear, -⟩ := clearpteu_entry (by decide) he
  refine ⟨12288, ⟨m', M₂.ram⟩, ?_⟩
  unfold Loader.loadImage
  rw [hheader.1, hheader.2, hsegs]
  dsimp only
  rw [show pgroundup 8 = 4096 from rfl, show 4096 + 2 * pgsize = 12288 from rfl, halloc]
  dsimp only
  rw [if_neg (by decide), show 12288 - 2 * pgsize = 4096 from rfl, hclear]
  rfl

end

theorem range_valid (f : Nat) (hf : f ∈ List.range' 1000 80) : exampleLayout.Valid f := by
  rw [List.mem_range'_1] at hf
  simp only [KernelLayout.Valid, exampleLayout, pgsize, phystop]
  omega

theorem exec_tiny : ∃ img, exec exampleLayout tiny [] (List.range' 1000 80) (fun _ _ => 7) = some (some img) := by
  obtain ⟨o, free, hkvm, -⟩ := setupkvm_total exampleLayout (List.range' 1000 80)
  cases o with
  | none => exact absurd (setupkvm_none hkvm).2 (by decide)
  | some d =>
    have hb := setupkvm_building (fun _ _ => 7) (by decide) range_valid hkvm
    obtain ⟨-, -, hlen⟩ := setupkvm_some hkvm
    obtain ⟨sz, M, hload⟩ := loadImage_tiny hb (by dsimp only; simp only [List.length_range', kvmPages] at hlen; omega)
    obtain ⟨o, M', hload', hspec⟩ := hb.loadImage (show tiny.length < wordLimit by decide +kernel)
    rw [hload] at hload'
    cases hload'
    obtain ⟨a, hstack⟩ := (hspec sz rfl).1.buildStack_nil M.ram
    have himage : buildImage exampleLayout tiny [] ⟨⟨free, d⟩, fun _ _ => 7⟩ =
        some (some ⟨M.space.dir, sz, (elf tiny).entry, a.sp, a.ram⟩) := by
      rw [buildImage, hload]
      dsimp only
      rw [hstack]
      rfl
    refine ⟨⟨M.space.dir, sz, (elf tiny).entry, a.sp, a.ram⟩, ?_⟩
    rw [exec, if_neg (by decide +kernel), if_neg (by decide +kernel), hkvm]
    exact himage

theorem exec_loads_tiny : ∃ img, exec exampleLayout tiny [] (List.range' 1000 80) (fun _ _ => 7) = some (some img) ∧
    img.Holds tiny ⟨1, 84, 0, 4, 8⟩ := by
  obtain ⟨img, himg⟩ := exec_tiny
  refine ⟨img, himg,
    (exec_loads (by decide) range_valid (by decide +kernel)).2 [] img (fun s hs => by cases hs) himg 0 _ ?_ rfl ?_⟩
  · rw [programHeaders_tiny]
    rfl
  · rw [programHeaders_tiny]
    intro j ph hj hph
    obtain ⟨hlt, -⟩ := List.getElem?_eq_some_iff.mp hph
    simp only [List.length_singleton] at hlt
    omega

end Xv6.Loader

namespace Xv6
open Lib Vm

/-- Every program that `exec` starts finds its stack in order; and in every directory that the loading of a file leaves, the
    page below the stack is not for user code. -/
theorem exec_initialStack {p q : Proc} {env : ExecEnv} {path : List Byte} {args : List (List Byte)}
    (h : p.execFile env path args = some (0, q)) :
    q.InitialStack args ∧ ∀ {l : KernelLayout} {M M' : Machine} {file : Loader.Bytes} {sz : Nat}, Loader.Building l M 0 →
      file.length < wordLimit → Loader.loadImage l file M = some (some sz, M') →
      ∀ x, sz - 2 * pgsize ≤ x → x < sz - pgsize → ¬M'.space.dir.Allows x := by
  refine ⟨execFile_initialStack h, fun {l M M' file sz} hb hfile hload x hlow hhigh hx => ?_⟩
  obtain ⟨o, M₁, hload', hspec⟩ := hb.loadImage hfile
  rw [hload] at hload'
  cases hload'
  exact (((hspec sz rfl).1.allows x).mp hx).2 ⟨hlow, hhigh⟩

/-- Two arguments, of one byte and of five. -/
theorem exec_initialStack_two : ∃ q, Proc.zeroed.execFile smallFile [0x70] [[0x61], [0x62, 0x63, 0x64, 0x65, 0x66]] =
    some (0, q) ∧
    q.InitialStack [[0x61], [0x62, 0x63, 0x64, 0x65, 0x66]] := by
  have hrun : (Proc.zeroed.execFile smallFile [0x70] [[0x61], [0x62, 0x63, 0x64, 0x65, 0x66]]).any (·.1 = 0) = true := by
    decide +kernel
  obtain ⟨⟨v, q⟩, hq, h⟩ := (Option.any_eq_true _ _).mp hrun
  obtain rfl := of_decide_eq_true h
  exact ⟨q, hq, (exec_initialStack hq).1⟩

end Xv6
