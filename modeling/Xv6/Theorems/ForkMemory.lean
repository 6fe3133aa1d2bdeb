import Xv6.Theorems.Growproc
import Xv6.Theorems.KernelMap

/-! The memory of a child. `copyuvm` takes every page of the child from the free list, so that none of them is a page of
    the parent, and copies the pages one by one. -/

namespace Xv6.Vm
open Lib

theorem KernelPart.entry_none {d : Pgdir} {v : Nat} (h : KernelPart d) (hv : v * pgsize < kernbase) : d.entry v = none := by
  by_contra hne
  obtain ⟨e, he⟩ := Option.ne_none_iff_exists'.mp hne
  have hmem : e.frame ∈ d.user := Pgdir.mem_user.mpr ⟨v, user_of_lt hv, e, he, rfl⟩
  rw [h.user] at hmem
  exact Multiset.notMem_zero _ hmem

/-! ### The loop of copyuvm -/

/-- The pages of the parent from `lo` to `hi` have been copied to pages of the free list. -/
structure Copied (parent : Pgdir) (D D' : Machine) (lo hi : Nat) : Prop where
  new : ∀ v, lo ≤ v * pgsize → v * pgsize < hi → ∃ e f, parent.entry v = some e ∧
    D'.space.dir.entry v = some ⟨f, e.flags ||| pteP⟩ ∧ D'.ram f = D.ram e.frame
  old : ∀ v, ¬(lo ≤ v * pgsize ∧ v * pgsize < hi) → D'.space.dir.entry v = D.space.dir.entry v
  ram : ∀ f, f ∉ D.space.free → D'.ram f = D.ram f
  pages : D'.space.pages = D.space.pages

section
variable {parent : Pgdir} {D D' : Machine} {i k : Nat}

theorem copyuvmLoop_succ (hi : i % pgsize = 0) (hlt : i < wordLimit)
    (h : D.copyuvmLoop parent (k + 1) i = some (true, D')) :
    ∃ e mem free m, parent.entry (i / pgsize) = some e ∧ D.space.free = mem :: free ∧
      mappage { D.space with free } i (mem * pgsize) e.flags = some (true, m) ∧
      Machine.copyuvmLoop parent k ⟨m, Function.update D.ram mem (D.ram e.frame)⟩ (i + pgsize) = some (true, D') := by
  rw [Machine.copyuvmLoop] at h
  split at h
  · cases h
  · rename_i t hw
    rw [walkpgdir_look] at hw
    split at h
    · cases h
    · rename_i e he
      have hent := (Pgdir.entry_of_table hw hlt).trans he
      split at h
      · cases h
      · rename_i mem free halloc
        rw [mappages_page hi hlt] at h
        dsimp only at h
        split at h
        · cases h
        · cases h
        · rename_i m hmap
          exact ⟨e, mem, free, m, hent, kalloc_some halloc, hmap, h⟩

theorem Taken.copied {D₁ : Machine} {e : Pte} {mem : Frame} {hi : Nat}
    (h : Taken D i mem (e.flags ||| pteP) (D.ram e.frame) D₁)
    (hpage : i % pgsize = 0) (hlt : i < hi) (he : parent.entry (i / pgsize) = some e)
      (hpages : D₁.space.pages = D.space.pages)
    (hparent : ∀ v o, v * pgsize < hi → parent.entry v = some o → o.frame ≠ mem)
      (hc : Copied parent D₁ D' (i + pgsize) hi) :
    Copied parent D D' i hi := by
  have hpos : 0 < pgsize := by decide
  refine ⟨fun v hv hv' => ?_, fun v hv => ?_, fun f hf => ?_, hc.pages.trans hpages⟩
  · by_cases hvi : v * pgsize = i
    · refine ⟨e, mem, eq_div_of_mul hvi ▸ he, ?_, (hc.ram mem h.gone).trans h.filled⟩
      rw [hc.old v (by omega), eq_div_of_mul hvi]
      exact h.here
    · obtain ⟨o, f, ho, hf, hram⟩ := hc.new v (by simp only [pgsize] at *; omega) hv'
      exact ⟨o, f, ho, hf, hram.trans (h.ram _ (hparent v o hv' ho))⟩
  · rw [hc.old v (by omega)]
    exact h.other v (by omega)
  · rw [hc.ram f fun hf' => hf (h.free f hf')]
    exact h.ram f fun heq => hf (heq ▸ h.taken)

theorem copyuvmLoop_copied (hpage : i % pgsize = 0) (hi : i ≤ kernbase)
    (hkernel : (D.space.dir.entry (kernbase / pgsize)).isSome)
    (hnodup : D.space.pages.Nodup) (hparent : ∀ v e, v * pgsize < kernbase → parent.entry v = some e →
      e.frame ∉ D.space.pages)
    (h : D.copyuvmLoop parent k i = some (true, D')) :
    i + k * pgsize ≤ kernbase ∧ Copied parent D D' i (i + k * pgsize) := by
  induction k generalizing D i with
  | zero =>
    cases h
    rw [Nat.zero_mul, Nat.add_zero]
    exact ⟨hi, fun v hv hv' => absurd hv' (Nat.not_lt.mpr hv), fun _ _ => rfl, fun _ _ => rfl, rfl⟩
  | succ k ih =>
    have hlt32 : i < wordLimit := Nat.lt_of_le_of_lt hi (by decide)
    obtain ⟨e, mem, free, m, he, hfree, hmap, hloop⟩ := copyuvmLoop_succ hpage hlt32 h
    have hfresh := (mappage_true hmap hlt32).fresh
    have hlt : i < kernbase := by
      rcases Nat.lt_or_eq_of_le hi with hlt | rfl
      · exact hlt
      · dsimp only at hfresh
        rw [hfresh] at hkernel
        cases hkernel
    rcases mappage_spec (mem * pgsize) e.flags hlt32 hfresh with ⟨hfalse, -⟩ | ⟨m', htrue, hsuffix, hent, hpages⟩
    · rw [hmap] at hfalse
      cases hfalse
    · obtain rfl : m = m' := by
        rw [hmap] at htrue
        cases htrue
        rfl
      rw [if_pos hlt, Nat.mul_div_cancel _ (by decide), pages_take hfree] at hpages
      rw [Nat.mul_div_cancel _ (by decide)] at hent
      have hmem : mem ∈ D.space.pages := by
        rw [Space.pages, hfree]
        exact Multiset.mem_add.mpr (.inl List.mem_cons_self)
      have hnodup' := hnodup
      rw [Space.pages, Multiset.nodup_add, Multiset.coe_nodup] at hnodup'
      have htaken : Taken D i mem (e.flags ||| pteP) (D.ram e.frame) ⟨m, Function.update D.ram mem (D.ram e.frame)⟩ :=
        .of_mappage hnodup'.1 hfree hpage hsuffix hent
      have hnext : i + pgsize ≤ kernbase := by
        simp only [pgsize, kernbase] at *
        omega
      have hkernel' : (m.dir.entry (kernbase / pgsize)).isSome := by
        rw [htaken.other _ (Nat.ne_of_gt hlt)]
        exact hkernel
      obtain ⟨hle, hc⟩ := ih (D := ⟨m, Function.update D.ram mem (D.ram e.frame)⟩) (i := i + pgsize)
        (by rw [Nat.add_mod_right]; exact hpage) hnext hkernel' (hpages ▸ hnodup)
        (by dsimp only; rw [hpages]; exact hparent) hloop
      have hend : i + pgsize + k * pgsize = i + (k + 1) * pgsize := by
        rw [Nat.succ_mul]
        omega
      rw [hend] at hle hc
      refine ⟨hle, htaken.copied hpage ?_ he hpages (fun v o hv ho heq => ?_) hc⟩
      · rw [Nat.succ_mul]
        exact Nat.lt_add_of_pos_right (Nat.add_pos_right _ (by decide))
      · exact hparent v o (Nat.lt_of_lt_of_le hv hle) ho (heq ▸ hmem)

end

/-! ### copyuvm -/

def Ram.store (ram : Ram) (f : Frame) (x : Nat) (b : Byte) : Ram := Function.update ram f (Function.update (ram f) x b)

/-- The directory `d` is a copy of the first `sz` bytes of the parent, in pages of its own: a store by one of them is
    not seen by the other. -/
structure PrivateCopy (parent : Pgdir) (ram : Ram) (sz : Nat) (d : Pgdir) (ram' : Ram) : Prop where
  same : ∀ v, v * pgsize < sz → ∃ e e', parent.entry v = some e ∧ d.entry v = some e' ∧ e'.flags = e.flags ∧
    ram' e'.frame = ram e.frame
  above : ∀ v, v * pgsize < kernbase → pgroundup sz ≤ v * pgsize → d.entry v = none
  apart : ∀ f ∈ d.pages, f ∉ parent.pages
  once : ∀ v w e e', v * pgsize < kernbase → w * pgsize < kernbase → d.entry v = some e → d.entry w = some e' →
    e.frame = e'.frame → v = w
  kept : ∀ f ∈ parent.pages, ram' f = ram f
  child : ∀ f ∈ d.user, ∀ x b, ∀ g ∈ parent.pages, ram'.store f x b g = ram' g
  parent : ∀ f ∈ parent.user, ∀ x b, ∀ g ∈ d.pages, ram'.store f x b g = ram' g

theorem Pgdir.user_le_pages {d : Pgdir} {f : Frame} (hf : f ∈ d.user) : f ∈ d.pages := by
  rw [Pgdir.pages]
  exact Multiset.mem_add.mpr (.inr hf)

/-- Whenever `copyuvm` succeeds, the child has a private copy of the parent's memory. -/
theorem fork_copies {l : KernelLayout} {parent d : Pgdir} {free free' : List Frame} {ram ram' : Ram} {sz : Nat}
    (hnodup : (Space.pages ⟨free, parent⟩).Nodup) (hflags : ∀ v e, parent.entry v = some e → e.flags ||| pteP = e.flags)
    (h : copyuvmRam l parent free ram sz = some (some d, free', ram')) : PrivateCopy parent ram sz d ram' := by
  unfold copyuvmRam at h
  split at h
  · cases h
  · cases h
  · rename_i d₀ free₀ hkvm
    obtain ⟨hpart, hpages, -⟩ := setupkvm_some hkvm
    rw [Space.pages_mk, Multiset.nodup_add] at hnodup
    obtain ⟨hfree, -, hdisj⟩ := hnodup
    split at h
    · cases h
    · obtain ⟨D, -, heq⟩ := Option.map_eq_some_iff.mp h
      cases heq
    · rename_i D hloop
      cases h
      have hspace : (⟨free₀, d₀⟩ : Space).pages = free := hpages.symm
      have hapart (f : Frame) (hf : f ∈ parent.pages) : f ∉ (free : Multiset Frame) := fun hf' =>
        Multiset.disjoint_left.mp hdisj hf' hf
      obtain ⟨hle, hc⟩ :=
        copyuvmLoop_copied (D := ⟨⟨free₀, d₀⟩, ram⟩) (by decide) (Nat.zero_le _) hpart.first (hspace ▸ hfree)
        (fun v e hv he => by
          rw [hspace]
          exact hapart _ (Pgdir.user_le_pages (Pgdir.mem_user.mpr ⟨v, user_of_lt hv, e, he, rfl⟩))) hloop
      have hend : 0 + (sz + pgsize - 1) / pgsize * pgsize = pgroundup sz := Nat.zero_add _
      rw [hend] at hle hc
      have hDpages : D.space.pages = free := hc.pages.trans hspace
      have hchild (f : Frame) (hf : f ∈ D.space.dir.pages) : f ∉ parent.pages := by
        refine fun hf' => hapart f hf' ?_
        rw [← hDpages]
        exact Multiset.mem_add.mpr (.inr hf)
      have huserNodup : D.space.dir.user.Nodup := by
        rw [← hDpages, Space.pages, Pgdir.pages] at hfree
        exact (Multiset.nodup_add.mp (Multiset.nodup_add.mp hfree).2.1).2.1
      refine ⟨fun v hv => ?_, fun v hv hv' => ?_, hchild, fun v w e e' hv hw he he' hf => ?_, fun f hf => ?_,
        fun f hf x b g hg => ?_,
        fun f hf x b g hg => ?_⟩
      · obtain ⟨e, f, he, hf, hram⟩ := hc.new v (Nat.zero_le _) (mul_lt_pgroundup.mpr hv)
        exact ⟨e, _, he, hf, hflags v e he, hram⟩
      · rw [hc.old v fun h => Nat.not_lt.mpr hv' h.2]
        exact hpart.entry_none hv
      · exact Pgdir.entry_inj huserNodup (user_of_lt hv) (user_of_lt hw) he he' hf
      · refine hc.ram f fun hf' => hapart f hf ?_
        rw [← hspace]
        exact Multiset.mem_add.mpr (.inl hf')
      · refine Function.update_of_ne ?_ ..
        rintro rfl
        exact hchild g (Pgdir.user_le_pages hf) hg
      · refine Function.update_of_ne ?_ ..
        rintro rfl
        exact hchild g hg (Pgdir.user_le_pages hf)

/-! ### A parent of one page -/

theorem copyuvm_onePage (ram : Ram) : ∃ d free' ram',
    copyuvmRam exampleLayout onePage (List.range' 1000 70) ram 4096 = some (some d, free', ram') := by
  obtain ⟨o, free, hkvm, -⟩ := setupkvm_total exampleLayout (List.range' 1000 70)
  cases o with
  | none => exact absurd (setupkvm_none hkvm).2 (by decide)
  | some d =>
    obtain ⟨hpart, -, hlen⟩ := setupkvm_some hkvm
    have hnone : d.entry (0 / pgsize) = none := hpart.entry_none (by decide)
    obtain ⟨mem, mem', rest, rfl⟩ : ∃ mem mem' rest, free = mem :: mem' :: rest := by
      rcases free with _ | ⟨mem, _ | ⟨mem', rest⟩⟩
      · cases hlen
      · cases hlen
      · exact ⟨mem, mem', rest, rfl⟩
    rcases mappage_spec (m := ⟨mem' :: rest, d⟩) (mem * pgsize) (pteP ||| pteW ||| pteU) (by decide) hnone with
      ⟨-, hfree⟩ | ⟨m', hmap, -⟩
    · cases hfree
    · refine ⟨m'.dir, m'.free, Function.update ram mem (ram 502), ?_⟩
      have hloop : Machine.copyuvmLoop onePage ((4096 + pgsize - 1) / pgsize) ⟨⟨mem :: mem' :: rest, d⟩, ram⟩ 0 =
          some (true, ⟨m', Function.update ram mem (ram 502)⟩) := by
        change Machine.copyuvmLoop onePage 1 _ 0 = _
        have hmaps : mappages ⟨mem' :: rest, d⟩ 0 pgsize (mem * pgsize) (pteP ||| pteW ||| pteU) = some (true, m') :=
          (mappages_page (by decide) (by decide)).trans hmap
        simp only [BitVec.ofNat_eq_ofNat, BitVec.reduceOr, Machine.copyuvmLoop, walkpgdir, onePage, pdx, Nat.zero_div,
          Nat.zero_mod,
          ↓reduceIte, ptx, kalloc] at hmaps ⊢
        rw [hmaps]
      rw [copyuvmRam, hkvm]
      dsimp only
      rw [hloop]

theorem fork_copies_onePage : ∃ d free' ram',
    copyuvmRam exampleLayout onePage (List.range' 1000 70) (fun _ _ => 7) 4096 = some (some d, free', ram') ∧
    PrivateCopy onePage (fun _ _ => 7) 4096 d ram' := by
  obtain ⟨d, free', ram', hcopy⟩ := copyuvm_onePage fun _ _ => 7
  refine ⟨d, free', ram', hcopy, fork_copies ?_ (fun v e he => ?_) hcopy⟩
  · rw [Space.pages_mk, onePage_pages]
    decide
  · rw [onePage_entry] at he
    split at he
    · cases he
      decide
    · cases he

end Xv6.Vm
