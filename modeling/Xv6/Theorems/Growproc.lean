import Xv6.Theorems.Copyout
import Xv6.Theorems.OutOfMemory
import Xv6.Theorems.RamPages

/-! `sbrk`: what `growproc` reports and what it does. The new size is computed on 32 bits, and 0 is the error value of
    `deallocuvm` as well, so shrinking to nothing or below reports something else than what it does. -/

namespace Xv6.Vm
open Lib

/-- The user pages that are mapped are exactly those below `sz`, rounded up. -/
def Pgdir.Exact (d : Pgdir) (sz : Nat) : Prop :=
  sz ≤ kernbase ∧ ∀ v, v * pgsize < kernbase → ((d.entry v).isSome ↔ v * pgsize < pgroundup sz)

def Machine.page (M : Machine) (v : Nat) : Option Page := (M.space.dir.entry v).map fun e => M.ram e.frame

/-- The page with number `v` is mapped as before and holds what it held. -/
def Kept (M M' : Machine) (v : Nat) : Prop := M'.space.dir.entry v = M.space.dir.entry v ∧ M'.page v = M.page v

/-- The call has done what it reports: on 0 the size is the sum and exactly the pages below it are mapped, the old ones
    kept and the new ones cleared; on -1 nothing has changed. -/
structure GrowsExactly (l : KernelLayout) (M : Machine) (sz : Nat) (n : Int) (r : Int × Nat × Machine) : Prop where
  value : r.1 = 0 ∨ r.1 = -1
  grown : r.1 = 0 → (r.2.1 : Int) = sz + n ∧ r.2.2.space.dir.Exact r.2.1 ∧
    (∀ v, v * pgsize < pgroundup sz → v * pgsize < pgroundup r.2.1 → Kept M r.2.2 v) ∧
    ∀ v, pgroundup sz ≤ v * pgsize → v * pgsize < pgroundup r.2.1 → r.2.2.page v = some zeroPage
  failed : r.1 = -1 → r.2.1 = sz ∧ ∀ v, v * pgsize < kernbase → Kept M r.2.2 v
  sane : r.2.2.space.Sane l

section
variable {l : KernelLayout} {M M' : Machine} {sz newsz : Nat} {n : Int} {v lo hi r : Nat} {d : Pgdir}

theorem mul_lt_pgroundup {sz : Nat} : v * pgsize < pgroundup sz ↔ v * pgsize < sz := by
  simp only [pgroundup, pgsize]
  omega

theorem le_pgroundup (sz : Nat) : sz ≤ pgroundup sz := by
  simp only [pgroundup, pgsize]
  omega

theorem Kept.of_ram (hent : M'.space.dir.entry v = M.space.dir.entry v)
    (hram : ∀ e, M.space.dir.entry v = some e → M'.ram e.frame = M.ram e.frame) : Kept M M' v := by
  refine ⟨hent, ?_⟩
  rw [Machine.page, Machine.page, hent]
  cases he : M.space.dir.entry v with
  | none => rfl
  | some e => rw [Option.map_some, Option.map_some, hram e he]

theorem user_of_lt (hv : v * pgsize < kernbase) : v < userPages := by
  rw [lt_userPages]
  simp only [pgsize, kernbase] at hv
  omega

theorem Pgdir.Exact.upTo (h : d.Exact sz) : d.UpTo (pgroundup sz) (pgroundup sz) := fun v _ hv => h.2 v hv

theorem Pgdir.Exact.dense (h : d.Exact sz) (lo : Nat) : d.Dense lo sz := by
  intro v w _ hvw hw _
  have hle := Nat.mul_le_mul_right pgsize hvw
  refine (h.2 v (Nat.lt_of_le_of_lt hle (Nat.lt_of_lt_of_le hw h.1))).mpr ?_
  rw [mul_lt_pgroundup]
  exact Nat.lt_of_le_of_lt hle hw

theorem Grown.kept (h : Grown M M' lo hi) (hsane : M.space.Sane l) (hv : v * pgsize < kernbase)
    (hout : ¬(lo ≤ v * pgsize ∧ v * pgsize < hi)) : Kept M M' v :=
  .of_ram (h.old v hout) fun _ he => h.ram _ fun hmem => hsane.free_apart hmem (user_of_lt hv) he rfl

theorem Grown.exact (h : Grown M M' (pgroundup sz) newsz) (hexact : M.space.dir.Exact sz) (hle : sz ≤ newsz)
    (hsz : newsz < kernbase) : M'.space.dir.Exact newsz := by
  refine ⟨Nat.le_of_lt hsz, fun v hv => ?_⟩
  rw [mul_lt_pgroundup]
  by_cases hrange : pgroundup sz ≤ v * pgsize ∧ v * pgsize < newsz
  · obtain ⟨f, hf, -⟩ := h.new v hrange.1 hrange.2
    rw [hf]
    exact iff_of_true rfl hrange.2
  · rw [h.old v hrange, hexact.2 v hv]
    have := @mul_lt_pgroundup v sz
    omega

theorem Restored.kept (h : Restored M M' (pgroundup sz) (pgroundup sz) hi) (hsane : M.space.Sane l)
    (hexact : M.space.dir.Exact sz) (hv : v * pgsize < kernbase) : Kept M M' v := by
  refine .of_ram ?_ fun e he => h.ram _ (fun hmem => hsane.free_apart hmem (user_of_lt hv) he rfl) fun w e' hw hw' => ?_
  · rw [h.entry v]
    split_ifs with hrange
    · have hnone := (hexact.2 v hv).not.mpr (Nat.not_lt.mpr hrange.1)
      rw [Option.not_isSome_iff_eq_none] at hnone
      exact hnone.symm
    · rfl
  · exact absurd hw (Nat.not_le.mpr hw')

theorem Cleared.kept (h : Cleared M M' lo hi) (hsane : M.space.Sane l) (hhi : hi ≤ kernbase)
    (hv : v * pgsize < kernbase) (hout : ¬(lo ≤ v * pgsize ∧ v * pgsize < hi)) : Kept M M' v := by
  refine .of_ram ?_ fun e he => h.ram _ fun w e' hw hw' he' hf => hout ?_
  · rw [h.entry v, if_neg hout]
  · rw [hsane.inj (user_of_lt hv) (user_of_lt (Nat.lt_of_lt_of_le hw' hhi)) he he' hf.symm]
    exact ⟨hw, hw'⟩

theorem Space.Sane.of_pages {m m' : Space} (h : m.Sane l) (hpages : m'.pages = m.pages) : m'.Sane l :=
  ⟨hpages ▸ h.nodup, hpages ▸ h.valid⟩

theorem allocuvm_sane (hsane : M.space.Sane l) (h : M.allocuvm l sz newsz = some (r, M')) : M'.space.Sane l := by
  have hspace := @Machine.allocuvm_space l M sz newsz
  rw [h] at hspace
  exact hsane.of_pages (allocuvm_pages hspace.symm)

theorem deallocuvm_sane (hsane : M.space.Sane l) (hsz : sz ≤ kernbase) (h : M.deallocuvm l sz newsz = some (r, M')) :
    M'.space.Sane l := by
  have hspace := @Machine.deallocuvm_space l M sz newsz
  rw [h] at hspace
  exact hsane.of_pages (deallocuvm_pages hsz hspace.symm)

theorem growsExactly_failed (hkept : ∀ v, v * pgsize < kernbase → Kept M M' v) (hsane : M'.space.Sane l) :
    GrowsExactly l M sz n (-1, sz, M') where
  value := .inr rfl
  grown := fun h => by cases h
  failed := fun _ => ⟨rfl, hkept⟩
  sane := hsane

theorem growsExactly_grown (hsum : (newsz : Int) = sz + n) (hexact : M'.space.dir.Exact newsz)
    (hkept : ∀ v, v * pgsize < pgroundup sz → v * pgsize < pgroundup newsz → Kept M M' v)
    (hnew : ∀ v, pgroundup sz ≤ v * pgsize → v * pgsize < pgroundup newsz → M'.page v = some zeroPage)
      (hsane : M'.space.Sane l) :
    GrowsExactly l M sz n (0, newsz, M') where
  value := .inl rfl
  grown := fun _ => ⟨hsum, hexact, hkept, hnew⟩
  failed := fun h => by cases h
  sane := hsane

theorem growproc_pos (hsane : M.space.Sane l) (hexact : M.space.dir.Exact sz) (hpos : 0 < n) (hn : n < 2 ^ 31) :
    ∃ r, growproc l M sz n = some r ∧ GrowsExactly l M sz n r := by
  have hsz := hexact.1
  obtain ⟨k, rfl⟩ := Int.eq_ofNat_of_zero_le (Int.le_of_lt hpos)
  have hnewsz : (((sz : Int) + (k : Int)) % 0x100000000).toNat = sz + k := by
    simp only [kernbase] at hsz
    omega
  rw [growproc, if_pos hpos, hnewsz]
  by_cases hbig : sz + k ≥ kernbase
  · rw [Machine.allocuvm, if_pos hbig, Option.map_some]
    dsimp only
    rw [if_pos ⟨rfl, Int.ne_of_gt hpos⟩]
    exact ⟨_, rfl, growsExactly_failed (fun _ _ => ⟨rfl, rfl⟩) hsane⟩
  · have hgrow : sz ≤ sz + k := Nat.le_add_right ..
    obtain ⟨r, M', hM', hcase⟩ := allocuvm_spec hsane hgrow (Nat.lt_of_not_le hbig) hexact.upTo
    have hsane' := allocuvm_sane hsane hM'
    rw [hM', Option.map_some]
    dsimp only
    rcases hcase with ⟨rfl, hg⟩ | ⟨rfl, hres⟩
    · rw [if_neg (by omega)]
      refine ⟨_, rfl, growsExactly_grown (by omega) (hg.exact hexact (Nat.le_add_right ..) (Nat.lt_of_not_le hbig))
        (fun v hv _ => ?_)
        (fun v hv hv' => ?_) hsane'⟩
      · exact hg.kept hsane (Nat.lt_of_lt_of_le (mul_lt_pgroundup.mp hv) hsz) fun h => Nat.not_lt.mpr h.1 hv
      · obtain ⟨f, hf, hzero⟩ := hg.new v hv (mul_lt_pgroundup.mp hv')
        rw [Machine.page, hf, Option.map_some, hzero]
    · rw [if_pos ⟨rfl, Int.ne_of_gt hpos⟩]
      exact ⟨_, rfl, growsExactly_failed (fun v hv => hres.kept hsane hexact hv) hsane'⟩

theorem deallocuvm_exact (hsane : M.space.Sane l) (hexact : M.space.dir.Exact sz) (hlt : newsz < sz) :
    ∃ M', M.deallocuvm l sz newsz = some (newsz, M') ∧ Cleared M M' (pgroundup newsz) sz ∧ M'.space.Sane l ∧
      M'.space.dir.Exact newsz := by
  obtain ⟨M', hM', hcl⟩ := deallocuvm_cleared hlt hexact.1 (hexact.dense _) fun v e hv he =>
    hsane.user_valid (user_of_lt (Nat.lt_of_lt_of_le hv hexact.1)) he
  refine ⟨M', hM', hcl, deallocuvm_sane hsane hexact.1 hM', Nat.le_of_lt (Nat.lt_of_lt_of_le hlt hexact.1), fun v hv => ?_⟩
  rw [hcl.entry v]
  split_ifs with hrange
  · exact iff_of_false (fun h => by cases h) (Nat.not_lt.mpr hrange.1)
  · rw [hexact.2 v hv, mul_lt_pgroundup, mul_lt_pgroundup]
    have := @mul_lt_pgroundup v newsz
    omega

theorem growproc_neg (hsane : M.space.Sane l) (hexact : M.space.dir.Exact sz) (hneg : n < 0) (hleft : 0 < (sz : Int) + n) :
    ∃ r, growproc l M sz n = some r ∧ GrowsExactly l M sz n r := by
  have hsz := hexact.1
  have hnewsz : (((sz : Int) + n) % 0x100000000).toNat = ((sz : Int) + n).toNat := by
    simp only [kernbase] at hsz
    rw [Int.emod_eq_of_lt] <;> omega
  obtain ⟨newsz, hnew⟩ := Int.eq_ofNat_of_zero_le (Int.le_of_lt hleft)
  rw [hnew, Int.toNat_natCast] at hnewsz
  obtain ⟨M', hM', hcl, hsane', hexact'⟩ := deallocuvm_exact hsane hexact (show newsz < sz by omega)
  rw [growproc, if_neg (by omega), if_pos hneg, hnew, hnewsz, hM', Option.map_some]
  dsimp only
  rw [if_neg (by omega)]
  refine ⟨_, rfl, growsExactly_grown hnew.symm hexact' (fun v hv hv' => ?_) (fun v hv hv' => ?_) hsane'⟩
  · exact hcl.kept hsane hsz (Nat.lt_of_lt_of_le (mul_lt_pgroundup.mp hv) hsz) fun h => Nat.not_lt.mpr h.1 hv'
  · rw [mul_lt_pgroundup] at hv'
    have := le_pgroundup sz
    omega

theorem growproc_wrong (hsane : M.space.Sane l) (hexact : M.space.dir.Exact sz) (hn : -2 ^ 31 ≤ n) (hpos : 0 < sz)
    (hgone : (sz : Int) + n ≤ 0) : ∃ r, growproc l M sz n = some r ∧ ¬GrowsExactly l M sz n r := by
  have hsz := hexact.1
  rw [growproc, if_neg (by omega), if_pos (by omega)]
  rcases Int.lt_or_eq_of_le hgone with hneg | hzero
  · -- The new size is past the old one, which stays.
    have hwrap : (((sz : Int) + n) % 0x100000000).toNat ≥ sz := by
      simp only [kernbase] at hsz
      omega
    rw [Machine.deallocuvm, if_pos hwrap, Option.map_some]
    dsimp only
    rw [if_neg (by omega)]
    refine ⟨_, rfl, fun h => ?_⟩
    have := (h.grown rfl).1
    dsimp only at this
    omega
  · -- All pages are gone, and the call reports that nothing has been done.
    rw [hzero]
    obtain ⟨M', hM', hcl, -, -⟩ := deallocuvm_exact hsane hexact hpos
    rw [show ((0 : Int) % 0x100000000).toNat = 0 from rfl, hM', Option.map_some]
    dsimp only
    rw [if_pos ⟨rfl, by omega⟩]
    refine ⟨_, rfl, fun h => ?_⟩
    have hkept := ((h.failed rfl).2 0 (by decide)).1
    have hthere := (hexact.2 0 (by decide)).mpr (Nat.lt_of_lt_of_le (by rwa [Nat.zero_mul]) (le_pgroundup sz))
    dsimp only at hkept
    rw [← hkept, hcl.entry 0, if_pos ⟨Nat.le_of_eq (by decide), by rwa [Nat.zero_mul]⟩] at hthere
    cases hthere

end

/-- `growproc` does exactly what it reports if and only if the process grows or stays as it is, or is empty, or keeps at
    least a byte. -/
theorem growproc_exact_iff {l : KernelLayout} {M : Machine} {sz : Nat} {n : Int} (hsane : M.space.Sane l)
    (hexact : M.space.dir.Exact sz) (hlow : -2 ^ 31 ≤ n) (hhigh : n < 2 ^ 31) :
    (∃ r, growproc l M sz n = some r ∧ GrowsExactly l M sz n r) ↔ 0 ≤ n ∨ sz = 0 ∨ 0 < (sz : Int) + n := by
  constructor
  · rintro ⟨r, hr, hG⟩
    by_contra hcond
    obtain ⟨r', hr', hno⟩ := growproc_wrong (n := n) hsane hexact hlow (by omega) (by omega)
    exact hno (Option.some.inj (hr.symm.trans hr') ▸ hG)
  · intro hcond
    rcases Int.lt_trichotomy n 0 with hneg | rfl | hpos
    · by_cases hleft : 0 < (sz : Int) + n
      · exact growproc_neg hsane hexact hneg hleft
      · obtain rfl : sz = 0 := by omega
        refine ⟨_, ?_, growsExactly_failed (fun _ _ => ⟨rfl, rfl⟩) hsane⟩
        rw [growproc, if_neg (by omega), if_pos hneg, Machine.deallocuvm, if_pos (Nat.zero_le _), Option.map_some]
        dsimp only
        rw [if_pos ⟨rfl, by omega⟩]
    · refine ⟨_, ?_, growsExactly_grown (by omega) hexact (fun _ _ _ => ⟨rfl, rfl⟩) (fun v hv hv' => ?_) hsane⟩
      · rw [growproc, if_neg (by omega), if_neg (by omega), Option.map_some]
        dsimp only
        rw [if_neg (by omega)]
      · exact absurd hv' (Nat.not_lt.mpr hv)
    · exact growproc_pos hsane hexact hpos hhigh

/-! ### A process of one page -/

theorem onePage_pages : onePage.pages = {500} + {501} + {502} := by
  have htables : onePage.tables = {501} := by
    unfold Pgdir.tables
    rw [Finset.sum_eq_single 0 (fun i _ hi => by simp [onePage, hi]) fun h => absurd (Finset.mem_range.mpr (by decide)) h]
    rfl
  have huser : onePage.user = {502} := by
    unfold Pgdir.user
    rw [Finset.sum_eq_single 0 (fun v _ hv => by simp [onePage_entry, hv])
      fun h => absurd (Finset.mem_range.mpr (lt_userPages.mpr (by decide))) h]
    simp [onePage_entry]
  rw [Pgdir.pages, htables, huser]
  rfl

/-- A process of one page, full of sevens, and three free pages. -/
def oneMachine : Machine := ⟨⟨[600, 601, 602], onePage⟩, fun _ _ => 7⟩

theorem oneMachine_sane : oneMachine.space.Sane exampleLayout := by
  have hpages : oneMachine.space.pages = ↑[600, 601, 602, 500, 501, 502] := by
    rw [oneMachine, Space.pages_mk, onePage_pages]
    rfl
  refine ⟨?_, fun f hf => ?_⟩
  · rw [hpages]
    decide
  · rw [hpages, Multiset.mem_coe] at hf
    simp only [List.mem_cons, List.not_mem_nil, or_false] at hf
    rcases hf with rfl | rfl | rfl | rfl | rfl | rfl <;> exact ⟨by decide, by decide⟩

theorem oneMachine_exact : oneMachine.space.dir.Exact 4096 := by
  refine ⟨by decide, fun v _ => ?_⟩
  change (onePage.entry v).isSome ↔ _
  rw [onePage_entry, mul_lt_pgroundup]
  split
  · rename_i hv
    simp [hv]
  · rename_i hv
    simp only [Option.isSome_none, Bool.false_eq_true, false_iff, pgsize]
    omega

/-- `sbrk(-4096)` of a process of one page takes the page and returns -1, and `sbrk(-4097)` returns 0 and does nothing. -/
theorem sbrk_misreports :
    (∃ M', growproc exampleLayout oneMachine 4096 (-4096) = some (-1, 4096, M') ∧ oneMachine.page 0 ≠ none ∧
      M'.page 0 = none ∧
      ¬GrowsExactly exampleLayout oneMachine 4096 (-4096) (-1, 4096, M')) ∧
    growproc exampleLayout oneMachine 4096 (-4097) = some (0, 4096, oneMachine) ∧
      ¬GrowsExactly exampleLayout oneMachine 4096 (-4097) (0, 4096, oneMachine) := by
  have hpage : oneMachine.page 0 ≠ none := by
    rw [Machine.page]
    change (onePage.entry 0).map _ ≠ none
    rw [onePage_entry]
    simp
  constructor
  · obtain ⟨M', hM', hcl, -, -⟩ := deallocuvm_exact oneMachine_sane oneMachine_exact (show 0 < 4096 by decide)
    have hrun : growproc exampleLayout oneMachine 4096 (-4096) = some (-1, 4096, M') := by
      rw [growproc, if_neg (by decide), if_pos (by decide), show (((4096 : Nat) : Int) + -4096) % 0x100000000 = 0 from rfl,
        Int.toNat_zero, hM']
      rfl
    have hgone : M'.page 0 = none := by
      rw [Machine.page, hcl.entry 0]
      rfl
    refine ⟨M', hrun, hpage, hgone, fun h => hpage ?_⟩
    rw [← ((h.failed rfl).2 0 (by decide)).2]
    exact hgone
  · have hrun : growproc exampleLayout oneMachine 4096 (-4097) = some (0, 4096, oneMachine) := by
      rw [growproc, if_neg (by decide), if_pos (by decide), Machine.deallocuvm, if_pos (by decide)]
      rfl
    refine ⟨hrun, fun h => ?_⟩
    have hsum := (h.grown rfl).1
    revert hsum
    decide

/-- The process grows by two pages. -/
theorem growproc_exact_two : ∃ r, growproc exampleLayout oneMachine 4096 8192 = some r ∧
    GrowsExactly exampleLayout oneMachine 4096 8192 r :=
  (growproc_exact_iff oneMachine_sane oneMachine_exact (by decide) (by decide)).mpr (.inl (by decide))

end Xv6.Vm
