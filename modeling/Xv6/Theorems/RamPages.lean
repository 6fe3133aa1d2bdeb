import Xv6.Ram
import Xv6.Theorems.VmPages

/-! What `vm.c` does to the contents of user memory. Pages that are mapped keep their contents, because the pages that
    are cleared, copied to and freed come from the free list or are unmapped first. -/

namespace Xv6.Vm
open Lib

/-! ### The same functions without the contents -/

namespace Machine
variable {l : KernelLayout} {M M' : Machine} {oldsz a newsz : Nat}

theorem kfree_some {v : Frame} (h : M.kfree l v = some M') :
    Vm.kfree l M.space.free v = some M'.space.free ∧ M'.space = { M.space with free := v :: M.space.free } ∧
    M'.ram = Function.update M.ram v (freedPage M.space.free) := by
  obtain ⟨free, hfree, rfl⟩ := Option.map_eq_some_iff.mp h
  refine ⟨hfree, ?_, rfl⟩
  rw [kfree_eq hfree]

theorem deallocuvmLoop_space :
    (M.deallocuvmLoop l oldsz a).map Machine.space = Vm.deallocuvmLoop l oldsz M.space a := by
  fun_induction Machine.deallocuvmLoop l oldsz M a with
  | case1 M a ha hw ih =>
    rw [ih]
    conv_rhs => rw [Vm.deallocuvmLoop, if_pos ha, hw]
  | case2 M a ha t hw hp ih =>
    rw [ih]
    conv_rhs => rw [Vm.deallocuvmLoop, if_pos ha, hw]
    simp only [hp]
  | case3 M a ha t hw e he h0 =>
    rw [Vm.deallocuvmLoop, if_pos ha, hw]
    simp only [he, if_pos h0, Option.map_none]
  | case4 M a ha t hw e he h0 hfree =>
    rw [Vm.deallocuvmLoop, if_pos ha, hw]
    have hnone : Vm.kfree l M.space.free e.frame = none := by
      rw [Machine.kfree, Option.map_eq_none_iff] at hfree
      exact hfree
    simp only [he, if_neg h0, hnone, Option.map_none]
  | case5 M a ha t hw e he h0 M₁ hfree ih =>
    obtain ⟨hsome, hspace, -⟩ := kfree_some hfree
    rw [ih]
    conv_rhs => rw [Vm.deallocuvmLoop, if_pos ha, hw]
    simp only [he, if_neg h0, hsome]
    rw [hspace]
  | case6 M a ha => rw [Vm.deallocuvmLoop, if_neg ha, Option.map_some]

theorem deallocuvm_space :
    (M.deallocuvm l oldsz newsz).map (fun r => (r.1, r.2.space)) = Vm.deallocuvm l M.space oldsz newsz := by
  unfold Machine.deallocuvm Vm.deallocuvm
  split
  · rfl
  · rw [← deallocuvmLoop_space, Option.map_map, Option.map_map]
    rfl

theorem allocuvmLoop_space {k : Nat} :
    (M.allocuvmLoop l oldsz newsz k a).map (fun r => (r.1, r.2.space)) = Vm.allocuvmLoop l oldsz newsz k M.space a := by
  induction k generalizing M a with
  | zero => rfl
  | succ k ih =>
    rw [Machine.allocuvmLoop, Vm.allocuvmLoop]
    rcases kalloc M.space.free with ⟨_ | mem, free⟩
    · dsimp only
      rw [← deallocuvm_space, Option.map_map, Option.map_map]
      rfl
    · dsimp only
      rcases mappages { M.space with free } a pgsize (mem * pgsize) (pteW ||| pteU) with _ | ⟨_ | _, m⟩
      · rfl
      · dsimp only
        have hspace := @deallocuvm_space l ⟨m, Function.update M.ram mem zeroPage⟩ newsz oldsz
        rw [← hspace]
        rcases deallocuvm l ⟨m, Function.update M.ram mem zeroPage⟩ newsz oldsz with _ | ⟨r, M₁⟩
        · rfl
        · rw [Option.map_some]
          dsimp only
          rw [Machine.kfree, Option.map_map, Option.map_map]
          rfl
      · exact ih

theorem allocuvm_space :
    (M.allocuvm l oldsz newsz).map (fun r => (r.1, r.2.space)) = Vm.allocuvm l M.space oldsz newsz := by
  unfold Machine.allocuvm Vm.allocuvm
  split_ifs
  · rfl
  · rfl
  · exact allocuvmLoop_space

end Machine

/-! ### Sound spaces -/

def KernelLayout.Valid (l : KernelLayout) (v : Nat) : Prop := l.kernelEnd ≤ v * pgsize ∧ v * pgsize < phystop

/-- The pages of the free list and of the directory are valid, and no page is there twice. -/
structure Space.Sane (l : KernelLayout) (m : Space) : Prop where
  nodup : m.pages.Nodup
  valid : ∀ f ∈ m.pages, l.Valid f

theorem Pgdir.mem_user {d : Pgdir} {f : Frame} : f ∈ d.user ↔ ∃ v < userPages, ∃ e, d.entry v = some e ∧ e.frame = f := by
  unfold user
  rw [Multiset.mem_sum]
  refine exists_congr fun v => ?_
  rw [Finset.mem_range]
  refine and_congr_right fun _ => ?_
  cases d.entry v <;> simp [eq_comm]

theorem Pgdir.entry_inj {d : Pgdir} {v w : Nat} {e e' : Pte} (hnodup : d.user.Nodup) (hv : v < userPages)
    (hw : w < userPages)
    (he : d.entry v = some e) (he' : d.entry w = some e') (hf : e.frame = e'.frame) : v = w := by
  by_contra hne
  unfold Pgdir.user at hnodup
  rw [← Finset.add_sum_erase _ _ (Finset.mem_range.mpr hv)] at hnodup
  have hhere : e.frame ∈ held ((d.entry v).map Pte.frame) := by simp [he]
  have hthere : e.frame ∈ ∑ x ∈ (Finset.range userPages).erase v, held ((d.entry x).map Pte.frame) := by
    rw [Multiset.mem_sum]
    exact ⟨w, Finset.mem_erase.mpr ⟨Ne.symm hne, Finset.mem_range.mpr hw⟩, by simp [he', hf]⟩
  exact Multiset.disjoint_left.mp (Multiset.nodup_add.mp hnodup).2.2 hhere hthere

namespace Space.Sane
variable {l : KernelLayout} {m : Space} {v w : Nat} {e : Pte} {f : Frame}

theorem user (h : m.Sane l) : m.dir.user.Nodup := by
  have hnodup := h.nodup
  rw [Space.pages, Pgdir.pages] at hnodup
  exact (Multiset.nodup_add.mp (Multiset.nodup_add.mp hnodup).2.1).2.1

theorem free_nodup (h : m.Sane l) : m.free.Nodup := by
  have hnodup := h.nodup
  rw [Space.pages] at hnodup
  exact Multiset.coe_nodup.mp (Multiset.nodup_add.mp hnodup).1

theorem mem_pages (hv : v < userPages) (he : m.dir.entry v = some e) : e.frame ∈ m.pages := by
  rw [Space.pages, Pgdir.pages]
  exact Multiset.mem_add.mpr (.inr (Multiset.mem_add.mpr (.inr (Pgdir.mem_user.mpr ⟨v, hv, e, he, rfl⟩))))

theorem user_valid (h : m.Sane l) (hv : v < userPages) (he : m.dir.entry v = some e) : l.Valid e.frame :=
  h.valid _ (mem_pages hv he)

theorem free_valid (h : m.Sane l) (hf : f ∈ m.free) : l.Valid f := by
  refine h.valid f ?_
  rw [Space.pages]
  exact Multiset.mem_add.mpr (.inl hf)

theorem free_apart (h : m.Sane l) (hf : f ∈ m.free) (hv : v < userPages) (he : m.dir.entry v = some e) : e.frame ≠ f := by
  rintro rfl
  have hnodup := h.nodup
  rw [Space.pages] at hnodup
  refine Multiset.disjoint_left.mp (Multiset.nodup_add.mp hnodup).2.2 (Multiset.mem_coe.mpr hf) ?_
  rw [Pgdir.pages]
  exact Multiset.mem_add.mpr (.inr (Pgdir.mem_user.mpr ⟨v, hv, e, he, rfl⟩))

theorem inj {e' : Pte} (h : m.Sane l) (hv : v < userPages) (hw : w < userPages) (he : m.dir.entry v = some e)
    (he' : m.dir.entry w = some e') (hf : e.frame = e'.frame) : v = w :=
  Pgdir.entry_inj h.user hv hw he he' hf

end Space.Sane

/-! ### deallocuvm -/

section
variable {l : KernelLayout} {M M' : Machine} {oldsz newsz a : Nat} {v : Frame} {d : Pgdir} {lo hi : Nat} {m : Space}

theorem kfree_valid {free : List Frame} (hv : l.Valid v) : kfree l free v = some (v :: free) :=
  if_neg (not_or.mpr ⟨Nat.not_lt.mpr hv.1, Nat.not_le.mpr hv.2⟩)

theorem KernelLayout.Valid.ne_zero (hv : l.Valid v) : v ≠ 0 := by
  rintro rfl
  have h₁ := l.ordered
  have h₂ := hv.1
  rw [Nat.zero_mul] at h₂
  omega

/-- The pages from `lo` to `hi` have been unmapped and freed. -/
structure Cleared (M M' : Machine) (lo hi : Nat) : Prop where
  entry : ∀ v, M'.space.dir.entry v = if lo ≤ v * pgsize ∧ v * pgsize < hi then none else M.space.dir.entry v
  ram : ∀ f, (∀ v e, lo ≤ v * pgsize → v * pgsize < hi → M.space.dir.entry v = some e → e.frame ≠ f) → M'.ram f = M.ram f

/-- No page is mapped above one that is not. -/
def Pgdir.Dense (d : Pgdir) (lo hi : Nat) : Prop :=
  ∀ v w, lo ≤ v * pgsize → v ≤ w → w * pgsize < hi → (d.entry w).isSome → (d.entry v).isSome

theorem Pgdir.Dense.none (h : d.Dense lo hi) (hlo : lo % pgsize = 0) (hnone : d.entry (lo / pgsize) = none)
    {v : Nat} (hv : lo ≤ v * pgsize) (hv' : v * pgsize < hi) : d.entry v = none := by
  by_contra hne
  have hstart : lo / pgsize * pgsize = lo := Nat.div_mul_cancel (Nat.dvd_of_mod_eq_zero hlo)
  have hle : lo / pgsize ≤ v := by
    simp only [pgsize] at hv ⊢
    omega
  have hsome := h (lo / pgsize) v (Nat.le_of_eq hstart.symm) hle hv' (Option.isSome_iff_ne_none.mpr hne)
  rw [hnone] at hsome
  cases hsome

theorem Cleared.of_none (h : Cleared M M' a hi) (hlo : lo ≤ a)
    (hnone : ∀ v, lo ≤ v * pgsize → v * pgsize < hi → M.space.dir.entry v = none) : Cleared M M' lo hi where
  entry := fun v => by
    rw [h.entry v]
    split_ifs with h₁ h₂ h₃
    · rfl
    · exact absurd ⟨Nat.le_trans hlo h₁.1, h₁.2⟩ h₂
    · exact hnone v h₃.1 h₃.2
    · rfl
  ram := fun f hf => h.ram f fun v e hv => hf v e (Nat.le_trans hlo hv)

/-- The page `v`, mapped by `e`, has been unmapped and freed. -/
structure Freed (M : Machine) (v : Nat) (e : Pte) (M₁ : Machine) : Prop where
  mapped : M.space.dir.entry v = some e
  entry : M₁.space.dir.entry = Function.update M.space.dir.entry v none
  ram : ∀ f, f ≠ e.frame → M₁.ram f = M.ram f

namespace Freed
variable {M₁ : Machine} {v w : Nat} {e o : Pte} {hi : Nat}

theorem other (h : Freed M v e M₁) (hne : w ≠ v) : M₁.space.dir.entry w = M.space.dir.entry w := by
  rw [h.entry, Function.update_of_ne hne]

theorem kept (h : Freed M v e M₁) (hw : M₁.space.dir.entry w = some o) : M.space.dir.entry w = some o := by
  by_cases hwv : w = v
  · rw [h.entry, hwv, Function.update_self] at hw
    cases hw
  · rwa [h.other hwv] at hw

theorem dense (h : Freed M (a / pgsize) e M₁) (hdense : M.space.dir.Dense a hi) : M₁.space.dir.Dense (a + pgsize) hi := by
  have hother {v : Nat} (hv : a + pgsize ≤ v * pgsize) : M₁.space.dir.entry v = M.space.dir.entry v := by
    refine h.other ?_
    rintro rfl
    simp only [pgsize] at hv
    omega
  intro v w hv hvw hw hs
  rw [hother (Nat.le_trans hv (Nat.mul_le_mul_right _ hvw))] at hs
  rw [hother hv]
  exact hdense v w (by omega) hvw hw hs

theorem cleared (h : Freed M (a / pgsize) e M₁) (hpage : a % pgsize = 0) (hlt : a < hi)
    (hcl : Cleared M₁ M' (a + pgsize) hi) :
    Cleared M M' a hi := by
  have hstart : a / pgsize * pgsize = a := Nat.div_mul_cancel (Nat.dvd_of_mod_eq_zero hpage)
  refine ⟨fun v => ?_, fun f hf => ?_⟩
  · rw [hcl.entry v]
    by_cases hva : v = a / pgsize
    · rw [if_pos (c := a ≤ _ ∧ _) (by rw [hva]; omega), h.entry, hva, Function.update_self, ite_self]
    · rw [h.other hva]
      refine if_congr ?_ rfl rfl
      simp only [pgsize] at *
      omega
  · rw [hcl.ram f fun v o hv hv' ho => hf v o (by omega) hv' (h.kept ho)]
    exact h.ram f (hf (a / pgsize) e (by omega) (by omega) h.mapped).symm

end Freed

theorem deallocuvmLoop_cleared (hsz : oldsz ≤ kernbase) (hpage : a % pgsize = 0) (hdense : M.space.dir.Dense a oldsz)
    (hvalid : ∀ v e, v * pgsize < oldsz → M.space.dir.entry v = some e → l.Valid e.frame) :
    ∃ M', M.deallocuvmLoop l oldsz a = some M' ∧ Cleared M M' a oldsz := by
  have mapped {M : Machine} {a : Nat} {t : Pgtab} {e : Pte} (ha : a < oldsz) (hpage : a % pgsize = 0)
      (hvalid : ∀ v e, v * pgsize < oldsz → M.space.dir.entry v = some e → l.Valid e.frame)
      (hw : M.space.dir.pde (pdx a) = some t) (he : t.pte (ptx a) = some e) :
      M.space.dir.entry (a / pgsize) = some e ∧ l.Valid e.frame := by
    have hent := (Pgdir.entry_of_table hw (Nat.lt_trans (Nat.lt_of_lt_of_le ha hsz) (by decide))).trans he
    refine ⟨hent, hvalid _ e ?_ hent⟩
    rw [Nat.div_mul_cancel (Nat.dvd_of_mod_eq_zero hpage)]
    exact ha
  fun_induction Machine.deallocuvmLoop l oldsz M a with
  | case1 M a ha hw ih =>
    rw [walkpgdir_look] at hw
    have hlt : a < wordLimit := Nat.lt_trans (Nat.lt_of_lt_of_le ha hsz) (by decide)
    have hnone : M.space.dir.entry (a / pgsize) = none := by
      rw [Pgdir.entry, ← pdx_eq hlt, hw]
      rfl
    obtain ⟨M', hM', hcl⟩ := ih (by simp only [nptentries, pgsize] at *; omega)
      (fun v w hv => hdense v w (by simp only [nptentries, pgsize] at *; omega)) hvalid
    exact ⟨M', hM', hcl.of_none (by omega) fun v => hdense.none hpage hnone⟩
  | case2 M a ha t hw hp ih =>
    rw [walkpgdir_look] at hw
    have hlt : a < wordLimit := Nat.lt_trans (Nat.lt_of_lt_of_le ha hsz) (by decide)
    have hnone : M.space.dir.entry (a / pgsize) = none := (Pgdir.entry_of_table hw hlt).trans hp
    obtain ⟨M', hM', hcl⟩ := ih (by simp only [pgsize] at *; omega) (fun v w hv => hdense v w (by omega)) hvalid
    exact ⟨M', hM', hcl.of_none (by omega) fun v => hdense.none hpage hnone⟩
  | case3 M a ha t hw e he h0 =>
    rw [walkpgdir_look] at hw
    exact absurd h0 (mapped ha hpage hvalid hw he).2.ne_zero
  | case4 M a ha t hw e he h0 hfree =>
    rw [walkpgdir_look] at hw
    rw [Machine.kfree, kfree_valid (mapped ha hpage hvalid hw he).2] at hfree
    cases hfree
  | case5 M a ha t hw e he h0 M₁ hfree ih =>
    rw [walkpgdir_look] at hw
    have hent := (mapped ha hpage hvalid hw he).1
    obtain ⟨-, hspace, hram⟩ := Machine.kfree_some hfree
    have hfreed : Freed M (a / pgsize) e { M₁ with space.dir := M₁.space.dir.setPte a t none } := by
      refine ⟨hent, ?_, fun f hf => ?_⟩
      · dsimp only
        rw [hspace]
        exact Pgdir.entry_setPte hw (Nat.lt_trans (Nat.lt_of_lt_of_le ha hsz) (by decide))
      · dsimp only
        rw [hram, Function.update_of_ne hf]
    obtain ⟨M', hM', hcl⟩ := ih (by simp only [pgsize] at *; omega) (hfreed.dense hdense)
      fun v o hv ho => hvalid v o hv (hfreed.kept ho)
    exact ⟨M', hM', hfreed.cleared hpage ha hcl⟩
  | case6 M a ha =>
    refine ⟨M, rfl, fun v => (if_neg (by omega)).symm, fun _ _ => rfl⟩

theorem pgroundup_mod (sz : Nat) : pgroundup sz % pgsize = 0 := Nat.mul_mod_left ..

theorem deallocuvm_cleared (hlt : newsz < oldsz) (hsz : oldsz ≤ kernbase)
    (hdense : M.space.dir.Dense (pgroundup newsz) oldsz)
    (hvalid : ∀ v e, v * pgsize < oldsz → M.space.dir.entry v = some e → l.Valid e.frame) :
    ∃ M', M.deallocuvm l oldsz newsz = some (newsz, M') ∧ Cleared M M' (pgroundup newsz) oldsz := by
  obtain ⟨M', hM', hcl⟩ := deallocuvmLoop_cleared hsz (pgroundup_mod newsz) hdense hvalid
  refine ⟨M', ?_, hcl⟩
  rw [Machine.deallocuvm, if_neg (by omega), hM', Option.map_some]

/-! ### allocuvm -/

theorem mappage_spec (pa : Nat) (perm : BitVec 12) (ha : a < wordLimit) (hnone : m.dir.entry (a / pgsize) = none) :
    (mappage m a pa perm = some (false, m) ∧ m.free = []) ∨
    ∃ m', mappage m a pa perm = some (true, m') ∧ m'.free <:+ m.free ∧
      m'.dir.entry = Function.update m.dir.entry (a / pgsize) (some ⟨pa / pgsize, perm ||| pteP⟩) ∧
      m'.pages = m.pages + if a < kernbase then {pa / pgsize} else 0 := by
  have key {m' : Space} (h : mappage m a pa perm = some (true, m')) := (mappage_true h ha).pages
  unfold mappage at key ⊢
  rcases walkpgdir_cases m a with ⟨t, ht, hw⟩ | ⟨-, hf, hw⟩ | ⟨v, free, hp, hf, hw⟩
  · have hpte : t.pte (ptx a) = none := (Pgdir.entry_of_table ht ha).symm.trans hnone
    rw [hw] at key ⊢
    simp only [hpte] at key ⊢
    exact .inr ⟨_, rfl, List.suffix_rfl, Pgdir.entry_setPte ht ha, key rfl⟩
  · rw [hw]
    exact .inl ⟨rfl, hf⟩
  · rw [hw] at key ⊢
    refine .inr ⟨_, rfl, ?_, ?_, key rfl⟩
    · rw [hf]
      exact List.suffix_cons v free
    · have hnew : (m.dir.setPde (pdx a) ⟨v, fun _ => none⟩).pde (pdx a) = some ⟨v, fun _ => none⟩ := Function.update_self ..
      dsimp only
      rw [Pgdir.entry_setPte hnew ha, Pgdir.entry_setPde hp v]

/-- The pages from `lo` to `hi` have been mapped to pages of the free list, which have been cleared. -/
structure Grown (M M' : Machine) (lo hi : Nat) : Prop where
  new : ∀ v, lo ≤ v * pgsize → v * pgsize < hi →
    ∃ f, M'.space.dir.entry v = some ⟨f, pteW ||| pteU ||| pteP⟩ ∧ M'.ram f = zeroPage
  old : ∀ v, ¬(lo ≤ v * pgsize ∧ v * pgsize < hi) → M'.space.dir.entry v = M.space.dir.entry v
  ram : ∀ f, f ∉ M.space.free → M'.ram f = M.ram f

/-- The pages from `lo` to `hi` are not mapped, and the others are as they were. -/
structure Restored (M M' : Machine) (lo a hi : Nat) : Prop where
  entry : ∀ v, M'.space.dir.entry v = if lo ≤ v * pgsize ∧ v * pgsize < hi then none else M.space.dir.entry v
  ram : ∀ f, f ∉ M.space.free → (∀ v e, lo ≤ v * pgsize → v * pgsize < a → M.space.dir.entry v = some e → e.frame ≠ f) →
    M'.ram f = M.ram f

/-- From `lo` on, the pages below `a` are mapped. -/
def Pgdir.UpTo (d : Pgdir) (lo a : Nat) : Prop :=
  ∀ v, lo ≤ v * pgsize → v * pgsize < kernbase → ((d.entry v).isSome ↔ v * pgsize < a)

theorem Pgdir.UpTo.dense (h : d.UpTo lo a) (hhi : hi ≤ kernbase) : d.Dense lo hi := by
  intro v w hv hvw hw hsome
  have hle := Nat.mul_le_mul_right pgsize hvw
  have hw' := Nat.lt_of_lt_of_le hw hhi
  have hlt := (h w (Nat.le_trans hv hle) hw').mp hsome
  exact (h v hv (Nat.lt_of_le_of_lt hle hw')).mpr (Nat.lt_of_le_of_lt hle hlt)

/-- Where a failure leaves the pages from `oldsz` on: those that were mapped before it are unmapped again. -/
theorem deallocuvm_undo (hsane : M.space.Sane l) (hnew : oldsz < newsz) (hsz : newsz < kernbase)
    (hupto : M.space.dir.UpTo (pgroundup oldsz) a) (hent : m.dir.entry = M.space.dir.entry) (ram : Ram) :
    ∃ M', Machine.deallocuvm l ⟨m, ram⟩ newsz oldsz = some (oldsz, M') ∧
      (∀ v, M'.space.dir.entry v =
        if pgroundup oldsz ≤ v * pgsize ∧ v * pgsize < newsz then none else M.space.dir.entry v) ∧
      ∀ f, (∀ v e, pgroundup oldsz ≤ v * pgsize → v * pgsize < a → M.space.dir.entry v = some e → e.frame ≠ f) →
        M'.ram f = ram f := by
  have hdense := hupto.dense (Nat.le_of_lt hsz)
  rw [Pgdir.Dense, ← hent] at hdense
  obtain ⟨M', hM', hcl⟩ := deallocuvm_cleared (M := ⟨m, ram⟩) hnew (Nat.le_of_lt hsz) hdense fun v e hv he => by
    rw [hent] at he
    refine hsane.user_valid ?_ he
    rw [lt_userPages]
    simp only [pgsize, kernbase] at hv hsz
    omega
  refine ⟨M', hM', fun v => (hcl.entry v).trans (by rw [hent]), fun f hf => hcl.ram f fun v e hv hv' he => ?_⟩
  rw [hent] at he
  exact hf v e hv ((hupto v hv (Nat.lt_trans hv' hsz)).mp (by rw [he]; rfl)) he

/-- The page at `a` has been mapped to the page `mem` of the free list, which has been filled with `page`. -/
structure Taken (M : Machine) (a : Nat) (mem : Frame) (flags : BitVec 12) (page : Page) (M₁ : Machine) : Prop where
  here : M₁.space.dir.entry (a / pgsize) = some ⟨mem, flags⟩
  other : ∀ v, v * pgsize ≠ a → M₁.space.dir.entry v = M.space.dir.entry v
  filled : M₁.ram mem = page
  ram : ∀ f, f ≠ mem → M₁.ram f = M.ram f
  free : ∀ f ∈ M₁.space.free, f ∈ M.space.free
  taken : mem ∈ M.space.free
  gone : mem ∉ M₁.space.free

theorem eq_div_of_mul {v : Nat} (h : v * pgsize = a) : v = a / pgsize := by
  simp only [pgsize] at h ⊢
  omega

namespace Taken
variable {M₁ : Machine} {mem : Frame} {flags : BitVec 12} {page : Page} {lo hi : Nat}

theorem of_mappage {m' : Space} {free : List Frame} (hnodup : M.space.free.Nodup) (hM : M.space.free = mem :: free)
    (hpage : a % pgsize = 0) (hsuffix : m'.free <:+ free)
    (hent : m'.dir.entry = Function.update M.space.dir.entry (a / pgsize) (some ⟨mem, flags⟩)) :
    Taken M a mem flags page ⟨m', Function.update M.ram mem page⟩ := by
  rw [hM, List.nodup_cons] at hnodup
  refine ⟨by rw [hent, Function.update_self], fun v hv => ?_, Function.update_self ..,
    fun f hf => Function.update_of_ne hf ..,
    fun f hf => ?_, ?_, fun h => hnodup.1 (hsuffix.subset h)⟩
  · rw [hent, Function.update_of_ne]
    rintro rfl
    exact hv (Nat.div_mul_cancel (Nat.dvd_of_mod_eq_zero hpage))
  · rw [hM]
    exact List.mem_cons_of_mem _ (hsuffix.subset hf)
  · rw [hM]
    exact List.mem_cons_self

theorem upTo (h : Taken M a mem flags page M₁) (hpage : a % pgsize = 0) (hupto : M.space.dir.UpTo lo a) :
    M₁.space.dir.UpTo lo (a + pgsize) := by
  intro v hv hv'
  by_cases hva : v * pgsize = a
  · have hhere := h.here
    rw [← eq_div_of_mul hva] at hhere
    rw [hhere, hva]
    exact iff_of_true rfl (Nat.lt_add_of_pos_right (by decide))
  · rw [h.other v hva, hupto v hv hv']
    simp only [pgsize] at hva hpage ⊢
    omega

theorem grown (h : Taken M a mem (pteW ||| pteU ||| pteP) zeroPage M₁) (hpage : a % pgsize = 0) (hlt : a < hi)
    (hg : Grown M₁ M' (a + pgsize) hi) :
    Grown M M' a hi := by
  refine ⟨fun v hv hv' => ?_, fun v hv => ?_, fun f hf => ?_⟩
  · by_cases hva : v * pgsize = a
    · -- The new page is not in the free list any more, so it stays as it is.
      have hlow : ¬a + pgsize ≤ v * pgsize := by
        rw [hva]
        exact Nat.not_le.mpr (Nat.lt_add_of_pos_right (by decide))
      refine ⟨mem, ?_, (hg.ram mem h.gone).trans h.filled⟩
      rw [hg.old v fun hc => hlow hc.1, eq_div_of_mul hva]
      exact h.here
    · refine hg.new v ?_ hv'
      simp only [pgsize] at hva hv hpage ⊢
      omega
  · rw [hg.old v (by omega)]
    exact h.other v (by omega)
  · rw [hg.ram f fun hf' => hf (h.free f hf')]
    exact h.ram f fun heq => hf (heq ▸ h.taken)

theorem restored (h : Taken M a mem flags page M₁) (hpage : a % pgsize = 0) (hlo : lo ≤ a) (hlt : a < hi)
    (hres : Restored M₁ M' lo (a + pgsize) hi) : Restored M M' lo a hi := by
  refine ⟨fun v => ?_, fun f hf hf' => ?_⟩
  · rw [hres.entry v]
    split_ifs with hrange
    · rfl
    · exact h.other v (by omega)
  · have hne : f ≠ mem := fun heq => hf (heq ▸ h.taken)
    rw [hres.ram f (fun hf' => hf (h.free f hf')) fun v e hv hv' he => ?_]
    · exact h.ram f hne
    · by_cases hva : v * pgsize = a
      · rw [eq_div_of_mul hva, h.here] at he
        obtain rfl := Option.some.inj he
        exact hne.symm
      · rw [h.other v hva] at he
        refine hf' v e hv ?_ he
        simp only [pgsize] at hva hv' hpage ⊢
        omega

end Taken

theorem allocuvmLoop_spec {k : Nat} (hsane : M.space.Sane l) (hsz : newsz < kernbase) (hpage : a % pgsize = 0)
    (hold : pgroundup oldsz ≤ a) (hupto : M.space.dir.UpTo (pgroundup oldsz) a) (hend : newsz ≤ a + k * pgsize)
    (hk : k ≠ 0 → a + k * pgsize < newsz + pgsize) :
    ∃ r M', M.allocuvmLoop l oldsz newsz k a = some (r, M') ∧
      ((r = newsz ∧ Grown M M' a newsz) ∨ (r = 0 ∧ Restored M M' (pgroundup oldsz) a newsz)) := by
  induction k generalizing M a with
  | zero =>
    refine ⟨newsz, M, rfl, .inl ⟨rfl, fun v hv hv' => ?_, fun _ _ => rfl, fun _ _ => rfl⟩⟩
    omega
  | succ k ih =>
    have hk := hk (by simp)
    have hlt : a < newsz := by
      simp only [pgsize, Nat.succ_mul] at hk
      omega
    have hlt32 : a < wordLimit := Nat.lt_trans (Nat.lt_trans hlt hsz) (by decide)
    have hstart : a / pgsize * pgsize = a := Nat.div_mul_cancel (Nat.dvd_of_mod_eq_zero hpage)
    have hnew : oldsz < newsz := by
      simp only [pgroundup, pgsize] at hold
      omega
    have hfree : M.space.dir.entry (a / pgsize) = none := by
      have hiff := hupto (a / pgsize) (by rw [hstart]; exact hold) (by rw [hstart]; exact Nat.lt_trans hlt hsz)
      rw [hstart] at hiff
      exact Option.not_isSome_iff_eq_none.mp fun h => Nat.lt_irrefl a (hiff.mp h)
    rw [Machine.allocuvmLoop]
    cases hM : M.space.free with
    | nil =>
      obtain ⟨M', hM', hentry, hram⟩ := deallocuvm_undo hsane hnew hsz hupto rfl M.ram
      refine ⟨0, M', ?_, .inr ⟨rfl, hentry, fun f _ => hram f⟩⟩
      simp only [kalloc]
      rw [hM', Option.map_some]
    | cons mem free =>
      have hmem : mem ∈ M.space.free := by rw [hM]; exact List.mem_cons_self
      simp only [kalloc]
      rw [mappages_page hpage hlt32]
      rcases mappage_spec (m := { M.space with free }) (mem * pgsize) (pteW ||| pteU) hlt32 hfree with
        ⟨hmap, -⟩ | ⟨m', hmap, hsuffix, hent, hpages⟩
      · obtain ⟨M', hM', hentry, hram⟩ := deallocuvm_undo (m := { M.space with free }) hsane hnew hsz hupto rfl
          (Function.update M.ram mem zeroPage)
        rw [hmap]
        dsimp only
        rw [hM']
        dsimp only
        rw [Machine.kfree, kfree_valid (hsane.free_valid hmem)]
        refine ⟨0, _, rfl, .inr ⟨rfl, hentry, fun f hf hf' => ?_⟩⟩
        have hne : f ≠ mem := fun h => hf (h ▸ hmem)
        dsimp only
        rw [Function.update_of_ne hne, hram f hf']
        exact Function.update_of_ne hne ..
      · rw [Nat.mul_div_cancel _ (by decide)] at hent
        have hsane' : m'.Sane l := by
          rw [if_pos (Nat.lt_trans hlt hsz), Nat.mul_div_cancel _ (by decide), pages_take hM] at hpages
          exact ⟨hpages ▸ hsane.nodup, hpages ▸ hsane.valid⟩
        have htaken : Taken M a mem (pteW ||| pteU ||| pteP) zeroPage ⟨m', Function.update M.ram mem zeroPage⟩ :=
          .of_mappage hsane.free_nodup hM hpage hsuffix hent
        obtain ⟨r, M', hM', hcase⟩ := ih (a := a + pgsize) (by exact hsane') (by rw [Nat.add_mod_right]; exact hpage)
          (Nat.le_trans hold (Nat.le_add_right ..)) (htaken.upTo hpage hupto) (by rw [Nat.succ_mul] at hend; omega)
          (fun _ => by rw [Nat.succ_mul] at hk; omega)
        rw [hmap]
        exact ⟨r, M', hM', hcase.imp (fun h => ⟨h.1, htaken.grown hpage hlt h.2⟩) fun h =>
          ⟨h.1, htaken.restored hpage hold hlt h.2⟩⟩

theorem allocuvm_spec (hsane : M.space.Sane l) (hle : oldsz ≤ newsz) (hsz : newsz < kernbase)
    (hupto : M.space.dir.UpTo (pgroundup oldsz) (pgroundup oldsz)) :
    ∃ r M', M.allocuvm l oldsz newsz = some (r, M') ∧
      ((r = newsz ∧ Grown M M' (pgroundup oldsz) newsz) ∨
          (r = 0 ∧ Restored M M' (pgroundup oldsz) (pgroundup oldsz) newsz)) := by
  rw [Machine.allocuvm, if_neg (by omega), if_neg (by omega)]
  refine allocuvmLoop_spec hsane hsz (pgroundup_mod oldsz) (Nat.le_refl _) hupto ?_ fun hk => ?_
  · simp only [pgsize]
    omega
  · simp only [pgsize] at hk ⊢
    omega

end

end Xv6.Vm
