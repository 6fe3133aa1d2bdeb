import Xv6.Lib.Sums
import Xv6.Vm

/-! No page is lost or doubled by `vm.c`: the free list and the pages of the directory under work hold the same pages
    before and after. -/

namespace Xv6.Vm
open Lib

/-! ### The pages of a directory -/

def Pgdir.entry (d : Pgdir) (v : Nat) : Option Pte := (d.pde (v / nptentries)).bind fun t => t.pte (v % nptentries)

@[irreducible] def userPages : Nat := kernbase / pgsize

theorem lt_userPages {v : Nat} : v < userPages ↔ v < 0x80000 := by
  unfold userPages
  exact Iff.rfl

@[irreducible] def Pgdir.tables (d : Pgdir) : Multiset Frame :=
    ∑ i ∈ Finset.range npdentries, held ((d.pde i).map Pgtab.frame)

@[irreducible] def Pgdir.user (d : Pgdir) : Multiset Frame := ∑ v ∈ Finset.range userPages, held ((d.entry v).map Pte.frame)

def Pgdir.pages (d : Pgdir) : Multiset Frame := {d.frame} + d.tables + d.user

def Space.pages (m : Space) : Multiset Frame := m.free + m.dir.pages

theorem Space.pages_mk (free : List Frame) (d : Pgdir) : Space.pages ⟨free, d⟩ = free + d.pages := rfl

theorem pdx_lt (va : Nat) : pdx va < npdentries := Nat.mod_lt _ (by decide)

theorem pdx_eq {va : Nat} (h : va < wordLimit) : pdx va = va / pgsize / nptentries := by
  simp only [pdx, nptentries, npdentries, pgsize, wordLimit] at *
  omega

section
variable {d : Pgdir} {t : Pgtab} {i va : Nat} {e : Option Pte}

theorem Pgdir.entry_setPde (h : d.pde i = none) (v : Frame) : (d.setPde i ⟨v, fun _ => none⟩).entry = d.entry := by
  funext w
  simp only [entry, setPde]
  by_cases hw : w / nptentries = i
  · rw [hw, Function.update_self, h]
    rfl
  · rw [Function.update_of_ne hw]

theorem Pgdir.entry_setPte (h : d.pde (pdx va) = some t) (hva : va < wordLimit) :
    (d.setPte va t e).entry = Function.update d.entry (va / pgsize) e := by
  have hpdx := pdx_eq hva
  funext w
  simp only [entry, setPte, setPde]
  by_cases hw : w / nptentries = pdx va
  · rw [hw, Function.update_self]
    by_cases hx : w % nptentries = ptx va
    · have : w = va / pgsize := by
        simp only [ptx, nptentries, pgsize] at *
        omega
      rw [this, Function.update_self]
      show Function.update t.pte (ptx va) e (ptx va) = e
      exact Function.update_self ..
    · have : w ≠ va / pgsize := fun hc => hx (by rw [hc]; rfl)
      rw [Function.update_of_ne this]
      simp only [entry, hw, h]
      exact Function.update_of_ne hx ..
  · have : w ≠ va / pgsize := fun hc => hw (by rw [hc, hpdx])
    rw [Function.update_of_ne this, Function.update_of_ne hw]
    rfl

theorem Pgdir.tables_setPde (h : d.pde i = none) (hi : i < npdentries) : (d.setPde i t).tables = d.tables + {t.frame} := by
  have := sum_update_add (fun _ o => held (o.map Pgtab.frame)) d.pde (Finset.mem_range.mpr hi) (some t)
  rw [h] at this
  unfold tables
  exact (add_zero _).symm.trans this

theorem Pgdir.tables_setPte (h : d.pde (pdx va) = some t) : (d.setPte va t e).tables = d.tables := by
  have := sum_update_add (fun _ o => held (o.map Pgtab.frame)) d.pde (Finset.mem_range.mpr (pdx_lt va))
    (some { t with pte := Function.update t.pte (ptx va) e })
  rw [h] at this
  unfold tables
  exact add_right_cancel this

theorem Pgdir.user_congr {d' : Pgdir} (h : d'.entry = d.entry) : d'.user = d.user := by
  rw [user, user, h]

theorem Pgdir.user_setPte (h : d.pde (pdx va) = some t) (hva : va < kernbase) :
    (d.setPte va t e).user + held ((d.entry (va / pgsize)).map Pte.frame) = d.user + held (e.map Pte.frame) := by
  have hmem : va / pgsize ∈ Finset.range userPages := by
    simp only [Finset.mem_range, lt_userPages, pgsize, kernbase] at *
    omega
  rw [user, user, entry_setPte h (Nat.lt_trans hva (by decide))]
  exact sum_update_add (fun _ o => held (o.map Pte.frame)) d.entry hmem e

theorem Pgdir.user_setPte_kernel (h : d.pde (pdx va) = some t) (hva : kernbase ≤ va) (hlt : va < wordLimit) :
    (d.setPte va t e).user = d.user := by
  rw [user, user, entry_setPte h hlt]
  refine Finset.sum_congr rfl fun v hv => ?_
  have : v ≠ va / pgsize := by
    simp only [Finset.mem_range, lt_userPages, pgsize, kernbase] at *
    omega
  rw [Function.update_of_ne this]

theorem Pgdir.entry_of_table (h : d.pde (pdx va) = some t) (hva : va < wordLimit) :
    d.entry (va / pgsize) = t.pte (ptx va) := by
  rw [entry, ← pdx_eq hva, h]
  rfl

end

/-! ### One page -/

section
variable {m m' : Space} {a pa : Nat} {perm : BitVec 12}

theorem walkpgdir_cases (m : Space) (a : Nat) :
    (∃ t, m.dir.pde (pdx a) = some t ∧ walkpgdir m a true = (some t, m)) ∨
    (m.dir.pde (pdx a) = none ∧ m.free = [] ∧ walkpgdir m a true = (none, m)) ∨
    ∃ v free, m.dir.pde (pdx a) = none ∧ m.free = v :: free ∧
      walkpgdir m a true = (some ⟨v, fun _ => none⟩, ⟨free, m.dir.setPde (pdx a) ⟨v, fun _ => none⟩⟩) := by
  unfold walkpgdir
  cases hp : m.dir.pde (pdx a) with
  | some t => exact .inl ⟨t, rfl, rfl⟩
  | none =>
    cases hf : m.free with
    | nil =>
      refine .inr (.inl ⟨rfl, rfl, ?_⟩)
      simp only [Bool.true_eq_false, if_false, kalloc]
      rw [← hf]
    | cons v free => exact .inr (.inr ⟨v, free, rfl, rfl, rfl⟩)

/-- One page has been mapped at `a`, with a new table where there was none. -/
structure Mapped (m m' : Space) (a : Nat) (frame : Frame) : Prop where
  fresh : m.dir.entry (a / pgsize) = none
  entry : ∃ e : Pte, e.frame = frame ∧ m'.dir.entry = Function.update m.dir.entry (a / pgsize) (some e)
  present : ∀ i, (m'.dir.pde i).isSome ↔ (m.dir.pde i).isSome ∨ i = pdx a
  free : m.free.length = m'.free.length + if (m.dir.pde (pdx a)).isSome then 0 else 1
  user : m'.dir.user = m.dir.user + if a < kernbase then {frame} else 0
  pages : m'.pages = m.pages + if a < kernbase then {frame} else 0

theorem Pgdir.present_setPde {d : Pgdir} {i : Nat} {t : Pgtab} (j : Nat) :
    ((d.setPde i t).pde j).isSome ↔ (d.pde j).isSome ∨ j = i := by
  simp only [setPde]
  by_cases hj : j = i
  · rw [hj, Function.update_self]
    simp
  · rw [Function.update_of_ne hj]
    simp [hj]

theorem Mapped.of_table {t : Pgtab} {e : Pte} (h : m.dir.pde (pdx a) = some t) (ha : a < wordLimit)
    (hp : t.pte (ptx a) = none) :
    Mapped m { m with dir := m.dir.setPte a t (some e) } a e.frame := by
  have hent := Pgdir.entry_of_table h ha
  have huser : (m.dir.setPte a t (some e)).user = m.dir.user + if a < kernbase then {e.frame} else 0 := by
    split_ifs with hk
    · have := Pgdir.user_setPte (e := some e) h hk
      rw [hent, hp] at this
      simpa only [Option.map_none, held_none, add_zero, Option.map_some, held_some] using this
    · rw [Pgdir.user_setPte_kernel h (Nat.le_of_not_lt hk) ha, add_zero]
  refine ⟨hent.trans hp, ⟨e, rfl, Pgdir.entry_setPte h ha⟩, fun i => Pgdir.present_setPde i, by simp [h], huser, ?_⟩
  simp only [Space.pages, Pgdir.pages, Pgdir.tables_setPte h, huser]
  simp only [Pgdir.setPte, Pgdir.setPde]
  ac_rfl

theorem pages_setPde {v : Frame} {free : List Frame} (hp : m.dir.pde (pdx a) = none) (hf : m.free = v :: free) :
    Space.pages ⟨free, m.dir.setPde (pdx a) ⟨v, fun _ => none⟩⟩ = m.pages := by
  simp only [Space.pages, Pgdir.pages, Pgdir.tables_setPde hp (pdx_lt a), Pgdir.user_congr (Pgdir.entry_setPde hp v), hf,
    coe_cons]
  simp only [Pgdir.setPde]
  ac_rfl

theorem mappage_true (h : mappage m a pa perm = some (true, m')) (ha : a < wordLimit) : Mapped m m' a (pa / pgsize) := by
  unfold mappage at h
  rcases walkpgdir_cases m a with ⟨t, ht, hw⟩ | ⟨-, -, hw⟩ | ⟨v, free, hp, hf, hw⟩
  · rw [hw] at h
    dsimp only at h
    split at h
    · cases h
    · rename_i hnone
      cases h
      exact .of_table ht ha hnone
  · rw [hw] at h
    cases h
  · rw [hw] at h
    cases h
    have hnew : (m.dir.setPde (pdx a) ⟨v, fun _ => none⟩).pde (pdx a) = some ⟨v, fun _ => none⟩ := Function.update_self ..
    have hm := Mapped.of_table (m := ⟨free, m.dir.setPde (pdx a) ⟨v, fun _ => none⟩⟩) (e := ⟨pa / pgsize, perm ||| pteP⟩)
      hnew ha rfl
    have hent : (m.dir.setPde (pdx a) ⟨v, fun _ => none⟩).entry = m.dir.entry := Pgdir.entry_setPde hp v
    refine ⟨hent ▸ hm.fresh, ?_, fun i => ?_, ?_, ?_, ?_⟩
    · obtain ⟨e, he, h⟩ := hm.entry
      exact ⟨e, he, by rw [h, hent]⟩
    · rw [hm.present i, Pgdir.present_setPde i, or_assoc, or_self]
    · simp [hp, hf]
    · rw [hm.user, Pgdir.user_congr hent]
    · rw [hm.pages, pages_setPde hp hf]

theorem mappage_false (h : mappage m a pa perm = some (false, m')) : m' = m ∧ m.free = [] ∧ m.dir.pde (pdx a) = none := by
  unfold mappage at h
  rcases walkpgdir_cases m a with ⟨t, ht, hw⟩ | ⟨hp, hf, hw⟩ | ⟨v, free, hp, hf, hw⟩
  · rw [hw] at h
    dsimp only at h
    split at h <;> cases h
  · rw [hw] at h
    cases h
    exact ⟨rfl, hf, hp⟩
  · rw [hw] at h
    cases h

theorem mappages_page (ha : a % pgsize = 0) (hlt : a < wordLimit) : mappages m a pgsize pa perm = mappage m a pa perm := by
  have h1 : a / pgsize * pgsize = a := by
    simp only [pgsize] at *
    omega
  have h2 : ((a + pgsize - 1) % wordLimit / pgsize * pgsize - a) / pgsize = 0 := by
    simp only [pgsize, wordLimit] at *
    omega
  simp only [mappages, h1, h2]
  rfl

end

/-! ### `deallocuvm` and `allocuvm` -/

section
variable {l : KernelLayout} {m m' : Space} {a oldsz newsz : Nat} {free free' : List Frame} {v : Frame} {r : Nat}

theorem kfree_eq (h : kfree l free v = some free') : free' = v :: free := by
  unfold kfree at h
  split at h
  · cases h
  · exact (Option.some.inj h).symm

theorem walkpgdir_look : (walkpgdir m a false).1 = m.dir.pde (pdx a) := by
  unfold walkpgdir
  cases m.dir.pde (pdx a) <;> rfl

theorem pages_unmap {t : Pgtab} {e : Pte} (ht : m.dir.pde (pdx a) = some t) (he : t.pte (ptx a) = some e)
    (ha : a < kernbase) :
    Space.pages ⟨e.frame :: m.free, m.dir.setPte a t none⟩ = m.pages := by
  have := Pgdir.user_setPte (e := none) ht ha
  rw [Pgdir.entry_of_table ht (Nat.lt_trans ha (by decide)), he] at this
  simp only [Option.map_some, held_some, Option.map_none, held_none, add_zero] at this
  simp only [Space.pages, Pgdir.pages, Pgdir.tables_setPte ht, ← this, coe_cons]
  simp only [Pgdir.setPte, Pgdir.setPde]
  ac_rfl

theorem deallocuvmLoop_pages (hsz : oldsz ≤ kernbase) (h : deallocuvmLoop l oldsz m a = some m') : m'.pages = m.pages := by
  fun_induction deallocuvmLoop l oldsz m a with
  | case1 m a ha hw ih => exact ih h
  | case2 m a ha t hw hp ih => exact ih h
  | case3 | case4 => cases h
  | case5 m a ha t hw e he h0 free hfree ih =>
    rw [ih h, kfree_eq hfree]
    exact pages_unmap (walkpgdir_look ▸ hw) he (Nat.lt_of_lt_of_le ha hsz)
  | case6 => exact congrArg Space.pages (Option.some.inj h).symm

theorem deallocuvm_pages (hsz : oldsz ≤ kernbase) (h : deallocuvm l m oldsz newsz = some (r, m')) :
    m'.pages = m.pages := by
  unfold deallocuvm at h
  split at h
  · cases h
    rfl
  · obtain ⟨m₁, h₁, heq⟩ := Option.map_eq_some_iff.mp h
    cases heq
    exact deallocuvmLoop_pages hsz h₁

theorem pages_take {mem : Frame} (hf : m.free = mem :: free) :
    Space.pages { m with free } + {mem} = m.pages := by
  simp only [Space.pages, hf, coe_cons]
  ac_rfl

theorem kalloc_some (h : kalloc free = (some v, free')) : free = v :: free' := by
  cases free with
  | nil => cases h
  | cons w free =>
    cases h
    rfl

theorem kalloc_none (h : kalloc free = (none, free')) : free = [] ∧ free' = [] := by
  cases free with
  | nil =>
    cases h
    exact ⟨rfl, rfl⟩
  | cons w free => cases h

theorem allocuvmLoop_pages {k : Nat} (hsz : newsz < kernbase) (ha : a % pgsize = 0) (hk : k ≠ 0 →
    a + k * pgsize < newsz + pgsize)
    (h : allocuvmLoop l oldsz newsz k m a = some (r, m')) : m'.pages = m.pages := by
  induction k generalizing m a with
  | zero =>
    cases h
    rfl
  | succ k ih =>
    have hk := hk (by simp)
    have hlt : a < newsz := by
      simp only [pgsize, Nat.succ_mul] at hk
      omega
    have hlt32 : a < wordLimit := Nat.lt_trans (Nat.lt_trans hlt hsz) (by decide)
    unfold allocuvmLoop at h
    split at h
    · obtain ⟨⟨r₁, m₁⟩, h₁, heq⟩ := Option.map_eq_some_iff.mp h
      cases heq
      exact deallocuvm_pages (Nat.le_of_lt hsz) h₁
    · rename_i mem free halloc
      have htake := pages_take (m := m) (kalloc_some halloc)
      rw [mappages_page ha hlt32] at h
      split at h
      · cases h
      · rename_i m₁ hmap
        obtain ⟨rfl, -, -⟩ := mappage_false hmap
        split at h
        · cases h
        · rename_i r₂ m₂ hde
          obtain ⟨free', hfree, heq⟩ := Option.map_eq_some_iff.mp h
          cases heq
          have := deallocuvm_pages (Nat.le_of_lt hsz) hde
          rw [← htake, ← this, kfree_eq hfree]
          simp only [Space.pages, coe_cons]
          ac_rfl
      · rename_i m₁ hmap
        have hm := (mappage_true hmap hlt32).pages
        rw [if_pos (Nat.lt_trans hlt hsz), Nat.mul_div_cancel _ (by decide), htake] at hm
        refine (ih (by simp only [pgsize] at *; omega) (fun _ => ?_) h).trans hm
        simp only [pgsize, Nat.succ_mul] at hk ⊢
        omega

theorem allocuvm_pages (h : allocuvm l m oldsz newsz = some (r, m')) : m'.pages = m.pages := by
  unfold allocuvm at h
  split_ifs at h with h1 h2
  · cases h
    rfl
  · cases h
    rfl
  · refine allocuvmLoop_pages (Nat.lt_of_not_le h1) (Nat.mul_mod_left ..) (fun hk => ?_) h
    simp only [pgroundup, pgsize] at *
    omega

theorem allocuvmLoop_size {k : Nat} (h : allocuvmLoop l oldsz newsz k m a = some (r, m')) : r = newsz ∨ r = 0 ∧ k ≠ 0 := by
  induction k generalizing m a with
  | zero =>
    cases h
    exact .inl rfl
  | succ k ih =>
    unfold allocuvmLoop at h
    split at h
    · obtain ⟨_, -, heq⟩ := Option.map_eq_some_iff.mp h
      cases heq
      exact .inr ⟨rfl, k.succ_ne_zero⟩
    split at h
    · cases h
    · split at h
      · cases h
      · obtain ⟨_, -, heq⟩ := Option.map_eq_some_iff.mp h
        cases heq
        exact .inr ⟨rfl, k.succ_ne_zero⟩
    · exact (ih h).imp_right fun hr => ⟨hr.1, k.succ_ne_zero⟩

theorem allocuvm_size (h : allocuvm l m oldsz newsz = some (r, m')) :
    ∃ ok : Bool, (ok = false → pgroundup oldsz < newsz) ∧
      (if newsz ≥ kernbase then 0 else if newsz < oldsz then oldsz else if ok then newsz else 0) = r := by
  unfold allocuvm at h
  split_ifs at h with h1 h2
  · cases h
    exact ⟨true, nofun, if_pos h1⟩
  · cases h
    exact ⟨true, nofun, (if_neg h1).trans (if_pos h2)⟩
  · simp only [if_neg h1, if_neg h2]
    rcases allocuvmLoop_size h with rfl | ⟨rfl, hk⟩
    · exact ⟨true, nofun, rfl⟩
    · refine ⟨false, fun _ => Nat.lt_of_not_le fun hle => hk ?_, rfl⟩
      rw [Nat.sub_eq_zero_of_le hle]
      rfl

theorem deallocuvm_size (h : deallocuvm l m oldsz newsz = some (r, m')) :
    (if newsz ≥ oldsz then oldsz else newsz) = r := by
  unfold deallocuvm at h
  split at h
  · rename_i hge
    cases h
    exact if_pos hge
  · rename_i hge
    obtain ⟨_, -, heq⟩ := Option.map_eq_some_iff.mp h
    cases heq
    exact if_neg hge

/-! ### `freevm` -/

theorem deallocuvmLoop_clears (hsz : oldsz ≤ kernbase) (hpage : a % pgsize = 0)
    (ha : a % (nptentries * pgsize) = 0 ∨ (m.dir.pde (pdx a)).isSome) (hbelow : ∀ v, v * pgsize < a → m.dir.entry v = none)
    (h : deallocuvmLoop l oldsz m a = some m') : ∀ v, v * pgsize < oldsz → m'.dir.entry v = none := by
  -- After a page of a table that is there, the next page is in the same table or starts another one.
  have next {m : Space} {a : Nat} {t : Pgtab} (hlt : a < oldsz) (ht : m.dir.pde (pdx a) = some t) (hpage : a % pgsize = 0) :
      (a + pgsize) % (nptentries * pgsize) = 0 ∨ (m.dir.pde (pdx (a + pgsize))).isSome := by
    by_cases hal : (a + pgsize) % (nptentries * pgsize) = 0
    · exact .inl hal
    · have : pdx (a + pgsize) = pdx a := by
        simp only [pdx, nptentries, npdentries, pgsize, kernbase] at *
        omega
      rw [this, ht]
      exact .inr rfl
  have page {a : Nat} (hpage : a % pgsize = 0) (v : Nat) (hv : v * pgsize < a + pgsize) :
      v * pgsize < a ∨ v = a / pgsize := by
    simp only [pgsize] at *
    omega
  fun_induction deallocuvmLoop l oldsz m a with
  | case1 m a hlt hw ih =>
    rw [walkpgdir_look] at hw
    have hal : a % (nptentries * pgsize) = 0 := ha.resolve_right (by simp [hw])
    have hle : a < wordLimit := Nat.lt_trans (Nat.lt_of_lt_of_le hlt hsz) (by decide)
    refine ih ?_ (.inl ?_) (fun v hv => ?_) h
    · simp only [nptentries, pgsize] at *
      omega
    · simp only [nptentries, pgsize] at *
      omega
    · by_cases hva : v * pgsize < a
      · exact hbelow v hva
      · have : v / nptentries = pdx a := by
          rw [pdx_eq hle]
          simp only [nptentries, pgsize] at *
          omega
        rw [Pgdir.entry, this, hw]
        rfl
  | case2 m a hlt t hw hp ih =>
    rw [walkpgdir_look] at hw
    refine ih (by simp only [pgsize] at *; omega) (next hlt hw hpage) (fun v hv => ?_) h
    rcases page hpage v hv with hv | rfl
    · exact hbelow v hv
    · rw [Pgdir.entry_of_table hw (Nat.lt_trans (Nat.lt_of_lt_of_le hlt hsz) (by decide)), hp]
  | case3 | case4 => cases h
  | case5 m a hlt t hw e he h0 free hfree ih =>
    rw [walkpgdir_look] at hw
    have hset := Pgdir.entry_setPte (e := none) hw (Nat.lt_trans (Nat.lt_of_lt_of_le hlt hsz) (by decide))
    refine ih (by simp only [pgsize] at *; omega) ?_ (fun v hv => ?_) h
    · refine (next hlt hw hpage).imp id fun hs => (Pgdir.present_setPde _).mpr (.inl hs)
    · dsimp only
      rw [hset]
      by_cases hva : v = a / pgsize
      · rw [hva, Function.update_self]
      · rw [Function.update_of_ne hva]
        exact hbelow v ((page hpage v hv).resolve_right hva)
  | case6 m a hlt =>
    cases h
    exact fun v hv => hbelow v (Nat.lt_of_lt_of_le hv (Nat.le_of_not_lt hlt))

theorem sum_range_eq_list {M : Type} [AddCommMonoid M] (f : Nat → M) (n : Nat) :
    ∑ i ∈ Finset.range n, f i = ((List.range n).map f).sum := rfl

theorem Pgdir.tables_eq_list (d : Pgdir) :
    d.tables = ((List.range npdentries).map fun i => held ((d.pde i).map Pgtab.frame)).sum := by
  unfold tables
  exact sum_range_eq_list ..

theorem freeTables_eq {d : Pgdir} {is : List Nat} (h : freeTables l d is free = some free') :
    (free' : Multiset Frame) = free + (is.map fun i => held ((d.pde i).map Pgtab.frame)).sum := by
  induction is generalizing free with
  | nil =>
    cases h
    simp
  | cons i is ih =>
    unfold freeTables at h
    rw [List.map_cons, List.sum_cons]
    cases hp : d.pde i with
    | none =>
      rw [hp] at h
      simp only [Option.map_none, held_none, zero_add]
      exact ih h
    | some t =>
      rw [hp] at h
      dsimp only at h
      split at h
      · cases h
      · rename_i free₁ hfree
        rw [ih h, kfree_eq hfree, coe_cons]
        simp only [Option.map_some, held_some]
        ac_rfl

theorem deallocuvm_user (h : deallocuvm l m kernbase 0 = some (r, m')) : m'.dir.user = 0 := by
  unfold deallocuvm at h
  rw [if_neg (by decide)] at h
  obtain ⟨m₁, h₁, heq⟩ := Option.map_eq_some_iff.mp h
  cases heq
  unfold Pgdir.user
  refine Finset.sum_eq_zero fun v hv => ?_
  have hlt : v * pgsize < kernbase := by
    simp only [Finset.mem_range, lt_userPages, pgsize, kernbase] at *
    omega
  rw [deallocuvmLoop_clears (Nat.le_refl _) (by decide) (.inl (by decide))
    (fun v hv => absurd hv (Nat.not_lt_zero _)) h₁ v hlt]
  rfl

theorem freevm_pages (h : freevm l m = some free) : (free : Multiset Frame) = m.pages := by
  unfold freevm at h
  obtain ⟨⟨r, m₁⟩, hde, h⟩ := Option.bind_eq_some_iff.mp h
  obtain ⟨free₁, htab, h⟩ := Option.bind_eq_some_iff.mp h
  have htables : (free₁ : Multiset Frame) = m₁.free + m₁.dir.tables := by
    rw [Pgdir.tables_eq_list]
    exact freeTables_eq htab
  rw [← deallocuvm_pages (Nat.le_refl _) hde, kfree_eq h, coe_cons, htables, Space.pages, Pgdir.pages, deallocuvm_user hde,
    add_zero]
  exact add_left_comm ..

end

end Xv6.Vm
