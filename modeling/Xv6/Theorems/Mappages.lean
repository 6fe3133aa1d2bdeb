import Xv6.PageTables

/-! `mappages` maps the pages of its range and no others, up to the end of the address space. -/

namespace Xv6.PageTables
open Lib

/-! ### Words -/

section
variable {a e f x y : Word} {v : Frame}

theorem toNat_low (x : Word) : (x &&& 0xFFF).toNat = x.toNat % pgsize := by
  rw [BitVec.toNat_and]
  exact Nat.and_two_pow_sub_one_eq_mod x.toNat 12

theorem toNat_pgrounddown (x : Word) : (pgrounddown x).toNat = x.toNat / pgsize * pgsize := by
  have hmask : ∀ i < 32, (0xFFF : Word).getLsbD i = decide (i < 12) := by decide
  have hshift : pgrounddown x = x >>> 12 <<< 12 := by
    ext i hi
    rw [pgrounddown, BitVec.getElem_and, BitVec.getElem_not, ← BitVec.getLsbD_eq_getElem (x := 0xFFF) hi, hmask i hi,
      BitVec.getElem_shiftLeft]
    by_cases h12 : i < 12
    · simp [h12]
    · simp [h12, Nat.add_sub_cancel' (Nat.le_of_not_lt h12), BitVec.getLsbD_eq_getElem hi]
  rw [hshift, BitVec.toNat_shiftLeft, BitVec.toNat_ushiftRight, Nat.shiftLeft_eq, Nat.shiftRight_eq_div_pow]
  have := x.isLt
  simp only [pgsize]
  omega

theorem toNat_or_flags (ha : a.toNat % pgsize = 0) (hf : f.toNat < pgsize) : (a ||| f).toNat = a.toNat + f.toNat := by
  have hor := Nat.shiftLeft_add_eq_or_of_lt (i := 12) hf (a.toNat / pgsize)
  rw [Nat.shiftLeft_eq, show (2 : Nat) ^ 12 = pgsize from rfl, Nat.div_mul_cancel (Nat.dvd_of_mod_eq_zero ha)] at hor
  rw [BitVec.toNat_or, ← hor]

theorem pteAddr_or (ha : a.toNat % pgsize = 0) (hf : f.toNat < pgsize) : pteAddr (a ||| f) = a := by
  refine BitVec.eq_of_toNat_eq ?_
  rw [pteAddr, ← pgrounddown, toNat_pgrounddown, toNat_or_flags ha hf]
  simp only [pgsize] at *
  omega

theorem pteFlags_or (ha : a.toNat % pgsize = 0) (hf : f.toNat < pgsize) : pteFlags (a ||| f) = f := by
  refine BitVec.eq_of_toNat_eq ?_
  rw [pteFlags, toNat_low, toNat_or_flags ha hf]
  simp only [pgsize] at *
  omega

theorem toNat_v2p (v : Frame) : (v2p v).toNat = v.toNat * pgsize := by
  have := v.isLt
  rw [v2p, BitVec.toNat_shiftLeft, BitVec.toNat_setWidth, Nat.shiftLeft_eq]
  simp only [pgsize]
  omega

theorem toNat_frameOf (e : Word) : (frameOf e).toNat = e.toNat / pgsize := by
  have := e.isLt
  rw [frameOf, BitVec.extractLsb'_toNat, Nat.shiftRight_eq_div_pow]
  simp only [pgsize]
  omega

theorem frameOf_v2p (v : Frame) (hf : f.toNat < pgsize) : frameOf (v2p v ||| f) = v := by
  refine BitVec.eq_of_toNat_eq ?_
  have haligned : (v2p v).toNat % pgsize = 0 := by rw [toNat_v2p, Nat.mul_mod_left]
  rw [toNat_frameOf, toNat_or_flags haligned hf, toNat_v2p]
  simp only [pgsize] at *
  omega

theorem present_or (x y : Word) : Present (x ||| pteP ||| y) := by
  intro h
  have hbit := congrArg (BitVec.getLsbD · 0) h
  simp at hbit

theorem present_or_self (x : Word) : Present (x ||| pteP) := by
  rw [← BitVec.or_zero (x := x ||| pteP)]
  exact present_or x 0

def page (x : Addr) : Nat := x.toNat / pgsize

theorem toNat_pdx (x : Addr) : (pdx x).toNat = page x / 1024 := by
  have := x.isLt
  rw [pdx, BitVec.extractLsb'_toNat, Nat.shiftRight_eq_div_pow, page]
  simp only [pgsize]
  omega

theorem toNat_ptx (x : Addr) : (ptx x).toNat = page x % 1024 := by
  rw [ptx, BitVec.extractLsb'_toNat, Nat.shiftRight_eq_div_pow, page]

theorem page_eq_iff : page x = page y ↔ pdx x = pdx y ∧ ptx x = ptx y := by
  rw [← BitVec.toNat_inj, ← BitVec.toNat_inj, toNat_pdx, toNat_pdx, toNat_ptx, toNat_ptx]
  omega

end

/-! ### Memory -/

section
variable {m : Memory}

theorem Memory.page_store_of_ne {p : Frame × Index} {v : Frame} (w : Word) (h : v ≠ p.1) :
    (m.store p w).page v = m.page v :=
  Function.update_of_ne h ..

theorem Memory.page_store_self (p : Frame × Index) (w : Word) :
    (m.store p w).page p.1 = Function.update (m.page p.1) p.2 w :=
  Function.update_self ..

end

/-! ### Address spaces -/

/-- A directory whose entries point to tables of their own, none of which is free. -/
structure AddressSpace extends Memory where
  pgdir : Frame
  free_nodup : free.Nodup
  pgdir_used : pgdir ∉ free
  table_used : ∀ i, Present (page pgdir i) → frameOf (page pgdir i) ∉ free
  table_ne : ∀ i, Present (page pgdir i) → frameOf (page pgdir i) ≠ pgdir
  table_inj : ∀ i j, Present (page pgdir i) → Present (page pgdir j) → frameOf (page pgdir i) = frameOf (page pgdir j) →
    i = j

namespace AddressSpace
variable (s : AddressSpace)

/-- The directory entry for `x`. -/
abbrev pde (x : Addr) : Word := s.page s.pgdir (pdx x)

/-- The table for `x`. -/
abbrev pgtab (x : Addr) : Index → Word := s.page (frameOf (s.pde x))

def lookup (x : Addr) : Option Word := PageTables.lookup s.toMemory s.pgdir x

variable {s} in
theorem lookup_of_present {x : Addr} (h : Present (s.pde x)) : s.lookup x = mapping (s.pgtab x (ptx x)) := by
  rw [lookup, PageTables.lookup, walkpgdir, if_pos h]
  rfl

variable {s} in
theorem lookup_of_absent {x : Addr} (h : ¬Present (s.pde x)) : s.lookup x = none := by
  rw [lookup, PageTables.lookup, walkpgdir, if_neg h]
  rfl

theorem page_pgdir_store {a : Addr} (h : Present (s.pde a)) (w : Word) :
    (s.store (frameOf (s.pde a), ptx a) w).page s.pgdir = s.page s.pgdir :=
  Memory.page_store_of_ne w (s.table_ne _ h).symm

/-- Store an entry to a table of the directory. -/
def setEntry {a : Addr} (h : Present (s.pde a)) (w : Word) : AddressSpace where
  toMemory := s.store (frameOf (s.pde a), ptx a) w
  pgdir := s.pgdir
  free_nodup := s.free_nodup
  pgdir_used := s.pgdir_used
  table_used := by rw [s.page_pgdir_store h]; exact s.table_used
  table_ne := by rw [s.page_pgdir_store h]; exact s.table_ne
  table_inj := by rw [s.page_pgdir_store h]; exact s.table_inj

section
variable {s} {a : Addr} (h : Present (s.pde a)) {w : Word}

@[simp] theorem pde_setEntry (x : Addr) : (s.setEntry h w).pde x = s.pde x := congrFun (s.page_pgdir_store h w) _

theorem pgtab_setEntry {x : Addr} (hx : Present (s.pde x)) :
    (s.setEntry h w).pgtab x (ptx x) = if page x = page a then w else s.pgtab x (ptx x) := by
  rw [pgtab, pde_setEntry]
  by_cases hpdx : pdx x = pdx a
  · have hself : (s.setEntry h w).page (frameOf (s.pde a)) = Function.update (s.pgtab a) (ptx a) w :=
      Memory.page_store_self (frameOf (s.pde a), ptx a) w
    rw [pgtab, pde, hpdx, ← pde, hself, Function.update_apply]
    exact if_congr (by rw [page_eq_iff, hpdx]; simp) rfl rfl
  · have hother : frameOf (s.pde x) ≠ frameOf (s.pde a) := fun heq => hpdx (s.table_inj _ _ hx h heq)
    rw [if_neg fun heq => hpdx (page_eq_iff.mp heq).1]
    exact congrFun (Memory.page_store_of_ne w hother) _

theorem lookup_setEntry (hw : Present w) (x : Addr) :
    (s.setEntry h w).lookup x = if page x = page a then some w else s.lookup x := by
  by_cases hx : Present (s.pde x)
  · rw [lookup_of_present (by rwa [pde_setEntry]), lookup_of_present hx, pgtab_setEntry h hx, apply_ite mapping, mapping,
      if_pos hw]
  · rw [lookup_of_absent (by rwa [pde_setEntry]), lookup_of_absent hx, if_neg]
    intro hpage
    rw [pde, (page_eq_iff.mp hpage).1] at hx
    exact hx h

end

/-- The directory entry for the table `v`. -/
abbrev tableEntry (v : Frame) : Word := v2p v ||| pteP ||| pteW ||| pteU

theorem present_tableEntry (v : Frame) : Present (tableEntry v) := by
  rw [tableEntry, BitVec.or_assoc]
  exact present_or _ _

theorem frameOf_tableEntry (v : Frame) : frameOf (tableEntry v) = v := by
  rw [tableEntry, BitVec.or_assoc, BitVec.or_assoc]
  exact frameOf_v2p v (by decide)

/-- The free page `v` becomes an empty table. -/
def withTable (i : Index) (v : Frame) (free : List Frame) : Memory :=
  (Memory.clear ⟨free, s.page⟩ v).store (s.pgdir, i) (tableEntry v)

section
variable {s} {i : Index} {v : Frame} {free : List Frame} (hfree : s.free = v :: free)
include hfree

theorem pgdir_ne : s.pgdir ≠ v := fun h => s.pgdir_used (by rw [hfree, h]; exact List.mem_cons_self ..)

theorem table_ne_free {j : Index} (hj : Present (s.page s.pgdir j)) : frameOf (s.page s.pgdir j) ≠ v :=
  fun h => s.table_used j hj (by rw [hfree, h]; exact List.mem_cons_self ..)

theorem page_withTable : (s.withTable i v free).page s.pgdir = Function.update (s.page s.pgdir) i (tableEntry v) := by
  have hclear : (Memory.clear ⟨free, s.page⟩ v).page s.pgdir = s.page s.pgdir := Function.update_of_ne (pgdir_ne hfree) ..
  rw [← hclear]
  exact Memory.page_store_self (s.pgdir, i) _

theorem withTable_present {j : Index} (hj : Present ((s.withTable i v free).page s.pgdir j)) :
    j = i ∧ frameOf ((s.withTable i v free).page s.pgdir j) = v ∨
      Present (s.page s.pgdir j) ∧ (s.withTable i v free).page s.pgdir j = s.page s.pgdir j := by
  rw [page_withTable hfree] at hj ⊢
  by_cases hji : j = i
  · rw [hji, Function.update_self]
    exact .inl ⟨rfl, frameOf_tableEntry v⟩
  · rw [Function.update_of_ne hji] at hj ⊢
    exact .inr ⟨hj, rfl⟩

end

def addTable (i : Index) {v : Frame} {free : List Frame} (hfree : s.free = v :: free) : AddressSpace where
  toMemory := s.withTable i v free
  pgdir := s.pgdir
  free_nodup := (List.nodup_cons.mp (hfree ▸ s.free_nodup)).2
  pgdir_used := fun h => s.pgdir_used (by rw [hfree]; exact List.mem_cons_of_mem _ h)
  table_used := by
    intro j hj hmem
    rcases withTable_present hfree hj with ⟨-, hv⟩ | ⟨hold, heq⟩
    · rw [hv] at hmem
      exact (List.nodup_cons.mp (hfree ▸ s.free_nodup)).1 hmem
    · rw [heq] at hmem
      exact s.table_used j hold (by rw [hfree]; exact List.mem_cons_of_mem _ hmem)
  table_ne := by
    intro j hj
    rcases withTable_present hfree hj with ⟨-, hv⟩ | ⟨hold, heq⟩
    · rw [hv]
      exact (pgdir_ne hfree).symm
    · rw [heq]
      exact s.table_ne j hold
  table_inj := by
    intro j k hj hk hjk
    rcases withTable_present hfree hj with ⟨rfl, hv⟩ | ⟨hold, heq⟩ <;>
      rcases withTable_present hfree hk with ⟨rfl, hv'⟩ | ⟨hold', heq'⟩
    · rfl
    · rw [hv, heq'] at hjk
      exact absurd hjk.symm (table_ne_free hfree hold')
    · rw [heq, hv'] at hjk
      exact absurd hjk (table_ne_free hfree hold)
    · rw [heq, heq'] at hjk
      exact s.table_inj j k hold hold' hjk

section
variable {s} {a : Addr} {v : Frame} {free : List Frame} (hfree : s.free = v :: free)

theorem pde_addTable (x : Addr) : (s.addTable (pdx a) hfree).pde x = if pdx x = pdx a then tableEntry v else s.pde x :=
  (congrFun (page_withTable hfree) _).trans (Function.update_apply ..)

theorem page_addTable {i : Index} {t : Frame} (ht : t ≠ s.pgdir) :
    (s.addTable i hfree).page t = if t = v then fun _ => 0 else s.page t :=
  (Memory.page_store_of_ne _ ht).trans (Function.update_apply ..)

theorem lookup_addTable (h : ¬Present (s.pde a)) (x : Addr) : (s.addTable (pdx a) hfree).lookup x = s.lookup x := by
  have hpde := pde_addTable (a := a) hfree x
  by_cases hpdx : pdx x = pdx a
  · rw [if_pos hpdx] at hpde
    have hx : ¬Present (s.pde x) := by rwa [pde, hpdx]
    rw [lookup_of_absent hx, lookup_of_present (by rw [hpde]; exact present_tableEntry v), pgtab, hpde, frameOf_tableEntry,
      page_addTable hfree (pgdir_ne hfree).symm, if_pos rfl]
    rfl
  · rw [if_neg hpdx] at hpde
    by_cases hx : Present (s.pde x)
    · rw [lookup_of_present hx, lookup_of_present (by rwa [hpde]), pgtab, hpde, page_addTable hfree (s.table_ne _ hx),
        if_neg (table_ne_free hfree hx)]
    · rw [lookup_of_absent hx, lookup_of_absent (by rwa [hpde])]

end

end AddressSpace

/-! ### mappages -/

section
variable {s : AddressSpace} {a last pa perm : Word}

theorem mapping_eq_none {e : Word} : mapping e = none ↔ ¬Present e := by
  rw [mapping, ite_eq_right_iff]
  exact ⟨fun h he => Option.some_ne_none _ (h he), fun h he => absurd he h⟩

theorem walkpgdir_cases (s : AddressSpace) (a : Addr) :
    Present (s.pde a) ∧ walkpgdir s.toMemory s.pgdir a true = (some (frameOf (s.pde a), ptx a), s.toMemory) ∨
    ¬Present (s.pde a) ∧ s.free = [] ∧ walkpgdir s.toMemory s.pgdir a true = (none, s.toMemory) ∨
    ¬Present (s.pde a) ∧ ∃ (v : Frame) (free : List Frame) (hfree : s.free = v :: free),
      walkpgdir s.toMemory s.pgdir a true = (some (v, ptx a), (s.addTable (pdx a) hfree).toMemory) := by
  by_cases h : Present (s.pde a)
  · exact .inl ⟨h, by rw [walkpgdir, if_pos h]⟩
  · right
    by_cases hfree : s.free = []
    · exact .inl ⟨h, hfree, by rw [walkpgdir, if_neg h, if_neg (by simp), kalloc, hfree]⟩
    · obtain ⟨v, free, hfree⟩ := List.exists_cons_of_ne_nil hfree
      refine .inr ⟨h, v, free, hfree, ?_⟩
      rw [walkpgdir, if_neg h, if_neg (by simp), kalloc, hfree]
      rfl

theorem walkpgdir_table (s : AddressSpace) (a : Addr) :
    walkpgdir s.toMemory s.pgdir a true = (none, s.toMemory) ∨
    ∃ s' : AddressSpace, walkpgdir s.toMemory s.pgdir a true = (some (frameOf (s'.pde a), ptx a), s'.toMemory) ∧
      Present (s'.pde a) ∧ s'.pgdir = s.pgdir ∧ ∀ x, s'.lookup x = s.lookup x := by
  rcases walkpgdir_cases s a with ⟨h, hwalk⟩ | ⟨-, -, hwalk⟩ | ⟨h, v, free, hfree, hwalk⟩
  · exact .inr ⟨s, hwalk, h, rfl, fun _ => rfl⟩
  · exact .inl hwalk
  · have hpde :
      (s.addTable (pdx a) hfree).pde a = AddressSpace.tableEntry v := by rw [AddressSpace.pde_addTable, if_pos rfl]
    refine .inr ⟨s.addTable (pdx a) hfree, ?_, ?_, rfl, AddressSpace.lookup_addTable hfree h⟩
    · rw [hwalk, hpde, AddressSpace.frameOf_tableEntry]
    · rw [hpde]
      exact AddressSpace.present_tableEntry v

/-- The first `k` pages from the page `f` on are mapped to the pages from `pa` on, and all others are as they were. -/
structure Mapped (s s' : AddressSpace) (f k : Nat) (pa perm : Word) : Prop where
  pgdir : s'.pgdir = s.pgdir
  new : ∀ x, f ≤ page x → page x < f + k →
    s'.lookup x = some (pa + BitVec.ofNat 32 ((page x - f) * pgsize) ||| perm ||| pteP)
  old : ∀ x, ¬(f ≤ page x ∧ page x < f + k) → s'.lookup x = s.lookup x

theorem Mapped.refl (s : AddressSpace) (f : Nat) (pa perm : Word) : Mapped s s f 0 pa perm :=
  ⟨rfl, fun _ hlo hhi => absurd hhi (Nat.not_lt.mpr hlo), fun _ _ => rfl⟩

theorem Mapped.cons {s s₁ s' : AddressSpace} {f k : Nat} (h : Mapped s s₁ f 1 pa perm)
    (hrest : Mapped s₁ s' (f + 1) k (pa + BitVec.ofNat 32 pgsize) perm) : Mapped s s' f (k + 1) pa perm where
  pgdir := hrest.pgdir.trans h.pgdir
  new := by
    intro x hlo hhi
    by_cases hx : page x = f
    · rw [hrest.old x (by omega)]
      exact h.new x hlo (by omega)
    · rw [hrest.new x (by omega) (by omega), BitVec.add_assoc, ← BitVec.ofNat_add,
        show pgsize + (page x - (f + 1)) * pgsize = (page x - f) * pgsize by
          rw [Nat.add_comm, ← Nat.succ_mul]
          exact congrArg (· * pgsize) (by omega)]
  old := by
    intro x hx
    rw [hrest.old x (by omega)]
    exact h.old x (by omega)

theorem round_maps (pa perm : Word) (hnone : s.lookup a = none) :
    walkpgdir s.toMemory s.pgdir a true = (none, s.toMemory) ∨
    ∃ (pte : Frame × Index) (m : Memory) (s' : AddressSpace), walkpgdir s.toMemory s.pgdir a true = (some pte, m) ∧
      ¬Present (m.load pte) ∧
      m.store pte (pa ||| perm ||| pteP) = s'.toMemory ∧ Mapped s s' (page a) 1 pa perm := by
  rcases walkpgdir_table s a with hfail | ⟨s₁, hwalk, htable, hdir, hsame⟩
  · exact .inl hfail
  · refine .inr ⟨_, s₁.toMemory, s₁.setEntry htable (pa ||| perm ||| pteP), hwalk, ?_, rfl, hdir, fun x hlo hhi => ?_,
      fun x hx => ?_⟩
    · rw [← hsame, AddressSpace.lookup_of_present htable] at hnone
      exact mapping_eq_none.mp hnone
    · have hpage : page x = page a := by omega
      rw [AddressSpace.lookup_setEntry htable (present_or_self _), if_pos hpage, hpage, Nat.sub_self, Nat.zero_mul]
      exact congrArg (fun p => some (p ||| perm ||| pteP)) (BitVec.add_zero pa).symm
    · rw [AddressSpace.lookup_setEntry htable (present_or_self _), if_neg (by omega)]
      exact hsame x

theorem toNat_next {x : Word} (h : x.toNat + pgsize < 2 ^ 32) : (x + BitVec.ofNat 32 pgsize).toNat = x.toNat + pgsize := by
  rw [toNat_add_ofNat h]

theorem page_next (h : page a + 1 < 2 ^ 20) : page (a + BitVec.ofNat 32 pgsize) = page a + 1 := by
  simp only [page] at *
  rw [toNat_next (by simp only [pgsize] at *; omega), Nat.add_div_right _ (by decide)]

section
variable {pgdir : Frame} {pte : Frame × Index} {m m' : Memory} {n : Nat}

theorem mappagesLoop_fail (hwalk : walkpgdir m pgdir a true = (none, m')) (hn : 0 < n) :
    mappagesLoop pgdir last perm n m a pa = some (.ret (-1) m') := by
  obtain ⟨n, rfl⟩ := Nat.exists_eq_succ_of_ne_zero (Nat.ne_of_gt hn)
  rw [mappagesLoop, hwalk]

theorem mappagesLoop_panic (hwalk : walkpgdir m pgdir a true = (some pte, m')) (hpresent : Present (m'.load pte))
    (hn : 0 < n) :
    mappagesLoop pgdir last perm n m a pa = some .panic := by
  obtain ⟨n, rfl⟩ := Nat.exists_eq_succ_of_ne_zero (Nat.ne_of_gt hn)
  rw [mappagesLoop, hwalk]
  exact if_pos hpresent

theorem mappagesLoop_last (hwalk : walkpgdir m pgdir a true = (some pte, m')) (hfree : ¬Present (m'.load pte))
    (hlast : a = last) (hn : 0 < n) :
    mappagesLoop pgdir last perm n m a pa = some (.ret 0 (m'.store pte (pa ||| perm ||| pteP))) := by
  obtain ⟨n, rfl⟩ := Nat.exists_eq_succ_of_ne_zero (Nat.ne_of_gt hn)
  rw [mappagesLoop, hwalk]
  exact (if_neg hfree).trans (if_pos hlast)

theorem mappagesLoop_next (hwalk : walkpgdir m pgdir a true = (some pte, m')) (hfree : ¬Present (m'.load pte))
    (hlast : a ≠ last) (n : Nat) :
    mappagesLoop pgdir last perm (n + 1) m a pa =
      mappagesLoop pgdir last perm n (m'.store pte (pa ||| perm ||| pteP)) (a + BitVec.ofNat 32 pgsize)
      (pa + BitVec.ofNat 32 pgsize) := by
  rw [mappagesLoop, hwalk]
  exact (if_neg hfree).trans (if_neg hlast)

end

theorem ne_last {d : Nat} (hlast : last = a + BitVec.ofNat 32 ((d + 1) * pgsize)) (hend : page a + (d + 1) < 2 ^ 20) :
    a ≠ last := by
  rw [hlast]
  simp only [page, pgsize] at *
  bv_omega

theorem last_next {d : Nat} (hlast : last = a + BitVec.ofNat 32 ((d + 1) * pgsize)) :
    last = a + BitVec.ofNat 32 pgsize + BitVec.ofNat 32 (d * pgsize) := by
  rw [hlast, BitVec.add_assoc, ← BitVec.ofNat_add, Nat.add_comm pgsize, ← Nat.succ_mul]

theorem mappagesLoop_maps {d : Nat} (pa perm : Word) (hlast : last = a + BitVec.ofNat 32 (d * pgsize))
    (hend : page a + d < 2 ^ 20)
    (hnone : ∀ x, page a ≤ page x → page x ≤ page a + d → s.lookup x = none) :
    ∃ (r : Int) (k : Nat) (s' : AddressSpace),
      (∀ n > d, mappagesLoop s.pgdir last perm n s.toMemory a pa = some (.ret r s'.toMemory)) ∧
      (r = 0 ∧ k = d + 1 ∨ r = -1 ∧ k ≤ d) ∧ Mapped s s' (page a) k pa perm := by
  induction d generalizing s a pa with
  | zero =>
    rw [Nat.zero_mul, BitVec.add_zero] at hlast
    rcases round_maps pa perm (hnone a (Nat.le_refl _) (Nat.le_refl _)) with hfail | ⟨pte, m, s', hwalk, hfree,
      hstore, hmap⟩
    · exact ⟨-1, 0, s, fun n hn => mappagesLoop_fail hfail hn, .inr ⟨rfl, Nat.le_refl _⟩, .refl ..⟩
    · refine ⟨0, 1, s', fun n hn => ?_, .inl ⟨rfl, rfl⟩, hmap⟩
      rw [mappagesLoop_last hwalk hfree hlast.symm hn, hstore]
  | succ d ih =>
    rcases round_maps pa perm (hnone a (Nat.le_refl _) (Nat.le_add_right ..)) with hfail | ⟨pte, m, s₁, hwalk, hfree,
      hstore, hmap⟩
    · exact ⟨-1, 0, s, fun n hn => mappagesLoop_fail hfail (Nat.zero_lt_of_lt hn), .inr ⟨rfl, Nat.zero_le _⟩, .refl ..⟩
    · have hnext := page_next (a := a) (by omega)
      obtain ⟨r, k, s', hloop, hr, hrest⟩ :=
          ih (s := s₁) (pa + BitVec.ofNat 32 pgsize) (last_next hlast) (by omega) fun x hlo hhi => by
        rw [hmap.old x (by omega)]
        exact hnone x (by omega) (by omega)
      rw [hnext] at hrest
      refine ⟨r, k + 1, s', fun n hn => ?_, by omega, hmap.cons hrest⟩
      obtain ⟨n, rfl⟩ := Nat.exists_eq_succ_of_ne_zero (Nat.ne_of_gt (Nat.zero_lt_of_lt hn))
      rw [mappagesLoop_next hwalk hfree (ne_last hlast hend), hstore, ← hmap.pgdir]
      exact hloop n (Nat.lt_of_succ_lt_succ hn)

end

/-- The page of `x` has a byte in common with the range. -/
def Overlaps (va : Addr) (size : Word) (x : Addr) : Prop :=
  page x * pgsize < va.toNat + size.toNat ∧ va.toNat < (page x + 1) * pgsize

def npages (va : Addr) (size : Word) : Nat := (va.toNat + size.toNat - 1) / pgsize - page va + 1

variable {va : Addr} {size : Word}

theorem overlaps_iff (hsize : 0 < size.toNat) (x : Addr) :
    Overlaps va size x ↔ page va ≤ page x ∧ page x < page va + npages va size := by
  simp only [Overlaps, npages, page, pgsize]
  omega

theorem page_pgrounddown (x : Addr) : page (pgrounddown x) = page x := by
  rw [page, toNat_pgrounddown, page, Nat.mul_div_cancel _ (by decide)]

theorem toNat_last (hsize : 0 < size.toNat) (hend : va.toNat + size.toNat ≤ 2 ^ 32) :
    (va + size - 1).toNat = va.toNat + size.toNat - 1 := by bv_omega

theorem last_eq (hsize : 0 < size.toNat) (hend : va.toNat + size.toNat ≤ 2 ^ 32) :
    pgrounddown (va + size - 1) = pgrounddown va + BitVec.ofNat 32 ((npages va size - 1) * pgsize) := by
  refine BitVec.eq_of_toNat_eq ?_
  have hva := toNat_pgrounddown va
  have hroom : (pgrounddown va).toNat + (npages va size - 1) * pgsize < 2 ^ 32 := by
    simp only [npages, page, pgsize] at *
    omega
  rw [toNat_pgrounddown, toNat_last hsize hend, toNat_add_ofNat hroom, hva]
  simp only [npages, page, pgsize] at *
  omega

theorem last_page_lt (hend : va.toNat + size.toNat ≤ 2 ^ 32) :
    page va + (npages va size - 1) < 2 ^ 20 := by
  simp only [npages, page, pgsize]
  omega

theorem aligned_add {pa : Word} (hpa : pa.toNat % pgsize = 0) (i : Nat) :
    (pa + BitVec.ofNat 32 (i * pgsize)).toNat % pgsize = 0 := by
  rw [BitVec.toNat_add, BitVec.toNat_ofNat]
  simp only [pgsize] at *
  omega

theorem perm_lt {perm : Word} (h : perm.toNat < pgsize) : (perm ||| pteP).toNat < pgsize := by
  rw [BitVec.toNat_or]
  exact Nat.or_lt_two_pow (n := 12) h (by decide)

theorem mappages_maps (s : AddressSpace) {va : Word} (pa perm : Word) (hsize : 0 < size.toNat)
    (hend : va.toNat + size.toNat ≤ 2 ^ 32) (hnone : ∀ x, Overlaps va size x → s.lookup x = none) :
    ∃ (r : Int) (k : Nat) (s' : AddressSpace),
      (∀ n ≥ npages va size, mappages n s.toMemory s.pgdir va size pa perm = some (.ret r s'.toMemory)) ∧
      (r = 0 ∧ k = npages va size ∨ r = -1 ∧ k < npages va size) ∧ Mapped s s' (page va) k pa perm := by
  have hcount : npages va size - 1 + 1 = npages va size := rfl
  obtain ⟨r, k, s', hloop, hr, hmap⟩ := mappagesLoop_maps (s := s) pa perm (last_eq hsize hend)
    (by rw [page_pgrounddown]; exact last_page_lt hend)
    fun x hlo hhi => hnone x <| (overlaps_iff hsize x).mpr (by rw [page_pgrounddown] at hlo hhi; omega)
  rw [page_pgrounddown] at hmap
  exact ⟨r, k, s', fun n hn => hloop n (by omega), by omega, hmap⟩

/-- `mappages` ends. It returns 0 and has mapped all pages of its range, or -1 and has mapped the first of them; nothing
    else is changed. The range may end at the end of the address space. -/
theorem mappages_covers (s : AddressSpace) {va size pa : Word} (perm : Word) (hsize : 0 < size.toNat)
    (hend : va.toNat + size.toNat ≤ 2 ^ 32) (hpa : pa.toNat % pgsize = 0) (hnone : ∀ x, Overlaps va size x →
      s.lookup x = none) :
    ∃ (r : Int) (k : Nat) (s' : AddressSpace),
      (∀ n ≥ npages va size, mappages n s.toMemory s.pgdir va size pa perm = some (.ret r s'.toMemory)) ∧
      (r = 0 ∧ k = npages va size ∨ r = -1 ∧ k < npages va size) ∧ Mapped s s' (page va) k pa perm ∧
      (perm.toNat < pgsize → ∀ i < k, pteAddr (pa + BitVec.ofNat 32 (i * pgsize) ||| perm ||| pteP) =
        pa + BitVec.ofNat 32 (i * pgsize) ∧
        pteFlags (pa + BitVec.ofNat 32 (i * pgsize) ||| perm ||| pteP) = perm ||| pteP) := by
  obtain ⟨r, k, s', hret, hr, hmap⟩ := mappages_maps s pa perm hsize hend hnone
  refine ⟨r, k, s', hret, hr, hmap, fun hperm i _ => ?_⟩
  rw [BitVec.or_assoc]
  exact ⟨pteAddr_or (aligned_add hpa i) (perm_lt hperm), pteFlags_or (aligned_add hpa i) (perm_lt hperm)⟩

/-- The directory that `setupkvm` begins with: a free page, cleared. -/
def AddressSpace.blank (m : Memory) {v : Frame} {free : List Frame} (hfree : m.free = v :: free) (hm : m.free.Nodup) :
    AddressSpace where
  toMemory := Memory.clear ⟨free, m.page⟩ v
  pgdir := v
  free_nodup := (List.nodup_cons.mp (hfree ▸ hm)).2
  pgdir_used := (List.nodup_cons.mp (hfree ▸ hm)).1
  table_used := by simp [Memory.clear]
  table_ne := by simp [Memory.clear]
  table_inj := by simp [Memory.clear]

theorem AddressSpace.lookup_blank (m : Memory) {v : Frame} {free : List Frame} (hfree : m.free = v :: free)
    (hm : m.free.Nodup) (x : Addr) :
    (blank m hfree hm).lookup x = none := by
  have hpde : (blank m hfree hm).pde x = 0 := by
    show Function.update m.page v (fun _ => 0) v (pdx x) = 0
    rw [Function.update_self]
  exact lookup_of_absent (by rw [hpde]; decide)

/-- The last two pages of the address space are mapped, with a new table. -/
theorem mappages_covers_end : ∃ s' : AddressSpace,
    (∀ n ≥ 2, mappages n (Memory.clear ⟨[2], fun _ _ => 0⟩ 1) 1 0xFFFFE000 0x2000 0xFFFFE000 pteW =
      some (.ret 0 s'.toMemory)) ∧
    Mapped (.blank ⟨[1, 2], fun _ _ => 0⟩ rfl (by decide)) s' (page 0xFFFFE000) 2 0xFFFFE000 pteW := by
  obtain ⟨r, k, s', hret, hk, hmap, -⟩ := mappages_covers (.blank ⟨[1, 2], fun _ _ => 0⟩ rfl (by decide)) pteW
    (show 0 < (0x2000 : Word).toNat by decide) (show (0xFFFFE000 : Word).toNat + (0x2000 : Word).toNat ≤ 2 ^ 32 by decide)
    (show (0xFFFFE000 : Word).toNat % pgsize = 0 by decide) fun x _ => AddressSpace.lookup_blank _ rfl _ x
  have hnpages : npages 0xFFFFE000 0x2000 = 2 := by decide
  rw [hnpages] at hret hk
  obtain ⟨m, hm⟩ : ∃ m, mappages 2 (Memory.clear ⟨[2], fun _ _ => 0⟩ 1) 1 0xFFFFE000 0x2000 0xFFFFE000 pteW =
      some (.ret 0 m) := ⟨_, rfl⟩
  obtain ⟨rfl, -⟩ : r = 0 ∧ s'.toMemory = m := by simpa using (hret 2 (Nat.le_refl 2)).symm.trans hm
  obtain ⟨-, rfl⟩ : (0 : Int) = 0 ∧ k = 2 := hk.resolve_right (by simp)
  exact ⟨s', hret, hmap⟩

end Xv6.PageTables
