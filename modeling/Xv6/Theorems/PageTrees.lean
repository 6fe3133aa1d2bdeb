import Xv6.Theorems.KernelMap
import Xv6.Theorems.Mappages

/-! The words of page tables refine the trees of `Xv6.Vm`: `walkpgdir`, `mappages` and `setupkvm` on words do what they
    do on the tree of pages that the words stand for. -/

namespace Xv6.PageTables
open Lib

/-! ### The tree of a directory -/

def spread {α : Type} (f : Index → Option α) (i : Nat) : Option α := if i < 1024 then f (BitVec.ofNat 10 i) else none

theorem spread_toNat {α : Type} (f : Index → Option α) (i : Index) : spread f i.toNat = f i := by
  rw [spread, if_pos i.isLt, BitVec.ofNat_toNat, BitVec.setWidth_eq]

theorem spread_none {α : Type} : spread (fun _ => (none : Option α)) = fun _ => none := by
  funext i
  rw [spread, ite_self]

theorem spread_update {α : Type} (f : Index → Option α) (i : Index) (o : Option α) :
    spread (Function.update f i o) = Function.update (spread f) i.toNat o := by
  funext j
  by_cases hji : j = i.toNat
  · rw [hji, spread_toNat, Function.update_self, Function.update_self]
  · rw [Function.update_of_ne hji, spread, spread]
    by_cases hj : j < 1024
    · rw [if_pos hj, if_pos hj, Function.update_of_ne]
      rintro rfl
      exact hji (BitVec.toNat_ofNat .. |>.trans (Nat.mod_eq_of_lt hj)).symm
    · rw [if_neg hj, if_neg hj]

def pteOf (e : Word) : Option Vm.Pte := if Present e then some ⟨(frameOf e).toNat, e.setWidth 12⟩ else none

/-- The table that a directory entry stands for. -/
def Memory.tableOf (m : Memory) (e : Word) : Option Vm.Pgtab :=
  if Present e then some ⟨(frameOf e).toNat, spread fun i => pteOf (m.page (frameOf e) i)⟩ else none

def AddressSpace.tables (s : AddressSpace) (i : Index) : Option Vm.Pgtab := s.tableOf (s.page s.pgdir i)

def AddressSpace.tree (s : AddressSpace) : Vm.Space := ⟨s.free.map BitVec.toNat, s.pgdir.toNat, spread s.tables⟩

section
variable {s : AddressSpace} {a : Addr} {v : Frame} {free : List Frame}

theorem pdx_toNat (a : Addr) : Vm.pdx a.toNat = (pdx a).toNat := by
  have := a.isLt
  rw [toNat_pdx, Vm.pdx, page]
  simp only [pgsize, Vm.nptentries, Vm.npdentries]
  omega

theorem ptx_toNat (a : Addr) : Vm.ptx a.toNat = (ptx a).toNat := by rw [toNat_ptx, Vm.ptx, page]

theorem tables_of_present (h : Present (s.pde a)) :
    s.tables (pdx a) = some ⟨(frameOf (s.pde a)).toNat, spread fun i => pteOf (s.pgtab a i)⟩ := if_pos h

theorem tables_of_absent (h : ¬Present (s.pde a)) : s.tables (pdx a) = none := if_neg h

theorem tree_pde (s : AddressSpace) (a : Addr) : s.tree.dir.pde (Vm.pdx a.toNat) = s.tables (pdx a) := by
  rw [pdx_toNat]
  exact spread_toNat s.tables (pdx a)

theorem mapping_pteOf (e : Word) : (mapping e).bind pteOf = pteOf e := by
  by_cases h : Present e
  · rw [mapping, if_pos h, Option.bind_some]
  · rw [mapping, if_neg h, pteOf, if_neg h, Option.bind_none]

theorem tree_entry (s : AddressSpace) (a : Addr) : s.tree.dir.entry (page a) = (s.lookup a).bind pteOf := by
  have hpde : s.tree.dir.pde (page a / Vm.nptentries) = s.tables (pdx a) := by
    rw [← tree_pde, pdx_toNat, toNat_pdx]
  rw [Vm.Pgdir.entry, hpde]
  by_cases h : Present (s.pde a)
  · rw [tables_of_present h, Option.bind_some, AddressSpace.lookup_of_present h, mapping_pteOf,
      show page a % Vm.nptentries = (ptx a).toNat from (toNat_ptx a).symm]
    exact spread_toNat (fun i => pteOf (s.pgtab a i)) (ptx a)
  · rw [tables_of_absent h, AddressSpace.lookup_of_absent h]
    rfl

theorem tableOf_congr {m m' : Memory} {e : Word} (h : Present e → m'.page (frameOf e) = m.page (frameOf e)) :
    m'.tableOf e = m.tableOf e := by
  by_cases he : Present e
  · rw [Memory.tableOf, Memory.tableOf, h he]
  · rw [Memory.tableOf, Memory.tableOf, if_neg he, if_neg he]

theorem tables_setEntry (h : Present (s.pde a)) (w : Word) : (s.setEntry h w).tables = Function.update s.tables (pdx a)
    (some ⟨(frameOf (s.pde a)).toNat, Function.update (spread fun i => pteOf (s.pgtab a i)) (ptx a).toNat (pteOf w)⟩) := by
  have hdir : (s.setEntry h w).page s.pgdir = s.page s.pgdir := s.page_pgdir_store h w
  funext i
  by_cases hi : i = pdx a
  · have htable : (s.setEntry h w).pgtab a = Function.update (s.pgtab a) (ptx a) w := by
      rw [AddressSpace.pgtab, AddressSpace.pde_setEntry]
      exact Memory.page_store_self (frameOf (s.pde a), ptx a) w
    have hentries : (fun i => pteOf (Function.update (s.pgtab a) (ptx a) w i)) =
        Function.update (fun i => pteOf (s.pgtab a i)) (ptx a) (pteOf w) := by
      funext j
      rw [Function.update_apply, Function.update_apply, apply_ite pteOf]
    rw [hi, Function.update_self, tables_of_present (by rwa [AddressSpace.pde_setEntry]), htable, hentries, spread_update,
      AddressSpace.pde_setEntry]
  · rw [Function.update_of_ne hi]
    have hsame : (s.setEntry h w).tables i = (s.setEntry h w).tableOf (s.page s.pgdir i) := congrArg _ (congrFun hdir i)
    refine hsame.trans (tableOf_congr fun hpresent => ?_)
    exact Memory.page_store_of_ne w fun heq => hi (s.table_inj i (pdx a) hpresent h heq)

theorem tree_setEntry (h : Present (s.pde a)) (w : Word) : (s.setEntry h w).tree =
    { s.tree with
      dir := s.tree.dir.setPte a.toNat ⟨(frameOf (s.pde a)).toNat, spread fun i => pteOf (s.pgtab a i)⟩ (pteOf w) } := by
  rw [AddressSpace.tree, tables_setEntry, spread_update, ← pdx_toNat, ← ptx_toNat]
  rfl

theorem tables_addTable (i : Index) (hfree : s.free = v :: free) :
    (s.addTable i hfree).tables = Function.update s.tables i (some ⟨v.toNat, fun _ => none⟩) := by
  have hdir : (s.addTable i hfree).page s.pgdir = Function.update (s.page s.pgdir) i (AddressSpace.tableEntry v) :=
    AddressSpace.page_withTable hfree
  funext j
  have hentry :
      (s.addTable i hfree).tables j =
          (s.addTable i hfree).tableOf (Function.update (s.page s.pgdir) i (AddressSpace.tableEntry v) j) :=
    congrArg _ (congrFun hdir j)
  rw [hentry]
  by_cases hj : j = i
  · rw [hj, Function.update_self, Function.update_self, Memory.tableOf, if_pos (AddressSpace.present_tableEntry v),
      AddressSpace.frameOf_tableEntry, AddressSpace.page_addTable hfree (AddressSpace.pgdir_ne hfree).symm, if_pos rfl]
    exact congrArg (fun f => some (Vm.Pgtab.mk v.toNat f)) spread_none
  · rw [Function.update_of_ne hj, Function.update_of_ne hj]
    refine tableOf_congr fun hpresent => ?_
    rw [AddressSpace.page_addTable hfree (s.table_ne j hpresent), if_neg (AddressSpace.table_ne_free hfree hpresent)]

theorem tree_addTable (a : Addr) (hfree : s.free = v :: free) : (s.addTable (pdx a) hfree).tree =
    ⟨free.map BitVec.toNat, s.tree.dir.setPde (Vm.pdx a.toNat) ⟨v.toNat, fun _ => none⟩⟩ := by
  rw [AddressSpace.tree, tables_addTable, spread_update, ← pdx_toNat]
  rfl

end

/-! ### mappages -/

section
variable {s : AddressSpace} {a last pa perm : Word}

theorem walkpgdir_tree (s : AddressSpace) (a : Addr) :
    walkpgdir s.toMemory s.pgdir a true = (none, s.toMemory) ∧ Vm.walkpgdir s.tree a.toNat true = (none, s.tree) ∨
    ∃ s' : AddressSpace, walkpgdir s.toMemory s.pgdir a true = (some (frameOf (s'.pde a), ptx a), s'.toMemory) ∧
      Present (s'.pde a) ∧ s'.pgdir = s.pgdir ∧
      Vm.walkpgdir s.tree a.toNat true = (some ⟨(frameOf (s'.pde a)).toNat, spread fun i => pteOf (s'.pgtab a i)⟩,
          s'.tree) := by
  rcases walkpgdir_cases s a with ⟨h, hwalk⟩ | ⟨h, hfree, hwalk⟩ | ⟨h, v, free, hfree, hwalk⟩
  · refine .inr ⟨s, hwalk, h, rfl, ?_⟩
    rw [Vm.walkpgdir, tree_pde, tables_of_present h]
  · refine .inl ⟨hwalk, ?_⟩
    rw [Vm.walkpgdir, tree_pde, tables_of_absent h]
    dsimp only
    rw [if_neg (by simp), AddressSpace.tree, hfree]
    rfl
  · have hpde :
      (s.addTable (pdx a) hfree).pde a = AddressSpace.tableEntry v := by rw [AddressSpace.pde_addTable, if_pos rfl]
    have hpresent : Present ((s.addTable (pdx a) hfree).pde a) := by
      rw [hpde]
      exact AddressSpace.present_tableEntry v
    have htable := tables_of_present hpresent
    rw [tables_addTable, Function.update_self, Option.some.injEq] at htable
    refine .inr ⟨s.addTable (pdx a) hfree, ?_, hpresent, rfl, ?_⟩
    · rw [hwalk, hpde, AddressSpace.frameOf_tableEntry]
    · rw [← htable, tree_addTable, Vm.walkpgdir, tree_pde, tables_of_absent h]
      dsimp only
      rw [if_neg (by simp), show s.tree.free = v.toNat :: free.map BitVec.toNat by rw [AddressSpace.tree, hfree]; rfl]
      rfl

theorem pteOf_eq_none {e : Word} : pteOf e = none ↔ ¬Present e := by
  rw [pteOf, ite_eq_right_iff]
  exact ⟨fun h he => Option.some_ne_none _ (h he), fun h he => absurd he h⟩

theorem pteOf_entry (hpa : pa.toNat % pgsize = 0) (hperm : perm.toNat < pgsize) :
    pteOf (pa ||| perm ||| pteP) = some ⟨pa.toNat / pgsize, perm.setWidth 12 ||| Vm.pteP⟩ := by
  have hlow : pa.setWidth 12 = 0#12 := by
    refine BitVec.eq_of_toNat_eq ?_
    rw [BitVec.toNat_setWidth]
    exact hpa
  have hframe : (frameOf (pa ||| perm ||| pteP)).toNat = pa.toNat / pgsize := by
    have hlt := perm_lt hperm
    rw [toNat_frameOf, BitVec.or_assoc, toNat_or_flags hpa hlt]
    simp only [pgsize] at *
    omega
  rw [pteOf, if_pos (present_or_self _), hframe, BitVec.setWidth_or, BitVec.setWidth_or, hlow, BitVec.zero_or]
  rfl

theorem mappage_tree (a : Addr) (hpa : pa.toNat % pgsize = 0) (hperm : perm.toNat < pgsize) :
    walkpgdir s.toMemory s.pgdir a true = (none, s.toMemory) ∧ Vm.mappage s.tree a.toNat pa.toNat (perm.setWidth 12) =
      some (false, s.tree) ∨
    ∃ (pte : Frame × Index) (m : Memory), walkpgdir s.toMemory s.pgdir a true = (some pte, m) ∧
      (Present (m.load pte) ∧ Vm.mappage s.tree a.toNat pa.toNat (perm.setWidth 12) = none ∨
        ¬Present (m.load pte) ∧ ∃ s' : AddressSpace, m.store pte (pa ||| perm ||| pteP) = s'.toMemory ∧ s'.pgdir = s.pgdir ∧
          Vm.mappage s.tree a.toNat pa.toNat (perm.setWidth 12) = some (true, s'.tree)) := by
  rcases walkpgdir_tree s a with ⟨hwalk, htree⟩ | ⟨s₁, hwalk, h, hdir, htree⟩
  · refine .inl ⟨hwalk, ?_⟩
    rw [Vm.mappage, htree]
  · refine .inr ⟨_, _, hwalk, ?_⟩
    have hpte : (spread fun i => pteOf (s₁.pgtab a i)) (Vm.ptx a.toNat) = pteOf (s₁.pgtab a (ptx a)) := by
      rw [ptx_toNat]
      exact spread_toNat (fun i => pteOf (s₁.pgtab a i)) (ptx a)
    have hload : s₁.load (frameOf (s₁.pde a), ptx a) = s₁.pgtab a (ptx a) := rfl
    rw [hload]
    by_cases hpresent : Present (s₁.pgtab a (ptx a))
    · refine .inl ⟨hpresent, ?_⟩
      rw [pteOf, if_pos hpresent] at hpte
      rw [Vm.mappage, htree]
      dsimp only
      rw [hpte]
    · refine .inr ⟨hpresent, s₁.setEntry h (pa ||| perm ||| pteP), rfl, hdir, ?_⟩
      rw [pteOf_eq_none.mpr hpresent] at hpte
      rw [Vm.mappage, htree, tree_setEntry, pteOf_entry hpa hperm]
      dsimp only
      rw [hpte]

/-- The words and the tree end in the same way, with the result `ok` or `fail`, and the words stand for the tree. -/
inductive Agree {α : Type} (pgdir : Frame) (ok fail : α) : Option (Outcome α) → Option (Bool × Vm.Space) → Prop
  | panic : Agree pgdir ok fail (some .panic) none
  | failed (s : AddressSpace) (h : s.pgdir = pgdir) :
    Agree pgdir ok fail (some (.ret fail s.toMemory)) (some (false, s.tree))
  | done (s : AddressSpace) (h : s.pgdir = pgdir) : Agree pgdir ok fail (some (.ret ok s.toMemory)) (some (true, s.tree))

theorem mappagesLoop_tree {d n : Nat} (hlast : last = a + BitVec.ofNat 32 (d * pgsize)) (ha : page a + d < 2 ^ 20)
    (hpa : pa.toNat % pgsize = 0) (hroom : pa.toNat + d * pgsize < 2 ^ 32) (hperm : perm.toNat < pgsize) (hn : d < n) :
    Agree s.pgdir 0 (-1) (mappagesLoop s.pgdir last perm n s.toMemory a pa)
        (Vm.mappagesLoop d s.tree a.toNat pa.toNat (perm.setWidth 12)) := by
  have hpos := Nat.zero_lt_of_lt hn
  induction d generalizing s a pa n with
  | zero =>
    rw [Nat.zero_mul, BitVec.add_zero] at hlast
    rw [Vm.mappagesLoop]
    rcases mappage_tree (s := s) a hpa hperm with ⟨hwalk, htree⟩ | ⟨pte, m, hwalk,
      ⟨hpresent, htree⟩ | ⟨hfree, s', hstore, hdir, htree⟩⟩
    · rw [mappagesLoop_fail hwalk hpos, htree]
      exact .failed s rfl
    · rw [mappagesLoop_panic hwalk hpresent hpos, htree]
      exact .panic
    · rw [mappagesLoop_last hwalk hfree hlast.symm hpos, hstore, htree]
      exact .done s' hdir
  | succ d ih =>
    rw [Vm.mappagesLoop]
    rcases mappage_tree (s := s) a hpa hperm with ⟨hwalk, htree⟩ | ⟨pte, m, hwalk,
      ⟨hpresent, htree⟩ | ⟨hfree, s', hstore, hdir, htree⟩⟩
    · rw [mappagesLoop_fail hwalk hpos, htree]
      exact .failed s rfl
    · rw [mappagesLoop_panic hwalk hpresent hpos, htree]
      exact .panic
    · obtain ⟨n, rfl⟩ := Nat.exists_eq_succ_of_ne_zero (Nat.ne_of_gt hpos)
      rw [mappagesLoop_next hwalk hfree (ne_last hlast ha), hstore, ← hdir, htree]
      rw [Nat.succ_mul, ← Nat.add_assoc, Nat.add_right_comm] at hroom
      have hnext := page_next (a := a) (by omega)
      have hato : (a + BitVec.ofNat 32 pgsize).toNat = a.toNat + pgsize :=
        toNat_next (by simp only [page, pgsize] at ha ⊢; omega)
      have hpato := toNat_next (Nat.lt_of_le_of_lt (Nat.le_add_right ..) hroom)
      rw [← hato, ← hpato]
      have hn := Nat.lt_of_succ_lt_succ hn
      exact ih (last_next hlast) (by omega) (by rw [hpato, Nat.add_mod_right]; exact hpa)
        (by rwa [hpato]) hn (Nat.zero_lt_of_lt hn)

theorem mappages_tree {va size : Word} {n : Nat} (hsize : 0 < size.toNat) (hend : va.toNat + size.toNat ≤ 2 ^ 32)
    (hpa : pa.toNat % pgsize = 0)
    (hroom : pa.toNat + (npages va size - 1) * pgsize < 2 ^ 32) (hperm : perm.toNat < pgsize) (hn : npages va size ≤ n) :
    Agree s.pgdir 0 (-1) (mappages n s.toMemory s.pgdir va size pa perm)
        (Vm.mappages s.tree va.toNat size.toNat pa.toNat (perm.setWidth 12)) := by
  have hva := toNat_pgrounddown va
  have hcount : ((va.toNat + size.toNat - 1) % Vm.wordLimit / pgsize * pgsize - va.toNat / pgsize * pgsize) / pgsize =
      npages va size - 1 := by
    simp only [npages, page, pgsize, Vm.wordLimit] at *
    omega
  rw [mappages, Vm.mappages, hcount, ← hva]
  refine mappagesLoop_tree (last_eq hsize hend) ?_ hpa hroom hperm (Nat.lt_of_lt_of_le (Nat.lt_succ_self _) hn)
  rw [page_pgrounddown]
  exact last_page_lt hend

end

/-! ### setupkvm -/

/-- An entry of `kmap` that is computed without overflow. -/
structure InWords (k : Vm.Kmap) : Prop extends k.Fits where
  physEnd : k.physEnd < 2 ^ 32
  physStart : k.physStart % pgsize = 0
  physRange : k.physStart + k.size ≤ 2 ^ 32

theorem kmap_inWords (l : Vm.KernelLayout) : ∀ k ∈ Vm.kmap l, InWords k := by
  intro k hk
  refine { toFits := Vm.kmap_fits l k hk, physEnd := ?_, physStart := ?_, physRange := ?_ }
  all_goals
    have haligned := l.aligned
    have htext := l.text
    have hdata := Nat.lt_of_lt_of_le l.ordered l.fits
    simp only [pgsize, Vm.extmem, phystop] at haligned htext hdata
    simp only [Vm.kmap, List.mem_cons, List.not_mem_nil, or_false] at hk
    rcases hk with rfl | rfl | rfl | rfl <;>
      simp only [Vm.Kmap.size, Vm.wordLimit, Vm.extmem, phystop, devspace, pgsize] <;> omega

section
variable {s : AddressSpace} {k : Vm.Kmap} {n : Nat}

theorem InWords.toNat_virt (h : InWords k) : (BitVec.ofNat 32 k.virt).toNat = k.virt := by
  have hpos := h.pos
  have hinside := h.inside
  rw [BitVec.toNat_ofNat, Nat.mod_eq_of_lt]
  simp only [Vm.wordLimit] at hinside
  omega

theorem InWords.toNat_physStart (h : InWords k) : (BitVec.ofNat 32 k.physStart).toNat = k.physStart := by
  have hpos := h.pos
  have hrange := h.physRange
  rw [BitVec.toNat_ofNat, Nat.mod_eq_of_lt (by omega)]

theorem InWords.toNat_size (h : InWords k) : (BitVec.ofNat 32 k.physEnd - BitVec.ofNat 32 k.physStart).toNat = k.size := by
  have hstart := h.toNat_physStart
  have hlt := (BitVec.ofNat 32 k.physStart).isLt
  have hend := h.physEnd
  rw [BitVec.toNat_sub, hstart, BitVec.toNat_ofNat, Nat.mod_eq_of_lt hend, Vm.Kmap.size]
  rw [hstart] at hlt
  congr 1
  simp only [Vm.wordLimit]
  omega

theorem toNat_perm (perm : BitVec 12) : (perm.setWidth 32).toNat < pgsize := by
  rw [BitVec.toNat_setWidth, Nat.mod_eq_of_lt (Nat.lt_trans perm.isLt (by decide))]
  exact perm.isLt

theorem npages_le {va size : Word} (hend : va.toNat + size.toNat ≤ 2 ^ 32) : npages va size ≤ 2 ^ 20 := by
  have hlast := last_page_lt hend
  omega

theorem mapKernel_tree (h : InWords k) (hn : 2 ^ 20 ≤ n) :
    Agree s.pgdir 0 (-1) (mapKernel n s.toMemory s.pgdir k) (Vm.mappages s.tree k.virt k.size k.physStart k.perm) := by
  have hvirt := h.toNat_virt
  have hsize := h.toNat_size
  have hphys := h.toNat_physStart
  have hend :
      (BitVec.ofNat 32 k.virt).toNat + (BitVec.ofNat 32 k.physEnd - BitVec.ofNat 32 k.physStart).toNat ≤ 2 ^ 32 := by
    rw [hvirt, hsize]
    exact h.inside
  have hagree := mappages_tree (s := s) (hsize ▸ h.pos) hend (hphys ▸ h.physStart)
    (by
      have hpos := h.pos
      have hstart := h.start
      have hrange := h.physRange
      rw [npages, page, hvirt, hsize, hphys]
      simp only [pgsize] at *
      omega)
    (toNat_perm k.perm) (Nat.le_trans (npages_le hend) hn)
  rw [hvirt, hsize, hphys, BitVec.setWidth_setWidth_of_le k.perm (by decide), BitVec.setWidth_eq] at hagree
  exact hagree

theorem setupkvmLoop_tree {ks : List Vm.Kmap} (hks : ∀ k ∈ ks, InWords k) (hn : 2 ^ 20 ≤ n) :
    Agree s.pgdir (some s.pgdir) none (setupkvmLoop n s.pgdir ks s.toMemory) (Vm.setupkvmLoop ks s.tree) := by
  induction ks generalizing s with
  | nil => exact .done s rfl
  | cons k ks ih =>
    obtain ⟨hk, hks⟩ := List.forall_mem_cons.mp hks
    have hagree := mapKernel_tree (s := s) hk hn
    rw [setupkvmLoop, Vm.setupkvmLoop, ← Vm.Kmap.size]
    generalize mapKernel n s.toMemory s.pgdir k = words, Vm.mappages s.tree k.virt k.size k.physStart k.perm =
      tree at hagree
    cases hagree with
    | panic => exact .panic
    | failed s' hdir => exact .failed s' hdir
    | done s' hdir =>
      rw [← hdir]
      exact ih hks

theorem tree_blank {m : Memory} {v : Frame} {free : List Frame} (hfree : m.free = v :: free) (hm : m.free.Nodup) :
    (AddressSpace.blank m hfree hm).tree = ⟨free.map BitVec.toNat, v.toNat, fun _ => none⟩ := by
  have htables : (AddressSpace.blank m hfree hm).tables = fun _ => none := by
    funext i
    have hpage : (AddressSpace.blank m hfree hm).page v = fun _ => 0 := Function.update_self ..
    exact (congrArg _ (congrFun hpage i)).trans (if_neg (by decide))
  rw [AddressSpace.tree, htables, spread_none]
  rfl

theorem setupkvm_tree (l : Vm.KernelLayout) {m : Memory} (hm : m.free.Nodup) (hn : 2 ^ 20 ≤ n) :
    setupkvm n l m = some .panic ∧ Vm.setupkvm l (m.free.map BitVec.toNat) = none ∨
    (∃ m', setupkvm n l m = some (.ret none m') ∧ Vm.setupkvm l (m.free.map BitVec.toNat) =
      some (none, m'.free.map BitVec.toNat)) ∨
    ∃ s : AddressSpace, setupkvm n l m = some (.ret (some s.pgdir) s.toMemory) ∧
      Vm.setupkvm l (m.free.map BitVec.toNat) = some (some s.tree.dir, s.tree.free) := by
  rw [setupkvm, Vm.setupkvm, kalloc]
  by_cases hnil : m.free = []
  · rw [hnil]
    exact .inr (.inl ⟨m, rfl, by rw [hnil]; rfl⟩)
  · obtain ⟨v, free, hfree⟩ := List.exists_cons_of_ne_nil hnil
    have hagree := setupkvmLoop_tree (s := AddressSpace.blank m hfree hm) (kmap_inWords l) hn
    rw [tree_blank] at hagree
    rw [hfree, List.map_cons, Vm.kalloc]
    dsimp only
    rw [if_neg (by decide), if_neg (by decide)]
    have hwords : setupkvmLoop n v (Vm.kmap l) (Memory.clear ⟨free, m.page⟩ v) =
        setupkvmLoop n (AddressSpace.blank m hfree hm).pgdir (Vm.kmap l) (AddressSpace.blank m hfree hm).toMemory := rfl
    rw [hwords]
    generalize setupkvmLoop n (AddressSpace.blank m hfree hm).pgdir (Vm.kmap l) (AddressSpace.blank m hfree hm).toMemory =
      words,
      Vm.setupkvmLoop (Vm.kmap l) ⟨free.map BitVec.toNat, v.toNat, fun _ => none⟩ = tree at hagree
    cases hagree with
    | panic => exact .inl ⟨rfl, rfl⟩
    | failed s hdir => exact .inr (.inl ⟨s.toMemory, rfl, rfl⟩)
    | done s hdir => exact .inr (.inr ⟨s, by rw [hdir], rfl⟩)

end

end Xv6.PageTables
