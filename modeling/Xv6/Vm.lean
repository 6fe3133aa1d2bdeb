import Mathlib.Logic.Function.Basic
import Xv6.Params

/-! The page allocator (`kalloc.c`) and the page tables (`vm.c`). A page of physical memory is named by its address
    over `PGSIZE`; what it holds is kept where it is a page directory or a page table. A panic is `none`. -/

namespace Xv6.Vm

/-- A page of physical memory. -/
abbrev Frame := Nat

/-- Addresses are computed modulo this. -/
abbrev wordLimit : Nat := 0x100000000
abbrev extmem : Nat := 0x100000
abbrev kernlink : Nat := kernbase + extmem
abbrev npdentries : Nat := 1024
abbrev nptentries : Nat := 1024
abbrev pteP : BitVec 12 := 0x001
abbrev pteW : BitVec 12 := 0x002
abbrev pteU : BitVec 12 := 0x004

/-- Where the linker puts the symbols `data` and `end`, as physical addresses. `kernel.ld` aligns `data`. -/
structure KernelLayout where
  data : Nat
  kernelEnd : Nat
  aligned : data % pgsize = 0
  text : extmem < data
  ordered : data < kernelEnd
  fits : kernelEnd ≤ phystop

/-! ### kalloc.c -/

def kalloc : List Frame → Option Frame × List Frame
  | [] => (none, [])
  | r :: freelist => (some r, freelist)

def kfree (l : KernelLayout) (free : List Frame) (v : Frame) : Option (List Frame) :=
  if v * pgsize < l.kernelEnd ∨ phystop ≤ v * pgsize then none else some (v :: free)

/-! ### Page tables -/

def pdx (va : Nat) : Nat := va / (nptentries * pgsize) % npdentries

def ptx (va : Nat) : Nat := va / pgsize % nptentries

/-- A page-table entry whose `PTE_P` is set. -/
structure Pte where
  frame : Frame
  flags : BitVec 12

/-- A page-table page. -/
structure Pgtab where
  frame : Frame
  pte : Nat → Option Pte

/-- A page directory, with the tables that its entries point to. -/
structure Pgdir where
  frame : Frame
  pde : Nat → Option Pgtab

namespace Pgdir

def setPde (d : Pgdir) (i : Nat) (pgtab : Pgtab) : Pgdir := { d with pde := Function.update d.pde i (some pgtab) }

/-- A store to the entry for `va` of the table `pgtab`, which the directory points to. -/
def setPte (d : Pgdir) (va : Nat) (pgtab : Pgtab) (e : Option Pte) : Pgdir :=
  d.setPde (pdx va) { pgtab with pte := Function.update pgtab.pte (ptx va) e }

end Pgdir

/-- The free list, and the page directory that a function works on. -/
structure Space where
  free : List Frame
  dir : Pgdir

/-- The table with the entry for `va`. -/
def walkpgdir (m : Space) (va : Nat) (alloc : Bool) : Option Pgtab × Space :=
  match m.dir.pde (pdx va) with
  | some pgtab => (some pgtab, m)
  | none =>
    if alloc = false then (none, m)
    else
      match kalloc m.free with
      | (none, free) => (none, { m with free })
      | (some v, free) => (some ⟨v, fun _ => none⟩, ⟨free, m.dir.setPde (pdx va) ⟨v, fun _ => none⟩⟩)

/-- One round of the loop of `mappages`; `false` is the return of -1. -/
def mappage (m : Space) (a pa : Nat) (perm : BitVec 12) : Option (Bool × Space) :=
  match walkpgdir m a true with
  | (none, m) => some (false, m)
  | (some pgtab, m) =>
    match pgtab.pte (ptx a) with
    | some _ => none
    | none => some (true, { m with dir := m.dir.setPte a pgtab (some ⟨pa / pgsize, perm ||| pteP⟩) })

/-- The loop of `mappages`, for `k` pages after the one at `a`. -/
def mappagesLoop : Nat → Space → Nat → Nat → BitVec 12 → Option (Bool × Space)
  | 0, m, a, pa, perm => mappage m a pa perm
  | k + 1, m, a, pa, perm =>
    match mappage m a pa perm with
    | none => none
    | some (false, m) => some (false, m)
    | some (true, m) => mappagesLoop k m (a + pgsize) (pa + pgsize) perm

def mappages (m : Space) (va size pa : Nat) (perm : BitVec 12) : Option (Bool × Space) :=
  let a := va / pgsize * pgsize
  let last := (va + size - 1) % wordLimit / pgsize * pgsize
  mappagesLoop ((last - a) / pgsize) m a pa perm

structure Kmap where
  virt : Nat
  physStart : Nat
  physEnd : Nat
  perm : BitVec 12

def kmap (l : KernelLayout) : List Kmap :=
  [⟨kernbase, 0, extmem, pteW⟩, ⟨kernlink, extmem, l.data, 0⟩, ⟨kernbase + l.data, l.data, phystop, pteW⟩,
    ⟨devspace, devspace, 0, pteW⟩]

/-- The loop of `setupkvm`. -/
def setupkvmLoop : List Kmap → Space → Option (Bool × Space)
  | [], m => some (true, m)
  | k :: ks, m =>
    match mappages m k.virt ((wordLimit + k.physEnd - k.physStart) % wordLimit) k.physStart k.perm with
    | none => none
    | some (false, m) => some (false, m)
    | some (true, m) => setupkvmLoop ks m

def setupkvm (l : KernelLayout) (free : List Frame) : Option (Option Pgdir × List Frame) :=
  match kalloc free with
  | (none, free) => some (none, free)
  | (some v, free) =>
    if devspace < kernbase + phystop then none
    else
      match setupkvmLoop (kmap l) ⟨free, v, fun _ => none⟩ with
      | none => none
      | some (false, m) => some (none, m.free)
      | some (true, m) => some (some m.dir, m.free)

/-- The loop of `deallocuvm`, from address `a` on. -/
def deallocuvmLoop (l : KernelLayout) (oldsz : Nat) (m : Space) (a : Nat) : Option Space :=
  if a < oldsz then
    match (walkpgdir m a false).1 with
    -- The next round adds `PGSIZE` again.
    | none => deallocuvmLoop l oldsz m (a + (nptentries - 1) * pgsize + pgsize)
    | some pgtab =>
      match pgtab.pte (ptx a) with
      | none => deallocuvmLoop l oldsz m (a + pgsize)
      | some pte =>
        if pte.frame = 0 then none
        else
          match kfree l m.free pte.frame with
          | none => none
          | some free => deallocuvmLoop l oldsz ⟨free, m.dir.setPte a pgtab none⟩ (a + pgsize)
  else some m
termination_by oldsz - a
decreasing_by all_goals simp only [pgsize, nptentries]; omega

def deallocuvm (l : KernelLayout) (m : Space) (oldsz newsz : Nat) : Option (Nat × Space) :=
  if newsz ≥ oldsz then some (oldsz, m)
  else (deallocuvmLoop l oldsz m (pgroundup newsz)).map fun m => (newsz, m)

/-- The loop of `allocuvm`, for `k` pages from address `a` on. It returns 0 on failure. -/
def allocuvmLoop (l : KernelLayout) (oldsz newsz : Nat) : Nat → Space → Nat → Option (Nat × Space)
  | 0, m, _ => some (newsz, m)
  | k + 1, m, a =>
    match kalloc m.free with
    | (none, _) => (deallocuvm l m newsz oldsz).map fun r => (0, r.2)
    | (some mem, free) =>
      match mappages { m with free } a pgsize (mem * pgsize) (pteW ||| pteU) with
      | none => none
      | some (false, m) =>
        match deallocuvm l m newsz oldsz with
        | none => none
        | some (_, m) => (kfree l m.free mem).map fun free => (0, { m with free })
      | some (true, m) => allocuvmLoop l oldsz newsz k m (a + pgsize)

def allocuvm (l : KernelLayout) (m : Space) (oldsz newsz : Nat) : Option (Nat × Space) :=
  if newsz ≥ kernbase then some (0, m)
  else if newsz < oldsz then some (oldsz, m)
  else allocuvmLoop l oldsz newsz ((newsz - pgroundup oldsz + pgsize - 1) / pgsize) m (pgroundup oldsz)

/-- The loop of `freevm` over the entries of the directory. -/
def freeTables (l : KernelLayout) (d : Pgdir) : List Nat → List Frame → Option (List Frame)
  | [], free => some free
  | i :: is, free =>
    match d.pde i with
    | none => freeTables l d is free
    | some pgtab =>
      match kfree l free pgtab.frame with
      | none => none
      | some free => freeTables l d is free

def freevm (l : KernelLayout) (m : Space) : Option (List Frame) := do
  let (_, m) ← deallocuvm l m kernbase 0
  let free ← freeTables l m.dir (List.range npdentries) m.free
  kfree l free m.dir.frame

def clearpteu (m : Space) (uva : Nat) : Option Space :=
  match (walkpgdir m uva false).1 with
  | none => none
  | some pgtab =>
    some { m with dir := m.dir.setPte uva pgtab ((pgtab.pte (ptx uva)).map fun e =>
      { e with flags := e.flags &&& ~~~pteU }) }

/-- The loop of `copyuvm`, for `k` pages from address `i` on; `false` is the jump to `bad`. -/
def copyuvmLoop (pgdir : Pgdir) : Nat → Space → Nat → Option (Bool × Space)
  | 0, d, _ => some (true, d)
  | k + 1, d, i =>
    match (walkpgdir { d with dir := pgdir } i false).1 with
    | none => none
    | some pgtab =>
      match pgtab.pte (ptx i) with
      | none => none
      | some pte =>
        match kalloc d.free with
        | (none, free) => some (false, { d with free })
        | (some mem, free) =>
          match mappages { d with free } i pgsize (mem * pgsize) pte.flags with
          | none => none
          | some (false, d) => some (false, d)
          | some (true, d) => copyuvmLoop pgdir k d (i + pgsize)

def copyuvm (l : KernelLayout) (pgdir : Pgdir) (free : List Frame) (sz : Nat) : Option (Option Pgdir × List Frame) :=
  match setupkvm l free with
  | none => none
  | some (none, free) => some (none, free)
  | some (some d, free) =>
    match copyuvmLoop pgdir ((sz + pgsize - 1) / pgsize) ⟨free, d⟩ 0 with
    | none => none
    | some (false, d) => (freevm l d).map fun free => (none, free)
    | some (true, d) => some (some d.dir, d.free)

end Xv6.Vm
