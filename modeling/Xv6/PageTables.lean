import Mathlib.Logic.Function.Basic
import Xv6.Lib.Memory
import Xv6.Vm

/-! `walkpgdir`, `mappages` and `setupkvm` of `vm.c` on the words of memory: an entry is a word, addresses wrap around at
    `2 ^ 32`, and the loop of `mappages` ends where its own test says. `Xv6.Vm` has the same functions on trees of pages. -/

namespace Xv6.PageTables
open Lib

/-- The number of a page of physical memory; the kernel finds all of them behind `KERNBASE`. -/
abbrev Frame := BitVec 20

/-- The place of a word in a page that is a directory or a table. -/
abbrev Index := BitVec 10

abbrev pteP : Word := 0x001
abbrev pteW : Word := 0x002
abbrev pteU : Word := 0x004

/-- The free list of `kalloc`, and the words of the pages. -/
structure Memory where
  free : List Frame
  page : Frame → Index → Word

namespace Memory

def load (m : Memory) (p : Frame × Index) : Word := m.page p.1 p.2

def store (m : Memory) (p : Frame × Index) (w : Word) : Memory :=
  { m with page := Function.update m.page p.1 (Function.update (m.page p.1) p.2 w) }

/-- `memset(v, 0, PGSIZE)`. -/
def clear (m : Memory) (v : Frame) : Memory := { m with page := Function.update m.page v fun _ => 0 }

end Memory

def kalloc (m : Memory) : Option Frame × Memory :=
  match m.free with
  | [] => (none, m)
  | r :: free => (some r, { m with free })

def pdx (va : Addr) : Index := va.extractLsb' 22 10
def ptx (va : Addr) : Index := va.extractLsb' 12 10
def pgrounddown (a : Word) : Word := a &&& ~~~0xFFF
def pteAddr (e : Word) : Word := e &&& ~~~0xFFF
def pteFlags (e : Word) : Word := e &&& 0xFFF

/-- The page at `P2V(PTE_ADDR(e))`. -/
def frameOf (e : Word) : Frame := e.extractLsb' 12 20

/-- `V2P` of the page `v`. -/
def v2p (v : Frame) : Word := v.setWidth 32 <<< 12

/-- `e & PTE_P`. -/
abbrev Present (e : Word) : Prop := e &&& pteP ≠ 0

/-- The place of the entry for `va`. -/
def walkpgdir (m : Memory) (pgdir : Frame) (va : Addr) (alloc : Bool) : Option (Frame × Index) × Memory :=
  if Present (m.page pgdir (pdx va)) then (some (frameOf (m.page pgdir (pdx va)), ptx va), m)
  else if alloc = false then (none, m)
  else
    match kalloc m with
    | (none, m) => (none, m)
    | (some pgtab, m) =>
      (some (pgtab, ptx va), (m.clear pgtab).store (pgdir, pdx va) (v2p pgtab ||| pteP ||| pteW ||| pteU))

/-- How a call that returns an `α` ends. -/
inductive Outcome (α : Type)
  | ret (r : α) (m : Memory)
  | panic

/-- The loop of `mappages`; `none` if it goes on after `n` rounds. -/
def mappagesLoop (pgdir : Frame) (last perm : Word) : Nat → Memory → Addr → Word → Option (Outcome Int)
  | 0, _, _, _ => none
  | n + 1, m, a, pa =>
    match walkpgdir m pgdir a true with
    | (none, m) => some (.ret (-1) m)
    | (some pte, m) =>
      if Present (m.load pte) then some .panic
      else if a = last then some (.ret 0 (m.store pte (pa ||| perm ||| pteP)))
      else
        mappagesLoop pgdir last perm n (m.store pte (pa ||| perm ||| pteP)) (a + BitVec.ofNat 32 pgsize)
        (pa + BitVec.ofNat 32 pgsize)

def mappages (n : Nat) (m : Memory) (pgdir : Frame) (va : Addr) (size pa perm : Word) : Option (Outcome Int) :=
  mappagesLoop pgdir (pgrounddown (va + size - 1)) perm n m (pgrounddown va) pa

/-- The call of `mappages` for an entry of `kmap`. -/
def mapKernel (n : Nat) (m : Memory) (pgdir : Frame) (k : Vm.Kmap) : Option (Outcome Int) :=
  mappages n m pgdir (BitVec.ofNat 32 k.virt) (BitVec.ofNat 32 k.physEnd - BitVec.ofNat 32 k.physStart)
    (BitVec.ofNat 32 k.physStart)
    (k.perm.setWidth 32)

/-- The loop of `setupkvm`; it returns the directory or, with `none`, 0. -/
def setupkvmLoop (n : Nat) (pgdir : Frame) : List Vm.Kmap → Memory → Option (Outcome (Option Frame))
  | [], m => some (.ret (some pgdir) m)
  | k :: ks, m =>
    match mapKernel n m pgdir k with
    | none => none
    | some .panic => some .panic
    | some (.ret r m) => if r < 0 then some (.ret none m) else setupkvmLoop n pgdir ks m

def setupkvm (n : Nat) (l : Vm.KernelLayout) (m : Memory) : Option (Outcome (Option Frame)) :=
  match kalloc m with
  | (none, m) => some (.ret none m)
  | (some pgdir, m) =>
    if devspace < kernbase + phystop then some .panic else setupkvmLoop n pgdir (Vm.kmap l) (m.clear pgdir)

/-- An entry that maps a page. -/
def mapping (e : Word) : Option Word := if Present e then some e else none

/-- The entry that maps the page of `va`. -/
def lookup (m : Memory) (pgdir : Frame) (va : Addr) : Option Word :=
  (walkpgdir m pgdir va false).1.bind fun pte => mapping (m.load pte)

end Xv6.PageTables
