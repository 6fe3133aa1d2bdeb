import Xv6.Lib.Memory
import Xv6.Vm

/-! The functions of `vm.c` with the contents of the pages that they clear, copy and free. What a page directory or a
    page table holds is kept in the directory itself. A panic is `none`. -/

namespace Xv6.Vm
open Lib

/-- The contents of a page. -/
abbrev Page := Nat → Byte

/-- The contents of physical memory. -/
abbrev Ram := Frame → Page

/-- `memset(v, 0, PGSIZE)`. -/
def zeroPage : Page := fun _ => 0

/-- `memmove` of `bs` to a page, from offset `off` on. -/
def Page.patch (p : Page) (off : Nat) (bs : List Byte) : Page := fun x =>
  if off ≤ x then bs[x - off]?.getD (p x) else p x

/-- What `kfree` leaves in a page: ones, and the address of the page that was the first of the free list. -/
def freedPage (free : List Frame) : Page :=
  Page.patch (fun _ => 1) 0 (wordBytes (free.head?.elim 0 fun r => BitVec.ofNat 32 (kernbase + r * pgsize)))

/-- Physical memory, and the page directory that a function works on. -/
structure Machine where
  space : Space
  ram : Ram

namespace Machine
variable (l : KernelLayout)

def kfree (M : Machine) (v : Frame) : Option Machine :=
  (Vm.kfree l M.space.free v).map fun free => ⟨{ M.space with free }, Function.update M.ram v (freedPage M.space.free)⟩

/-- The loop of `deallocuvm`, from address `a` on. -/
def deallocuvmLoop (oldsz : Nat) (M : Machine) (a : Nat) : Option Machine :=
  if a < oldsz then
    match (walkpgdir M.space a false).1 with
    -- The next round adds `PGSIZE` again.
    | none => deallocuvmLoop oldsz M (a + (nptentries - 1) * pgsize + pgsize)
    | some pgtab =>
      match pgtab.pte (ptx a) with
      | none => deallocuvmLoop oldsz M (a + pgsize)
      | some pte =>
        if pte.frame = 0 then none
        else
          match M.kfree l pte.frame with
          | none => none
          | some M => deallocuvmLoop oldsz { M with space.dir := M.space.dir.setPte a pgtab none } (a + pgsize)
  else some M
termination_by oldsz - a
decreasing_by all_goals simp only [pgsize, nptentries]; omega

def deallocuvm (M : Machine) (oldsz newsz : Nat) : Option (Nat × Machine) :=
  if newsz ≥ oldsz then some (oldsz, M)
  else (deallocuvmLoop l oldsz M (pgroundup newsz)).map fun M => (newsz, M)

/-- The loop of `allocuvm`, for `k` pages from address `a` on. It returns 0 on failure. -/
def allocuvmLoop (oldsz newsz : Nat) : Nat → Machine → Nat → Option (Nat × Machine)
  | 0, M, _ => some (newsz, M)
  | k + 1, M, a =>
    match kalloc M.space.free with
    | (none, _) => (M.deallocuvm l newsz oldsz).map fun r => (0, r.2)
    | (some mem, free) =>
      let ram := Function.update M.ram mem zeroPage
      match mappages { M.space with free } a pgsize (mem * pgsize) (pteW ||| pteU) with
      | none => none
      | some (false, m) =>
        match deallocuvm l ⟨m, ram⟩ newsz oldsz with
        | none => none
        | some (_, M) => (M.kfree l mem).map fun M => (0, M)
      | some (true, m) => allocuvmLoop oldsz newsz k ⟨m, ram⟩ (a + pgsize)

def allocuvm (M : Machine) (oldsz newsz : Nat) : Option (Nat × Machine) :=
  if newsz ≥ kernbase then some (0, M)
  else if newsz < oldsz then some (oldsz, M)
  else allocuvmLoop l oldsz newsz ((newsz - pgroundup oldsz + pgsize - 1) / pgsize) M (pgroundup oldsz)

/-- The loop of `copyuvm`, for `k` pages from address `i` on; `false` is the jump to `bad`. -/
def copyuvmLoop (pgdir : Pgdir) : Nat → Machine → Nat → Option (Bool × Machine)
  | 0, D, _ => some (true, D)
  | k + 1, D, i =>
    match (walkpgdir { D.space with dir := pgdir } i false).1 with
    | none => none
    | some pgtab =>
      match pgtab.pte (ptx i) with
      | none => none
      | some pte =>
        match kalloc D.space.free with
        | (none, free) => some (false, { D with space.free := free })
        | (some mem, free) =>
          let ram := Function.update D.ram mem (D.ram pte.frame)
          match mappages { D.space with free } i pgsize (mem * pgsize) pte.flags with
          | none => none
          | some (false, d) => some (false, ⟨d, ram⟩)
          | some (true, d) => copyuvmLoop pgdir k ⟨d, ram⟩ (i + pgsize)

/-- The loop of `freevm` over the entries of the directory. -/
def freeTables (d : Pgdir) : List Nat → Machine → Option Machine
  | [], M => some M
  | i :: is, M =>
    match d.pde i with
    | none => freeTables d is M
    | some pgtab =>
      match M.kfree l pgtab.frame with
      | none => none
      | some M => freeTables d is M

def freevm (M : Machine) : Option Machine := do
  let (_, M) ← M.deallocuvm l kernbase 0
  let M ← freeTables l M.space.dir (List.range npdentries) M
  M.kfree l M.space.dir.frame

end Machine

/-- `copyuvm`; the new directory is the result, with the free list and the memory. -/
def copyuvmRam (l : KernelLayout) (pgdir : Pgdir) (free : List Frame) (ram : Ram) (sz : Nat) :
    Option (Option Pgdir × List Frame × Ram) :=
  match setupkvm l free with
  | none => none
  | some (none, free) => some (none, free, ram)
  | some (some d, free) =>
    match Machine.copyuvmLoop pgdir ((sz + pgsize - 1) / pgsize) ⟨⟨free, d⟩, ram⟩ 0 with
    | none => none
    | some (false, D) => (D.freevm l).map fun D => (none, D.space.free, D.ram)
    | some (true, D) => some (some D.space.dir, D.space.free, D.ram)

/-- `growproc` of a process of `sz` bytes: what it returns, the new size and the memory. -/
def growproc (l : KernelLayout) (M : Machine) (sz : Nat) (n : Int) : Option (Int × Nat × Machine) :=
  let newsz := (((sz : Int) + n) % 0x100000000).toNat
  let grown :=
    if n > 0 then M.allocuvm l sz newsz
    else if n < 0 then M.deallocuvm l sz newsz
    else some (sz, M)
  grown.map fun (r, M) => if r = 0 ∧ n ≠ 0 then (-1, sz, M) else (0, r, M)

/-! ### copyout -/

/-- How `copyout` ends. -/
inductive Copyout
  /-- `uva2ka` reads an entry of a table that is not there. -/
  | fault
  | ret (value : Int) (ram : Ram)

/-- `uva2ka`, as the page that the address points to; `none` is the read of an entry of a table that is not there. -/
def uva2ka (pgdir : Pgdir) (uva : Nat) : Option (Option Frame) :=
  (pgdir.pde (pdx uva)).map fun pgtab =>
    match pgtab.pte (ptx uva) with
    | none => none
    | some pte =>
      if pte.flags &&& pteU = 0 then none
      -- The address that `P2V` computes can be 0 itself.
      else if (pte.frame * pgsize + kernbase) % wordLimit = 0 then none
      else some pte.frame

/-- The loop of `copyout`, for at most `k` pages. -/
def copyoutLoop (pgdir : Pgdir) : Nat → Ram → Nat → List Byte → Copyout
  | 0, ram, _, _ => .ret 0 ram
  | k + 1, ram, va, buf =>
    if buf = [] then .ret 0 ram
    else
      let va0 := va / pgsize * pgsize
      match uva2ka pgdir va0 with
      | none => .fault
      | some none => .ret (-1) ram
      | some (some pa0) =>
        let n := min (pgsize - (va - va0)) buf.length
        let ram := Function.update ram pa0 ((ram pa0).patch (va - va0) (buf.take n))
        copyoutLoop pgdir k ram ((va0 + pgsize) % wordLimit) (buf.drop n)

def copyout (pgdir : Pgdir) (ram : Ram) (va : Nat) (buf : List Byte) : Copyout :=
  copyoutLoop pgdir ((va % pgsize + buf.length + pgsize - 1) / pgsize) ram va buf

end Xv6.Vm
