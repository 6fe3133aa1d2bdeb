import Xv6.Exec
import Xv6.Ram

/-! `exec` from the bytes of the file: the ELF header, the loop over the program headers with `allocuvm` and `loaduvm`,
    the pages of the stack and what is copied to them. A panic is `none`, and so is the read of an entry of a page table
    that is not there. -/

namespace Xv6.Loader
open Lib Vm

/-- The contents of a regular file. -/
abbrev Bytes := List Byte

/-- `readi` of a regular file; `none` is -1. -/
def readi (file : Bytes) (off n : Nat) : Option Bytes :=
  if off > file.length ∨ off + n ≥ wordLimit then none else some ((file.drop off).take n)

/-! ### elf.h -/

/-- The `uint` at offset `i`. -/
def uint (bs : Bytes) (i : Nat) : Nat :=
  (bs.getD i 0).toNat + (bs.getD (i + 1) 0).toNat * 2 ^ 8 + (bs.getD (i + 2) 0).toNat * 2 ^ 16 +
    (bs.getD (i + 3) 0).toNat * 2 ^ 24

/-- The `ushort` at offset `i`. -/
def ushort (bs : Bytes) (i : Nat) : Nat := (bs.getD i 0).toNat + (bs.getD (i + 1) 0).toNat * 2 ^ 8

abbrev elfMagic : Nat := 0x464C457F
abbrev sizeofElfhdr : Nat := 52
abbrev sizeofProghdr : Nat := 32
abbrev elfProgLoad : Nat := 1

/-- `struct elfhdr`, as far as `exec` looks at it. -/
structure Elfhdr where
  magic : Nat
  entry : Nat
  phoff : Nat
  phnum : Nat

def Elfhdr.ofBytes (bs : Bytes) : Elfhdr := ⟨uint bs 0, uint bs 24, uint bs 28, ushort bs 44⟩

/-- The ELF header of a file. -/
def elf (file : Bytes) : Elfhdr := .ofBytes (file.take sizeofElfhdr)

/-- `struct proghdr`, as far as `exec` looks at it. -/
structure Proghdr where
  type : Nat
  off : Nat
  vaddr : Nat
  filesz : Nat
  memsz : Nat
  deriving DecidableEq

def Proghdr.ofBytes (bs : Bytes) : Proghdr := ⟨uint bs 0, uint bs 4, uint bs 8, uint bs 16, uint bs 20⟩

/-! ### Loading -/

/-- The loop of `loaduvm`, for `k` pages from offset `i` on; `false` is the return of -1. -/
def loaduvmLoop (addr : Nat) (file : Bytes) (offset sz : Nat) : Nat → Machine → Nat → Option (Bool × Machine)
  | 0, M, _ => some (true, M)
  | k + 1, M, i =>
    match (walkpgdir M.space (addr + i) false).1 with
    | none => none
    | some pgtab =>
      -- Whether the entry is present is not looked at.
      let pa := (pgtab.pte (ptx (addr + i))).elim 0 Pte.frame
      let n := min (sz - i) pgsize
      match readi file ((offset + i) % wordLimit) n with
      | none => some (false, M)
      | some bs =>
        let M := { M with ram := Function.update M.ram pa ((M.ram pa).patch 0 bs) }
        if bs.length ≠ n then some (false, M) else loaduvmLoop addr file offset sz k M (i + pgsize)

def loaduvm (M : Machine) (addr : Nat) (file : Bytes) (offset sz : Nat) : Option (Bool × Machine) :=
  if addr % pgsize ≠ 0 then none else loaduvmLoop addr file offset sz ((sz + pgsize - 1) / pgsize) M 0

/-- The body of the loop over the program headers, once the header is read; the size is missing after `goto bad`. -/
def loadSegment (l : KernelLayout) (file : Bytes) (ph : Proghdr) (M : Machine) (sz : Nat) : Option (Option Nat × Machine) :=
  if ph.type ≠ elfProgLoad then some (some sz, M)
  else if ph.memsz < ph.filesz then some (none, M)
  else if (ph.vaddr + ph.memsz) % wordLimit < ph.vaddr then some (none, M)
  else
    match M.allocuvm l sz ((ph.vaddr + ph.memsz) % wordLimit) with
    | none => none
    | some (sz, M) =>
      if sz = 0 then some (none, M)
      else if ph.vaddr % pgsize ≠ 0 then some (none, M)
      else (loaduvm M ph.vaddr file ph.off ph.filesz).map fun (loaded, M) => (if loaded then some sz else none, M)

/-- The loop over the program headers, for `k` headers from offset `off` of the file on. -/
def loadSegments (l : KernelLayout) (file : Bytes) : Nat → Nat → Machine → Nat → Option (Option Nat × Machine)
  | 0, _, M, sz => some (some sz, M)
  | k + 1, off, M, sz =>
    match readi file off sizeofProghdr with
    | none => some (none, M)
    | some bs =>
      if bs.length ≠ sizeofProghdr then some (none, M)
      else
        (loadSegment l file (Proghdr.ofBytes bs) M sz).bind fun
          | (none, M) => some (none, M)
          | (some sz, M) => loadSegments l file k ((off + sizeofProghdr) % wordLimit) M sz

/-- The loading of the file and the pages of the stack, in the directory of `M`, which `setupkvm` has returned. -/
def loadImage (l : KernelLayout) (file : Bytes) (M : Machine) : Option (Option Nat × Machine) :=
  match loadSegments l file (elf file).phnum (elf file).phoff M 0 with
  | none => none
  | some (none, M) => some (none, M)
  | some (some sz, M) =>
    match M.allocuvm l (pgroundup sz) (pgroundup sz + 2 * pgsize) with
    | none => none
    | some (sz, M) =>
      if sz = 0 then some (none, M)
      else (clearpteu M.space (sz - 2 * pgsize)).map fun m => (some sz, { M with space := m })

/-! ### The stack -/

/-- The stack under construction. -/
structure Stack where
  sp : Nat
  ram : Ram
  ustack : List Nat

/-- The loop that pushes the argument strings; `none` inside is `goto bad`. -/
def pushArgs (d : Pgdir) : Stack → List Bytes → Option (Option Stack)
  | a, [] => some (some a)
  | a, s :: argv =>
    if a.ustack.length ≥ maxarg then some none
    else
      let sp := below a.sp (s.length + 1)
      let sp := sp - sp % 4
      match Vm.copyout d a.ram sp (s ++ [0]) with
      | .fault => none
      | .ret value ram => if value < 0 then some none else pushArgs d ⟨sp, ram, a.ustack ++ [sp]⟩ argv

/-- The words that `exec` pushes last. -/
def Stack.words (a : Stack) : List Word :=
  0xFFFFFFFF :: ([a.ustack.length, below a.sp ((a.ustack.length + 1) * 4)] ++ a.ustack ++ [0]).map (BitVec.ofNat 32)

def pushUstack (d : Pgdir) (a : Stack) : Option (Option Stack) :=
  let sp := below a.sp ((3 + a.ustack.length + 1) * 4)
  match Vm.copyout d a.ram sp (a.words.flatMap wordBytes) with
  | .fault => none
  | .ret value ram => some (if value < 0 then none else some { a with sp, ram })

/-- The trampoline, the strings and the words. What the first `copyout` returns is not looked at. -/
def buildStack (d : Pgdir) (ram : Ram) (sz : Nat) (argv : List Bytes) : Option (Option Stack) :=
  let sp := sz - sigretimplicitBytes.length
  match Vm.copyout d ram sp sigretimplicitBytes with
  | .fault => none
  | .ret _ ram =>
    match pushArgs d ⟨sp, ram, []⟩ argv with
    | none => none
    | some none => some none
    | some (some a) => pushUstack d a

/-- The image that `exec` commits to. -/
structure Image where
  pgdir : Pgdir
  sz : Nat
  entry : Nat
  esp : Nat
  ram : Ram

/-- The part of `exec` that fills the new directory. -/
def buildImage (l : KernelLayout) (file : Bytes) (argv : List Bytes) (M : Machine) : Option (Option Image) :=
  match loadImage l file M with
  | none => none
  | some (none, _) => some none
  | some (some sz, M) =>
    (buildStack M.space.dir M.ram sz argv).map fun o => o.map fun a => ⟨M.space.dir, sz, (elf file).entry, a.sp, a.ram⟩

/-- `exec` up to the commit; without an image it returns -1. -/
def exec (l : KernelLayout) (file : Bytes) (argv : List Bytes) (free : List Frame) (ram : Ram) : Option (Option Image) :=
  -- The comparison is unsigned, but `readi` does not return -1 for the start of a regular file.
  if file.length < sizeofElfhdr then some none
  else if (elf file).magic ≠ elfMagic then some none
  else
    match setupkvm l free with
    | none => none
    | some (none, _) => some none
    | some (some d, free) => buildImage l file argv ⟨⟨free, d⟩, ram⟩

end Xv6.Loader
