import Xv6.Lib.Fallible
import Xv6.Trap

/-! `exec` (`exec.c`), from the point where the file has been read: the two pages of the stack, the copy of
    the trampoline at its top, the arguments below it, and the commit to the new image. -/

namespace Xv6
open Lib

/-- What reading the file left behind: the size of the segments, their contents, the entry point and the
    new page table. `allocuvm` has refused every size from `KERNBASE` up. -/
structure Image where
  sz : Nat
  mem : Mem
  entry : Word
  pgdir : Addr
  below : sz < kernbase

/-- The fields of `struct proghdr` on which the size of the image depends. -/
structure Proghdr where
  type : Word
  vaddr : Word
  filesz : Word
  memsz : Word

/-- The size that `allocuvm` returns, with whether there are enough pages; 0 is a failure. -/
def allocuvmSize (oldsz newsz : Word) (enough : Bool) : Word :=
  if newsz.toNat ≥ kernbase then 0
  else if newsz < oldsz then oldsz
  else if enough then newsz
  else 0

/-- What the loop over the program headers gets from outside, by the number of the header: whether `readi` reads
    the header, whether there are enough pages, and whether `loaduvm` reads the segment. -/
structure LoadEnv where
  header : Nat → Bool
  enough : Nat → Bool
  segment : Nat → Bool

/-- The loop over the program headers, from header `i` on; `none` is `goto bad`. -/
def loadSize (env : LoadEnv) : List Proghdr → Nat → Word → Option Word
  | [], _, sz => some sz
  | ph :: phs, i, sz =>
    if env.header i = false then none
    else if ph.type ≠ 1 then loadSize env phs (i + 1) sz
    else if ph.memsz < ph.filesz then none
    else if ph.vaddr + ph.memsz < ph.vaddr then none
    else
      let sz := allocuvmSize sz (ph.vaddr + ph.memsz) (env.enough i)
      if sz = 0 then none
      else if ph.vaddr.toNat % pgsize ≠ 0 then none
      else if env.segment i = false then none
      else loadSize env phs (i + 1) sz

theorem allocuvmSize_lt {oldsz : Word} (newsz : Word) (enough : Bool) (h : oldsz.toNat < kernbase) :
    (allocuvmSize oldsz newsz enough).toNat < kernbase := by
  unfold allocuvmSize
  split_ifs with h1
  · decide
  · exact h
  · exact Nat.lt_of_not_le h1
  · decide

theorem loadSize_lt {env : LoadEnv} {phs : List Proghdr} {i : Nat} {sz sz' : Word} (hsz : sz.toNat < kernbase)
    (h : loadSize env phs i sz = some sz') : sz'.toNat < kernbase := by
  induction phs generalizing i sz with
  | nil =>
    cases h
    exact hsz
  | cons ph phs ih =>
    unfold loadSize at h
    dsimp only at h
    split_ifs at h
    · exact ih hsz h
    · exact ih (allocuvmSize_lt _ _ hsz) h

/-- The image after the loop over the program headers. -/
def Image.load (env : LoadEnv) (phs : List Proghdr) (mem : Mem) (entry : Word) (pgdir : Addr) : Option Image :=
  match h : loadSize env phs 0 0 with
  | none => none
  | some sz => some ⟨sz.toNat, mem, entry, pgdir, loadSize_lt (by decide) h⟩

/-- The instructions of `sigretimplicit`, as many bytes as lie between it and `alltraps`. -/
def sigretimplicitBytes : List Byte := [0x83, 0xC4, 0x04, 0xC3]

/-- The size of the process with its two stack pages; `none` is a refusal by `allocuvm`. -/
def Image.stackTop (img : Image) : Option Nat :=
  let sz := 2 * pgsize + pgroundup img.sz
  if sz ≥ kernbase then none else some sz

/-- The pages of the new image that user code may use: all below `sz`, but not the page below the stack. -/
def Accessible (sz a : Nat) : Prop := a < sz ∧ ¬(sz - 2 * pgsize ≤ a ∧ a < sz - pgsize)

instance (sz a : Nat) : Decidable (Accessible sz a) := inferInstanceAs (Decidable (_ ∧ _))

/-- The directory of the new image has a page table for the address: one of the image's own, which each span 4 MB, or
    one of the kernel's, whose pages are not for user code. -/
def HasTable (sz a : Nat) : Prop :=
  a / 0x400000 * 0x400000 < sz ∨ kernbase ≤ a ∧ a < kernbase + phystop ∨ devspace ≤ a

instance (sz a : Nat) : Decidable (HasTable sz a) := inferInstanceAs (Decidable (_ ∨ _))

/-- How `exec` stops: at a `goto bad`, or with `uva2ka` reading an entry of a page table that is not there. -/
inductive Stop
  | bad
  | fault
  deriving DecidableEq

/-- `copyout` to the new image. The first page that is not for user code decides how it fails; what it has copied until
    then is freed with the image. -/
def copyout (sz : Nat) (m : Mem) (va : Nat) (bs : List Byte) : Except Stop Mem :=
  match (List.range bs.length).find? fun i => ¬Accessible sz (va + i) with
  | none => .ok (storeBytes m va bs)
  | some i => .error (if HasTable sz (va + i) then .bad else .fault)

/-- `sp - n`, on 32 bits. -/
def below (sp n : Nat) : Nat := (2 ^ 32 + sp - n % 2 ^ 32) % 2 ^ 32

/-- The stack under construction: its pointer, the contents of the image, and the part of `ustack` that
    points at the arguments. -/
structure ArgStack where
  sp : Nat
  mem : Mem
  ustack : List Nat

namespace ArgStack

/-- The loop that pushes the argument strings. -/
def pushArgs (sz : Nat) : ArgStack → List (List Byte) → Except Stop ArgStack
  | a, [] => .ok a
  | a, s :: argv =>
    if a.ustack.length ≥ maxarg then .error .bad
    else do
      let sp := below a.sp (s.length + 1)
      let sp := sp - sp % 4
      let mem ← copyout sz a.mem sp (s ++ [0])
      pushArgs sz ⟨sp, mem, a.ustack ++ [sp]⟩ argv

/-- The words below the argument strings: a fake return address, `argc`, `argv`, and what `argv` points at. -/
def words (a : ArgStack) : List Word :=
  0xFFFFFFFF :: ([a.ustack.length, below a.sp ((a.ustack.length + 1) * 4)] ++ a.ustack ++ [0]).map (BitVec.ofNat 32)

/-- Push `ustack`. -/
def pushUstack (sz : Nat) (a : ArgStack) : Except Stop ArgStack := do
  let sp := below a.sp ((3 + a.ustack.length + 1) * 4)
  let mem ← copyout sz a.mem sp (a.words.flatMap wordBytes)
  .ok { a with sp, mem }

end ArgStack

/-- What `exec` builds at the top of the image: the trampoline, and below it the arguments. What the
    `copyout` of the trampoline returns is not looked at. -/
def Image.buildStack (img : Image) (sz : Nat) (argv : List (List Byte)) : Except Stop ArgStack := do
  let sp := sz - sigretimplicitBytes.length
  let mem ← match copyout sz img.mem sp sigretimplicitBytes with
    | .error .bad => .ok img.mem
    | r => r
  let a ← ArgStack.pushArgs sz ⟨sp, mem, []⟩ argv
  a.pushUstack sz

/-- What follows the last slash of `path`, as far as `proc->name` has room. -/
def progName (path : List Byte) : List Byte :=
  ((path.reverse.takeWhile (· ≠ 0x2F)).reverse).take 15

namespace Proc

/-- `proc->sigretAdd = sp; proc->procHandlingSigNow = 0`. -/
def setSigret (p : Proc) (sz : Nat) : Proc :=
  { p with sigretAdd := BitVec.ofNat 32 (sz - sigretimplicitBytes.length), procHandlingSigNow := 0 }

/-- The commit to the new image. -/
def commit (p : Proc) (img : Image) (sz : Nat) (a : ArgStack) (path : List Byte) : Proc :=
  { p with
    name := progName path
    pgdir := img.pgdir
    sz := BitVec.ofNat 32 sz
    frame := { p.frame with eip := img.entry, esp := BitVec.ofNat 32 a.sp }
    mem := a.mem }

/-- `exec` by process `p`, with the image that reading `path` gave; without one it has failed already. It does not
    return if `uva2ka` finds no page table. -/
def exec (p : Proc) (img : Option Image) (path : List Byte) (argv : List (List Byte)) : Option (Int × Proc) :=
  match img with
  | none => some (-1, p)
  | some img =>
    match img.stackTop with
    | none => some (-1, p)
    | some sz =>
      -- The two fields are set before the arguments are pushed, which may still fail.
      let p := p.setSigret sz
      match img.buildStack sz argv with
      | .error .fault => none
      | .error .bad => some (-1, p)
      | .ok a => some (0, p.commit img sz a path)

/-- How an `exec` can end: before it touches the process, with the new address of the trampoline in the old
    image, or in the new image. -/
inductive ExecEnd (p : Proc) (img : Option Image) (path : List Byte) (argv : List (List Byte)) :
    Int × Proc → Prop
  | early : ExecEnd p img path argv (-1, p)
  | late {im sz} : img = some im → im.stackTop = some sz → im.buildStack sz argv = .error .bad →
      ExecEnd p img path argv (-1, p.setSigret sz)
  | done {im sz a} : img = some im → im.stackTop = some sz → im.buildStack sz argv = .ok a →
      ExecEnd p img path argv (0, (p.setSigret sz).commit im sz a path)

theorem exec_end {p : Proc} {img : Option Image} {path : List Byte} {argv : List (List Byte)} {r : Int × Proc}
    (h : p.exec img path argv = some r) : ExecEnd p img path argv r := by
  unfold exec at h
  split at h
  · cases h
    exact .early
  · split at h
    · cases h
      exact .early
    · rename_i htop
      dsimp only at h
      split at h
      · cases h
      · cases h
        exact .late rfl htop ‹_›
      · cases h
        exact .done rfl htop ‹_›

end Proc

/-- What `exec` gets from outside: whether `namei` finds the path, whether the first bytes of the file are an ELF
    header, whether `setupkvm` and the last `allocuvm` get their pages, and what the loop over the program headers
    finds. -/
structure ExecEnv where
  found : Bool
  elf : Bool
  kvm : Bool
  phs : List Proghdr
  load : LoadEnv
  stack : Bool
  mem : Mem
  entry : Word
  pgdir : Addr

/-- The image that `exec` has loaded when it comes to the stack. -/
def ExecEnv.image (env : ExecEnv) : Option Image :=
  if env.found = false then none
  else if env.elf = false then none
  else if env.kvm = false then none
  else Image.load env.load env.phs env.mem env.entry env.pgdir

/-- `exec` from its start. -/
def Proc.execFile (p : Proc) (env : ExecEnv) (path : List Byte) (argv : List (List Byte)) : Option (Int × Proc) :=
  match env.image with
  | none => some (-1, p)
  | some img => if env.stack then p.exec (some img) path argv else some (-1, p)

end Xv6
