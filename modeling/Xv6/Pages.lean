import Xv6.Exec
import Xv6.Vm

/-! The system as the owner of physical pages: the processes with their kernel stacks and page directories, and the
    pipes with the files that refer to them. The operations are those of `proc.c`, `exec.c`, `pipe.c`, `file.c` and
    `sysfile.c`, over the free list and the page tables of `vm.c`. A panic is `none`. -/

namespace Xv6.Pages
open Lib Vm

/-- `struct pipe`, by the page it lies in. -/
structure Pipe where
  page : Frame
  readopen : Bool
  writeopen : Bool
  deriving DecidableEq

/-- `struct file`; `pipe` is there when the type is `FD_PIPE`. -/
structure File where
  ref : Nat
  pipe : Option Frame
  writable : Bool

structure Proc where
  state : ProcState
  kstack : Option Frame
  pgdir : Option Pgdir
  sz : Nat
  parent : Option (Fin nproc)
  ofile : Fin nofile → Option (Fin nfile)

structure State where
  free : List Frame
  kpgdir : Pgdir
  proc : Fin nproc → Proc
  file : Fin nfile → File
  pipes : List Pipe

variable (l : KernelLayout) (s : State)

namespace State

def setProc (i : Fin nproc) (p : Proc) : State := { s with proc := Function.update s.proc i p }

def setFile (f : Fin nfile) (file : File) : State := { s with file := Function.update s.file f file }

def setOfile (i : Fin nproc) (fd : Fin nofile) (o : Option (Fin nfile)) : State :=
  s.setProc i { s.proc i with ofile := Function.update (s.proc i).ofile fd o }

end State

/-! ### file.c and pipe.c -/

def filealloc : Option (Fin nfile) × State :=
  match (List.finRange nfile).find? fun f => (s.file f).ref = 0 with
  | none => (none, s)
  | some f => (some f, s.setFile f { s.file f with ref := 1 })

def filedup (f : Fin nfile) : Option State :=
  if (s.file f).ref < 1 then none else some (s.setFile f { s.file f with ref := (s.file f).ref + 1 })

def Pipe.close (q : Pipe) (writable : Bool) : Pipe :=
  if writable then { q with writeopen := false } else { q with readopen := false }

def pipeclose (p : Frame) (writable : Bool) : Option State :=
  match s.pipes.find? (·.page = p) with
  -- The pipe has been freed. Nothing is known about its flags then, and the worst is that it is freed again.
  | none => (kfree l s.free p).map fun free => { s with free }
  | some q =>
    if (q.close writable).readopen = false ∧ (q.close writable).writeopen = false then
      (kfree l s.free p).map fun free => { s with free, pipes := s.pipes.eraseP (·.page = p) }
    else some { s with pipes := s.pipes.map fun q => if q.page = p then q.close writable else q }

def fileclose (f : Fin nfile) : Option State :=
  if (s.file f).ref < 1 then none
  else if (s.file f).ref - 1 > 0 then some (s.setFile f { s.file f with ref := (s.file f).ref - 1 })
  else
    match (s.file f).pipe with
    | none => some (s.setFile f { s.file f with ref := 0, pipe := none })
    | some p => pipeclose l (s.setFile f { s.file f with ref := 0, pipe := none }) p (s.file f).writable

/-- Both files of a new pipe, if there are two files and a page for it. -/
def pipealloc : Option (Option (Fin nfile × Fin nfile) × State) :=
  match filealloc s with
  | (none, s) => some (none, s)
  | (some f0, s) =>
    match filealloc s with
    | (none, s) => (fileclose l s f0).map fun s => (none, s)
    | (some f1, s) =>
      match kalloc s.free with
      | (none, _) => (fileclose l s f0).bind fun s => (fileclose l s f1).map fun s => (none, s)
      | (some p, free) =>
        let s := { s with free, pipes := ⟨p, true, true⟩ :: s.pipes }
        let s := s.setFile f0 { s.file f0 with pipe := some p, writable := false }
        some (some (f0, f1), s.setFile f1 { s.file f1 with pipe := some p, writable := true })

def fdalloc (i : Fin nproc) (f : Fin nfile) : Option (Fin nofile) × State :=
  match (List.finRange nofile).find? fun fd => (s.proc i).ofile fd = none with
  | none => (none, s)
  | some fd => (some fd, s.setOfile i fd (some f))

def sysPipe (i : Fin nproc) : Option State :=
  match pipealloc l s with
  | none => none
  | some (none, s) => some s
  | some (some (rf, wf), s) =>
    match fdalloc s i rf with
    | (none, s) => (fileclose l s rf).bind fun s => fileclose l s wf
    | (some fd0, s) =>
      match fdalloc s i wf with
      | (none, s) => (fileclose l (s.setOfile i fd0 none) rf).bind fun s => fileclose l s wf
      | (some _, s) => some s

def sysClose (i : Fin nproc) (fd : Fin nofile) : Option State :=
  match (s.proc i).ofile fd with
  | none => some s
  | some f => fileclose l (s.setOfile i fd none) f

/-! ### proc.c -/

/-- The loop of `fork` over the descriptors of process `i`. -/
def dupFiles (i j : Fin nproc) : List (Fin nofile) → State → Option State
  | [], s => some s
  | fd :: fds, s =>
    match (s.proc i).ofile fd with
    | none => dupFiles i j fds s
    | some f =>
      match filedup s f with
      | none => none
      | some s => dupFiles i j fds (s.setOfile j fd (some f))

/-- `fork`, with what `allocproc` does in it. -/
def fork (i : Fin nproc) : Option State :=
  match (List.finRange nproc).find? fun j => (s.proc j).state = .unused with
  | none => some s
  | some j =>
    match kalloc s.free with
    | (none, free) => some ({ s with free }.setProc j { s.proc j with kstack := none })
    | (some kstack, free) =>
      match (s.proc i).pgdir with
      | none => none
      | some pgdir =>
        match copyuvm l pgdir free (s.proc i).sz with
        | none => none
        | some (none, free) =>
          (kfree l free kstack).map fun free => { s with free }.setProc j { s.proc j with kstack := none, pgdir := none }
        | some (some d, free) =>
          dupFiles i j (List.finRange nofile) ({ s with free }.setProc j
            { s.proc j with
              kstack := some kstack, pgdir := some d, sz := (s.proc i).sz, parent := some i, state := .runnable })

def growproc (i : Fin nproc) (n : Int) : Option State :=
  match (s.proc i).pgdir with
  | none => none
  | some pgdir =>
    let sz := (s.proc i).sz
    let newsz := (((sz : Int) + n) % 0x100000000).toNat
    let grown :=
      if n > 0 then allocuvm l ⟨s.free, pgdir⟩ sz newsz
      else if n < 0 then deallocuvm l ⟨s.free, pgdir⟩ sz newsz
      else some (sz, ⟨s.free, pgdir⟩)
    grown.map fun (r, m) =>
      -- On 0 the function returns -1, with `proc->sz` as it was.
      { s with free := m.free }.setProc i { s.proc i with pgdir := some m.dir, sz := if r = 0 ∧ n ≠ 0 then sz else r }

/-- The loop of `exit` over the descriptors. -/
def closeFiles (i : Fin nproc) : List (Fin nofile) → State → Option State
  | [], s => some s
  | fd :: fds, s =>
    match (s.proc i).ofile fd with
    | none => closeFiles i fds s
    | some f =>
      match fileclose l s f with
      | none => none
      | some s => closeFiles i fds (s.setOfile i fd none)

def exit (i : Fin nproc) : Option State :=
  if i = 0 then none
  else
    (closeFiles l i (List.finRange nofile) s).map fun s =>
      let s := { s with
        proc := fun j => if (s.proc j).parent = some i then { s.proc j with parent := some 0 } else s.proc j }
      s.setProc i { s.proc i with state := .zombie }

/-- `wait`; without an exited child the process returns or sleeps. The field `pgdir` keeps its value. -/
def wait (i : Fin nproc) : Option State :=
  match (List.finRange nproc).find? fun j => (s.proc j).parent = some i ∧ (s.proc j).state = .zombie with
  | none => some s
  | some j =>
    match (s.proc j).kstack, (s.proc j).pgdir with
    | some kstack, some pgdir =>
      match kfree l s.free kstack with
      | none => none
      | some free =>
        (freevm l ⟨free, pgdir⟩).map fun free =>
          { s with free }.setProc j { s.proc j with kstack := none, parent := none, state := .unused }
    | _, _ => none

/-! ### exec.c -/

/-- What `exec` gets from outside: whether there is an executable file, what the loop over the headers reads, and
    whether the arguments fit on the stack. -/
structure ExecEnv where
  elf : Bool
  phs : List Proghdr
  load : LoadEnv
  args : Bool

/-- The loop over the program headers, from header `i` on; `none` inside is `goto bad`. -/
def loadSegments (env : LoadEnv) : List Proghdr → Nat → Space → Nat → Option (Option Nat × Space)
  | [], _, m, sz => some (some sz, m)
  | ph :: phs, i, m, sz =>
    if env.header i = false then some (none, m)
    else if ph.type ≠ 1 then loadSegments env phs (i + 1) m sz
    else if ph.memsz < ph.filesz then some (none, m)
    else if ph.vaddr + ph.memsz < ph.vaddr then some (none, m)
    else
      match allocuvm l m sz (ph.vaddr + ph.memsz).toNat with
      | none => none
      | some (sz, m) =>
        if sz = 0 then some (none, m)
        else if ph.vaddr.toNat % pgsize ≠ 0 then some (none, m)
        else if env.segment i = false then some (none, m)
        else loadSegments env phs (i + 1) m sz

/-- `exec` up to the commit: the new image with its size, or `goto bad`. -/
def buildImage (env : ExecEnv) (m : Space) : Option (Option Nat × Space) :=
  match loadSegments l env.load env.phs 0 m 0 with
  | none => none
  | some (none, m) => some (none, m)
  | some (some sz, m) =>
    match allocuvm l m (pgroundup sz) (pgroundup sz + 2 * pgsize) with
    | none => none
    | some (sz, m) =>
      if sz = 0 then some (none, m)
      else (clearpteu m (sz - 2 * pgsize)).map fun m => (if env.args then some sz else none, m)

def exec (i : Fin nproc) (env : ExecEnv) : Option State :=
  if env.elf = false then some s
  else
    match setupkvm l s.free with
    | none => none
    | some (none, free) => some { s with free }
    | some (some d, free) =>
      match buildImage l env ⟨free, d⟩ with
      | none => none
      | some (none, m) => (freevm l m).map fun free => { s with free }
      | some (some sz, m) =>
        match (s.proc i).pgdir with
        | none => none
        | some oldpgdir =>
          (freevm l ⟨m.free, oldpgdir⟩).map fun free => { s with free }.setProc i { s.proc i with pgdir := some m.dir, sz }

/-! ### The system -/

inductive Op
  | fork
  | exec (env : ExecEnv)
  | sbrk (n : Int)
  | pipe
  | close (fd : Fin nofile)
  | exit
  | wait

/-- One operation of process `i`, which runs. -/
def step (e : Fin nproc × Op) : Option State :=
  if (s.proc e.1).state = .unused ∨ (s.proc e.1).state = .embryo ∨ (s.proc e.1).state = .zombie then none
  else
    match e.2 with
    | .fork => fork l s e.1
    | .exec env => exec l s e.1 env
    | .sbrk n => growproc l s e.1 n
    | .pipe => sysPipe l s e.1
    | .close fd => sysClose l s e.1 fd
    | .exit => exit l s e.1
    | .wait => wait l s e.1

/-! ### The boot (`main.c`) -/

/-- `freerange`, by physical addresses. -/
def freerange (free : List Frame) (vstart vend : Nat) : Option (List Frame) :=
  let first := pgroundup vstart / pgsize
  (List.range' first (vend / pgsize - first)).foldlM (kfree l) free

/-- The system with its first process. -/
def firstState (free : List Frame) (kpgdir : Pgdir) (kstack : Frame) (pgdir : Pgdir) (sz : Nat) : State where
  free := free
  kpgdir := kpgdir
  proc := fun i =>
    if i = 0 then ⟨.runnable, some kstack, some pgdir, sz, none, fun _ => none⟩ else ⟨.unused, none, none, 0, none,
      fun _ => none⟩
  file := fun _ => ⟨0, none, false⟩
  pipes := []

/-- The system after `kinit1`, `kvmalloc`, `kinit2` and `userinit`. -/
def boot : Option State := do
  let free ← freerange l [] l.kernelEnd (4 * 1024 * 1024)
  let (some kpgdir, free) ← setupkvm l free | none
  let free ← freerange l free (4 * 1024 * 1024) phystop
  let (some kstack, free) := kalloc free | none
  let (some pgdir, free) ← setupkvm l free | none
  let (some mem, free) := kalloc free | none
  let (true, m) ← mappages ⟨free, pgdir⟩ 0 pgsize (mem * pgsize) (pteW ||| pteU) | none
  some (firstState m.free kpgdir kstack m.dir pgsize)

end Xv6.Pages
