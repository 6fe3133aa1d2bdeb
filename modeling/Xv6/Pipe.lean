import Xv6.Lib.Ring
import Xv6.Lib.Run
import Xv6.Params

/-! Pipes (`pipe.c`), and the processes that share one. A step is the code between two points at which
    `p->lock` is released, so that the lock is free in every state: a call up to its return or to its
    `sleep`, or a woken call up to its return or to its next `sleep`. `kill` takes only `ptable.lock`, so that
    it can also hit the process that holds `p->lock`, in the middle of a step. -/

namespace Xv6.Pipes
open Lib

abbrev pipesize : Nat := 512

instance : NeZero pipesize := ⟨by decide⟩

/-! ### struct pipe -/

structure Pipe where
  ring : Ring 32 pipesize Byte
  readopen : Bool
  writeopen : Bool

namespace Pipe

/-- `p->nread == p->nwrite`. -/
def Empty (p : Pipe) : Prop := p.ring.nread = p.ring.nwrite

/-- `p->nwrite == p->nread + PIPESIZE`. -/
def Full (p : Pipe) : Prop := p.ring.nwrite = p.ring.nread + BitVec.ofNat 32 pipesize

instance (p : Pipe) : Decidable p.Empty := inferInstanceAs (Decidable (_ = _))

instance (p : Pipe) : Decidable p.Full := inferInstanceAs (Decidable (_ = _))

/-- How the loop of `pipewrite` ends. -/
inductive WriteEnd
  | returns
  | fails
  | sleeps
  deriving DecidableEq

/-- The loop of `pipewrite`, up to the end of the call or to a `sleep`. The result has the bytes that have
    not been stored. -/
def pipewrite (killed : Bool) : Pipe → List Byte → Pipe × List Byte × WriteEnd
  | p, [] => (p, [], .returns)
  | p, c :: addr =>
    if p.Full then (p, c :: addr, if p.readopen = false ∨ killed then .fails else .sleeps)
    else pipewrite killed { p with ring := p.ring.put c } addr

/-- The second loop of `piperead`, with the bytes it copies. -/
def pipereadCopy : Nat → Pipe → Pipe × List Byte
  | 0, p => (p, [])
  | n + 1, p =>
    if p.Empty then (p, [])
    else
      let r := pipereadCopy n { p with ring := p.ring.pop }
      (r.1, p.ring.front :: r.2)

end Pipe

/-! ### The processes -/

/-- The two ends of the pipe. -/
inductive End
  | read
  | write
  deriving DecidableEq

/-- The channels `&p->nread` and `&p->nwrite`. -/
inductive Chan
  | nread
  | nwrite
  deriving DecidableEq

/-- What a process is doing: nothing with the pipe, or a call that has slept, with what it has left to do. -/
inductive Phase
  | idle
  | writing (addr : List Byte)
  | reading (n : Nat)
  deriving DecidableEq

/-- A process, with the number of its descriptors for each end. A process in a call that is not asleep has
    been woken. -/
structure User where
  phase : Phase
  asleep : Option Chan
  killed : Bool
  fds : End → Nat

structure System where
  pipe : Pipe
  proc : Fin nproc → User

namespace System

def set (s : System) (i : Fin nproc) (u : User) : System := { s with proc := Function.update s.proc i u }

def wakeup (s : System) (chan : Chan) : System :=
  { s with proc := fun i => if (s.proc i).asleep = some chan then { s.proc i with asleep := none } else s.proc i }

/-- A step of `pipewrite` by process `i`, with the bytes that are left and with `proc->killed` as the step finds
    it when the pipe is full. -/
def pipewrite (s : System) (i : Fin nproc) (killed : Bool) (addr : List Byte) : System :=
  let r := s.pipe.pipewrite killed addr
  let s := { s with pipe := r.1 }
  match r.2.2 with
  | .returns => (s.wakeup .nread).set i { s.proc i with phase := .idle }
  | .fails => s.set i { s.proc i with phase := .idle }
  | .sleeps => (s.wakeup .nread).set i { s.proc i with phase := .writing r.2.1, asleep := some .nwrite }

/-- A step of `piperead` by process `i`, with `proc->killed` as the step finds it when the pipe is empty. -/
def piperead (s : System) (i : Fin nproc) (killed : Bool) (n : Nat) : System :=
  if s.pipe.Empty ∧ s.pipe.writeopen then
    if killed then s.set i { s.proc i with phase := .idle }
    else s.set i { s.proc i with phase := .reading n, asleep := some .nread }
  else
    let s := { s with pipe := (s.pipe.pipereadCopy n).1 }
    (s.wakeup .nwrite).set i { s.proc i with phase := .idle }

/-- `pipeclose`. The page is given back when both ends are closed; no process can reach it then. -/
def pipeclose (s : System) : End → System
  | .write => { s with pipe := { s.pipe with writeopen := false } }.wakeup .nread
  | .read => { s with pipe := { s.pipe with readopen := false } }.wakeup .nwrite

/-- `fileclose` of a descriptor: the last one for an end closes it. -/
def fileclose (s : System) (i : Fin nproc) (e : End) : System :=
  let fds := Function.update (s.proc i).fds e ((s.proc i).fds e - 1)
  let s := s.set i { s.proc i with fds }
  if ∀ j, (s.proc j).fds e = 0 then s.pipeclose e else s

end System

/-- Whether a `kill` hits the process while it holds `p->lock`: not at all, before the one test of `proc->killed`
    that a step can make, or after it. -/
inductive Hit
  | none
  | before
  | after
  deriving DecidableEq

/-- `proc->killed` at the test. -/
def System.killedAt (s : System) (i : Fin nproc) (h : Hit) : Bool := (s.proc i).killed || h = .before

/-- The flag at the end of a step. The process is not SLEEPING when it is hit, so `kill` wakes nobody. -/
def System.hit (s : System) (i : Fin nproc) (h : Hit) : System :=
  s.set i { s.proc i with killed := (s.proc i).killed || h ≠ .none }

/-- The steps. -/
inductive Event
  | write (i : Fin nproc) (addr : List Byte) (h : Hit)
  | read (i : Fin nproc) (n : Nat) (h : Hit)
  /-- A woken process takes the lock again and goes on. -/
  | resume (i : Fin nproc) (h : Hit)
  /-- `kill` of a process that does not hold `p->lock`. -/
  | kill (i : Fin nproc)
  /-- A descriptor of process `i` is copied, by `dup` or by `fork` to the new process `j`. -/
  | dup (i j : Fin nproc) (e : End)
  | close (i : Fin nproc) (e : End)
  /-- The slot of a process that has exited is given to a new process. -/
  | reuse (i : Fin nproc)

/-- The step function. A process makes a call only with a descriptor for that end, and none of its
    descriptors is closed while it is in a call. -/
def System.step (s : System) : Event → Option System
  | .write i addr h =>
    if (s.proc i).phase = .idle ∧ 0 < (s.proc i).fds .write then
      some ((s.pipewrite i (s.killedAt i h) addr).hit i h)
    else none
  | .read i n h =>
    if (s.proc i).phase = .idle ∧ 0 < (s.proc i).fds .read then
      some ((s.piperead i (s.killedAt i h) n).hit i h)
    else none
  | .resume i h =>
    if (s.proc i).asleep = none then
      match (s.proc i).phase with
      | .idle => none
      | .writing addr => some ((s.pipewrite i (s.killedAt i h) addr).hit i h)
      | .reading n => some ((s.piperead i (s.killedAt i h) n).hit i h)
    else none
  -- A sleeping process is woken, on whatever channel it sleeps.
  | .kill i => some (s.set i { s.proc i with killed := true, asleep := none })
  | .dup i j e =>
    if (s.proc i).phase = .idle ∧ (s.proc j).phase = .idle ∧ 0 < (s.proc i).fds e then
      some (s.set j { s.proc j with fds := Function.update (s.proc j).fds e ((s.proc j).fds e + 1) })
    else none
  | .close i e => if (s.proc i).phase = .idle ∧ 0 < (s.proc i).fds e then some (s.fileclose i e) else none
  | .reuse i =>
    if (s.proc i).phase = .idle ∧ (s.proc i).fds .read = 0 ∧ (s.proc i).fds .write = 0 then
      some (s.set i { s.proc i with killed := false })
    else none

/-- The call that a step works on, with what it has left to do and the `kill` that hits it. -/
def System.callOf (s : System) : Event → Option (Fin nproc × Phase × Hit)
  | .write i addr h => some (i, .writing addr, h)
  | .read i n h => some (i, .reading n, h)
  | .resume i h => some (i, (s.proc i).phase, h)
  | .kill _ | .dup _ _ _ | .close _ _ | .reuse _ => none

/-- `pipealloc` for process `i`, on a page with the contents `data`. -/
def System.pipealloc (data : Fin pipesize → Byte) (i : Fin nproc) : System where
  pipe := ⟨⟨data, 0, 0⟩, true, true⟩
  proc := fun j => ⟨.idle, none, false, fun _ => if j = i then 1 else 0⟩

end Xv6.Pipes
