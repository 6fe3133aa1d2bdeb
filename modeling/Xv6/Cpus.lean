import Xv6.Lib.Run
import Xv6.System

/-! Any number of CPUs over one process table. A CPU is in `scheduler`, or it executes a process; `ptable.lock` goes
    with the CPU through `swtch`, from the process that gives the CPU up to the scheduler, and from there to the
    process that runs next. What a function does while it holds the lock is one step, but for `swtch` and the rounds
    of the scheduler's loop, which are steps of their own. -/

namespace Xv6
open Lib

namespace Kernel

/-- What `allocproc` does with the lock. -/
def embryo (k : Kernel) : Option (Fin nproc) × Kernel :=
  match (List.finRange nproc).find? fun i => (k.proc i).state = .unused with
  | none => (none, k)
  | some i => (some i, { k with nextpid := int32 (k.nextpid + 1) }.set i { k.proc i with
      state := .embryo
      pid := k.nextpid
      pending := fun _ => 0
      sighandlers := fun _ => defualtHandlerAdd
      alarmTicksNum := 0 })

/-- The rest of `allocproc`, without the lock. -/
def giveStack (k : Kernel) (j : Fin nproc) (kstack : Addr) : Bool × Kernel :=
  if kstack = 0 then (false, k.set j { k.proc j with kstack, state := .unused })
  else
    let tf := kstack + kstacksize - sizeofTrapframe
    (true, k.set j { k.proc j with kstack, tf, context := tf - 4 - 20, frame := .ofWords fun _ => 0x01010101 })

/-- What `fork` does by slot `i` before it takes the lock again. -/
def copyProc (k : Kernel) (i j : Fin nproc) (pgdir : Addr) : Bool × Kernel :=
  let np := k.proc j
  let p := k.proc i
  if pgdir = 0 then (false, k.set j { np with pgdir := 0, kstack := 0, state := .unused })
  else
    (true, k.set j { np with
      pgdir
      mem := p.mem
      sz := p.sz
      parent := some i
      frame := { p.frame with eax := 0 }
      alarmTicksNum := p.alarmTicksNum
      ofile := fun fd => if p.ofile fd ≠ 0 then p.ofile fd else np.ofile fd
      cwd := p.cwd
      name := p.name })

def setState (k : Kernel) (i : Fin nproc) (state : ProcState) : Kernel := k.set i { k.proc i with state }

/-- The parts make up `allocproc`. -/
theorem allocproc_eq (k : Kernel) (kstack : Addr) : k.allocproc kstack =
    match k.embryo with
    | (none, k) => (none, k)
    | (some j, k) => (if (k.giveStack j kstack).1 then some j else none, (k.giveStack j kstack).2) := by
  unfold allocproc embryo
  cases (List.finRange nproc).find? fun i => (k.proc i).state = .unused with
  | none => rfl
  | some i =>
    by_cases hk : kstack = 0#32
    · simp [giveStack, hk, set]
    · simp [giveStack, hk, set]

/-- The parts make up `fork`. -/
theorem fork_eq (k : Kernel) (i : Fin nproc) (kstack pgdir : Addr) : k.fork i kstack pgdir =
    match k.allocproc kstack with
    | (none, k) => (-1, k)
    | (some j, k) =>
      if (k.copyProc i j pgdir).1 then ((k.proc j).pid, (k.copyProc i j pgdir).2.setState j .runnable)
      else (-1, (k.copyProc i j pgdir).2) := by
  unfold fork
  obtain ⟨r, k'⟩ := k.allocproc kstack
  cases r with
  | none => rfl
  | some j =>
    by_cases hp : pgdir = 0#32
    · simp [copyProc, hp]
    · simp [copyProc, hp, setState, set]

end Kernel

namespace Cpus

/-- Where a CPU is. -/
inductive Place
  /-- In `scheduler`, before `acquire`. -/
  | idle
  /-- In the loop of `scheduler` at entry `i`, with the lock. -/
  | scan (i : Nat)
  /-- In process `p`, without the lock. -/
  | run (p : Fin nproc)
  /-- In process `p`, to which the scheduler has just switched, with the lock. -/
  | resumed (p : Fin nproc)
  /-- In process `p`, in `sched` before `swtch`, with the lock. -/
  | leaving (p : Fin nproc)
  deriving DecidableEq

structure Cpu where
  place : Place
  proc : Option (Fin nproc)
  deriving DecidableEq

/-- Where a process goes on when the scheduler switches to it. -/
inductive Resume
  | forkret
  | yield
  | sleep
  | wait
  deriving DecidableEq

/-- How far a process is in `fork`, and with which slot. -/
inductive Stage
  | out
  | embryo (np : Fin nproc)
  | stack (np : Fin nproc)
  | copied (np : Fin nproc)
  deriving DecidableEq

/-- What a call of `wait` has returned, and the parent that the zombie with this pid had. -/
structure Reap where
  caller : Fin nproc
  pid : Int
  parent : Option (Fin nproc)
  deriving DecidableEq

/-- `exited`, `returned` and `forks` record what has happened. -/
structure Machine (n : Nat) where
  k : Kernel
  cpu : Fin n → Cpu
  lock : Option (Fin n)
  resume : Fin nproc → Resume
  stage : Fin nproc → Stage
  exited : List Int
  returned : List Reap
  forks : Nat

inductive Event (n : Nat)
  | acquire (c : Fin n)
  | scan (c : Fin n)
  | resume (c : Fin n)
  | swtch (c : Fin n)
  | yield (c : Fin n)
  | sleep (c : Fin n) (chan : Addr)
  | wakeup (c : Fin n) (chan : Addr)
  | kill (c : Fin n) (pid : Int)
  | forkAlloc (c : Fin n)
  | forkStack (c : Fin n) (kstack : Addr)
  | forkCopy (c : Fin n) (pgdir : Addr)
  | forkRun (c : Fin n)
  | exit (c : Fin n)
  | wait (c : Fin n)

namespace Machine
variable {n : Nat}

def setCpu (m : Machine n) (c : Fin n) (cpu : Cpu) : Machine n := { m with cpu := Function.update m.cpu c cpu }

/-- Process `p` on CPU `c` has changed its state with the lock, and calls `sched`. -/
def sched (m : Machine n) (c : Fin n) (p : Fin nproc) (k : Kernel) (resume : Resume) : Machine n :=
  { m.setCpu c ⟨.leaving p, some p⟩ with k, lock := some c, resume := Function.update m.resume p resume }

/-- The loop of `wait` by process `p`, from the start of the table, with the lock. -/
def waitLoop (L : Layout) (m : Machine n) (c : Fin n) (p : Fin nproc) : Machine n :=
  match (m.k.wait L p).1 with
  | .sleeps => m.sched c p (m.k.wait L p).2 .wait
  | .ret pid =>
    let z := (List.finRange nproc).find? fun j => (m.k.proc j).pid = pid ∧ (m.k.proc j).state = .zombie
    { m.setCpu c ⟨.run p, some p⟩ with
      k := (m.k.wait L p).2
      lock := none
      returned := if pid = -1 then m.returned else ⟨p, pid, z.bind fun j => (m.k.proc j).parent⟩ :: m.returned }

/-- The rest of `sched`, in the process to which the CPU has switched. -/
def goOn (L : Layout) (m : Machine n) (c : Fin n) (p : Fin nproc) : Machine n :=
  match m.resume p with
  | .forkret | .yield => { m.setCpu c ⟨.run p, some p⟩ with lock := none }
  | .sleep => { m.setCpu c ⟨.run p, some p⟩ with k := m.k.set p { m.k.proc p with chan := 0 }, lock := none }
  | .wait => waitLoop L { m with k := m.k.set p { m.k.proc p with chan := 0 } } c p

/-- One round of the loop of `scheduler`, or its end. -/
def scanAt (m : Machine n) (c : Fin n) (i : Nat) : Machine n :=
  if h : i < nproc then
    if (m.k.proc ⟨i, h⟩).state = .runnable then
      { m.setCpu c ⟨.resumed ⟨i, h⟩, some ⟨i, h⟩⟩ with k := m.k.setState ⟨i, h⟩ .running }
    else m.setCpu c ⟨.scan (i + 1), none⟩
  else { m.setCpu c ⟨.idle, none⟩ with lock := none }

/-- A step of the process that CPU `c` executes, with `ptable.lock` free. -/
def locked (m : Machine n) (c : Fin n) (f : Fin nproc → Option (Machine n)) : Option (Machine n) :=
  match (m.cpu c).place with
  | .run p => if m.lock = none then f p else none
  | _ => none

def step (L : Layout) (m : Machine n) : Event n → Option (Machine n)
  | .acquire c =>
    if (m.cpu c).place = .idle ∧ m.lock = none then some { m.setCpu c ⟨.scan 0, none⟩ with lock := some c } else none
  | .scan c =>
    match (m.cpu c).place with
    | .scan i => some (m.scanAt c i)
    | _ => none
  | .resume c =>
    match (m.cpu c).place with
    | .resumed p => some (m.goOn L c p)
    | _ => none
  | .swtch c =>
    match (m.cpu c).place with
    | .leaving p => some (m.setCpu c ⟨.scan (p.val + 1), none⟩)
    | _ => none
  | .yield c => m.locked c fun p => some (m.sched c p (m.k.setState p .runnable) .yield)
  | .sleep c chan => m.locked c fun p => some (m.sched c p (m.k.set p { m.k.proc p with chan, state := .sleeping }) .sleep)
  -- An interrupt may call `wakeup` on a CPU that is in `scheduler`.
  | .wakeup c chan =>
    match (m.cpu c).place with
    | .idle | .run _ => if m.lock = none then some { m with k := m.k.wakeup1 chan } else none
    | _ => none
  | .kill c pid => m.locked c fun _ => some { m with k := (m.k.kill pid).2 }
  | .forkAlloc c => m.locked c fun p =>
    if m.stage p = .out then
      match m.k.embryo with
      | (none, k) => some { m with k, forks := m.forks + 1 }
      | (some np, k) => some { m with k, stage := Function.update m.stage p (.embryo np), forks := m.forks + 1 }
    else none
  | .forkStack c kstack =>
    match (m.cpu c).place with
    | .run p =>
      match m.stage p with
      | .embryo np =>
        let r := m.k.giveStack np kstack
        some { m with k := r.2, stage := Function.update m.stage p (if r.1 then .stack np else .out) }
      | _ => none
    | _ => none
  | .forkCopy c pgdir =>
    match (m.cpu c).place with
    | .run p =>
      match m.stage p with
      | .stack np =>
        let r := m.k.copyProc p np pgdir
        some { m with k := r.2, stage := Function.update m.stage p (if r.1 then .copied np else .out) }
      | _ => none
    | _ => none
  | .forkRun c => m.locked c fun p =>
    match m.stage p with
    | .copied np => some { m with k := m.k.setState np .runnable, stage := Function.update m.stage p .out,
                                   resume := Function.update m.resume np .forkret }
    | _ => none
  | .exit c => m.locked c fun p =>
    if m.stage p = .out then
      (m.k.exit L p).map fun k => { m.sched c p k .yield with exited := (m.k.proc p).pid :: m.exited }
    else none
  | .wait c => m.locked c fun p => if m.stage p = .out then some (m.waitLoop L c p) else none

/-- All CPUs enter `scheduler` after `userinit`. -/
def start (n : Nat) (kstack pgdir : Addr) (initcode : Mem) (cwd : Addr) : Machine n where
  k := Kernel.zeroed.userinit kstack pgdir initcode cwd
  cpu := fun _ => ⟨.idle, none⟩
  lock := none
  resume := fun _ => .forkret
  stage := fun _ => .out
  exited := []
  returned := []
  forks := 0

end Machine

end Cpus

end Xv6
