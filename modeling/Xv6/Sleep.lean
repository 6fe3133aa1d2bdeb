import Mathlib.Logic.Function.Basic
import Xv6.Lib.Run
import Xv6.Proc

/-! `sleep`, `wakeup` and `kill` (`proc.c`), at the grain of single lock operations and single stores. Any number of
    processes test a condition under a lock `lk` and sleep while it is false, make it true and wake the sleepers, or
    kill one another. The lock may be `ptable.lock` itself, as in `wait`. -/

namespace Xv6.Sleep
open Lib

/-- The locks: `ptable.lock`, and another one. -/
inductive Lock
  | ptable
  | other
  deriving DecidableEq

/-- Where a process stands: at the statement that it executes next. -/
inductive Pc
  | idle
  /-- `acquire(lk)`, before the test. -/
  | lock
  | test
  /-- The condition was true: the process uses it, with the lock. -/
  | use
  | unlock
  /-- In `sleep`: `acquire(&ptable.lock)`, `release(lk)`. -/
  | sleepAcquire
  | sleepRelease
  /-- `proc->chan = chan`, `proc->state = SLEEPING`, and `sched`, with `ptable.lock`. -/
  | setChan
  | setState
  | sched
  | asleep
  /-- Running again: `proc->chan = 0`, and `release(&ptable.lock)`. -/
  | tidy
  | sleepUnlock
  /-- `acquire(lk)`, before the condition is made true. -/
  | wakerLock
  | makeTrue
  /-- `release(lk)`, before the call of `wakeup`. -/
  | wakerRelease
  /-- In `wakeup`, with `lk` or not: `acquire(&ptable.lock)`, `wakeup1` at entry `i`, `release(&ptable.lock)`. -/
  | wakeupAcquire (held : Bool)
  | wakeup1 (held : Bool) (i : Nat)
  | wakeupRelease (held : Bool)
  /-- `release(lk)`, after the call of `wakeup`. -/
  | wakerUnlock
  /-- In `kill` of process `t`. -/
  | killAcquire (t : Nat)
  | kill (t : Nat)
  | killRelease
  deriving DecidableEq

/-- A process. `tested` is the number of critical sections of wakers at its last test, and `mine` the number of its
    own last critical section. -/
structure Thread where
  pc : Pc
  state : ProcState
  chan : Nat
  killed : Bool
  tested : Nat
  mine : Nat

/-- `sections` counts the critical sections of wakers, and `done` has the numbers of those whose `wakeup` has been
    through the whole table. -/
structure State (n : Nat) where
  cond : Bool
  holder : Lock → Option (Fin n)
  th : Fin n → Thread
  sections : Nat
  done : List Nat

namespace State
variable {n : Nat}

def set (s : State n) (p : Fin n) (t : Thread) : State n := { s with th := Function.update s.th p t }

/-- Process `p` takes the lock if it is free, and becomes `t`. -/
def acquire (s : State n) (l : Lock) (p : Fin n) (t : Thread) : Option (State n) :=
  if s.holder l = none then some { s.set p t with holder := Function.update s.holder l (some p) } else none

def release (s : State n) (l : Lock) (p : Fin n) (t : Thread) : Option (State n) :=
  some { s.set p t with holder := Function.update s.holder l none }

/-- A sleeper, or only one on channel `chan`, becomes runnable. -/
def wake (s : State n) (chan : Option Nat) (i : Fin n) : State n :=
  if (s.th i).state = .sleeping ∧ (chan = none ∨ chan = some (s.th i).chan) then
    s.set i { s.th i with state := .runnable }
  else s

/-- What an idle process begins with. -/
inductive Task
  | sleeper
  | waker
  | killer (t : Nat)

def Task.pc : Task → Pc
  | .sleeper => .lock
  | .waker => .wakerLock
  | .killer t => .killAcquire t

inductive Event (n : Nat)
  | start (p : Fin n) (task : Task)
  /-- Process `p` executes its next statement. `choice` decides what the code leaves open: whether a user of the
      condition keeps it true, whether a killed process gives up, and whether a waker calls `wakeup` with the lock. -/
  | step (p : Fin n) (choice : Bool)

/-- The next statement of process `p`, where sleepers use the lock `lk` and the channel `chan`. -/
def next (lk : Lock) (chan : Nat) (s : State n) (p : Fin n) (choice : Bool) : Option (State n) :=
  let t := s.th p
  match t.pc with
  | .idle => none
  | .lock => s.acquire lk p { t with pc := .test }
  | .test =>
    let t := { t with tested := s.sections }
    if s.cond then some (s.set p { t with pc := .use })
    else if t.killed && choice then some (s.set p { t with pc := .unlock })
    else some (s.set p { t with pc := if lk = .ptable then .setChan else .sleepAcquire })
  | .use => some { s.set p { t with pc := .unlock } with cond := s.cond && choice }
  | .unlock => s.release lk p { t with pc := .idle }
  | .sleepAcquire => s.acquire .ptable p { t with pc := .sleepRelease }
  | .sleepRelease => s.release lk p { t with pc := .setChan }
  | .setChan => some (s.set p { t with chan, pc := .setState })
  | .setState => some (s.set p { t with state := .sleeping, pc := .sched })
  -- The scheduler releases the lock.
  | .sched => s.release .ptable p { t with pc := .asleep }
  -- The scheduler takes the lock before it switches to a process.
  | .asleep => if t.state = .runnable then s.acquire .ptable p { t with state := .running, pc := .tidy } else none
  | .tidy => some (s.set p { t with chan := 0, pc := if lk = .ptable then .test else .sleepUnlock })
  | .sleepUnlock => s.release .ptable p { t with pc := .lock }
  | .wakerLock => s.acquire lk p { t with pc := .makeTrue }
  | .makeTrue =>
    let pc := if choice then (if lk = .ptable then .wakeup1 true 0 else .wakeupAcquire true) else .wakerRelease
    some { s.set p { t with pc, mine := s.sections + 1 } with cond := true, sections := s.sections + 1 }
  | .wakerRelease => s.release lk p { t with pc := .wakeupAcquire false }
  | .wakeupAcquire held => s.acquire .ptable p { t with pc := .wakeup1 held 0 }
  | .wakeup1 held i =>
    if h : i < n then
      let s := s.wake (some chan) ⟨i, h⟩
      some (s.set p { s.th p with pc := .wakeup1 held (i + 1) })
    else
      let pc := if held = true ∧ lk = .ptable then .wakerUnlock else .wakeupRelease held
      some { s.set p { t with pc } with done := t.mine :: s.done }
  | .wakeupRelease held => s.release .ptable p { t with pc := if held then .wakerUnlock else .idle }
  | .wakerUnlock => s.release lk p { t with pc := .idle }
  | .killAcquire i => s.acquire .ptable p { t with pc := .kill i }
  | .kill i =>
    if h : i < n then
      let s := s.set ⟨i, h⟩ { s.th ⟨i, h⟩ with killed := true }
      let s := s.wake none ⟨i, h⟩
      some (s.set p { s.th p with pc := .killRelease })
    else some (s.set p { t with pc := .killRelease })
  | .killRelease => s.release .ptable p { t with pc := .idle }

def step (lk : Lock) (chan : Nat) (s : State n) : Event n → Option (State n)
  | .start p task => if (s.th p).pc = .idle then some (s.set p { s.th p with pc := task.pc }) else none
  | .step p choice => s.next lk chan p choice

/-- All processes are idle. -/
def init (n : Nat) (cond : Bool) : State n := ⟨cond, fun _ => none, fun _ => ⟨.idle, .running, 0, false, 0, 0⟩, 0, []⟩

end State

end Xv6.Sleep
