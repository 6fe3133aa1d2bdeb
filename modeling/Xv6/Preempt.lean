import Xv6.Lib.Run
import Xv6.Trap

/-! A process that uses the thread library, together with the timer that preempts its threads. The library
    disables switching with `alarm(0)` and enables it with `alarm(UTHREAD_QUANTA)`; `Alarm` runs on the
    first processor, statement by statement, while the process may be running on another; and every trap
    return starts `uthread_yield` if the alarm signal is pending. Which thread the lottery chooses and what
    the routines do to the pool is left open. -/

namespace Xv6.Preempt
open Lib

/-- How far `Alarm` has come with the process: it has seen ticks left, has read their number, has stored it
    less one, and has seen that none is left. -/
inductive TickPc
  | idle | tested | loaded (v : Int) | stored | expired
  deriving DecidableEq

/-- The next statement of `Alarm` for process `p`. -/
def alarmStep (p : Proc) : TickPc → Proc × TickPc
  | .idle => (p, if p.alarmTicksNum > 0 then .tested else .idle)
  | .tested => (p, .loaded p.alarmTicksNum)
  | .loaded v => ({ p with alarmTicksNum := v - 1 }, .stored)
  | .stored => (p, if p.alarmTicksNum = 0 then .expired else .idle)
  | .expired => ({ p with pending := Function.update p.pending sigalrm 1 }, .idle)

/-- Where a routine of the library stands. -/
inductive Pc
  /-- before `alarm(0)` in `uthread_create`, `uthread_exit`, `uthread_yield` and the loop of `uthred_join` -/
  | createMask | exitMask | yieldMask | joinMask
  /-- `uthread_create` looks for a free slot and loads it -/
  | createLoad
  /-- `uthread_exit` in its last loop -/
  | exitLoop
  /-- `uthread_yield` picks a thread and continues with it -/
  | yieldPick
  /-- `uthred_join` looks for the thread -/
  | joinScan
  /-- before `alarm(UTHREAD_QUANTA)` in `uthread_create`, `uthred_join`, a resumed `uthread_yield` and
      `execute_thread` -/
  | createUnmask | joinUnmask | yieldResume | executeThread
  deriving DecidableEq

/-- The process with its threads. `call` is the argument of an `alarm` system call that has been entered and
    has not stored it. `stack` holds the library calls of the current thread that have not returned, the last
    one first; it is empty while the thread runs its own code. `masked` remembers whether `alarm(0)` has been
    executed, and since then neither `alarm(UTHREAD_QUANTA)` nor a switch. -/
structure State where
  proc : Proc
  tick : TickPc
  inKernel : Bool
  call : Option Int
  cur : Fin maxThreads
  stack : List Pc
  saved : Fin maxThreads → List Pc
  masked : Bool

/-- The steps. -/
inductive Event
  /-- `Alarm` executes its next statement for the process. -/
  | tick
  /-- An interrupt in user mode, or a system call other than `alarm`. -/
  | trap
  /-- `sys_alarm` stores its argument. -/
  | sysAlarm
  /-- The return of an interrupt that was taken in kernel mode. -/
  | nested
  /-- The return to user mode. -/
  | trapret
  /-- The thread's own code calls `uthread_create`, `uthread_exit`, `uthread_yield` or `uthred_join`. -/
  | call (pc : Pc)
  /-- The library goes on; where it branches, `more` says which way. -/
  | lib (more : Bool)
  /-- `uthread_yield` continues with thread `j`, which runs for the first time if it is `fresh`. -/
  | switch (j : Fin maxThreads) (fresh : Bool)
  deriving DecidableEq

namespace State

/-- The alarm signal is pending, and `uthread_yield` is its handler. -/
def Due (s : State) : Prop := s.proc.pending sigalrm = 1 ∧ s.proc.sighandlers sigalrm ≠ defualtHandlerAdd

instance (s : State) : Decidable s.Due := inferInstanceAs (Decidable (_ ∧ _))

/-- The library calls `alarm(n)`, to go on at `stack`. -/
def alarm (s : State) (n : Int) (stack : List Pc) : State := { s with inKernel := true, call := some n, stack }

/-- `handling_signal` on the way out of a trap: the current thread starts `uthread_yield` if the signal is
    due. The words pushed for it are then on top of the argument of a system call under way, which finds the
    number of the signal in its place. -/
def deliver (s : State) (inKernel : Bool) : State :=
  { s with
    proc := (handlingSignal s.proc).proc
    inKernel
    call := if s.Due then s.call.map fun _ => (sigalrm.val : Int) else s.call
    stack := if s.Due then .yieldMask :: s.stack else s.stack }

/-- The next statement of the last library call. -/
def lib (s : State) (more : Bool) : Option State :=
  match s.stack with
  | .createMask :: st => some (s.alarm 0 (.createLoad :: st))
  | .createLoad :: st => some { s with stack := .createUnmask :: st }
  | .createUnmask :: st => some (s.alarm uthreadQuanta st)
  | .exitMask :: st => some (s.alarm 0 (.exitLoop :: st))
  | .exitLoop :: st =>
    -- A thread that is left is given the processor; without one the process exits.
    if more then some { s with stack := .yieldMask :: .exitLoop :: st } else none
  | .yieldMask :: st => some (s.alarm 0 (.yieldPick :: st))
  | .yieldPick :: _ => none
  | .yieldResume :: st => some (s.alarm uthreadQuanta st)
  | .joinMask :: st => some (s.alarm 0 (.joinScan :: st))
  | .joinScan :: st =>
    -- While a slot has the thread's number, the caller yields and then starts over.
    if more then some { s with stack := .yieldMask :: .joinMask :: st } else some { s with stack := .joinUnmask :: st }
  | .joinUnmask :: st => some (s.alarm uthreadQuanta st)
  | .executeThread :: st => some (s.alarm uthreadQuanta st)
  | [] => none

/-- The last statements of `uthread_yield`: the current thread will go on at `yieldResume`, and thread `j`
    goes on where it was, or starts. -/
def switch (s : State) (j : Fin maxThreads) (fresh : Bool) : Option State :=
  match s.stack with
  | .yieldPick :: st =>
    let saved := Function.update s.saved s.cur (.yieldResume :: st)
    if fresh then some { s with cur := j, saved, stack := [.executeThread], masked := false }
    else if saved j = [] then none
    else some { s with cur := j, saved, stack := saved j, masked := false }
  | _ => none

/-- The step function. -/
def step (s : State) : Event → Option State
  | .tick => some { s with proc := (alarmStep s.proc s.tick).1, tick := (alarmStep s.proc s.tick).2 }
  | .trap => if s.inKernel then none else some { s with inKernel := true }
  | .sysAlarm =>
    match s.call with
    | none => none
    | some n => some { s with proc := { s.proc with alarmTicksNum := n }, call := none, masked := n = 0 }
  | .nested => if s.inKernel then some (s.deliver true) else none
  | .trapret => if s.inKernel ∧ s.call = none then some (s.deliver false) else none
  | .call pc =>
    if ¬s.inKernel ∧ s.stack = [] ∧ pc ∈ [Pc.createMask, .exitMask, .yieldMask, .joinMask] then
      some { s with stack := [pc] }
    else none
  | .lib more => if s.inKernel then none else s.lib more
  | .switch j fresh => if s.inKernel then none else s.switch j fresh

end State

end Xv6.Preempt
