import Xv6.Umalloc
import Xv6.Uthread

/-! The thread library over the allocator: a stack of `uthread_create` is a block of `malloc`, and `uthread_exit` is
    taken one statement at a time. The stores of `uthread_create` go to the block that it has just got, so they leave
    the headers of the heap as they are. -/

namespace Xv6.Stacks
open Lib Ult

/-- Where the current thread is inside `uthread_exit`. -/
inductive Stage
  /-- `alarm(0)` has returned. -/
  | called
  /-- `free` of the stack has returned. -/
  | freed
  /-- The slot is free. -/
  | released
  /-- The sleepers are awake. -/
  | woken
  deriving DecidableEq, Repr

structure State where
  threads : Threads
  heap : Umalloc.State
  exiting : Option Stage

inductive Event
  | create (func arg : Word) (ok : Bool)
  | yield
  | join (tid : Int)
  | exit
  /-- The next statement of `uthread_exit`. -/
  | next
  /-- What the current thread does with the memory itself. -/
  | program (e : Umalloc.Event)

/-- A step of the current thread, with the registers and the `randstate` it finds. -/
structure Call where
  event : Event
  regs : Regs
  randstate : BitVec 32

namespace State

/-- `uthread_init` has returned, and `malloc` has not been called. -/
def start (t : Threads) (signal : Word) (brk : Nat) (ptr size : Nat → Nat) : State where
  threads := (uthreadInit t signal).2
  heap := .start brk ptr size
  exiting := none

/-- The block that slot `i` has as its stack. -/
def stack (s : State) (i : Fin maxThreads) : Nat := (s.threads.pool i).stack.toNat

/-- The slot has a stack, and its thread is in the pool or executes on it. -/
def Holds (s : State) (i : Fin maxThreads) : Prop :=
  (s.threads.pool i).stack ≠ 0 ∧ ((s.threads.pool i).state ≠ .free ∨ i.val = s.threads.cUthreadIndex)

instance (s : State) (i : Fin maxThreads) : Decidable (s.Holds i) := inferInstanceAs (Decidable (_ ∧ _))

/-- `uthread_create`, where `ok` says whether `sbrk` has memory. -/
def create (base : Nat) (s : State) (func arg : Word) (ok : Bool) : Option State :=
  match freeSlot s.threads.pool with
  | none => some { s with threads := (uthreadCreate s.threads func arg 0).2 }
  | some _ =>
    (s.heap.heap.malloc base ok stackSize.toNat).map fun r => { s with
      threads := (uthreadCreate s.threads func arg (BitVec.ofNat 32 r.1)).2
      heap := s.heap.allocated stackSize.toNat r }

/-- The next statement of `uthread_exit` by the thread in slot `c`; `none` when it ends the process. -/
def exitNext (s : State) (c : Fin maxThreads) (regs : Regs) : Stage → Option State
  | .called =>
    if (s.threads.pool c).stack ≠ 0 then
      (s.heap.heap.free (s.stack c)).map fun h => { s with
        threads.freed := s.threads.freed ++ [(s.threads.pool c).stack]
        heap.heap := h
        heap.live := s.heap.live.filter fun a => a.1 ≠ s.stack c
        exiting := some .freed }
    else some { s with exiting := some .freed }
  | .freed => some { s with
      threads.pool := Function.update s.threads.pool c { s.threads.pool c with state := .free }
      exiting := some .released }
  | .released => some { s with threads.pool := wakeAll s.threads.pool, exiting := some .woken }
  | .woken =>
    if ∃ i, (s.threads.pool i).state ≠ .free then
      some { s with threads := uthreadYield s.threads c regs, exiting := none }
    else none

/-- The program frees only what it has got from `malloc` itself. -/
def Owns (s : State) : Umalloc.Event → Prop
  | .free ap => ∀ i, s.Holds i → s.stack i ≠ ap
  | _ => True

instance (s : State) : (e : Umalloc.Event) → Decidable (s.Owns e)
  | .free _ => inferInstanceAs (Decidable (∀ _, _))
  | .malloc .. | .sbrk _ | .store .. => inferInstanceAs (Decidable True)

/-- One step of the current thread; `none` when the process has ended, or has no current thread. -/
def step (base : Nat) (s : State) (a : Call) : Option State :=
  if h : s.threads.cUthreadIndex < maxThreads then
    let c : Fin maxThreads := ⟨s.threads.cUthreadIndex, h⟩
    let s := { s with threads.randstate := a.randstate }
    match s.exiting, a.event with
    | none, .create func arg ok => s.create base func arg ok
    | none, .yield => some { s with threads := uthreadYield s.threads c a.regs }
    | none, .join tid => some { s with threads := (uthredJoin s.threads c a.regs tid).2 }
    | none, .exit => some { s with threads.alarm := 0, exiting := some .called }
    | none, .program e => if s.Owns e then (s.heap.step base e).map fun heap => { s with heap } else none
    | some stage, .next => s.exitNext c a.regs stage
    | _, _ => none
  else none

end State

end Xv6.Stacks
