import Xv6.Lib.Run
import Xv6.Trap

/-! `handling_signal` (`trap.c`) statement by statement, next to `sigsend` and `Alarm` (`proc.c`) on other processors.
    `handling_signal` takes no lock, so that a signal may be sent between any two of its statements. -/

namespace Xv6.Handling
open Lib

/-- What `pushHandlingSig` pushes. -/
inductive Pushed
  | eip
  | sigIdx
  | sigretAdd

/-- The next statement, for the signal `i`. -/
inductive Pc
  | idle
  /-- `proc->pending[sigIdx] == 1`. -/
  | test (i : Fin numsig)
  /-- `proc->pending[sigIdx] = 0`, before the test of the handler. -/
  | clear (i : Fin numsig)
  /-- `proc->sighandlers[sigIdx] == defualtHandlerAdd`. -/
  | branch (i : Fin numsig)
  /-- The call of `defaultSigHandler`. -/
  | default (i : Fin numsig)
  /-- `proc->pending[sigIdx] = 0`, after the default handler. -/
  | clearAgain (i : Fin numsig)
  /-- `proc->pending[sigIdx] = 0`, in `pushHandlingSig`. -/
  | pushClear (i : Fin numsig)
  /-- `proc->tf->esp -= 4`. -/
  | down (i : Fin numsig) (w : Pushed)
  /-- `*((uint*) proc->tf->esp) = ...`. -/
  | store (i : Fin numsig) (w : Pushed)
  /-- `proc->tf->eip = proc->sighandlers[sigIdx]`. -/
  | enter (i : Fin numsig)

/-- The loop goes on to the next signal. -/
def Pc.after (i : Fin numsig) : Pc := if h : i.val + 1 < numsig then .test ⟨i.val + 1, h⟩ else .idle

/-- The target of the signals. `owed` remembers the signals that a `sigsend` has sent to it and whose handler has
    not been entered since then. -/
structure State where
  d : Delivery
  pc : Pc
  owed : Fin numsig → Bool

/-- `proc->tf->esp -= 4`. -/
def down (d : Delivery) : Delivery :=
  { d with proc := { d.proc with frame := { d.proc.frame with esp := d.proc.frame.esp - 4 } } }

/-- `*((uint*) proc->tf->esp) = v`. -/
def store (d : Delivery) (v : Word) : Delivery :=
  { d with
    proc := { d.proc with mem := store32 d.proc.mem d.proc.frame.esp v }
    stores := d.stores ++ [(d.proc.frame.esp, v)] }

def Pushed.value (d : Delivery) (i : Fin numsig) : Pushed → Word
  | .eip => d.proc.frame.eip
  | .sigIdx => BitVec.ofNat 32 i
  | .sigretAdd => d.proc.sigretAdd

/-- What comes after a store. -/
def Pushed.then (i : Fin numsig) : Pushed → Pc
  | .eip => .down i .sigIdx
  | .sigIdx => .down i .sigretAdd
  | .sigretAdd => .enter i

/-- `proc->tf->eip = proc->sighandlers[i]`. -/
def enter (d : Delivery) (i : Fin numsig) : Delivery :=
  { d with proc := { d.proc with frame := { d.proc.frame with eip := d.proc.sighandlers i } } }

namespace State

/-- The next statement of `handling_signal`. -/
def next (st : State) : State :=
  match st.pc with
  | .idle => st
  | .test i => { st with pc := if st.d.proc.pending i = 1 then .clear i else .after i }
  | .clear i => { st with d := st.d.clear i, pc := .branch i }
  | .branch i => { st with pc := if st.d.proc.sighandlers i = defualtHandlerAdd then .default i else .pushClear i }
  | .default i => ⟨st.d.defaultSigHandler i, .clearAgain i, Function.update st.owed i false⟩
  | .clearAgain i => { st with d := st.d.clear i, pc := .after i }
  | .pushClear i => { st with d := st.d.clear i, pc := .down i .eip }
  | .down i w => { st with d := Handling.down st.d, pc := .store i w }
  | .store i w => { st with d := Handling.store st.d (w.value st.d i), pc := w.then i }
  | .enter i => ⟨Handling.enter st.d i, .after i, Function.update st.owed i false⟩

theorem signal_lt {pid sigNum : Int} (h : ¬(pid < 0 ∨ sigNum < 0 ∨ sigNum > numsig - 1)) : sigNum.toNat < numsig := by
  simp only [numsig] at h ⊢
  omega

/-- The signal that `sigsend` sends to the target; `none` if it returns -1 or finds another process. -/
def sends (st : State) (pid sigNum : Int) : Option (Fin numsig) :=
  if h : pid < 0 ∨ sigNum < 0 ∨ sigNum > numsig - 1 then none
  else if st.d.proc.pid = pid then some ⟨sigNum.toNat, signal_lt h⟩
  else none

/-- The steps. -/
inductive Event
  | sigsend (pid sigNum : Int)
  /-- `Alarm`. -/
  | tick
  /-- The target calls `handling_signal`. -/
  | start
  /-- The target executes a statement of it. -/
  | next
  /-- The target does something else and becomes `p`. -/
  | other (p : Proc)

def step (st : State) : Event → Option State
  | .sigsend pid sigNum =>
    match st.sends pid sigNum with
    | some i => some { st with
        d := { st.d with proc := { st.d.proc with pending := Function.update st.d.proc.pending i 1 } }
        owed := Function.update st.owed i true }
    | none => some st
  | .tick => some { st with d := { st.d with proc := Kernel.tick st.d.proc } }
  | .start =>
    match st.pc with
    | .idle => some ⟨⟨st.d.proc, [], []⟩, .test 0, st.owed⟩
    | _ => none
  | .next => some st.next
  | .other p =>
    match st.pc with
    | .idle => some { st with d := { st.d with proc := { p with pid := st.d.proc.pid, pending := st.d.proc.pending } } }
    | _ => none

/-- A target to which no signal has been sent yet. -/
def init (p : Proc) : State := ⟨⟨p, [], []⟩, .idle, fun _ => false⟩

end State

end Xv6.Handling
