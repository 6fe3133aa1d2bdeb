import Xv6.Lib.Run
import Xv6.Exec

/-! The kernel as a system of steps. A step is a system call made by a process, an interrupt, or a trap
    return; the arguments of a system call are those that `argint` fetched, and what a step reads from the
    disk or takes from the allocator is part of the step. A process may be running on any processor, and
    which of its steps it takes in user mode is not tracked: a run may leave out a trap return, so that
    there are more runs here than the kernel has. -/

namespace Xv6
open Lib

/-- The steps of the kernel. -/
inductive Action
  | scheduler (i : Fin nproc)
  | yield (i : Fin nproc)
  | sleep (i : Fin nproc) (chan : Addr)
  | wakeup (chan : Addr)
  /-- `Alarm`, by a timer interrupt. -/
  | tick
  /-- User code runs and leaves `mem` and `frame` behind when it traps. -/
  | trap (i : Fin nproc) (frame : Trapframe) (mem : Mem)
  /-- An exception in user code: the process is to be killed. -/
  | fault (i : Fin nproc)
  | fork (i : Fin nproc) (kstack pgdir : Addr)
  | exec (i : Fin nproc) (img : Option Image) (path : List Byte) (argv : List (List Byte))
  | exit (i : Fin nproc)
  | wait (i : Fin nproc)
  | kill (i : Fin nproc) (pid : Int)
  | sbrk (i : Fin nproc) (n : Int) (enough : Bool)
  | signal (i : Fin nproc) (sigNum : Int) (newHandler : Addr)
  | sigsend (i : Fin nproc) (pid sigNum : Int)
  /-- `sys_alarm` returns nothing, so that `eax` is whatever it left there. -/
  | alarm (i : Fin nproc) (ticksNum : Int) (eax : Word)
  | sigreturn (i : Fin nproc)
  /-- Any other system call: it may open and close files, write to user memory, and return a value. -/
  | other (i : Fin nproc) (ofile : Fin nofile → Addr) (cwd : Addr) (mem : Mem) (eax : Word)
  /-- The return of an interrupt that was taken in kernel mode. -/
  | nested (i : Fin nproc)
  /-- The return to user mode. -/
  | trapret (i : Fin nproc)
  /-- A trap return whose delivery stores outside the process's memory; what is left of the kernel then is
      not known. -/
  | wild (i : Fin nproc) (k : Kernel)

namespace Kernel

/-- `proc->tf->eax = v`. -/
def ret (k : Kernel) (i : Fin nproc) (v : Word) : Kernel :=
  k.set i { k.proc i with frame := { (k.proc i).frame with eax := v } }

theorem ret_of_ne (k : Kernel) {i j : Fin nproc} (v : Word) (h : j ≠ i) : (k.ret i v).proc j = k.proc j :=
  set_of_ne k _ h

/-- What the processor keeps of a frame while user code runs. -/
def SameMode (f g : Trapframe) : Prop := f.cs = g.cs ∧ f.ss = g.ss ∧ f.eflags &&& flIf = g.eflags &&& flIf

instance (f g : Trapframe) : Decidable (SameMode f g) := inferInstanceAs (Decidable (_ ∧ _))

/-- A step of the running process `i`, from its `struct proc`. -/
def byRunning (k : Kernel) (i : Fin nproc) (f : Proc → Option Kernel) : Option Kernel :=
  if (k.proc i).state = .running then f (k.proc i) else none

/-- `handling_signal` on the way out of a trap, where its stores stay inside the process's memory. -/
def deliver (k : Kernel) (i : Fin nproc) : Option Kernel :=
  k.byRunning i fun p => if StoresInside p then some (k.set i (handlingSignal p).proc) else none

/-- The step function. -/
def step (L : Layout) (k : Kernel) : Action → Option Kernel
  | .scheduler i =>
    let p := k.proc i
    -- A process that went to sleep clears its channel when it runs again.
    if p.state = .runnable then some (k.set i { p with state := .running, chan := 0 }) else none
  | .yield i => k.byRunning i fun p => some (k.set i { p with state := .runnable })
  | .sleep i chan => k.byRunning i fun p => some (k.set i { p with chan, state := .sleeping })
  | .wakeup chan => some (k.wakeup1 chan)
  | .tick => some k.alarm
  | .trap i frame mem => k.byRunning i fun p =>
    if SameMode frame p.frame then some (k.set i { p with frame, mem }) else none
  | .fault i => k.byRunning i fun p => some (k.set i { p with killed := 1 })
  | .fork i kstack pgdir => k.byRunning i fun _ =>
    let r := k.fork i kstack pgdir
    some (r.2.ret i (BitVec.ofInt 32 r.1))
  | .exec i img path argv => k.byRunning i fun p =>
    (p.exec img path argv).map fun r => (k.set i r.2).ret i (BitVec.ofInt 32 r.1)
  | .exit i => k.byRunning i fun _ => k.exit L i
  | .wait i => k.byRunning i fun _ =>
    match k.wait L i with
    | (.ret pid, k) => some (k.ret i (BitVec.ofInt 32 pid))
    | (.sleeps, k) => some k
  | .kill i pid => k.byRunning i fun _ =>
    let r := k.kill pid
    some (r.2.ret i (BitVec.ofInt 32 r.1))
  | .sbrk i n enough => k.byRunning i fun p =>
    match growproc p n enough with
    | none => some (k.ret i (-1))
    | some p' => some ((k.set i p').ret i p.sz)
  | .signal i sigNum newHandler => k.byRunning i fun _ =>
    let r := k.signal i sigNum newHandler
    some (r.2.ret i r.1)
  | .sigsend i pid sigNum => k.byRunning i fun _ =>
    let r := k.sigsend pid sigNum
    some (r.2.ret i (BitVec.ofInt 32 r.1))
  | .alarm i ticksNum eax => k.byRunning i fun p => some ((k.set i { p with alarmTicksNum := ticksNum }).ret i eax)
  | .sigreturn i => k.byRunning i fun _ =>
    let r := k.sigreturn L i
    some (r.2.ret i (BitVec.ofInt 32 r.1))
  | .other i ofile cwd mem eax => k.byRunning i fun p => some ((k.set i { p with ofile, cwd, mem }).ret i eax)
  | .nested i => k.deliver i
  | .trapret i => k.deliver i
  | .wild i k' => k.byRunning i fun p => if StoresInside p then none else some k'

/-- The table at boot. -/
def zeroed : Kernel := ⟨fun _ => .zeroed, 1, none⟩

end Kernel

end Xv6
