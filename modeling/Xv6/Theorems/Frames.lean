import Xv6.Theorems.Delivery
import Xv6.Theorems.Slots

/-! The trap frame of a process returns it to user mode: it holds the user segments and has interrupts enabled. Only
    `sigreturn` overwrites all of it, with what lies behind the field `tfToRestore`. -/

namespace Xv6
open Lib

/-- The step is no delivery that stores outside the process's memory. -/
def tame : Action → Bool
  | .wild _ _ => false
  | _ => true

def Tame (_ : Kernel) (a : Action) : Prop := tame a = true

instance (k : Kernel) (a : Action) : Decidable (Tame k a) := inferInstanceAs (Decidable (_ = true))

/-- The frame leads back to user mode with interrupts enabled. -/
def UserFrame (f : Trapframe) : Prop :=
  f.cs = segUcode <<< 3 ||| dplUser ∧ f.ss = segUdata <<< 3 ||| dplUser ∧ f.eflags &&& flIf = flIf

instance (f : Trapframe) : Decidable (UserFrame f) := inferInstanceAs (Decidable (_ ∧ _))

/-- Every process has a frame that leads back to user mode. -/
def FramesIntact (k : Kernel) : Prop := ∀ j, Live (k.proc j) → UserFrame (k.proc j).frame

/-- The step is neither a call of `sigreturn` nor a delivery that stores outside the process's memory. -/
def sparesFrames : Action → Bool
  | .sigreturn _ => false
  | .wild _ _ => false
  | _ => true

def SparesFrames (_ : Kernel) (a : Action) : Prop := sparesFrames a = true

instance (k : Kernel) (a : Action) : Decidable (SparesFrames k a) := inferInstanceAs (Decidable (_ = true))

section Frames
variable {L : Layout} {k k' : Kernel} {j : Fin nproc} {a : Action} {p q : Proc} {f g : Trapframe}

/-- A property of the core of every process is kept if what a process does to itself keeps it, and a child has it from
    its parent. -/
theorem step_keeps {P : Core → Prop} (hs : k.step L a = some k') (hG : Tame k a)
    (hk : ∀ i, Live (k.proc i) → P (k.proc i).core) (hown : ∀ j q, Own L k j a q → P (k.proc j).core → P q.core)
    (hchild : ∀ c sigretAdd, P c → P { c with sighandlers := fun _ => defualtHandlerAdd, sigretAdd := sigretAdd })
    (j : Fin nproc) (hlive : Live (k'.proc j)) : P (k'.proc j).core := by
  have hslot := step_slot hs j
  generalize k'.proc j = p at hslot hlive
  have hkept (h : Kept (k.proc j) p) : P p.core := by
    rw [(h hlive).2]
    exact hk j (h hlive).1
  cases hslot with
  | same _ hsame => exact hkept hsame.kept
  | own hrun hq hsame =>
    rw [(hsame.kept hlive).2]
    exact hown j _ hq (hk j (Busy.live (.inr (.inr hrun))))
  | exit h => exact hkept h
  | child hrun hc =>
    rw [hc.core]
    exact hchild _ _ (hk _ (Busy.live (.inr (.inr hrun))))
  | wild => exact absurd hG Bool.false_ne_true

theorem SparesFrames.tame (h : SparesFrames k a) : Tame k a := by
  cases a with
  | wild => exact h
  | _ => rfl

theorem UserFrame.of_mode (h : UserFrame g) (hmode : Kernel.SameMode f g) : UserFrame f :=
  ⟨hmode.1.trans h.1, hmode.2.1.trans h.2.1, hmode.2.2.trans h.2.2⟩

theorem handlingSignal_mode (p : Proc) : Kernel.SameMode (handlingSignal p).proc.frame p.frame := by
  rw [handlingSignal_eq]
  exact ⟨rfl, rfl, rfl⟩

theorem exec_mode {img : Option Image} {path : List Byte} {argv : List (List Byte)} {r : Int × Proc}
    (h : p.exec img path argv = some r) : Kernel.SameMode r.2.frame p.frame := by
  cases Proc.exec_end h with
  | early | late | done => exact ⟨rfl, rfl, rfl⟩

theorem Own.userFrame (h : Own L k j a q) (hG : SparesFrames k a) (hframe : UserFrame (k.proc j).frame) :
    UserFrame q.frame := by
  cases h with
  | trap hmode => exact hframe.of_mode hmode
  | exec h => exact hframe.of_mode (exec_mode h)
  | sbrk hgrow =>
    obtain ⟨sz, mem, rfl⟩ := growproc_some hgrow
    exact hframe
  | signal => exact hframe
  | sigreturn => exact absurd hG Bool.false_ne_true
  | other => exact hframe
  | nested | trapret => exact hframe.of_mode (handlingSignal_mode _)

theorem FramesIntact.step (hk : FramesIntact k) (hG : SparesFrames k a) (hs : k.step L a = some k') :
    FramesIntact k' :=
  step_keeps (P := fun c => c.cs = segUcode <<< 3 ||| dplUser ∧ c.ss = segUdata <<< 3 ||| dplUser ∧ c.intr = flIf) hs
    hG.tame hk (fun _ _ hq => hq.userFrame hG) fun _ _ => id

theorem userinit_framesIntact (kstack pgdir : Addr) (initcode : Mem) (cwd : Addr) :
    FramesIntact (Kernel.zeroed.userinit kstack pgdir initcode cwd) := by
  intro j hlive
  rw [(userinit_live hlive).1]
  decide

end Frames

/-- Without a call of `sigreturn`, and as long as deliveries stay inside the process's memory, every return
    to user mode finds an intact frame. -/
theorem frames_intact {L : Layout} {kstack pgdir cwd : Addr} {initcode : Mem} {tr : List (Kernel × Action)} {k : Kernel}
    (hr : Run (OfStep (Kernel.step L)) (Kernel.zeroed.userinit kstack pgdir initcode cwd) tr k)
    (hG : Meets SparesFrames tr) : Always FramesIntact tr k :=
  hr.always (userinit_framesIntact _ _ _ _) hG FramesIntact.step

def bootKernel : Kernel := Kernel.zeroed.userinit 0x80400000 0x80401000 (fun _ => 0) 0x80112000

def bootLayout : Layout := ⟨0x80113000, fun _ => 0⟩

/-- The first process returns to user mode for the first time, and comes back with a trap. -/
def firstTrap : List Action := [.scheduler 0, .trapret 0, .trap 0 Kernel.initFrame fun _ => 0]

/-- The first process calls `sigreturn`: the next slot has never been used, and its zeros become the
    segments of the frame. -/
theorem sigreturn_breaks_frame : ∃ tr k, Run (OfStep (Kernel.step bootLayout)) bootKernel tr k ∧
    tr.map (·.2) = firstTrap ++ [.sigreturn 0, .trapret 0] ∧ (k.proc 0).frame.cs = 0 ∧ ¬Always FramesIntact tr k := by
  obtain ⟨tr, k, hr, hl, hrun, hcs⟩ := Run.exists_of_traceOf (f := Kernel.step bootLayout) bootKernel
    (firstTrap ++ [.sigreturn 0, .trapret 0])
    (fun _ k => (k.proc 0).state = .running ∧ (k.proc 0).frame.cs = 0) (by decide +kernel)
  refine ⟨tr, k, hr, hl, hcs, fun h => ?_⟩
  have hframe := (h.2 0 (Busy.live (.inr (.inr hrun)))).1
  rw [hcs] at hframe
  exact absurd hframe (by decide)

theorem frames_intact_signal : ∃ tr k, Run (OfStep (Kernel.step bootLayout)) bootKernel tr k ∧
    tr.map (·.2) = firstTrap ++ [.signal 0 3 0x100, .trapret 0] ∧ Always FramesIntact tr k := by
  obtain ⟨tr, k, hr, hl, hG⟩ := Run.exists_of_traceOf (f := Kernel.step bootLayout) bootKernel
    (firstTrap ++ [.signal 0 3 0x100, .trapret 0]) (fun tr _ => Meets SparesFrames tr) (by decide +kernel)
  exact ⟨tr, k, hr, hl, frames_intact hr hG⟩

end Xv6
