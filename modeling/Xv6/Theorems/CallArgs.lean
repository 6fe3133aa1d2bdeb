import Xv6.Theorems.Frames

/-! The arguments of a system call are fetched relative to the user stack pointer in the trap frame, at any
    time during the call. Interrupts are enabled meanwhile, and the return of an interrupt that was taken
    in the call runs `handling_signal` as well, which moves that stack pointer. -/

namespace Xv6
open Lib

/-- `argint` of process `i` finds the arguments above the stack pointer `esp`. -/
def ArgsAt (i : Fin nproc) (esp : Word) (k : Kernel) : Prop :=
  ∀ n, argAddr (k.proc i) n = esp + 4 + 4 * BitVec.ofNat 32 n

/-- What may happen while process `i` is in a system call other than `exec`, `exit` and `sigreturn`: it does not return
    to user mode. No delivery stores outside the memory of its process. -/
def duringCall (i : Fin nproc) : Action → Bool
  | .trap j _ _ | .trapret j | .exec j _ _ _ | .exit j | .sigreturn j => j ≠ i
  | .wild _ _ => false
  | _ => true

def DuringCall (i : Fin nproc) (_ : Kernel) (a : Action) : Prop := duringCall i a = true

instance (i : Fin nproc) (k : Kernel) (a : Action) : Decidable (DuringCall i k a) :=
  inferInstanceAs (Decidable (_ = true))

/-- If the step is a trap return of process `i`, no signal with a user handler is pending for it. -/
def NoHandlerDue (i : Fin nproc) (k : Kernel) (a : Action) : Prop := a = .nested i → userSignals (k.proc i) = []

/-- Process `i` has not exited, and its stack pointer is `esp`. -/
structure InCall (i : Fin nproc) (esp : Word) (k : Kernel) : Prop where
  busy : Busy (k.proc i)
  esp : (k.proc i).frame.esp = esp

section Calls
variable {L : Layout} {k k' : Kernel} {i : Fin nproc} {a : Action} {p q : Proc} {sp : Word}

theorem ArgsAt.esp (h : ArgsAt i sp k) : (k.proc i).frame.esp = sp := by
  simpa [argAddr] using h 0

theorem InCall.argsAt (h : InCall i sp k) : ArgsAt i sp k := fun n => by rw [argAddr, h.esp]

theorem handlingSignal_esp (p : Proc) :
    (handlingSignal p).proc.frame.esp = p.frame.esp - BitVec.ofNat 32 (12 * (userSignals p).length) := by
  rw [handlingSignal_eq]
  exact stackAfter_esp p (userSignals p)

theorem handlingSignal_esp_eq_iff (p : Proc) :
    (handlingSignal p).proc.frame.esp = p.frame.esp ↔ userSignals p = [] := by
  have hlen := userSignals_length_le p
  simp only [numsig] at hlen
  rw [handlingSignal_esp, ← List.length_eq_zero_iff]
  constructor
  · intro h
    have := congrArg BitVec.toNat h
    rw [BitVec.toNat_sub, BitVec.toNat_ofNat] at this
    omega
  · intro h
    simp [h]

theorem Own.inCall (h : Own L k i a q) (hcall : DuringCall i k a) (hG : NoHandlerDue i k a)
    (hk : InCall i sp k) : Busy q ∧ q.frame.esp = sp := by
  cases h with
  | sbrk hgrow =>
    obtain ⟨sz, mem, rfl⟩ := growproc_some hgrow
    exact ⟨hk.busy, hk.esp⟩
  | signal | other => exact ⟨hk.busy, hk.esp⟩
  | nested =>
    refine ⟨?_, ((handlingSignal_esp_eq_iff _).mpr (hG rfl)).trans hk.esp⟩
    rw [handlingSignal_eq]
    exact hk.busy
  | trap | exec | sigreturn | trapret => simp [DuringCall, duringCall] at hcall

theorem InCall.step (hk : InCall i sp k) (hcall : DuringCall i k a) (hG : NoHandlerDue i k a)
    (hs : k.step L a = some k') : InCall i sp k' := by
  have hslot := step_slot hs i
  generalize hp : k'.proc i = p at hslot
  suffices h : Busy p ∧ p.frame.esp = sp from ⟨hp ▸ h.1, hp ▸ h.2⟩
  cases hslot with
  | same _ hsame =>
    have hbusy := hsame.busy hk.busy
    exact ⟨hbusy, (congrArg Core.esp (hsame.kept hbusy.live).2).trans hk.esp⟩
  | own hrun hown hsame =>
    obtain ⟨hq, hesp⟩ := hown.inCall hcall hG hk
    have hbusy := hsame.busy hq
    exact ⟨hbusy, (congrArg Core.esp (hsame.kept hbusy.live).2).trans hesp⟩
  | exit => simp [DuringCall, duringCall] at hcall
  | child hrun hc => exact absurd hc.free hk.busy.live.1
  | wild => simp [DuringCall, duringCall] at hcall

theorem nested_moves (hs : k.step L (.nested i) = some k') (hdue : userSignals (k.proc i) ≠ []) :
    (k'.proc i).frame.esp ≠ (k.proc i).frame.esp := by
  obtain ⟨-, -, rfl⟩ := deliver_some hs
  rw [Kernel.set_self, ne_eq, handlingSignal_esp_eq_iff]
  exact hdue

end Calls

/-- In a system call of process `i`, `argint` finds every argument where it was at the entry exactly if no
    nested trap return has a handler to call. -/
theorem callArgs_iff {L : Layout} {k₀ k : Kernel} {i : Fin nproc} {tr : List (Kernel × Action)}
    (hr : Run (OfStep (Kernel.step L)) k₀ tr k) (hrun : (k₀.proc i).state = .running)
    (hcall : Meets (DuringCall i) tr) :
    Always (ArgsAt i (k₀.proc i).frame.esp) tr k ↔ Meets (NoHandlerDue i) tr := by
  refine (hr.restrict hcall).always_iff_meets (I := InCall i (k₀.proc i).frame.esp) ⟨.inr (.inr hrun), rfl⟩
    (fun _ hI => hI.argsAt) (fun hI hG hs => hI.step hs.1 hG hs.2) ?_
  intro k a k' hI hG hs hP
  simp only [NoHandlerDue, Classical.not_imp] at hG
  obtain ⟨rfl, hdue⟩ := hG
  exact nested_moves hs.2 hdue (hP.esp.trans hI.esp.symm)

/-- The first process has asked for an alarm after one tick, handled at 0x100, and has entered another
    system call with 0x800 as its stack pointer. -/
def alarmedCall : List Action := firstTrap ++ [.signal 0 14 0x100, .alarm 0 1 0, .trapret 0,
  .trap 0 { Kernel.initFrame with esp := 0x800 } fun _ => 0]

/-- A timer interrupt in the call sets off the alarm, and its return moves the stack pointer: what is
    fetched as the second argument is the word at 0x7FC, not the one at 0x808. -/
theorem nested_return_moves_args : ∃ tr₀ k₀ tr k, Run (OfStep (Kernel.step bootLayout)) bootKernel tr₀ k₀ ∧
    tr₀.map (·.2) = alarmedCall ∧ Run (OfStep (Kernel.step bootLayout)) k₀ tr k ∧
    tr.map (·.2) = [.tick, .nested 0] ∧ argAddr (k₀.proc 0) 1 = 0x808 ∧ argAddr (k.proc 0) 1 = 0x7FC ∧
    ¬Always (ArgsAt 0 (k₀.proc 0).frame.esp) tr k := by
  obtain ⟨tr₀, k₀, hr₀, hl₀, h⟩ := Run.exists_of_traceOf (f := Kernel.step bootLayout) bootKernel alarmedCall
    (fun _ k₀ => (traceOf (Kernel.step bootLayout) k₀ [.tick, .nested 0]).any
      (fun r => decide (argAddr (k₀.proc 0) 1 = 0x808 ∧ argAddr (r.2.proc 0) 1 = 0x7FC)) = true) (by decide +kernel)
  obtain ⟨tr, k, hr, hl, hbefore, hafter⟩ := Run.exists_of_traceOf (f := Kernel.step bootLayout) k₀ [.tick, .nested 0]
    (fun _ k => argAddr (k₀.proc 0) 1 = 0x808 ∧ argAddr (k.proc 0) 1 = 0x7FC) h
  refine ⟨tr₀, k₀, tr, k, hr₀, hl₀, hr, hl, hbefore, hafter, fun hargs => ?_⟩
  have heq : argAddr (k.proc 0) 1 = argAddr (k₀.proc 0) 1 := hargs.2 1
  rw [hbefore, hafter] at heq
  exact absurd heq (by decide)

/-- A timer interrupt that sets off no alarm leaves the arguments where they are. -/
theorem callArgs_iff_tick : ∃ k₀ tr k, Run (OfStep (Kernel.step bootLayout)) k₀ tr k ∧
    tr.map (·.2) = [.tick, .nested 0, .sbrk 0 0 true] ∧ Always (ArgsAt 0 (k₀.proc 0).frame.esp) tr k := by
  obtain ⟨tr₀, k₀, -, -, hrun, h⟩ := Run.exists_of_traceOf (f := Kernel.step bootLayout) bootKernel firstTrap
    (fun _ k₀ => (k₀.proc 0).state = .running ∧
      (traceOf (Kernel.step bootLayout) k₀ [.tick, .nested 0, .sbrk 0 0 true]).any
      (fun r => decide (Meets (DuringCall 0) r.1 ∧ ∀ x ∈ r.1, userSignals (x.1.proc 0) = [])) = true)
    (by decide +kernel)
  obtain ⟨tr, k, hr, hl, hcall, hnone⟩ := Run.exists_of_traceOf (f := Kernel.step bootLayout) k₀
    [.tick, .nested 0, .sbrk 0 0 true]
    (fun tr _ => Meets (DuringCall 0) tr ∧ ∀ x ∈ tr, userSignals (x.1.proc 0) = []) h
  exact ⟨k₀, tr, k, hr, hl, (callArgs_iff hr hrun hcall).mpr fun x hx _ => hnone x hx⟩

end Xv6
