import Xv6.Preempt
import Xv6.Theorems.Delivery

/-! What `alarm(0)` protects. It stops the countdown, but it does not take back a signal that is pending
    already, nor the statements of an `Alarm` that is under way; where there is neither, the thread is not
    preempted until it enables switching again or switches itself. -/

namespace Xv6.Preempt
open Lib

/-! ### Alarm in one go -/

theorem alarmStep_iterate (p : Proc) : ∃ n, (fun x => alarmStep x.1 x.2)^[n] (p, .idle) = (Kernel.tick p, .idle) := by
  by_cases hpos : p.alarmTicksNum > 0
  · by_cases hone : p.alarmTicksNum - 1 = 0
    · refine ⟨5, ?_⟩
      simp [alarmStep, Kernel.tick, hpos, hone]
    · refine ⟨4, ?_⟩
      simp [alarmStep, Kernel.tick, hpos, hone]
  · refine ⟨1, ?_⟩
    simp [alarmStep, Kernel.tick, hpos]

/-! ### Masked threads -/

def NoTicks (s : State) : Prop := s.masked = true → s.proc.alarmTicksNum = 0

/-- No trap return while switching is disabled starts `uthread_yield`. -/
def NoPreempt (s : State) (e : Event) : Prop := e = .nested ∨ e = .trapret → s.masked = true → ¬s.Due

/-- When `sys_alarm` stores zero, no alarm signal is pending, and `Alarm` is not under way for the process. -/
def MasksQuietly (s : State) (e : Event) : Prop :=
  e = .sysAlarm → s.call = some 0 → s.proc.pending sigalrm ≠ 1 ∧ s.tick = .idle

instance (s : State) (e : Event) : Decidable (MasksQuietly s e) := inferInstanceAs (Decidable (_ → _ → _))

/-- While switching is disabled, nothing is left that could preempt the thread. -/
structure Quiet (s : State) : Prop where
  ticks : s.masked = true → s.proc.alarmTicksNum = 0
  pending : s.masked = true → s.proc.pending sigalrm ≠ 1
  tick : s.masked = true → s.tick = .idle

section Steps
variable {s s' : State} {e : Event} {more fresh : Bool} {j : Fin maxThreads}

theorem Quiet.noPreempt (h : Quiet s) (e : Event) : NoPreempt s e := fun _ hm hdue => h.pending hm hdue.1

theorem Quiet.of_eq (h : Quiet s) (hproc : s'.proc = s.proc) (htick : s'.tick = s.tick)
    (hmasked : s'.masked = s.masked) :
    Quiet s' := by
  constructor
  · rw [hmasked, hproc]
    exact h.ticks
  · rw [hmasked, hproc]
    exact h.pending
  · rw [hmasked, htick]
    exact h.tick

theorem Quiet.of_not_masked (h : s.masked = false) : Quiet s := by
  constructor <;> simp [h]

theorem Quiet.alarmTick (h : Quiet s) :
    Quiet { s with proc := (alarmStep s.proc s.tick).1, tick := (alarmStep s.proc s.tick).2 } := by
  by_cases hm : s.masked = true
  · -- Without ticks left `Alarm` does not get past its first test.
    have hstep : alarmStep s.proc s.tick = (s.proc, s.tick) := by simp [h.tick hm, alarmStep, h.ticks hm]
    simp only [hstep]
    exact h
  · exact .of_not_masked (by simpa using hm)

theorem Quiet.deliver (h : Quiet s) (inKernel : Bool) : Quiet (s.deliver inKernel) := by
  have hticks : (handlingSignal s.proc).proc.alarmTicksNum = s.proc.alarmTicksNum := by
    rw [handlingSignal_eq]
    rfl
  have hpending : (handlingSignal s.proc).proc.pending sigalrm ≠ 1 := by
    rw [handlingSignal_eq]
    simp only [deliveryAfter, flagsAfter, List.mem_finRange, true_and]
    split
    · simp
    · assumption
  exact ⟨fun hm => hticks.trans (h.ticks hm), fun _ => hpending, h.tick⟩

theorem lib_frame (hs : s.lib more = some s') : s'.proc = s.proc ∧ s'.tick = s.tick ∧ s'.masked = s.masked := by
  simp only [State.lib] at hs
  split at hs
  all_goals try split_ifs at hs
  all_goals first | contradiction | (cases hs; exact ⟨rfl, rfl, rfl⟩)

theorem switch_masked (hs : s.switch j fresh = some s') : s'.masked = false := by
  simp only [State.switch] at hs
  split at hs
  · split_ifs at hs
    all_goals
      cases hs
      rfl
  · cases hs

theorem Quiet.step (h : Quiet s) (hG : MasksQuietly s e) (hs : s.step e = some s') : Quiet s' := by
  unfold State.step at hs
  cases e with
  | tick =>
    obtain rfl := Option.some.inj hs
    exact h.alarmTick
  | sysAlarm =>
    dsimp only at hs
    split at hs
    · cases hs
    · rename_i n hcall
      obtain rfl := Option.some.inj hs
      by_cases hn : n = 0
      · subst hn
        obtain ⟨hpending, htick⟩ := hG rfl hcall
        exact ⟨fun _ => rfl, fun _ => hpending, fun _ => htick⟩
      · exact .of_not_masked (by simp [hn])
  | nested =>
    dsimp only at hs
    split_ifs at hs
    obtain rfl := Option.some.inj hs
    exact h.deliver true
  | trapret =>
    dsimp only at hs
    split_ifs at hs
    obtain rfl := Option.some.inj hs
    exact h.deliver false
  | trap | call pc =>
    dsimp only at hs
    split_ifs at hs
    obtain rfl := Option.some.inj hs
    exact h.of_eq rfl rfl rfl
  | lib more =>
    dsimp only at hs
    split_ifs at hs
    obtain ⟨hproc, htick, hmasked⟩ := lib_frame hs
    exact h.of_eq hproc htick hmasked
  | switch j fresh =>
    dsimp only at hs
    split_ifs at hs
    exact .of_not_masked (switch_masked hs)

end Steps

/-- If no signal is pending and no `Alarm` is under way whenever `alarm(0)` is executed, then until switching
    is enabled again or the thread switches, the countdown stays at zero and no trap return starts
    `uthread_yield`. -/
theorem masked_not_preempted {s₀ s : State} {tr : List (State × Event)} (hr : Run (OfStep State.step) s₀ tr s)
    (h0 : s₀.masked = false) (hG : Meets MasksQuietly tr) : Always NoTicks tr s ∧ Meets NoPreempt tr := by
  have hquiet : Always Quiet tr s := hr.always (.of_not_masked h0) hG fun hI hg hs => hI.step hg hs
  exact ⟨hquiet.mono fun _ h => h.ticks, fun x hx => (hquiet.1 x hx).noPreempt x.2⟩

/-- A process whose main thread runs its own code, with one tick left before the next switch. -/
def lastTick : State where
  proc := { Proc.zeroed with
    sz := 0x4000
    state := .running
    sighandlers := fun s => if s = sigalrm then 0x200 else defualtHandlerAdd
    alarmTicksNum := 1
    frame := { Kernel.initFrame with esp := 0x3000 } }
  tick := .idle
  inKernel := false
  call := none
  cur := 0
  stack := []
  saved := fun _ => []
  masked := false

/-- The tick comes before `uthread_create` disables switching: the return from `alarm(0)` starts
    `uthread_yield`. -/
theorem create_preempted : ∃ tr s, Run (OfStep State.step) lastTick tr s ∧
    tr.map (·.2) = [.call .createMask, .tick, .tick, .tick, .tick, .tick, .lib true, .sysAlarm, .trapret] ∧
    s.stack = [.yieldMask, .createLoad] ∧ ¬Meets NoPreempt tr := by
  obtain ⟨tr, s, hr, hl, hstack, x, hx, hret, hmasked, hdue⟩ := Run.exists_of_traceOf (f := State.step) lastTick
    [.call .createMask, .tick, .tick, .tick, .tick, .tick, .lib true, .sysAlarm, .trapret]
    (fun tr s => s.stack = [.yieldMask, .createLoad] ∧ ∃ x ∈ tr, x.2 = .trapret ∧ x.1.masked = true ∧ x.1.Due)
    (by decide)
  exact ⟨tr, s, hr, hl, hstack, fun h => h x hx (.inr hret) hmasked hdue⟩

/-- The tick comes after `uthread_create` has disabled switching. -/
theorem masked_not_preempted_create : ∃ tr s, Run (OfStep State.step) lastTick tr s ∧
    tr.map (·.2) = [.call .createMask, .lib true, .sysAlarm, .tick, .trapret] ∧
    Always NoTicks tr s ∧ Meets NoPreempt tr := by
  obtain ⟨tr, s, hr, hl, hG⟩ := Run.exists_of_traceOf (f := State.step) lastTick
    [.call .createMask, .lib true, .sysAlarm, .tick, .trapret] (fun tr _ => Meets MasksQuietly tr) (by decide)
  exact ⟨tr, s, hr, hl, masked_not_preempted hr rfl hG⟩

end Xv6.Preempt
