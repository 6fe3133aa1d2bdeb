import Mathlib.Logic.Function.Iterate
import Xv6.Handling
import Xv6.Theorems.Delivery

/-! A signal that is sent is delivered. `handling_signal` clears the pending flag once more after it has run the
    default handler; a signal that is sent between the two is lost. With a user handler the second clearing comes
    before the handler is entered, and nothing is lost. -/

namespace Xv6.Handling
open Lib

/-! ### The statements make up `handling_signal` -/

section Adequate
variable {st : State} {d : Delivery} {owed : Fin numsig → Bool} {i : Fin numsig}

theorem body_eq (d : Delivery) (owed : Fin numsig → Bool) (i : Fin numsig) :
    ∃ n owed', State.next^[n] ⟨d, .test i, owed⟩ = ⟨d.handleOne i, .after i, owed'⟩ := by
  by_cases hp : d.proc.pending i = 1
  · by_cases hh : d.proc.sighandlers i = defualtHandlerAdd
    · refine ⟨5, Function.update owed i false, ?_⟩
      simp [State.next, hp, hh, Delivery.handleOne, Delivery.clear, Delivery.defaultSigHandler]
    · have hh : ¬d.proc.sighandlers i = 0xFFFF#32 := hh
      refine ⟨11, Function.update owed i false, ?_⟩
      simp [State.next, hp, hh, Delivery.handleOne, Delivery.clear, Delivery.pushHandlingSig, Delivery.push, down, store,
        enter, Pushed.value, Pushed.then]
  · refine ⟨1, owed, ?_⟩
    simp [State.next, hp, Delivery.handleOne]

theorem next_iterate (p : Proc) (owed : Fin numsig → Bool) :
    ∃ n owed', State.next^[n] ⟨⟨p, [], []⟩, .test 0, owed⟩ = ⟨handlingSignal p, .idle, owed'⟩ := by
  have hdrop (i : Fin numsig) : (List.finRange numsig).drop i = i :: (List.finRange numsig).drop (i.val + 1) := by
    rw [List.drop_eq_getElem_cons (by simp)]
    simp
  -- The loop from signal `i` on, by induction on how many signals are left.
  have loop : ∀ m (i : Fin numsig) d owed, i.val + m + 1 = numsig → ∃ n owed',
      State.next^[n] ⟨d, .test i, owed⟩ = ⟨((List.finRange numsig).drop i).foldl Delivery.handleOne d, .idle, owed'⟩ := by
    intro m
    induction m with
    | zero =>
      intro i d owed hi
      obtain ⟨n, owed', hn⟩ := body_eq d owed i
      refine ⟨n, owed', ?_⟩
      rw [hn, hdrop, List.foldl_cons, List.drop_eq_nil_of_le (by simp; omega), Pc.after, dif_neg (by omega)]
      rfl
    | succ m ih =>
      intro i d owed hi
      obtain ⟨n, owed', hn⟩ := body_eq d owed i
      have hlt : i.val + 1 < numsig := by omega
      obtain ⟨n', owed'', hn'⟩ := ih ⟨i.val + 1, hlt⟩ (d.handleOne i) owed' (by simp only; omega)
      refine ⟨n' + n, owed'', ?_⟩
      rw [Function.iterate_add_apply, hn, Pc.after, dif_pos hlt, hn', hdrop i, List.foldl_cons]
  exact loop (numsig - 1) 0 ⟨p, [], []⟩ owed rfl

end Adequate

/-! ### Loss -/

/-- The target is on the way to enter the handler of the signal. -/
def Pc.delivers (s : Fin numsig) : Pc → Prop
  | .clear i | .branch i | .default i | .pushClear i | .down i _ | .store i _ | .enter i => i = s
  | .idle | .test _ | .clearAgain _ => False

/-- Every signal that was sent is still pending, or the next statements of the target enter its handler. -/
def State.NoneLost (st : State) : Prop :=
  ∀ s, st.owed s = true → st.d.proc.pending s = 1 ∨ ∃ n, (State.next^[n] st).owed s = false

/-- No signal is sent to the target while it is between its default handler and the clearing of the flag. -/
def State.inTime (st : State) : State.Event → Bool
  | .sigsend pid sigNum =>
    match st.pc with
    | .clearAgain i => st.sends pid sigNum ≠ some i
    | _ => true
  | _ => true

def State.InTime (st : State) (e : State.Event) : Prop := st.inTime e = true

instance (st : State) (e : State.Event) : Decidable (st.InTime e) := inferInstanceAs (Decidable (_ = true))

structure State.Inv (st : State) : Prop where
  owed : ∀ s, st.owed s = true → st.d.proc.pending s = 1 ∨ st.pc.delivers s
  cleared : ∀ i, st.pc = .clearAgain i → st.owed i = false

section Loss
variable {st st' : State} {s i : Fin numsig} {e : State.Event} {p : Proc}

theorem delivers_enters (h : st.pc.delivers s) : ∃ n, (State.next^[n] st).owed s = false := by
  obtain ⟨d, pc, owed⟩ := st
  cases pc with
  | idle | test i | clearAgain i => exact h.elim
  | enter i | default i =>
    cases h
    exact ⟨1, by simp [State.next]⟩
  | store i w =>
    cases h
    cases w with
    | eip => exact ⟨6, by simp [State.next, Pushed.then]⟩
    | sigIdx => exact ⟨4, by simp [State.next, Pushed.then]⟩
    | sigretAdd => exact ⟨2, by simp [State.next, Pushed.then]⟩
  | down i w =>
    cases h
    cases w with
    | eip => exact ⟨7, by simp [State.next, Pushed.then]⟩
    | sigIdx => exact ⟨5, by simp [State.next, Pushed.then]⟩
    | sigretAdd => exact ⟨3, by simp [State.next, Pushed.then]⟩
  | pushClear i =>
    cases h
    exact ⟨8, by simp [State.next, Pushed.then]⟩
  | branch i =>
    cases h
    by_cases hh : d.proc.sighandlers s = defualtHandlerAdd
    · exact ⟨2, by simp [State.next, hh]⟩
    · have hh : ¬d.proc.sighandlers s = 0xFFFF#32 := hh
      exact ⟨9, by simp [State.next, Pushed.then, hh]⟩
  | clear i =>
    cases h
    by_cases hh : d.proc.sighandlers s = defualtHandlerAdd
    · exact ⟨3, by simp [State.next, Delivery.clear, hh]⟩
    · have hh : ¬d.proc.sighandlers s = 0xFFFF#32 := hh
      exact ⟨10, by simp [State.next, Pushed.then, Delivery.clear, hh]⟩

theorem State.Inv.noneLost (h : st.Inv) : st.NoneLost := fun s hs => (h.owed s hs).imp_right delivers_enters

theorem owed_update {owed : Fin numsig → Bool} {b : Bool} (h : Function.update owed i b s = true) (hs : s ≠ i) :
    owed s = true := by
  rwa [Function.update_of_ne hs] at h

theorem State.Inv.next (h : st.Inv) : st.next.Inv := by
  obtain ⟨d, pc, owed⟩ := st
  cases pc with
  | idle => exact h
  | test i =>
    refine ⟨fun s hs => ?_, fun j hj => ?_⟩
    · have hp : d.proc.pending s = 1 := (h.owed s hs).resolve_right id
      exact .inl hp
    · simp only [State.next] at hj
      split at hj
      · cases hj
      · unfold Pc.after at hj
        split at hj <;> cases hj
  | clear i | pushClear i =>
    refine ⟨fun s hs => ?_, fun j hj => by cases hj⟩
    by_cases hsi : s = i
    · exact .inr hsi.symm
    · left
      simp only [State.next, Delivery.clear, Function.update_of_ne hsi]
      exact (h.owed s hs).resolve_right (Ne.symm hsi)
  | branch i =>
    refine ⟨fun s hs => (h.owed s hs).imp_right fun hd => ?_, fun j hj => ?_⟩
    · simp only [State.next]
      split <;> exact hd
    · simp only [State.next] at hj
      split at hj <;> cases hj
  | default i =>
    refine ⟨fun s hs => ?_, fun j hj => ?_⟩
    · have hsi : s ≠ i := by
        rintro rfl
        simp [State.next] at hs
      exact .inl ((h.owed s (owed_update hs hsi)).resolve_right (Ne.symm hsi))
    · cases hj
      simp [State.next]
  | clearAgain i =>
    refine ⟨fun s hs => ?_, fun j hj => ?_⟩
    · have hsi : s ≠ i := by
        rintro rfl
        exact absurd (hs.symm.trans (h.cleared s rfl)) (by decide)
      left
      simp only [State.next, Delivery.clear, Function.update_of_ne hsi]
      exact (h.owed s hs).resolve_right id
    · simp only [State.next] at hj
      unfold Pc.after at hj
      split at hj <;> cases hj
  | down i w => exact ⟨fun s hs => h.owed s hs, fun j hj => by cases hj⟩
  | store i w =>
    refine ⟨fun s hs => (h.owed s hs).imp_right fun hd => ?_, fun j hj => ?_⟩
    · cases w <;> exact hd
    · simp only [State.next] at hj
      cases w <;> cases hj
  | enter i =>
    refine ⟨fun s hs => ?_, fun j hj => ?_⟩
    · have hsi : s ≠ i := by
        rintro rfl
        simp [State.next] at hs
      exact .inl ((h.owed s (owed_update hs hsi)).resolve_right (Ne.symm hsi))
    · simp only [State.next] at hj
      unfold Pc.after at hj
      split at hj <;> cases hj

theorem tick_pending (h : p.pending s = 1) : (Kernel.tick p).pending s = 1 := by
  unfold Kernel.tick
  dsimp only
  split
  · split
    · by_cases hs : s = sigalrm
      · simp [hs]
      · exact (Function.update_of_ne hs ..).trans h
    · exact h
  · exact h

theorem State.Inv.step (h : st.Inv) (hG : st.InTime e) (hs : st.step e = some st') : st'.Inv := by
  cases e with
  | sigsend pid sigNum =>
    simp only [State.step] at hs
    split at hs
    · rename_i i hi
      cases hs
      refine ⟨fun s hs => ?_, fun j hj => ?_⟩
      · by_cases hsi : s = i
        · left
          simp [hsi]
        · simp only [Function.update_of_ne hsi]
          exact h.owed s (owed_update hs hsi)
      · dsimp only at hj
        have hne : j ≠ i := by
          rintro rfl
          simp only [InTime, inTime, hj, hi, ne_eq, not_true_eq_false, decide_false, Bool.false_eq_true] at hG
        simp only [Function.update_of_ne hne]
        exact h.cleared j hj
    · cases hs
      exact h
  | tick =>
    cases hs
    exact ⟨fun s hs => (h.owed s hs).imp_left tick_pending, h.cleared⟩
  | start =>
    simp only [State.step] at hs
    split at hs
    · rename_i hpc
      cases hs
      refine ⟨fun s hs => .inl ((h.owed s hs).resolve_right ?_), fun j hj => by cases hj⟩
      rw [hpc]
      exact id
    · cases hs
  | next =>
    cases hs
    exact h.next
  | other p =>
    simp only [State.step] at hs
    split at hs
    · cases hs
      exact ⟨h.owed, h.cleared⟩
    · cases hs

end Loss

/-- As long as no signal is sent between the default handler and the clearing of the flag, no signal is lost. -/
theorem none_lost {p : Proc} {st : State} {tr : List (State × State.Event)} (hr : Run (OfStep State.step) (.init p) tr st)
    (hG : Meets State.InTime tr) : Always State.NoneLost tr st :=
  (hr.always (I := State.Inv) ⟨fun _ h => (nomatch h), fun _ h => (nomatch h)⟩ hG State.Inv.step).mono
    fun _ => State.Inv.noneLost

def target : Proc := { Proc.zeroed with pid := 7, sighandlers := fun _ => defualtHandlerAdd }

/-- A signal is sent, and once more before the target clears the flag after the default handler. -/
def sentTwice : List State.Event :=
  [.sigsend 7 0, .start, .next, .next, .next, .next, .sigsend 7 0, .next] ++ List.replicate 31 .next

def Pc.isIdle : Pc → Bool
  | .idle => true
  | _ => false

theorem second_signal_lost : ∃ tr st, Run (OfStep State.step) (.init target) tr st ∧ tr.map (·.2) = sentTwice ∧
    st.owed 0 = true ∧ st.d.proc.pending 0 = 0 ∧ ¬st.NoneLost := by
  obtain ⟨tr, st, hr, hl, howed, hp, hidle⟩ := Run.exists_of_traceOf (f := State.step) (.init target) sentTwice
    (fun _ st => st.owed 0 = true ∧ st.d.proc.pending 0 = 0 ∧ st.pc.isIdle = true)
    (by decide +kernel)
  refine ⟨tr, st, hr, hl, howed, hp, fun hlost => ?_⟩
  have hnext : st.next = st := by
    unfold State.next
    cases hpc : st.pc with
    | idle => rfl
    | _ =>
      rw [hpc] at hidle
      cases hidle
  rcases hlost 0 howed with h | ⟨n, h⟩
  · rw [hp] at h
    cases h
  · rw [Function.iterate_fixed hnext, howed] at h
    cases h

theorem none_lost_once : ∃ tr st, Run (OfStep State.step) (.init target) tr st ∧
    tr.map (·.2) = [.sigsend 7 0, .start, .next, .sigsend 7 0, .next, .tick] ∧ Always State.NoneLost tr st := by
  obtain ⟨tr, st, hr, hl, hG⟩ := Run.exists_of_traceOf (f := State.step) (.init target)
    [.sigsend 7 0, .start, .next, .sigsend 7 0, .next, .tick] (fun tr _ => Meets State.InTime tr) (by decide +kernel)
  exact ⟨tr, st, hr, hl, none_lost hr hG⟩

end Xv6.Handling
