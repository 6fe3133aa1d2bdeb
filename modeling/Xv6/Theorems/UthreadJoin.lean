import Xv6.Theorems.UthreadSched

/-! When a pass of `uthred_join` answers for the thread it is asked about. The scan compares `tid` fields only, and a slot
    keeps its `tid` after its thread has exited. -/

namespace Xv6.Ult
open Lib

def Live (t : Threads) (tid : Int) : Prop := ∃ i, (t.pool i).tid = tid ∧ (t.pool i).state ≠ .free

instance (t : Threads) (tid : Int) : Decidable (Live t tid) := inferInstanceAs (Decidable (∃ _, _))

theorem Live.holds {t : Threads} {tid : Int} (h : Live t tid) : Holds t tid :=
  h.imp fun _ hi => hi.1

/-- A pass returns 0 exactly when the thread is gone, and sleeps only for a thread that is alive. -/
structure JoinRight (t : Threads) (c : Fin maxThreads) (regs : Regs) (tid : Int) : Prop where
  returns : (uthredJoin t c regs tid).1 = .ret 0 ↔ ¬Live t tid
  sleeps : (uthredJoin t c regs tid).1 = .slept → Live t tid

/-- For a `tid` that has been handed out, a pass is right exactly when the slots that carry the `tid`
    are not all free. -/
theorem joinRight_iff {t : Threads} {c : Fin maxThreads} {regs : Regs} {tid : Int} (h0 : 0 ≤ tid)
    (hlt : tid < t.nextTid) : JoinRight t c regs tid ↔ (Holds t tid → Live t tid) := by
  by_cases hh : Holds t tid
  · have hpass : (uthredJoin t c regs tid).1 = .slept := by rw [uthredJoin_of_holds h0 hlt hh]
    constructor
    · exact fun h _ => h.sleeps hpass
    · intro hlive
      refine ⟨?_, fun _ => hlive hh⟩
      rw [hpass]
      simp [hlive hh]
  · have hpass : (uthredJoin t c regs tid).1 = .ret 0 := by rw [uthredJoin_of_not_holds h0 hlt hh]
    have hdead : ¬Live t tid := fun h => hh h.holds
    constructor
    · exact fun _ h => absurd h hh
    · intro _
      refine ⟨?_, ?_⟩ <;> rw [hpass] <;> simp [hdead]

/-- Thread 1 has exited, and its slot still carries its `tid`: the join of thread 0 puts its caller to
    sleep for a thread that is gone. -/
theorem join_exited_sleeps : ∃ tr t, Run (OfStep step) booted tr t ∧
    tr.map (·.2) = createAndRun ++ [⟨.exit, ⟨0x4F00, 0x4F00⟩, 0⟩] ∧ t.cUthreadIndex = 0 ∧ 1 < t.nextTid ∧
    (uthredJoin t 0 ⟨0x2F00, 0x2F00⟩ 1).1 = .slept ∧ ¬Live t 1 :=
  Run.exists_of_traceOf (f := step) booted (createAndRun ++ [⟨.exit, ⟨0x4F00, 0x4F00⟩, 0⟩])
    (fun _ t => t.cUthreadIndex = 0 ∧ 1 < t.nextTid ∧ (uthredJoin t 0 ⟨0x2F00, 0x2F00⟩ 1).1 = .slept ∧ ¬Live t 1)
    (by decide)

/-- While thread 1 is alive, the join of thread 0 on it is right. -/
theorem joinRight_created : ∃ tr t, Run (OfStep step) booted tr t ∧ tr.map (·.2) = createAndRun.take 1 ∧
    JoinRight t 0 ⟨0x2F00, 0x2F00⟩ 1 := by
  obtain ⟨tr, t, hr, hl, hlt, hlive⟩ := Run.exists_of_traceOf (f := step) booted (createAndRun.take 1)
    (fun _ t => 1 < t.nextTid ∧ Live t 1) (by decide)
  exact ⟨tr, t, hr, hl, (joinRight_iff (by decide) hlt).mpr fun _ => hlive⟩

end Xv6.Ult
