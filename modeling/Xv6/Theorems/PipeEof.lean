import Xv6.Theorems.PipeSleep

/-! The end of file of a pipe. `writeopen` is set as long as some process has a descriptor to write with, so that a reader
    that gets nothing has got everything, and nothing comes later. -/

namespace Xv6.Pipes
open Lib

/-- What `pipeclose` relies on. -/
structure System.Open (s : System) : Prop where
  writeopen : s.pipe.writeopen = true ↔ ∃ j, 0 < (s.proc j).fds .write
  writes : ∀ j, (s.proc j).phase.chan = some .nwrite → 0 < (s.proc j).fds .write

section
variable {s s' : System} {i : Fin nproc} {e : Event} {killed : Bool} {k : Hit}

@[simp] theorem System.wakeup_fds (chan : Chan) (j : Fin nproc) : ((s.wakeup chan).proc j).fds = (s.proc j).fds := by
  simp only [System.wakeup]
  split_ifs <;> rfl

@[simp] theorem System.wakeup_phase (chan : Chan) (j : Fin nproc) : ((s.wakeup chan).proc j).phase = (s.proc j).phase := by
  simp only [System.wakeup]
  split_ifs <;> rfl

/-- A step that leaves the descriptors to write with, and changes only process `i`, apart from those that wake up. -/
theorem System.Open.of_proc (h : s.Open) (hopen : s'.pipe.writeopen = s.pipe.writeopen)
    (hfds : (s'.proc i).fds .write = (s.proc i).fds .write)
    (hphase : (s'.proc i).phase.chan = some .nwrite → 0 < (s.proc i).fds .write)
    (hothers : ∀ j ≠ i, (s'.proc j).fds = (s.proc j).fds ∧ (s'.proc j).phase = (s.proc j).phase) : s'.Open := by
  have hproc (j : Fin nproc) : (s'.proc j).fds .write = (s.proc j).fds .write ∧
      ((s'.proc j).phase.chan = some .nwrite → 0 < (s.proc j).fds .write) := by
    rcases eq_or_ne j i with rfl | hne
    · exact ⟨hfds, hphase⟩
    · obtain ⟨hf, hp⟩ := hothers j hne
      exact ⟨by rw [hf], fun hj => h.writes j (hp ▸ hj)⟩
  exact ⟨by simpa only [hopen, (hproc _).1] using h.writeopen, fun j hj => by rw [(hproc j).1]; exact (hproc j).2 hj⟩

theorem System.Open.hit (h : s.Open) : (s.hit i k).Open := by
  refine h.of_proc rfl ?_ (fun hi => h.writes i ?_) fun j hne => ?_ <;> simp_all [System.hit, System.set]

theorem System.Open.pipewrite {addr : List Byte} (h : s.Open) (hfd : 0 < (s.proc i).fds .write)
    (hused : s.pipe.ring.used ≤ pipesize) : (s.pipewrite i killed addr).Open := by
  refine h.of_proc (by rw [pipewrite_pipe, (Pipe.pipewrite_wrote _ _ hused).writeopen]) ?_ (fun _ => hfd)
    fun j hne => ?_ <;>
    simp only [System.pipewrite] <;> split <;> simp_all [System.set]

theorem System.Open.piperead {n : Nat} (h : s.Open) : (s.piperead i killed n).Open := by
  refine h.of_proc ?_ ?_ (fun hi => h.writes i ?_) fun j hne => ?_
  · rw [piperead_pipe]
    split
    · rfl
    · exact Pipe.pipereadCopy_contents.2.2.2
  all_goals
    try revert hi
    simp only [System.piperead]
    split_ifs <;> simp_all [System.set, Phase.chan]

theorem System.Open.fileclose {f : End} (h : s.Open) (hi : (s.proc i).phase = .idle) : (s.fileclose i f).Open := by
  cases f with
  | read =>
    refine h.of_proc ?_ ?_ (fun hj => h.writes i ?_) fun j hne => ?_
    all_goals
      try revert hj
      simp only [System.fileclose]
      split <;> simp_all [System.pipeclose, System.set]
  | write =>
    simp only [System.fileclose]
    set s₁ := s.set i { s.proc i with fds := Function.update (s.proc i).fds .write ((s.proc i).fds .write - 1) } with hs₁
    have hle (j : Fin nproc) : (s₁.proc j).fds .write ≤ (s.proc j).fds .write := by
      rcases eq_or_ne j i with rfl | hne <;> simp_all [System.set]
    -- Only process `i` has one less, and it is not in a call.
    have hwrites (j : Fin nproc) (hj : (s₁.proc j).phase.chan = some .nwrite) : 0 < (s₁.proc j).fds .write := by
      rcases eq_or_ne j i with rfl | hne
      · simp [hs₁, System.set, hi, Phase.chan] at hj
      · simp only [hs₁, System.set, Function.update_of_ne hne] at hj ⊢
        exact h.writes j hj
    split
    · rename_i hall
      exact ⟨by simp [System.pipeclose, hall], by simpa [System.pipeclose] using hwrites⟩
    · rename_i hall
      obtain ⟨k, hk⟩ := not_forall.mp hall
      have hpos := Nat.pos_of_ne_zero hk
      exact ⟨iff_of_true (h.writeopen.mpr ⟨k, Nat.lt_of_lt_of_le hpos (hle k)⟩) ⟨k, hpos⟩, hwrites⟩

theorem System.writeopen_of_step (hused : s.pipe.ring.used ≤ pipesize) (hs : s.step e = some s')
    (hopen : s'.pipe.writeopen = true) : s.pipe.writeopen = true := by
  cases System.step_cases hs with
  | write =>
    rwa [hit_pipe, pipewrite_pipe, (Pipe.pipewrite_wrote _ _ hused).writeopen] at hopen
  | read =>
    rw [hit_pipe, piperead_pipe] at hopen
    split at hopen
    · exact hopen
    · rwa [Pipe.pipereadCopy_contents.2.2.2] at hopen
  | kill | dup | reuse => exact hopen
  | @close i f =>
    simp only [System.fileclose] at hopen
    split at hopen
    · cases f <;> simp_all [System.pipeclose, System.wakeup, System.set]
    · exact hopen

theorem System.Open.step (h : s.Open) (hused : s.pipe.ring.used ≤ pipesize) (hs : s.step e = some s') : s'.Open := by
  cases System.step_cases hs with
  | @write _ i _ _ _ hi => exact (h.pipewrite (hi.elim And.right fun hi => h.writes i (by rw [hi.2]; rfl)) hused).hit
  | read => exact h.piperead.hit
  | @kill i | @reuse i =>
    refine h.of_proc rfl ?_ (fun hi => h.writes i ?_) fun j hne => ?_ <;> simp_all [System.set]
  | @dup i k f hk hfd =>
    cases f with
    | read => refine h.of_proc rfl ?_ (fun hi => h.writes k ?_) fun j hne => ?_ <;> simp_all [System.set]
    | write =>
      refine ⟨iff_of_true (h.writeopen.mpr ⟨i, hfd⟩) ⟨k, by simp [System.set]⟩, fun j hj => ?_⟩
      rcases eq_or_ne j k with rfl | hne
      · simp [System.set]
      · simp only [System.set, Function.update_of_ne hne] at hj ⊢
        exact h.writes j hj
  | close hi => exact h.fileclose hi

end

/-- The bytes with which a step ends a call of `piperead`. -/
def System.returned (s : System) (e : Event) : Option (List Byte) :=
  match s.callOf e with
  | some (_, .reading n, _) => if s.pipe.Empty ∧ s.pipe.writeopen then none else some (s.pipe.pipereadCopy n).2
  | _ => none

namespace Traffic
variable {t t' : Traffic} {e : Event}

/-- All has been read, and nobody can write. -/
structure Ended (t : Traffic) : Prop where
  all : t.taken = t.stored
  none : ∀ j, (t.sys.proc j).fds .write = 0

theorem Ended.step (h : t.Ended) (hopen : t.sys.Open) (hinv : t.Inv) (hs : t.step e = some t') :
    t'.Ended ∧ t'.stored = t.stored := by
  have hinv' := (hinv.step hs).stored
  obtain ⟨s, hstep, rfl⟩ := Option.map_eq_some_iff.mp hs
  have hopen' := hopen.step hinv.used hstep
  have hstored : t.sys.storedBy e = [] := by
    cases System.step_cases hstep with
    | @write _ i _ _ _ hi =>
      have hfd : 0 < (t.sys.proc i).fds .write := hi.elim And.right fun hi => hopen.writes i (by rw [hi.2]; rfl)
      rw [h.none i] at hfd
      cases hfd
    | read hcall => simp only [System.storedBy, hcall]
    | kill | dup | close | reuse => rfl
  simp only [hstored, List.append_nil] at hinv' ⊢
  refine ⟨⟨?_, fun j => ?_⟩, trivial⟩
  · have hlen := congrArg List.length hinv'
    simp only [h.all, List.length_append] at hlen
    rw [List.eq_nil_of_length_eq_zero (l := t.sys.takenBy e) (by omega), List.append_nil, h.all]
  · by_contra hne
    obtain ⟨j, hj⟩ := hopen.writeopen.mp
      (System.writeopen_of_step hinv.used hstep (hopen'.writeopen.mpr ⟨j, Nat.pos_of_ne_zero hne⟩))
    rw [h.none j] at hj
    cases hj

theorem open_step (h : t.Inv ∧ t.sys.Open) (hs : t.step e = some t') : t'.Inv ∧ t'.sys.Open := by
  refine ⟨h.1.step hs, ?_⟩
  obtain ⟨s, hstep, rfl⟩ := Option.map_eq_some_iff.mp hs
  exact h.2.step h.1.used hstep

theorem open_pipealloc (data : Fin pipesize → Byte) (i : Fin nproc) :
    (pipealloc data i).Inv ∧ (pipealloc data i).sys.Open :=
  ⟨⟨by simp [pipealloc, System.pipealloc, Ring.contents, Ring.used], by simp [pipealloc, System.pipealloc, Ring.used]⟩,
    iff_of_true rfl ⟨i, by simp [pipealloc, System.pipealloc]⟩, nofun⟩

theorem returned_nil_iff {j : Fin nproc} {n : Nat} {k : Hit} (h : t.Inv ∧ t.sys.Open)
    (hcall : t.sys.callOf e = some (j, .reading n, k)) (hn : 0 < n) : t.sys.returned e = some [] ↔ t.Ended := by
  have hall : t.taken = t.stored ↔ t.sys.pipe.Empty := by
    rw [Pipe.empty_iff, ← Ring.length_contents, List.length_eq_zero_iff, h.1.stored]
    simp
  have hcopy : (t.sys.pipe.pipereadCopy n).2 = [] ↔ t.sys.pipe.Empty := by
    obtain ⟨n, rfl⟩ := Nat.exists_eq_succ_of_ne_zero (Nat.ne_of_gt hn)
    by_cases hempty : t.sys.pipe.Empty <;> simp [Pipe.pipereadCopy, hempty]
  have hnone : (∀ j, (t.sys.proc j).fds .write = 0) ↔ t.sys.pipe.writeopen = false := by
    rw [← Bool.not_eq_true, h.2.writeopen]
    simp
  have hended : t.Ended ↔ t.sys.pipe.Empty ∧ t.sys.pipe.writeopen = false :=
    ⟨fun h => ⟨hall.mp h.all, hnone.mp h.none⟩, fun h => ⟨hall.mpr h.1, hnone.mpr h.2⟩⟩
  rw [hended]
  simp only [System.returned, hcall]
  split_ifs with hwait
  · simp [hwait.2]
  · rw [Option.some.injEq, hcopy]
    simp_all

/-- In every run: a call that asks for some bytes returns none of them, without an error, exactly when the readers have all
    bytes that were ever written and no process has a descriptor to write with; and then this stays so. -/
theorem eof_final {data : Fin pipesize → Byte} {i j : Fin nproc} {tr : List (Traffic × Event)} {n : Nat} {k : Hit}
    (hr : Run (OfStep step) (pipealloc data i) tr t) (hcall : t.sys.callOf e = some (j, .reading n, k)) (hn : 0 < n) :
    (t.sys.returned e = some [] ↔ t.Ended) ∧
      (t.Ended → ∀ tr' u, Run (OfStep step) t tr' u → u.Ended ∧ u.stored = t.stored) := by
  have hinv := hr.invariant (I := fun t => t.Inv ∧ t.sys.Open) (open_pipealloc data i) fun h hs => open_step h hs
  refine ⟨returned_nil_iff hinv hcall hn, fun hended tr' u hrun => ?_⟩
  refine (hrun.invariant (I := fun u => (u.Inv ∧ u.sys.Open) ∧ u.Ended ∧ u.stored = t.stored) ⟨hinv, hended, rfl⟩
    fun h hs => ⟨open_step h.1 hs, ?_⟩).2
  obtain ⟨hu, hstored⟩ := h.2.1.step h.1.2 h.1.1 hs
  exact ⟨hu, hstored.trans h.2.2⟩

/-- The writer writes two bytes and closes its descriptor, and the reader reads twice. -/
theorem eof_final_closed : ∃ tr t, Run (OfStep step) (pipealloc (fun _ => 0) 0) tr t ∧ t.stored = [5, 6] ∧
    t.sys.returned (.read 0 4 .none) = some [] ∧ ∀ tr' u, Run (OfStep step) t tr' u → u.Ended ∧ u.stored = t.stored := by
  obtain ⟨tr, t, hr, -, hstored, hret, hcall⟩ := Run.exists_of_traceOf (f := step) (pipealloc (fun _ => 0) 0)
    [.dup 0 1 .write, .close 0 .write, .write 1 [5, 6] .none, .read 0 4 .none, .close 1 .write]
    (fun _ t => t.stored = [5, 6] ∧ t.sys.returned (.read 0 4 .none) = some [] ∧
      t.sys.callOf (.read 0 4 .none) = some (0, .reading 4, .none)) (by decide +kernel)
  obtain ⟨hiff, hfinal⟩ := eof_final hr hcall (by decide)
  exact ⟨tr, t, hr, hstored, hret, hfinal (hiff.mp hret)⟩

end Traffic

end Xv6.Pipes
