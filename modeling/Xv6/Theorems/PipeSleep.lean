import Xv6.Theorems.PipeFifo

/-! Who sleeps at a pipe. A reader should sleep only while the pipe is empty and can still be written, a
    writer only while it is full and can still be read. All returns of `pipewrite` but one wake the readers:
    a killed writer that finds the pipe full returns without a `wakeup`, after it may have filled it. The
    `kill` may have come while it wrote. -/

namespace Xv6.Pipes
open Lib

/-- The reason for which a process may sleep on a channel. -/
def Pipe.Cause (p : Pipe) : Chan → Prop
  | .nread => p.Empty ∧ p.writeopen = true
  | .nwrite => p.Full ∧ p.readopen = true

instance (p : Pipe) : ∀ c, Decidable (p.Cause c)
  | .nread => inferInstanceAs (Decidable (_ ∧ _))
  | .nwrite => inferInstanceAs (Decidable (_ ∧ _))

def System.AsleepWithCause (s : System) : Prop := ∀ i c, (s.proc i).asleep = some c → s.pipe.Cause c

/-- If the step goes on with a write of more than `PIPESIZE` bytes, and the process is killed before the step
    finds the pipe full and tests for it, no reader is asleep. -/
def System.noReaderLeft (s : System) (e : Event) : Bool :=
  match s.callOf e with
  | some (i, .writing addr, k) =>
    !s.killedAt i k || addr.length ≤ pipesize || decide (∀ j, (s.proc j).asleep ≠ some .nread)
  | _ => true

def System.NoReaderLeft (s : System) (e : Event) : Prop := s.noReaderLeft e = true

instance (s : System) (e : Event) : Decidable (s.NoReaderLeft e) := inferInstanceAs (Decidable (_ = true))

/-- The channel on which a call sleeps. -/
def Phase.chan : Phase → Option Chan
  | .idle => none
  | .writing _ => some .nwrite
  | .reading _ => some .nread

/-! ### The invariant -/

/-- What holds of every process. -/
structure User.Fits (p : Pipe) (u : User) : Prop where
  chan : ∀ c, u.asleep = some c → u.phase.chan = some c
  reads : u.phase.chan = some .nread → 0 < u.fds .read
  readopen : 0 < u.fds .read → p.readopen = true
  cause : ∀ c, u.asleep = some c → p.Cause c

structure System.Inv (s : System) : Prop where
  used : s.pipe.ring.used ≤ pipesize
  fits : ∀ i, (s.proc i).Fits s.pipe

section Users
variable {p p' : Pipe} {u u' : User} {ch : Chan}

theorem User.Fits.of_pipe (h : u.Fits p) (hopen : 0 < u.fds .read → p'.readopen = true)
    (hcause : ∀ c, u.asleep = some c → p'.Cause c) : u.Fits p' :=
  ⟨h.chan, h.reads, hopen, hcause⟩

theorem User.Fits.awake (h : u.Fits p) (hopen : p'.readopen = p.readopen) (hfds : u'.fds = u.fds)
    (hreads : u'.phase.chan = some .nread → u.phase.chan = some .nread) (hawake : u'.asleep = none) :
    u'.Fits p' where
  chan := by simp [hawake]
  reads hr := hfds ▸ h.reads (hreads hr)
  readopen hr := hopen ▸ h.readopen (hfds ▸ hr)
  cause := by simp [hawake]

theorem User.Fits.woken (h : u.Fits p) (hopen : p'.readopen = p.readopen)
    (hcause : ∀ c, c ≠ ch → p.Cause c → p'.Cause c) :
    (if u.asleep = some ch then { u with asleep := none } else u).Fits p' := by
  split
  · exact h.awake hopen rfl id rfl
  · rename_i hne
    refine h.of_pipe (fun hr => hopen ▸ h.readopen hr) fun c hc => ?_
    exact hcause c (fun heq => hne (heq ▸ hc)) (h.cause c hc)

end Users

section Steps
variable {s : System} {i : Fin nproc} {e : Event} {addr rest : List Byte} {p' : Pipe} {s' : System} {killed : Bool}
  {k : Hit}

theorem System.Inv.asleepWithCause (h : s.Inv) : s.AsleepWithCause := fun i c hc => (h.fits i).cause c hc

theorem System.Inv.set {u : User} (h : s.Inv) (hu : u.Fits s.pipe) : (s.set i u).Inv := by
  refine ⟨h.used, fun j => ?_⟩
  rcases eq_or_ne j i with rfl | hne
  · simpa [System.set] using hu
  · simpa [System.set, hne] using h.fits j

theorem System.Inv.hit (h : s.Inv) : (s.hit i k).Inv :=
  h.set ⟨(h.fits i).chan, (h.fits i).reads, (h.fits i).readopen, (h.fits i).cause⟩

theorem System.hit_asleep (j : Fin nproc) : ((s.hit i k).proc j).asleep = (s.proc j).asleep := by
  rcases eq_or_ne j i with rfl | hne
  · simp [System.hit, System.set]
  · simp [System.hit, System.set, hne]

theorem System.Inv.awake (h : s.Inv) (hi : (s.proc i).phase = .idle ∨ (s.proc i).asleep = none) :
    (s.proc i).asleep = none := by
  rcases hi with hi | hi
  · by_contra hne
    obtain ⟨c, hc⟩ := Option.ne_none_iff_exists'.mp hne
    have hchan := (h.fits i).chan c hc
    rw [hi] at hchan
    cases hchan
  · exact hi

/-- A killed writer or a writer without readers finds no reader asleep, when the condition is met. -/
theorem System.Inv.no_reader (h : s.Inv) (hG : s.NoReaderLeft e)
    (hcall : s.callOf e = some (i, .writing addr, k))
    (hw : s.pipe.Wrote (s.killedAt i k) addr p' rest .fails) (j : Fin nproc) :
    (s.proc j).asleep ≠ some .nread := by
  intro hj
  obtain ⟨hrest, hfail⟩ := hw.fails.mp rfl
  have hreadopen := (h.fits j).readopen ((h.fits j).reads ((h.fits j).chan _ hj))
  have hkilled : s.killedAt i k = true := hfail.resolve_left (by simp [hreadopen])
  -- The reader has slept since the pipe was empty, so that the writer has filled all of it.
  have hempty := Pipe.empty_iff.mp ((h.fits j).cause _ hj).1
  have hfull := Pipe.full_iff.mp (hw.full (by decide))
  obtain ⟨done, haddr, hcontents⟩ := hw.contents
  have hused := congrArg List.length hcontents
  rw [Ring.length_contents, List.length_append, Ring.length_contents, hempty, hfull] at hused
  have hlen := congrArg List.length haddr
  rw [List.length_append] at hlen
  have hpos := List.length_pos_of_ne_nil hrest
  have hnot : ¬addr.length ≤ pipesize := by omega
  simp only [NoReaderLeft, noReaderLeft, hcall, hkilled, Bool.not_true, Bool.false_or, Bool.or_eq_true,
    decide_eq_true_eq] at hG
  exact hG.resolve_left hnot j hj

theorem Pipe.Wrote.cause {p : Pipe} {e : WriteEnd}
    (hw : p.Wrote killed addr p' rest e) (c : Chan) (hc : c ≠ .nread) (h : p.Cause c) : p'.Cause c := by
  cases c with
  | nread => exact absurd rfl hc
  | nwrite =>
    obtain ⟨done, -, hcontents⟩ := hw.contents
    have hlen := congrArg List.length hcontents
    rw [Ring.length_contents, List.length_append, Ring.length_contents, Pipe.full_iff.mp h.1] at hlen
    exact ⟨Pipe.full_iff.mpr (Nat.le_antisymm hw.used (by omega)), hw.readopen ▸ h.2⟩

theorem System.Inv.pipewrite (h : s.Inv) (hG : s.NoReaderLeft e)
    (hcall : s.callOf e = some (i, .writing addr, k))
    (hi : (s.proc i).phase = .idle ∨ (s.proc i).asleep = none) : (s.pipewrite i (s.killedAt i k) addr).Inv := by
  have hw := Pipe.pipewrite_wrote (s.killedAt i k) addr h.used
  have hawake := h.awake hi
  simp only [System.pipewrite]
  generalize s.pipe.pipewrite (s.killedAt i k) addr = r at hw
  obtain ⟨p', rest, e⟩ := r
  have hwoken : ({ s with pipe := p' }.wakeup .nread).Inv :=
    ⟨hw.used, fun j => (h.fits j).woken hw.readopen hw.cause⟩
  cases e with
  | returns => exact hwoken.set ((h.fits i).awake hw.readopen rfl (by simp [Phase.chan]) hawake)
  | fails =>
    have hpipe : ({ s with pipe := p' } : System).Inv := by
      refine ⟨hw.used, fun j => (h.fits j).of_pipe (fun hr => hw.readopen ▸ (h.fits j).readopen hr) fun c hc => ?_⟩
      exact hw.cause c (fun heq => h.no_reader hG hcall hw j (heq ▸ hc)) ((h.fits j).cause c hc)
    exact hpipe.set ((h.fits i).awake hw.readopen rfl (by simp [Phase.chan]) hawake)
  | sleeps =>
    have hopen : s.pipe.readopen = true := by
      have hrest : rest ≠ [] := fun hr => by cases hw.returns.mpr hr
      by_contra hclosed
      cases hw.fails.mpr ⟨hrest, .inl (Bool.eq_false_iff.mpr hclosed)⟩
    refine hwoken.set ⟨fun c hc => hc, by simp [Phase.chan], fun hr => hw.readopen ▸ (h.fits i).readopen hr, ?_⟩
    rintro c ⟨⟩
    exact ⟨hw.full (fun h => by cases h), hw.readopen ▸ hopen⟩

theorem System.Inv.piperead {n : Nat} (h : s.Inv)
    (hi : (s.proc i).phase = .idle ∧ 0 < (s.proc i).fds .read ∨
      (s.proc i).asleep = none ∧ (s.proc i).phase = .reading n) : (s.piperead i killed n).Inv := by
  have hawake := h.awake (hi.imp And.left And.left)
  have hfds : 0 < (s.proc i).fds .read := by
    rcases hi with hi | hi
    · exact hi.2
    · exact (h.fits i).reads (by rw [hi.2, Phase.chan])
  simp only [System.piperead]
  split
  · rename_i hwait
    split
    · exact h.set ((h.fits i).awake rfl rfl (by simp [Phase.chan]) hawake)
    · refine h.set ⟨fun c hc => hc, fun _ => hfds, (h.fits i).readopen, ?_⟩
      rintro c ⟨⟩
      exact hwait
  · rename_i hwait
    obtain ⟨-, hused, hopen, hwriteopen⟩ := Pipe.pipereadCopy_contents (p := s.pipe) (n := n)
    have hwoken : ({ s with pipe := (s.pipe.pipereadCopy n).1 }.wakeup .nwrite).Inv := by
      refine ⟨Nat.le_trans hused h.used, fun j => (h.fits j).woken hopen fun c hc hcause => ?_⟩
      cases c with
      | nread => exact absurd hcause hwait
      | nwrite => exact absurd rfl hc
    exact hwoken.set ((h.fits i).awake hopen rfl (by simp [Phase.chan]) hawake)

theorem System.Inv.pipeclose {e : End} (h : s.Inv) (hfds : e = .read → ∀ j, (s.proc j).fds .read = 0) :
    (s.pipeclose e).Inv := by
  cases e with
  | write =>
    refine ⟨h.used, fun j => (h.fits j).woken rfl fun c hc hcause => ?_⟩
    cases c with
    | nread => exact absurd rfl hc
    | nwrite => exact hcause
  | read =>
    refine ⟨h.used, fun j => ?_⟩
    have hj := hfds rfl j
    -- Without descriptors for the read end no process sleeps as a reader, and all writers are woken.
    have hnread : (s.proc j).asleep ≠ some .nread := fun hc => by
      have := (h.fits j).reads ((h.fits j).chan _ hc)
      omega
    simp only [System.pipeclose, System.wakeup]
    split
    · exact ⟨by simp, (h.fits j).reads, fun hr => by simp only at hr; omega, by simp⟩
    · rename_i hnwrite
      refine (h.fits j).of_pipe (fun hr => by omega) fun c hc => ?_
      cases c with
      | nread => exact absurd hc hnread
      | nwrite => exact absurd hc hnwrite

theorem System.Inv.fileclose {e : End} (h : s.Inv) (hi : (s.proc i).phase = .idle) : (s.fileclose i e).Inv := by
  have hset : (s.set i { s.proc i with
      fds := Function.update (s.proc i).fds e ((s.proc i).fds e - 1) }).Inv := by
    refine h.set ⟨(h.fits i).chan, fun hr => ?_, fun hr => (h.fits i).readopen ?_, (h.fits i).cause⟩
    · rw [hi] at hr
      cases hr
    · cases e
      · simp only [Function.update_self] at hr
        omega
      · simpa using hr
  simp only [System.fileclose]
  split
  · rename_i hall
    exact hset.pipeclose fun he j => he ▸ hall j
  · exact hset

theorem System.Inv.step (h : s.Inv) (hG : s.NoReaderLeft e) (hs : s.step e = some s') : s'.Inv := by
  cases System.step_cases hs with
  | write hcall hi => exact (h.pipewrite hG hcall (hi.imp And.left And.left)).hit
  | read hcall hi => exact (h.piperead hi).hit
  | @kill i => exact h.set ((h.fits i).awake rfl rfl id rfl)
  | @dup i j e hj hfd =>
    refine h.set ⟨(h.fits j).chan, fun hr => ?_, fun hr => ?_, (h.fits j).cause⟩
    · rw [hj] at hr
      cases hr
    · cases e
      · exact (h.fits i).readopen hfd
      · exact (h.fits j).readopen (by simpa using hr)
  | close hi => exact h.fileclose hi
  | @reuse i => exact h.set ⟨(h.fits i).chan, (h.fits i).reads, (h.fits i).readopen, (h.fits i).cause⟩

theorem System.Inv.breaks (h : s.Inv) (hG : ¬s.NoReaderLeft e) (hs : s.step e = some s') :
    ¬s'.AsleepWithCause := by
  intro hP
  cases System.step_cases hs with
  | @write _ i addr k hcall hi =>
    simp only [NoReaderLeft, noReaderLeft, hcall, Bool.or_eq_true, not_or, Bool.not_eq_true', Bool.not_eq_false,
      decide_eq_true_eq, not_forall, not_not] at hG
    obtain ⟨⟨hkilled, hlen⟩, j, hj⟩ := hG
    have hw := Pipe.pipewrite_wrote (s.killedAt i k) addr h.used
    have hempty := Pipe.empty_iff.mp ((h.fits j).cause _ hj).1
    have hne : j ≠ i := by
      rintro rfl
      rw [h.awake (hi.imp And.left And.left)] at hj
      cases hj
    have hasleep := hP j .nread
    rw [System.hit_asleep, System.hit_pipe] at hasleep
    simp only [System.pipewrite] at hasleep
    generalize s.pipe.pipewrite (s.killedAt i k) addr = r at hw hasleep
    obtain ⟨p', rest, e⟩ := r
    obtain ⟨done, haddr, hcontents⟩ := hw.contents
    have hused := congrArg List.length hcontents
    rw [Ring.length_contents, List.length_append, Ring.length_contents, hempty] at hused
    have hlen' := congrArg List.length haddr
    rw [List.length_append] at hlen'
    have hbound := hw.used
    have hrest : rest ≠ [] := by
      rintro rfl
      simp only [List.length_nil] at hlen'
      omega
    obtain rfl : e = .fails := hw.fails.mpr ⟨hrest, .inr hkilled⟩
    have hcause := hasleep (by simpa [System.set, hne] using hj)
    have hfull := Pipe.full_iff.mp (hw.full (fun h => by cases h))
    have hempty' := Pipe.empty_iff.mp hcause.1
    simp only [System.set] at hempty'
    rw [hfull] at hempty'
    cases hempty'
  | read hcall => exact hG (by simp [NoReaderLeft, noReaderLeft, hcall])
  | kill | dup | close | reuse => exact hG rfl

theorem System.Inv.pipealloc (data : Fin pipesize → Byte) (i : Fin nproc) : (System.pipealloc data i).Inv :=
  ⟨by simp [System.pipealloc, Ring.used], fun j =>
    ⟨by simp [System.pipealloc], by simp [System.pipealloc, Phase.chan], by simp [System.pipealloc],
      by simp [System.pipealloc]⟩⟩

/-- A run leaves no process asleep without cause exactly if no writer with more than `PIPESIZE` bytes, which is
    killed before it fills the pipe or while it does, goes on while a reader is asleep. -/
theorem asleepWithCause_iff {data : Fin pipesize → Byte} {tr : List (System × Event)}
    (hr : Run (OfStep System.step) (.pipealloc data i) tr s) :
    Always System.AsleepWithCause tr s ↔ Meets System.NoReaderLeft tr :=
  hr.always_iff_meets (.pipealloc data i) (fun _ => System.Inv.asleepWithCause) System.Inv.step System.Inv.breaks

/-- A reader sleeps at an empty pipe, killed after its test, until a process that is being killed writes one
    byte. -/
theorem asleepWithCause_iff_read :
    ∃ tr t, Run (OfStep System.step) (.pipealloc (fun _ => 0) 0) tr t ∧
      tr.map (·.2) = [.dup 0 1 .write, .read 0 1 .after, .write 1 [7] .before] ∧ Always System.AsleepWithCause tr t := by
  obtain ⟨tr, t, hr, hl, hG⟩ := Run.exists_of_traceOf (f := System.step) (.pipealloc (fun _ => 0) 0)
    [.dup 0 1 .write, .read 0 1 .after, .write 1 [7] .before] (fun tr _ => Meets System.NoReaderLeft tr) (by decide +kernel)
  exact ⟨tr, t, hr, hl, (asleepWithCause_iff hr).mpr hG⟩

/-- A killed process fills the pipe and fails; the reader that has waited for the bytes sleeps on. -/
theorem killed_writer_leaves_reader :
    ∃ tr t, Run (OfStep System.step) (.pipealloc (fun _ => 0) 0) tr t ∧
      tr.map (·.2) = [.dup 0 1 .write, .read 0 1 .none, .kill 1, .write 1 (List.replicate 513 7) .none] ∧
      (t.proc 0).asleep = some .nread ∧ t.pipe.ring.used = pipesize ∧ ¬t.AsleepWithCause := by
  obtain ⟨tr, t, hr, hl, hsleep, hused⟩ := Run.exists_of_traceOf (f := System.step) (.pipealloc (fun _ => 0) 0)
    [.dup 0 1 .write, .read 0 1 .none, .kill 1, .write 1 (List.replicate 513 7) .none]
    (fun _ t => (t.proc 0).asleep = some .nread ∧ t.pipe.ring.used = pipesize) (by decide +kernel)
  refine ⟨tr, t, hr, hl, hsleep, hused, fun hP => ?_⟩
  have hempty := Pipe.empty_iff.mp (hP 0 .nread hsleep).1
  rw [hused] at hempty
  cases hempty

end Steps

end Xv6.Pipes
