import Xv6.Pipe

/-! A pipe is a queue. The bytes that writers store come out in the order in which they went in, none is
    lost and none comes out twice, however the calls interleave and also after the counters have wrapped. -/

namespace Xv6.Pipes
open Lib

/-! ### One step of a call -/

section Calls
variable {p : Pipe} {killed : Bool} {addr : List Byte} {n : Nat}

theorem Pipe.empty_iff : p.Empty ↔ p.ring.used = 0 := p.ring.nread_eq_nwrite_iff

theorem Pipe.full_iff : p.Full ↔ p.ring.used = pipesize := p.ring.nwrite_eq_add_iff (by decide)

/-- What a step of `pipewrite` does with the bytes `addr`: it stores the first ones and leaves `rest`. -/
structure Pipe.Wrote (p : Pipe) (killed : Bool) (addr : List Byte) (p' : Pipe) (rest : List Byte) (e : WriteEnd) :
    Prop where
  contents : ∃ done, addr = done ++ rest ∧ p'.ring.contents = p.ring.contents ++ done
  used : p'.ring.used ≤ pipesize
  readopen : p'.readopen = p.readopen
  writeopen : p'.writeopen = p.writeopen
  returns : e = .returns ↔ rest = []
  full : e ≠ .returns → p'.Full
  fails : e = .fails ↔ rest ≠ [] ∧ (p.readopen = false ∨ killed = true)

theorem Pipe.pipewrite_wrote (killed : Bool) (addr : List Byte) (h : p.ring.used ≤ pipesize) :
    p.Wrote killed addr (p.pipewrite killed addr).1 (p.pipewrite killed addr).2.1 (p.pipewrite killed addr).2.2 := by
  induction addr generalizing p with
  | nil => exact ⟨⟨[], by simp [pipewrite]⟩, h, rfl, rfl, by simp [pipewrite], by simp [pipewrite], by simp [pipewrite]⟩
  | cons c addr ih =>
    by_cases hfull : p.Full
    · rw [pipewrite, if_pos hfull]
      refine ⟨⟨[], by simp⟩, h, rfl, rfl, ?_, fun _ => hfull, ?_⟩
      · split <;> simp
      · split <;> simp_all
    · rw [pipewrite, if_neg hfull]
      have hlt : p.ring.used < pipesize := Nat.lt_of_le_of_ne h (mt Pipe.full_iff.mpr hfull)
      have hput := p.ring.used_put c (by simp only [pipesize] at hlt; omega)
      have hw := ih (p := { p with ring := p.ring.put c }) (by rw [hput]; exact hlt)
      obtain ⟨done, haddr, hcontents⟩ := hw.contents
      refine ⟨⟨c :: done, congrArg (c :: ·) haddr, ?_⟩, hw.used, hw.readopen, hw.writeopen, hw.returns, hw.full,
        hw.fails⟩
      rw [hcontents, p.ring.contents_put c (by decide) (by decide) hlt, List.append_assoc, List.singleton_append]

/-- The loop takes the oldest bytes, and stops early only when the pipe is empty. -/
theorem Pipe.pipereadCopy_contents :
    p.ring.contents = (p.pipereadCopy n).2 ++ (p.pipereadCopy n).1.ring.contents ∧
      (p.pipereadCopy n).1.ring.used ≤ p.ring.used ∧
      (p.pipereadCopy n).1.readopen = p.readopen ∧ (p.pipereadCopy n).1.writeopen = p.writeopen := by
  induction n generalizing p with
  | zero => exact ⟨rfl, Nat.le_refl _, rfl, rfl⟩
  | succ n ih =>
    by_cases hempty : p.Empty
    · rw [pipereadCopy, if_pos hempty]
      exact ⟨rfl, Nat.le_refl _, rfl, rfl⟩
    · rw [pipereadCopy, if_neg hempty]
      have hpos : 0 < p.ring.used := Nat.pos_of_ne_zero (mt Pipe.empty_iff.mpr hempty)
      have hpop := p.ring.used_pop hpos
      obtain ⟨hcontents, hused, hopen⟩ := ih (p := { p with ring := p.ring.pop })
      refine ⟨?_, by dsimp only at hused ⊢; omega, hopen⟩
      rw [p.ring.contents_pop hpos, List.cons_append, hcontents]

end Calls

/-! ### The steps of the system -/

/-- The steps, by cases. A call starts with a descriptor, or goes on after it has been woken. -/
inductive System.Stepped (s : System) : Event → System → Prop
  | write {e i addr k} (hcall : s.callOf e = some (i, .writing addr, k))
      (hi : (s.proc i).phase = .idle ∧ 0 < (s.proc i).fds .write ∨
        (s.proc i).asleep = none ∧ (s.proc i).phase = .writing addr) :
      Stepped s e ((s.pipewrite i (s.killedAt i k) addr).hit i k)
  | read {e i n k} (hcall : s.callOf e = some (i, .reading n, k))
      (hi : (s.proc i).phase = .idle ∧ 0 < (s.proc i).fds .read ∨
        (s.proc i).asleep = none ∧ (s.proc i).phase = .reading n) :
      Stepped s e ((s.piperead i (s.killedAt i k) n).hit i k)
  | kill {i} : Stepped s (.kill i) (s.set i { s.proc i with killed := true, asleep := none })
  | dup {i j e} (hj : (s.proc j).phase = .idle) (hfd : 0 < (s.proc i).fds e) :
      Stepped s (.dup i j e)
        (s.set j { s.proc j with fds := Function.update (s.proc j).fds e ((s.proc j).fds e + 1) })
  | close {i e} (hi : (s.proc i).phase = .idle) : Stepped s (.close i e) (s.fileclose i e)
  | reuse {i} : Stepped s (.reuse i) (s.set i { s.proc i with killed := false })

theorem System.step_cases {s s' : System} {e : Event} (h : s.step e = some s') : s.Stepped e s' := by
  cases e with
  | write i addr k =>
    simp only [step] at h
    split_ifs at h with hi
    obtain rfl := Option.some.inj h
    exact .write rfl (.inl hi)
  | read i n k =>
    simp only [step] at h
    split_ifs at h with hi
    obtain rfl := Option.some.inj h
    exact .read rfl (.inl hi)
  | resume i k =>
    simp only [step] at h
    split_ifs at h with hi
    split at h
    · cases h
    · rename_i addr hphase
      obtain rfl := Option.some.inj h
      exact .write (by simp only [callOf, hphase]) (.inr ⟨hi, hphase⟩)
    · rename_i n hphase
      obtain rfl := Option.some.inj h
      exact .read (by simp only [callOf, hphase]) (.inr ⟨hi, hphase⟩)
  | kill i =>
    obtain rfl := Option.some.inj h
    exact .kill
  | dup i j e =>
    simp only [step] at h
    split_ifs at h with hi
    obtain rfl := Option.some.inj h
    exact .dup hi.2.1 hi.2.2
  | close i e =>
    simp only [step] at h
    split_ifs at h with hi
    obtain rfl := Option.some.inj h
    exact .close hi.1
  | reuse i =>
    simp only [step] at h
    split_ifs at h with hi
    obtain rfl := Option.some.inj h
    exact .reuse

section Steps
variable (s : System) (i : Fin nproc)

@[simp] theorem System.wakeup_pipe (chan : Chan) : (s.wakeup chan).pipe = s.pipe := rfl

@[simp] theorem System.set_pipe (u : User) : (s.set i u).pipe = s.pipe := rfl

@[simp] theorem System.hit_pipe (k : Hit) : (s.hit i k).pipe = s.pipe := rfl

@[simp] theorem System.pipewrite_pipe (killed : Bool) (addr : List Byte) :
    (s.pipewrite i killed addr).pipe = (s.pipe.pipewrite killed addr).1 := by
  simp only [pipewrite]
  split <;> rfl

theorem System.piperead_pipe (killed : Bool) (n : Nat) :
    (s.piperead i killed n).pipe = if s.pipe.Empty ∧ s.pipe.writeopen then s.pipe else (s.pipe.pipereadCopy n).1 := by
  simp only [piperead]
  split_ifs <;> rfl

@[simp] theorem System.fileclose_ring (e : End) : (s.fileclose i e).pipe.ring = s.pipe.ring := by
  simp only [fileclose]
  split
  · cases e <;> rfl
  · rfl

end Steps

/-! ### The traffic of a pipe -/

/-- The bytes that a step stores. -/
def System.storedBy (s : System) (e : Event) : List Byte :=
  match s.callOf e with
  | some (i, .writing addr, k) => addr.take (addr.length - (s.pipe.pipewrite (s.killedAt i k) addr).2.1.length)
  | _ => []

/-- The bytes that a step takes. -/
def System.takenBy (s : System) (e : Event) : List Byte :=
  match s.callOf e with
  | some (_, .reading n, _) => if s.pipe.Empty ∧ s.pipe.writeopen then [] else (s.pipe.pipereadCopy n).2
  | _ => []

/-- The pipe with all bytes that writers have stored and that readers have taken, in order. -/
structure Traffic where
  sys : System
  stored : List Byte
  taken : List Byte

namespace Traffic

def step (t : Traffic) (e : Event) : Option Traffic :=
  (t.sys.step e).map fun s => ⟨s, t.stored ++ t.sys.storedBy e, t.taken ++ t.sys.takenBy e⟩

def pipealloc (data : Fin pipesize → Byte) (i : Fin nproc) : Traffic := ⟨.pipealloc data i, [], []⟩

/-- The bytes taken are the first ones stored, and the others are in the pipe; the counters tell how many. -/
structure Fifo (t : Traffic) : Prop where
  taken : t.taken <+: t.stored
  rest : t.stored.drop t.taken.length = t.sys.pipe.ring.contents
  length : (t.stored.drop t.taken.length).length = (t.sys.pipe.ring.nwrite - t.sys.pipe.ring.nread).toNat
  bound : (t.stored.drop t.taken.length).length ≤ pipesize

/-- All bytes stored have been taken or are in the pipe. -/
structure Inv (t : Traffic) : Prop where
  stored : t.stored = t.taken ++ t.sys.pipe.ring.contents
  used : t.sys.pipe.ring.used ≤ pipesize

theorem Inv.inOrder {t : Traffic} (h : Inv t) : Fifo t := by
  have hdrop : t.stored.drop t.taken.length = t.sys.pipe.ring.contents := by rw [h.stored, List.drop_left]
  refine ⟨⟨_, h.stored.symm⟩, hdrop, ?_, ?_⟩
  · rw [hdrop, Ring.length_contents, Ring.used]
  · rw [hdrop, Ring.length_contents]
    exact h.used

theorem Inv.of_ring {t : Traffic} {s : System} {e : Event} (h : Inv t) (hring : s.pipe.ring = t.sys.pipe.ring)
    (hcall : t.sys.callOf e = none) : Inv ⟨s, t.stored ++ t.sys.storedBy e, t.taken ++ t.sys.takenBy e⟩ := by
  refine ⟨?_, by rw [hring]; exact h.used⟩
  simp only [System.storedBy, System.takenBy, hcall, List.append_nil, hring]
  exact h.stored

theorem Inv.step {t t' : Traffic} {e : Event} (h : Inv t) (hs : t.step e = some t') : Inv t' := by
  obtain ⟨s, hstep, rfl⟩ := Option.map_eq_some_iff.mp hs
  cases System.step_cases hstep with
  | @write _ i addr k hcall _ =>
    have hw := Pipe.pipewrite_wrote (t.sys.killedAt i k) addr h.used
    obtain ⟨done, haddr, hcontents⟩ := hw.contents
    refine ⟨?_, by rw [System.hit_pipe, System.pipewrite_pipe]; exact hw.used⟩
    have hdone : addr.take (addr.length - (t.sys.pipe.pipewrite (t.sys.killedAt i k) addr).2.1.length) = done := by
      have hlen : addr.length - (t.sys.pipe.pipewrite (t.sys.killedAt i k) addr).2.1.length = done.length := by
        have := congrArg List.length haddr
        rw [List.length_append] at this
        omega
      calc addr.take _ = (done ++ (t.sys.pipe.pipewrite (t.sys.killedAt i k) addr).2.1).take done.length := by
            rw [hlen, ← haddr]
        _ = done := List.take_left
    simp only [System.storedBy, System.takenBy, hcall, hdone, List.append_nil, System.hit_pipe, System.pipewrite_pipe,
      hcontents]
    rw [h.stored, List.append_assoc]
  | @read _ i n k hcall _ =>
    simp only [System.storedBy, System.takenBy, hcall, List.append_nil]
    by_cases hwait : t.sys.pipe.Empty ∧ t.sys.pipe.writeopen
    · refine ⟨?_, ?_⟩ <;> rw [System.hit_pipe, System.piperead_pipe, if_pos hwait]
      · rw [if_pos hwait, List.append_nil]
        exact h.stored
      · exact h.used
    · obtain ⟨hcontents, hused, -⟩ := Pipe.pipereadCopy_contents (p := t.sys.pipe) (n := n)
      refine ⟨?_, ?_⟩ <;> rw [System.hit_pipe, System.piperead_pipe, if_neg hwait]
      · rw [if_neg hwait, List.append_assoc, ← hcontents]
        exact h.stored
      · exact Nat.le_trans hused h.used
  | kill | dup => exact h.of_ring rfl rfl
  | close => exact h.of_ring (System.fileclose_ring ..) rfl
  | reuse => exact h.of_ring rfl rfl

/-- A pipe is a queue without loss, in every run of any number of writers and readers. -/
theorem fifo {data : Fin pipesize → Byte} {i : Fin nproc} {tr : List (Traffic × Event)} {t : Traffic}
    (hr : Run (OfStep step) (pipealloc data i) tr t) : Always Fifo tr t := by
  have h0 : Inv (pipealloc data i) := ⟨by simp [pipealloc, System.pipealloc, Ring.contents, Ring.used],
    by simp [pipealloc, System.pipealloc, Ring.used]⟩
  have hG : Meets (fun _ _ => True) tr := fun _ _ => trivial
  exact (hr.always h0 hG fun hI _ hs => hI.step hs).mono fun _ hI => hI.inOrder

/-- A writer that sleeps in the middle of a write, a reader that makes room, and the rest of the write. -/
theorem fifo_split_write :
    ∃ tr t, Run (OfStep step) (pipealloc (fun _ => 0) 0) tr t ∧
      tr.map (·.2) = [.dup 0 1 .write, .write 1 (List.replicate 513 7) .none, .read 0 2 .none,
        .resume 1 .none] ∧
      t.taken.length = 2 ∧ t.stored.length = 513 ∧ Always Fifo tr t := by
  obtain ⟨tr, t, hr, hl, htaken, hstored⟩ := Run.exists_of_traceOf (f := step) (pipealloc (fun _ => 0) 0)
    [.dup 0 1 .write, .write 1 (List.replicate 513 7) .none, .read 0 2 .none, .resume 1 .none]
    (fun _ t => t.taken.length = 2 ∧ t.stored.length = 513) (by decide +kernel)
  exact ⟨tr, t, hr, hl, htaken, hstored, fifo hr⟩

end Traffic

end Xv6.Pipes
