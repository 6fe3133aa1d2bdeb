import Xv6.Sleep

/-! No wakeup is lost. A sleeper gives up `lk` only when it holds `ptable.lock`, so a waker that comes after its test
    goes through the process table when the sleeper is `SLEEPING` already. -/

namespace Xv6.Sleep
open Lib

/-- The lock is held at this statement. -/
def Pc.Holds (lk : Lock) (l : Lock) : Pc → Prop
  | .test | .use | .unlock | .sleepAcquire | .makeTrue | .wakerRelease | .wakerUnlock => l = lk
  | .sleepRelease => l = lk ∨ l = .ptable
  | .setChan | .setState | .sched | .tidy | .sleepUnlock | .kill _ | .killRelease => l = .ptable
  | .wakeupAcquire held => held = true ∧ l = lk
  | .wakeup1 held _ | .wakeupRelease held => l = .ptable ∨ held = true ∧ l = lk
  | .idle | .lock | .asleep | .wakerLock | .killAcquire _ => False

/-- The process has held `lk` since its test. -/
def Pc.Sure (lk : Lock) : Pc → Prop
  | .sleepAcquire | .sleepRelease => True
  | .setChan | .setState | .sched => lk = .ptable
  | _ => False

/-- A statement that is only reached where `lk` is not `ptable.lock`. -/
def Pc.Apart : Pc → Prop
  | .sleepAcquire | .sleepRelease => True
  | .wakeupAcquire held | .wakeupRelease held => held = true
  | _ => False

/-- The process is about to sleep, with `ptable.lock`. -/
def Pc.Going : Pc → Prop
  | .setChan | .setState | .sched => True
  | _ => False

namespace State
variable {n : Nat}

/-- A sleeper on the channel tested the condition after every critical section whose `wakeup` has been through the
    table. -/
def NoneMissed (chan : Nat) (s : State n) : Prop :=
  ∀ p, (s.th p).state = .sleeping → (s.th p).chan = chan → ∀ m ∈ s.done, ¬(s.th p).tested < m

structure Inv (lk : Lock) (chan : Nat) (s : State n) : Prop where
  holds : ∀ p l, (s.th p).pc.Holds lk l → s.holder l = some p
  sure : ∀ p, (s.th p).pc.Sure lk → (s.th p).tested = s.sections
  apart : ∀ p, (s.th p).pc.Apart → lk ≠ .ptable
  done : ∀ m ∈ s.done, m ≤ s.sections
  mine : ∀ p, (s.th p).mine ≤ s.sections
  going : ∀ p, (s.th p).pc.Going → ∀ m ∈ s.done, m ≤ (s.th p).tested
  sleeping : ∀ p, (s.th p).state = .sleeping → ((s.th p).pc = .sched ∨ (s.th p).pc = .asleep) ∧ (s.th p).chan = chan ∧
    ∀ m ∈ s.done, m ≤ (s.th p).tested
  chan : ∀ p, (s.th p).pc = .setState ∨ (s.th p).pc = .sched → (s.th p).chan = chan
  scan : ∀ p q held i, (s.th q).pc = .wakeup1 held i → (s.th p).state = .sleeping → p.val < i →
    (s.th q).mine ≤ (s.th p).tested

section
variable {lk : Lock} {chan : Nat} {s s' : State n} {p q : Fin n} {l : Lock} {t : Thread} {cond : Bool}
  {holder : Lock → Option (Fin n)} {pc : Pc} {held choice : Bool} {i : Nat}

theorem Inv.noneMissed (h : s.Inv lk chan) : s.NoneMissed chan := fun p hp _ m hm =>
  Nat.not_lt.mpr ((h.sleeping p hp).2.2 m hm)

theorem Inv.holder_ne (h : s.Inv lk chan) (hp : (s.th p).pc.Holds lk l) (hq : (s.th q).pc.Holds lk l) : p = q :=
  Option.some.inj ((h.holds p l hp).symm.trans (h.holds q l hq))

/-- What process `p` needs to show when it changes only itself, the condition and the locks. -/
structure Own (lk : Lock) (chan : Nat) (s : State n) (p : Fin n) (t : Thread) (holder : Lock → Option (Fin n)) : Prop where
  holds : ∀ l, t.pc.Holds lk l → holder l = some p
  others : ∀ l q, q ≠ p → s.holder l = some q → holder l = some q
  sure : t.pc.Sure lk → t.tested = s.sections
  apart : t.pc.Apart → lk ≠ .ptable
  mine : t.mine ≤ s.sections
  going : t.pc.Going → ∀ m ∈ s.done, m ≤ t.tested
  sleeping : t.state = .sleeping → (t.pc = .sched ∨ t.pc = .asleep) ∧ t.chan = chan ∧ ∀ m ∈ s.done, m ≤ t.tested
  chan : t.pc = .setState ∨ t.pc = .sched → t.chan = chan
  scan : ∀ held i q, q ≠ p → t.pc = .wakeup1 held i → (s.th q).state = .sleeping → q.val < i → t.mine ≤ (s.th q).tested
  asleep : t.state = .sleeping → (s.th p).state = .sleeping ∧ t.tested = (s.th p).tested ∨ s.holder .ptable = some p

theorem set_self : (s.set p t).th p = t :=
  Function.update_self ..

theorem set_of_ne (hq : q ≠ p) : (s.set p t).th q = s.th q :=
  Function.update_of_ne hq ..

theorem Inv.own (h : s.Inv lk chan) (ho : Own lk chan s p t holder) :
    Inv lk chan { s.set p t with holder, cond } := by
  have hself : Function.update s.th p t p = t := Function.update_self ..
  have hne {q : Fin n} (hq : q ≠ p) : Function.update s.th p t q = s.th q := Function.update_of_ne hq ..
  refine ⟨fun q l hl => ?_, fun q hq => ?_, fun q hq => ?_, h.done, fun q => ?_, fun q hq => ?_, fun q hq => ?_,
    fun q hq => ?_, fun q r held i hr hq hi => ?_⟩
  · by_cases hqp : q = p
    · subst hqp
      simp only [set, hself] at hl
      exact ho.holds l hl
    · simp only [set, hne hqp] at hl
      exact ho.others l q hqp (h.holds q l hl)
  · by_cases hqp : q = p
    · subst hqp
      simp only [set, hself] at hq ⊢
      exact ho.sure hq
    · simp only [set, hne hqp] at hq ⊢
      exact h.sure q hq
  · by_cases hqp : q = p
    · subst hqp
      simp only [set, hself] at hq
      exact ho.apart hq
    · simp only [set, hne hqp] at hq
      exact h.apart q hq
  · by_cases hqp : q = p
    · subst hqp
      simp only [set, hself]
      exact ho.mine
    · simp only [set, hne hqp]
      exact h.mine q
  · by_cases hqp : q = p
    · subst hqp
      simp only [set, hself] at hq ⊢
      exact ho.going hq
    · simp only [set, hne hqp] at hq ⊢
      exact h.going q hq
  · by_cases hqp : q = p
    · subst hqp
      simp only [set, hself] at hq ⊢
      exact ho.sleeping hq
    · simp only [set, hne hqp] at hq ⊢
      exact h.sleeping q hq
  · by_cases hqp : q = p
    · subst hqp
      simp only [set, hself] at hq ⊢
      exact ho.chan hq
    · simp only [set, hne hqp] at hq ⊢
      exact h.chan q hq
  · by_cases hqp : q = p
    · subst hqp
      simp only [set, hself] at hq hr ⊢
      by_cases hrp : r = q
      · -- A process in `wakeup1` does not sleep.
        subst hrp
        simp only [hself] at hr
        rcases (ho.sleeping hq).1 with h | h <;> simp [h] at hr
      · simp only [hne hrp] at hr ⊢
        rcases ho.asleep hq with ⟨hs, ht⟩ | hh
        · rw [ht]
          exact h.scan q r held i hr hs hi
        · -- Nobody else is in `wakeup1` while the process has `ptable.lock`.
          have hr' := h.holds r .ptable (by rw [hr]; exact .inl rfl)
          exact absurd (Option.some.inj (hr'.symm.trans hh)) hrp
    · simp only [set, hne hqp] at hq hr ⊢
      by_cases hrp : r = p
      · subst hrp
        simp only [hself] at hr ⊢
        exact ho.scan held i q hqp hr hq hi
      · simp only [hne hrp] at hr ⊢
        exact h.scan q r held i hr hq hi

theorem Inv.keep (h : s.Inv lk chan) (ho : Own lk chan s p t s.holder) : Inv lk chan { s.set p t with cond } :=
  h.own ho

theorem Inv.acquire (h : s.Inv lk chan) (hs : s.acquire l p t = some s')
    (ho : s.holder l = none → Own lk chan s p t (Function.update s.holder l (some p))) : s'.Inv lk chan := by
  unfold State.acquire at hs
  split at hs
  · rename_i hfree
    cases hs
    exact h.own (ho hfree)
  · cases hs

theorem Inv.release (h : s.Inv lk chan) (hs : s.release l p t = some s')
    (ho : Own lk chan s p t (Function.update s.holder l none)) : s'.Inv lk chan := by
  cases hs
  exact h.own ho

theorem others_acquire (hfree : s.holder l = none) (l' : Lock) (q : Fin n) (_ : q ≠ p) (hq : s.holder l' = some q) :
    Function.update s.holder l (some p) l' = some q := by
  have : l' ≠ l := by
    rintro rfl
    rw [hfree] at hq
    cases hq
  rw [Function.update_of_ne this, hq]

theorem others_release (hp : s.holder l = some p) (l' : Lock) (q : Fin n) (hne : q ≠ p) (hq : s.holder l' = some q) :
    Function.update s.holder l none l' = some q := by
  have : l' ≠ l := by
    rintro rfl
    exact hne (Option.some.inj (hq.symm.trans hp))
  rw [Function.update_of_ne this, hq]

/-- A process that does not sleep, at a statement outside the last part of `sleep` and of `wakeup1`. -/
theorem Own.awake (hstate : t.state ≠ .sleeping) (hmine : t.mine ≤ s.sections)
    (hgoing : ¬t.pc.Going) (hscan : ∀ held i, t.pc = .wakeup1 held i → i = 0)
    (holds : ∀ l, t.pc.Holds lk l → holder l = some p) (others : ∀ l q, q ≠ p → s.holder l = some q → holder l = some q)
    (sure : t.pc.Sure lk → t.tested = s.sections) (apart : t.pc.Apart → lk ≠ .ptable) : Own lk chan s p t holder := by
  refine ⟨holds, others, sure, apart, hmine, fun h => absurd h hgoing, fun h => absurd h hstate, fun h => ?_,
    fun held i q _ h _ hi => ?_, fun h => absurd h hstate⟩
  · rcases h with h | h <;> simp [h, Pc.Going] at hgoing
  · rw [hscan held i h] at hi
    exact absurd hi (Nat.not_lt_zero _)

theorem Own.acquire (hfree : s.holder l = none) (hstate : t.state ≠ .sleeping) (hmine : t.mine ≤ s.sections)
    (hgoing : ¬t.pc.Going) (hscan : ∀ held i, t.pc = .wakeup1 held i → i = 0)
    (holds : ∀ l', t.pc.Holds lk l' → l' = l ∨ s.holder l' = some p) (sure : t.pc.Sure lk → t.tested = s.sections)
    (apart : t.pc.Apart → lk ≠ .ptable) : Own lk chan s p t (Function.update s.holder l (some p)) := by
  refine .awake hstate hmine hgoing hscan (fun l' hl => ?_) (others_acquire hfree) sure apart
  by_cases hl' : l' = l
  · rw [hl', Function.update_self]
  · rw [Function.update_of_ne hl']
    exact (holds l' hl).resolve_left hl'

theorem Own.release (hp : s.holder l = some p) (hstate : t.state ≠ .sleeping) (hmine : t.mine ≤ s.sections)
    (hgoing : ¬t.pc.Going) (hscan : ∀ held i, t.pc = .wakeup1 held i → i = 0)
    (holds : ∀ l', t.pc.Holds lk l' → l' ≠ l ∧ s.holder l' = some p) (sure : ¬t.pc.Sure lk)
    (apart : t.pc.Apart → lk ≠ .ptable) : Own lk chan s p t (Function.update s.holder l none) := by
  refine .awake hstate hmine hgoing hscan (fun l' hl => ?_) (others_release hp) (fun h => absurd h sure) apart
  obtain ⟨hne, hh⟩ := holds l' hl
  rw [Function.update_of_ne hne, hh]

theorem Inv.disturb (h : s.Inv lk chan) (state : ProcState) (killed : Bool)
    (hstate : state = .sleeping → (s.th p).state = .sleeping) : Inv lk chan (s.set p { s.th p with state, killed }) :=
  h.keep ⟨h.holds p, fun _ _ _ => id, h.sure p, h.apart p, h.mine p, h.going p,
    fun hs => h.sleeping p (hstate hs), h.chan p, fun held i q _ hpc hq hi => h.scan q p held i hpc hq hi,
    fun hs => .inl ⟨hstate hs, rfl⟩⟩

theorem Inv.wake {c : Option Nat} (h : s.Inv lk chan) : Inv lk chan (s.wake c p) := by
  unfold State.wake
  split
  · exact h.disturb _ _ nofun
  · exact h

theorem Pc.Sure.holds (h : pc.Sure lk) : pc.Holds lk lk := by
  cases pc <;> first | exact h.elim | exact rfl | exact .inl rfl | exact h

theorem Inv.section (h : s.Inv lk chan) (hp : (s.th p).pc = .makeTrue) :
    Inv lk chan { s with sections := s.sections + 1 } := by
  refine ⟨h.holds, fun q hq => ?_, h.apart, fun m hm => Nat.le_succ_of_le (h.done m hm),
    fun q => Nat.le_succ_of_le (h.mine q), h.going, h.sleeping, h.chan, h.scan⟩
  have hpq := h.holder_ne (Pc.Sure.holds hq) (q := p) (by rw [hp]; rfl)
  subst hpq
  simp only [hp] at hq
  exact hq.elim

theorem Inv.advance (h : s.Inv lk chan) (hp : (s.th p).pc = .wakeup1 held i)
    (hi : ∀ q : Fin n, q.val = i → (s.th q).state ≠ .sleeping) :
    Inv lk chan (s.set p { s.th p with pc := .wakeup1 held (i + 1) }) := by
  have hstate : (s.th p).state ≠ .sleeping := fun hs => by
    rcases (h.sleeping p hs).1 with h | h <;> simp [h] at hp
  refine h.keep ⟨fun l hl => h.holds p l (by rw [hp]; exact hl), fun _ _ _ => id, fun hs => hs.elim,
    fun ha => ha.elim, h.mine p, fun hg => hg.elim, fun hs => absurd hs hstate, fun hc => by simp at hc,
    fun held' j q _ hpc hq hj => ?_, fun hs => absurd hs hstate⟩
  cases hpc
  rcases Nat.lt_succ_iff_lt_or_eq.mp hj with hj | hj
  · exact h.scan q p held i hp hq hj
  · exact absurd hq (hi q hj)

/-- The walk through the table is over: every sleeper tested the condition after this critical section. -/
theorem Inv.finish (h : s.Inv lk chan) (hp : (s.th p).pc = .wakeup1 held i) (hi : n ≤ i)
    (hpc : pc = .wakerUnlock ∧ held = true ∧ lk = .ptable ∨ pc = .wakeupRelease held ∧ (held = true → lk ≠ .ptable)) :
    Inv lk chan { s.set p { s.th p with pc } with done := (s.th p).mine :: s.done } := by
  have hstate : (s.th p).state ≠ .sleeping := fun hs => by
    rcases (h.sleeping p hs).1 with h | h <;> simp [h] at hp
  have hptable := h.holds p .ptable (by rw [hp]; exact .inl rfl)
  have hset : Inv lk chan (s.set p { s.th p with pc }) := by
    refine h.keep (.awake hstate (h.mine p) ?_ ?_ (fun l hl => ?_) (fun _ _ _ => id) ?_ ?_)
    · rcases hpc with ⟨rfl, -⟩ | ⟨rfl, -⟩ <;> exact id
    · rcases hpc with ⟨rfl, -⟩ | ⟨rfl, -⟩ <;> nofun
    · rcases hpc with ⟨rfl, rfl, rfl⟩ | ⟨rfl, -⟩
      · exact hl ▸ hptable
      · exact h.holds p l (by rw [hp]; exact hl)
    · rcases hpc with ⟨rfl, -⟩ | ⟨rfl, -⟩ <;> exact fun h => h.elim
    · rcases hpc with ⟨rfl, -⟩ | ⟨rfl, h⟩
      · exact fun h => h.elim
      · exact h
  have hmine : ∀ q, ((s.set p { s.th p with pc }).th q).state = .sleeping →
      (s.th p).mine ≤ ((s.set p { s.th p with pc }).th q).tested := by
    intro q hq
    by_cases hqp : q = p
    · subst hqp
      rw [set_self] at hq
      exact absurd hq hstate
    · rw [set_of_ne hqp] at hq ⊢
      exact h.scan q p held i hp hq (Nat.lt_of_lt_of_le q.isLt hi)
  refine ⟨hset.holds, hset.sure, hset.apart, fun m hm => ?_, hset.mine, fun q hq m hm => ?_, fun q hq => ?_, hset.chan,
    hset.scan⟩
  · rcases List.mem_cons.mp hm with rfl | hm
    · exact h.mine p
    · exact h.done m hm
  · rcases List.mem_cons.mp hm with rfl | hm
    · -- Nobody is about to sleep while the waker has `ptable.lock`.
      have hq' :=
        hset.holds q .ptable (by revert hq; cases ((s.set p { s.th p with pc }).th q).pc <;> simp [Pc.Going, Pc.Holds])
      have hqp : q = p := Option.some.inj (hq'.symm.trans hptable)
      subst hqp
      replace hq : ((s.set q { s.th q with pc }).th q).pc.Going := hq
      rw [set_self] at hq
      rcases hpc with ⟨rfl, -⟩ | ⟨rfl, -⟩ <;> exact hq.elim
    · exact hset.going q hq m hm
  · obtain ⟨h1, h2, h3⟩ := hset.sleeping q hq
    refine ⟨h1, h2, fun m hm => ?_⟩
    rcases List.mem_cons.mp hm with rfl | hm
    · exact hmine q hq
    · exact h3 m hm

theorem wake_not_sleeping (h : s.Inv lk chan) (q : Fin n) : ((s.wake (some chan) q).th q).state ≠ .sleeping := by
  unfold State.wake
  split
  · rw [set_self]
    nofun
  · rename_i hno
    exact fun hs => hno ⟨hs, .inr (by rw [(h.sleeping q hs).2.1])⟩

theorem wake_pc (c : Option Nat) (i : Fin n) (q : Fin n) : ((s.wake c i).th q).pc = (s.th q).pc := by
  unfold State.wake
  split
  · by_cases hq : q = i
    · subst hq
      rw [set_self]
    · rw [set_of_ne hq]
  · rfl

theorem Inv.awake (h : s.Inv lk chan) (h1 : (s.th p).pc ≠ .sched) (h2 : (s.th p).pc ≠ .asleep) :
    (s.th p).state ≠ .sleeping :=
  fun hs => (h.sleeping p hs).1.elim h1 h2

theorem Inv.next_test (h : s.Inv lk chan) (hpc : (s.th p).pc = .test) (hs : s.next lk chan p choice = some s') :
    s'.Inv lk chan := by
  have hm := h.mine p
  have hlk := h.holds p lk (by rw [hpc]; rfl)
  have hst := h.awake (p := p) (by simp [hpc]) (by simp [hpc])
  unfold State.next at hs
  simp only [hpc] at hs
  split at hs
  · cases hs
    exact h.keep (.awake hst hm id nofun (fun l hl => hl ▸ hlk) (fun _ _ _ => id) (fun h => h.elim) (fun h => h.elim))
  · split at hs
    · cases hs
      exact h.keep (.awake hst hm id nofun (fun l hl => hl ▸ hlk) (fun _ _ _ => id) (fun h => h.elim) (fun h => h.elim))
    · cases hs
      by_cases hp : lk = .ptable
      · refine h.keep ⟨fun l hl => ?_, fun _ _ _ => id, fun _ => rfl, fun ha => ?_, hm, fun _ => h.done,
          fun hs => absurd hs hst, fun hc => ?_, fun held i q _ hw => ?_, fun hs => absurd hs hst⟩
        · rw [if_pos hp] at hl
          rw [show l = .ptable from hl, ← hp]
          exact hlk
        · rw [if_pos hp] at ha
          exact ha.elim
        · rw [if_pos hp] at hc
          simp at hc
        · rw [if_pos hp] at hw
          cases hw
      · rw [if_neg hp]
        exact h.keep (.awake hst hm id nofun (fun l hl => hl ▸ hlk) (fun _ _ _ => id) (fun _ => rfl) (fun _ => hp))

theorem Inv.next_makeTrue (h : s.Inv lk chan) (hpc : (s.th p).pc = .makeTrue)
    (hs : s.next lk chan p choice = some s') : s'.Inv lk chan := by
  have hst := h.awake (p := p) (by simp [hpc]) (by simp [hpc])
  have hlk := h.holds p lk (by rw [hpc]; rfl)
  have hsec := h.section hpc
  unfold State.next at hs
  simp only [hpc] at hs
  cases hs
  refine hsec.keep (s := { s with sections := s.sections + 1 })
    (.awake hst (Nat.le_refl _) ?_ ?_ (fun l hl => ?_) (fun _ _ _ => id) ?_ ?_)
  · dsimp only
    split_ifs <;> exact id
  · intro held i hw
    dsimp only at hw
    split_ifs at hw
    cases hw
    rfl
  · dsimp only at hl
    split_ifs at hl with hc hp
    · rcases hl with rfl | ⟨-, rfl⟩
      · exact hp ▸ hlk
      · exact hlk
    · exact hl.2 ▸ hlk
    · exact hl ▸ hlk
  · dsimp only
    split_ifs <;> exact fun h => h.elim
  · dsimp only
    split_ifs with hc hp
    · exact fun h => h.elim
    · exact fun _ => hp
    · exact fun h => h.elim

theorem Inv.next_wakeup1 (h : s.Inv lk chan) (hpc : (s.th p).pc = .wakeup1 held i)
    (hs : s.next lk chan p choice = some s') : s'.Inv lk chan := by
  unfold State.next at hs
  simp only [hpc] at hs
  split at hs
  · rename_i hi
    cases hs
    refine (h.wake (c := some chan) (p := ⟨i, hi⟩)).advance ((wake_pc ..).trans hpc) fun q hq => ?_
    obtain rfl : q = ⟨i, hi⟩ := Fin.ext hq
    exact wake_not_sleeping h _
  · rename_i hi
    cases hs
    refine h.finish hpc (Nat.le_of_not_lt hi) ?_
    split
    · rename_i hc
      exact .inl ⟨rfl, hc⟩
    · rename_i hc
      exact .inr ⟨rfl, fun hh hl => hc ⟨hh, hl⟩⟩

theorem Inv.next_wakeupRelease (h : s.Inv lk chan) (hpc : (s.th p).pc = .wakeupRelease held)
    (hs : s.next lk chan p choice = some s') : s'.Inv lk chan := by
  have hpt := h.holds p .ptable (by rw [hpc]; exact .inl rfl)
  have hst := h.awake (p := p) (by simp [hpc]) (by simp [hpc])
  unfold State.next at hs
  simp only [hpc] at hs
  refine h.release hs (.release hpt hst (h.mine p) ?_ ?_ (fun l hl => ?_) ?_ ?_)
  · cases held <;> exact id
  · cases held <;> nofun
  · cases held with
    | false => exact hl.elim
    | true =>
      have hap := h.apart p (by rw [hpc]; exact rfl)
      rw [show l = lk from hl]
      exact ⟨hap, h.holds p lk (by rw [hpc]; exact .inr ⟨rfl, rfl⟩)⟩
  · cases held <;> exact id
  · cases held <;> exact fun h => h.elim

theorem Inv.killed (h : s.Inv lk chan) (hpc : (s.th p).pc = .kill i) :
    Inv lk chan (s.set p { s.th p with pc := .killRelease }) := by
  have hst := h.awake (p := p) (by simp [hpc]) (by simp [hpc])
  exact h.keep (.awake hst (h.mine p) id nofun (fun l hl => h.holds p l (by rw [hpc]; exact hl))
    (fun _ _ _ => id) (fun h => h.elim) (fun h => h.elim))

theorem Inv.next_kill (h : s.Inv lk chan) (hpc : (s.th p).pc = .kill i)
    (hs : s.next lk chan p choice = some s') : s'.Inv lk chan := by
  unfold State.next at hs
  simp only [hpc] at hs
  split at hs
  · rename_i hi
    cases hs
    have hk := h.disturb (p := ⟨i, hi⟩) (s.th ⟨i, hi⟩).state true id
    refine hk.wake.killed (i := i) ((wake_pc ..).trans ?_)
    by_cases hq : p = ⟨i, hi⟩
    · rw [← hq, set_self, hpc]
    · rw [set_of_ne hq, hpc]
  · cases hs
    exact h.killed hpc

theorem Inv.next (h : s.Inv lk chan) (hs : s.next lk chan p choice = some s') : s'.Inv lk chan := by
  have hm := h.mine p
  have awake (h1 : (s.th p).pc ≠ .sched) (h2 : (s.th p).pc ≠ .asleep) := h.awake h1 h2
  have hold (l : Lock) (hl : (s.th p).pc.Holds lk l) : s.holder l = some p := h.holds p l hl
  have hnext := hs
  unfold State.next at hs
  dsimp only at hs
  split at hs
  all_goals rename_i hpc
  · cases hs
  · -- lock
    exact h.acquire hs fun hfree => .acquire hfree (awake (by simp [hpc]) (by simp [hpc])) hm id nofun (fun _ => .inl)
      (fun h => h.elim) (fun h => h.elim)
  · -- test
    exact h.next_test hpc hnext
  · -- use
    cases hs
    have hlk := hold lk (by rw [hpc]; rfl)
    exact h.keep (.awake (awake (by simp [hpc]) (by simp [hpc])) hm id nofun (fun l hl => hl ▸ hlk)
      (fun _ _ _ => id) (fun h => h.elim) (fun h => h.elim))
  · -- unlock
    exact h.release hs (.release (hold lk (by rw [hpc]; rfl)) (awake (by simp [hpc]) (by simp [hpc])) hm id nofun
      (fun _ h => h.elim) id (fun h => h.elim))
  · -- sleepAcquire
    have hlk := hold lk (by rw [hpc]; rfl)
    have hap := h.apart p (by rw [hpc]; trivial)
    refine h.acquire hs fun hfree => .acquire hfree (awake (by simp [hpc]) (by simp [hpc])) hm id nofun (fun l hl => ?_)
      (fun _ => h.sure p (by rw [hpc]; trivial)) (fun _ => hap)
    rcases hl with rfl | rfl
    · exact .inr hlk
    · exact .inl rfl
  · -- sleepRelease
    have hlk := hold lk (by rw [hpc]; exact .inl rfl)
    have hpt := hold .ptable (by rw [hpc]; exact .inr rfl)
    have hap := h.apart p (by rw [hpc]; trivial)
    have hst := awake (by simp [hpc]) (by simp [hpc])
    have hsure := h.sure p (by rw [hpc]; trivial)
    refine h.release hs ⟨fun l hl => ?_, others_release hlk, fun h => absurd h hap, fun h => h.elim, hm, fun _ m hm => ?_,
      fun hs => absurd hs hst, fun hc => by simp at hc, fun held i q _ hw => (nomatch hw), fun hs => absurd hs hst⟩
    · rw [show l = .ptable from hl, Function.update_of_ne (Ne.symm hap), hpt]
    · rw [hsure]
      exact h.done m hm
  · -- setChan
    cases hs
    have hst := awake (by simp [hpc]) (by simp [hpc])
    exact h.keep ⟨fun l hl => hold l (by rw [hpc]; exact hl), fun _ _ _ => id,
      fun h' => h.sure p (by rw [hpc]; exact h'), fun h => h.elim, hm, fun _ => h.going p (by rw [hpc]; trivial),
      fun hs => absurd hs hst, fun _ => rfl, fun held i q _ hw => (nomatch hw), fun hs => absurd hs hst⟩
  · -- setState
    cases hs
    have hgo := h.going p (by rw [hpc]; trivial)
    have hch := h.chan p (.inl hpc)
    exact h.keep ⟨fun l hl => hold l (by rw [hpc]; exact hl), fun _ _ _ => id,
      fun h' => h.sure p (by rw [hpc]; exact h'), fun h => h.elim, hm, fun _ => hgo, fun _ => ⟨.inl rfl, hch, hgo⟩,
      fun _ => hch, fun held i q _ hw => (nomatch hw), fun _ => .inr (hold .ptable (by rw [hpc]; rfl))⟩
  · -- sched
    have hpt := hold .ptable (by rw [hpc]; rfl)
    exact h.release hs ⟨fun _ h => h.elim, others_release hpt, fun h => h.elim, fun h => h.elim, hm, fun h => h.elim,
      fun hs => ⟨.inr rfl, (h.sleeping p hs).2⟩, fun hc => by simp at hc, fun held i q _ hw => (nomatch hw),
      fun hs => .inl ⟨hs, rfl⟩⟩
  · -- asleep
    split at hs
    · exact h.acquire hs fun hfree => .acquire hfree nofun hm id nofun (fun _ => .inl) (fun h => h.elim) (fun h => h.elim)
    · cases hs
  · -- tidy
    cases hs
    have hst := awake (by simp [hpc]) (by simp [hpc])
    have hpt := hold .ptable (by rw [hpc]; rfl)
    split
    · rename_i hp
      exact h.keep (.awake hst hm id nofun (fun l hl => by rw [show l = lk from hl, hp]; exact hpt)
        (fun _ _ _ => id) (fun h => h.elim) (fun h => h.elim))
    · exact h.keep (.awake hst hm id nofun (fun l hl => hl ▸ hpt) (fun _ _ _ => id) (fun h => h.elim) (fun h => h.elim))
  · -- sleepUnlock
    exact h.release hs (.release (hold .ptable (by rw [hpc]; rfl)) (awake (by simp [hpc]) (by simp [hpc])) hm id nofun
      (fun _ h => h.elim) id (fun h => h.elim))
  · -- wakerLock
    exact h.acquire hs fun hfree => .acquire hfree (awake (by simp [hpc]) (by simp [hpc])) hm id nofun (fun _ => .inl)
      (fun h => h.elim) (fun h => h.elim)
  · -- makeTrue
    exact h.next_makeTrue hpc hnext
  · -- wakerRelease
    exact h.release hs (.release (hold lk (by rw [hpc]; rfl)) (awake (by simp [hpc]) (by simp [hpc])) hm id nofun
      (fun _ h => nomatch h.1) id (fun h => nomatch h))
  · -- wakeupAcquire
    rename_i held
    refine h.acquire hs fun hfree => .acquire hfree (awake (by simp [hpc]) (by simp [hpc])) hm id ?_ (fun l hl => ?_)
      (fun h => h.elim) (fun h => h.elim)
    · intro _ _ hw
      cases hw
      rfl
    · rcases hl with rfl | hl
      · exact .inl rfl
      · exact .inr (hold l (by rw [hpc]; exact hl))
  · -- wakeup1
    exact h.next_wakeup1 hpc hnext
  · -- wakeupRelease
    exact h.next_wakeupRelease hpc hnext
  · -- wakerUnlock
    exact h.release hs (.release (hold lk (by rw [hpc]; rfl)) (awake (by simp [hpc]) (by simp [hpc])) hm id nofun
      (fun _ h => h.elim) id (fun h => h.elim))
  · -- killAcquire
    exact h.acquire hs fun hfree => .acquire hfree (awake (by simp [hpc]) (by simp [hpc])) hm id nofun (fun _ => .inl)
      (fun h => h.elim) (fun h => h.elim)
  · -- kill
    exact h.next_kill hpc hnext
  · -- killRelease
    exact h.release hs (.release (hold .ptable (by rw [hpc]; rfl)) (awake (by simp [hpc]) (by simp [hpc])) hm id nofun
      (fun _ h => h.elim) id (fun h => h.elim))

theorem Inv.step {e : Event n} (h : s.Inv lk chan) (hs : s.step lk chan e = some s') : s'.Inv lk chan := by
  cases e with
  | start p task =>
    simp only [State.step] at hs
    split at hs
    · rename_i hpc
      cases hs
      have hst : (s.th p).state ≠ .sleeping := fun hs => by
        rcases (h.sleeping p hs).1 with h | h <;> simp [h] at hpc
      refine h.keep (.awake hst (h.mine p) ?_ ?_ ?_ (fun _ _ _ => id) ?_ ?_) <;> cases task <;>
        first | exact id | nofun
    · cases hs
  | step p choice => exact h.next hs

end

theorem init_inv {lk : Lock} {chan : Nat} (cond : Bool) : Inv lk chan (init n cond) :=
  ⟨fun _ _ h => h.elim, fun _ h => h.elim, fun _ h => h.elim, nofun, fun _ => Nat.le_refl _, fun _ h => h.elim, nofun,
    fun _ h => by simp [init] at h, nofun⟩

end State

/-- In every state that can be reached, for any number of processes and whether `lk` is `ptable.lock` or not, no
    process is `SLEEPING` on the channel because of a test that was made before the critical section of a waker whose
    `wakeup` is over. -/
theorem none_missed {n : Nat} {lk : Lock} {chan : Nat} {cond : Bool} {s : State n} {tr : List (State n × State.Event n)}
    (hr : Run (OfStep (State.step lk chan)) (.init n cond) tr s) : Always (State.NoneMissed chan) tr s :=
  (hr.always (G := fun _ _ => True) (State.init_inv cond) (fun _ _ => trivial) fun h _ hs => h.step hs).mono
    fun _ h => h.noneMissed

/-- A consumer tests, a producer comes, and the consumer is woken. -/
theorem none_missed_wakes : ∃ tr s, Run (OfStep (State.step .other 5)) (.init 2 false) tr s ∧
    (s.th 0).pc = .asleep ∧ (s.th 0).state = .runnable ∧ s.done = [1] ∧ (s.th 0).tested = 0 ∧
      Always (State.NoneMissed 5) tr s := by
  obtain ⟨tr, s, hr, -, h1, h2, h3, h4⟩ := Run.exists_of_traceOf (f := State.step .other 5) (.init 2 false)
    ([.start 0 .sleeper, .start 1 .waker, .step 0 true, .step 0 true, .step 0 true, .step 0 true, .step 1 false,
      .step 1 false, .step 1 false] ++ List.replicate 3 (.step 0 true) ++ List.replicate 4 (.step 1 true))
    (fun _ s => (s.th 0).pc = .asleep ∧ (s.th 0).state = .runnable ∧ s.done = [1] ∧ (s.th 0).tested = 0) (by decide +kernel)
  exact ⟨tr, s, hr, h1, h2, h3, h4, none_missed hr⟩

end Xv6.Sleep
