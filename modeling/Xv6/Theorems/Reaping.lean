import Xv6.Theorems.Exclusive

/-! Every exit is reaped once. A process keeps a live parent, since `exit` passes the children on to init, which does
    not exit; and a parent that sleeps in `wait` is woken by the exit that makes a zombie its child. -/

namespace Xv6.Cpus
open Lib

/-! ### Process identifiers -/

/-- A pid that was taken before the next one is number `b`. -/
def Old (b : Nat) (x : Int) : Prop := ∃ a : Nat, 1 ≤ a ∧ a < b ∧ x = int32 a

variable {x : Int} {b a : ProcState}

theorem Old.succ {b : Nat} (h : Old b x) : Old (b + 1) x := by
  obtain ⟨a, h1, hb, hx⟩ := h
  exact ⟨a, h1, by omega, hx⟩

theorem int32_succ (b : Nat) : int32 (int32 b + 1) = int32 (b + 1 : Nat) := by
  simp only [int32, Int.natCast_add, Int.natCast_one, Int.bmod_add_bmod]

theorem Old.ne {b : Nat} (h : Old b x) (hb : b ≤ 0x80000001) : x ≠ int32 b := by
  obtain ⟨a, h1, hab, hx⟩ := h
  rw [hx]
  intro heq
  have hmod := congrArg (· % ((2 ^ 32 : Nat) : Int)) heq
  simp only [int32, Int.bmod_emod] at hmod
  omega

/-! ### Children -/

def Live (s : ProcState) : Prop := s = .sleeping ∨ s = .runnable ∨ s = .running

theorem Live.ne {s : ProcState} (h : Live s) : s ≠ .unused ∧ s ≠ .embryo ∧ s ≠ .zombie := by
  rcases h with rfl | rfl | rfl <;> simp

/-- A state stays, or one of a live process becomes another such state. -/
def Moves (a b : ProcState) : Prop := b = a ∨ Live a ∧ Live b

theorem Moves.live (h : Moves a b) (ha : Live a) : Live b := by
  rcases h with rfl | ⟨-, hb⟩
  · exact ha
  · exact hb

theorem Moves.eq_of_not_live (h : Moves a b) (hb : ¬Live b) : a = b := by
  rcases h with rfl | ⟨-, hl⟩
  · rfl
  · exact absurd hl hb

theorem Woken.moves (h : Woken a b) : Moves a b := by
  rcases h with rfl | ⟨rfl, rfl⟩
  · exact .inl rfl
  · exact .inr ⟨.inl rfl, .inr (.inl rfl)⟩

/-! ### The family -/

namespace Machine
variable {n : Nat} {L : Layout} {m m' : Machine n} {c : Fin n} {p np : Fin nproc} {z : Fin nproc} {b : Nat}

def parent (m : Machine n) (j : Fin nproc) : Option (Fin nproc) := (m.k.proc j).parent

structure Family (L : Layout) (m : Machine n) : Prop where
  init : (∃ z, m.k.initproc = some z ∧ Live (m.st z) ∧ m.parent z = none) ∨ ∀ j, m.st j = .unused
  live : ∀ j q, m.parent j = some q → Live (m.st q)
  self : ∀ j, m.parent j ≠ some j
  child : ∀ j, m.st j ≠ .unused → m.st j ≠ .embryo → m.k.initproc ≠ some j → m.parent j ≠ none
  copied : ∀ p np, m.stage p = .copied np → m.parent np ≠ none
  waiting : ∀ p, m.st p = .sleeping → m.resume p = .wait →
    (m.k.proc p).chan = L.procAddr p ∧ ∀ j, m.parent j = some p → m.st j ≠ .zombie

theorem Family.keep (h : Family L m) (hinit : m'.k.initproc = m.k.initproc) (hparent : ∀ j, m'.parent j = m.parent j)
    (hmoves : ∀ j, Moves (m.st j) (m'.st j)) (hstage : ∀ p np, m'.stage p = .copied np → m.stage p = .copied np)
    (hwait : ∀ p, m'.st p = .sleeping → m'.resume p = .wait →
      m.st p = .sleeping ∧ m.resume p = .wait ∧ (m'.k.proc p).chan = (m.k.proc p).chan ∨
        (m'.k.proc p).chan = L.procAddr p ∧ ∀ j, m.parent j = some p → m.st j ≠ .zombie) : Family L m' := by
  refine ⟨?_, fun j q hq => ?_, fun j => ?_, fun j h1 h2 h3 => ?_, fun p np hp => ?_, fun p hs hr => ?_⟩
  · rcases h.init with ⟨z, hz, hl, hp⟩ | hu
    · exact .inl ⟨z, hinit.trans hz, (hmoves z).live hl, (hparent z).trans hp⟩
    · refine .inr fun j => ?_
      rcases hmoves j with heq | ⟨hl, -⟩
      · rw [heq, hu j]
      · exact absurd (hu j) hl.ne.1
  · exact (hmoves q).live (h.live j q ((hparent j).symm.trans hq))
  · rw [hparent j]
    exact h.self j
  · rw [hparent j]
    rw [hinit] at h3
    rcases hmoves j with heq | ⟨hl, -⟩
    · exact h.child j (heq ▸ h1) (heq ▸ h2) h3
    · exact h.child j hl.ne.1 hl.ne.2.1 h3
  · rw [hparent np]
    exact h.copied p np (hstage p np hp)
  · have hz (hno : ∀ j, m.parent j = some p → m.st j ≠ .zombie) (j : Fin nproc) (hj : m'.parent j = some p) :
        m'.st j ≠ .zombie := by
      intro hz
      have := (hmoves j).eq_of_not_live fun hl => hl.ne.2.2 hz
      exact hno j ((hparent j).symm.trans hj) (this.trans hz)
    rcases hwait p hs hr with ⟨h1, h2, h3⟩ | ⟨h1, h2⟩
    · obtain ⟨hc, hno⟩ := h.waiting p h1 h2
      exact ⟨h3.trans hc, hz hno⟩
    · exact ⟨h1, hz h2⟩

theorem Family.slot (h : Family L m) (hinit : m'.k.initproc = m.k.initproc) (hold : m.st np = .unused ∨ m.st np = .embryo)
    (hnp : m'.st np ≠ .sleeping ∧ m'.st np ≠ .zombie) (hothers : ∀ j ≠ np, m'.k.proc j = m.k.proc j)
    (hparent : m'.parent np = m.parent np ∨ ∃ q, Live (m.st q) ∧ m'.parent np = some q)
    (hchild : m'.st np ≠ .unused → m'.st np ≠ .embryo → m.parent np ≠ none)
    (hstage : ∀ p x, m'.stage p = .copied x → m.stage p = .copied x ∨ x = np ∧ m'.parent np ≠ none)
    (hresume : ∀ p ≠ np, m'.resume p = m.resume p) (hrun : ∃ p, m.st p = .running) : Family L m' := by
  have hne {q : Fin nproc} (hq : Live (m.st q)) : q ≠ np := by
    rintro rfl
    rcases hold with h | h
    · exact hq.ne.1 h
    · exact hq.ne.2.1 h
  have hst {q : Fin nproc} (hq : q ≠ np) : m'.st q = m.st q := by simp only [Machine.st, hothers q hq]
  have hpar {q : Fin nproc} (hq : q ≠ np) : m'.parent q = m.parent q := by simp only [Machine.parent, hothers q hq]
  -- A parent after the step was one before, or the process that forks.
  have hlive {j q : Fin nproc} (hj : m'.parent j = some q) : Live (m.st q) := by
    by_cases hjn : j = np
    · subst hjn
      rcases hparent with hp | ⟨q', hq', hp⟩
      · exact h.live j q (hp.symm.trans hj)
      · rw [hp] at hj
        cases hj
        exact hq'
    · exact h.live j q ((hpar hjn).symm.trans hj)
  refine ⟨?_, fun j q hq => ?_, fun j hj => ?_, fun j h1 h2 h3 => ?_, fun p x hp => ?_, fun p hs hr => ?_⟩
  · rcases h.init with ⟨z, hz, hl, hp⟩ | hu
    · exact .inl ⟨z, hinit.trans hz, by rw [hst (hne hl)]; exact hl, (hpar (hne hl)).trans hp⟩
    · obtain ⟨p, hp⟩ := hrun
      exact absurd (hp.symm.trans (hu p)) (by simp)
  · rw [hst (hne (hlive hq))]
    exact hlive hq
  · by_cases hjn : j = np
    · exact hne (hlive hj) hjn
    · exact h.self j ((hpar hjn).symm.trans hj)
  · rw [hinit] at h3
    by_cases hjn : j = np
    · subst hjn
      rcases hparent with hp | ⟨q, -, hp⟩
      · rw [hp]
        exact hchild h1 h2
      · simp [hp]
    · rw [hpar hjn]
      rw [hst hjn] at h1 h2
      exact h.child j h1 h2 h3
  · rcases hstage p x hp with hp | ⟨rfl, hp⟩
    · by_cases hx : x = np
      · subst hx
        rcases hparent with heq | ⟨q, -, heq⟩
        · rw [heq]
          exact h.copied p x hp
        · simp [heq]
      · rw [hpar hx]
        exact h.copied p x hp
    · exact hp
  · have hpn : p ≠ np := fun hc => hnp.1 (hc ▸ hs)
    rw [hst hpn] at hs
    rw [hresume p hpn] at hr
    obtain ⟨hc, hno⟩ := h.waiting p hs hr
    refine ⟨by rw [hothers p hpn]; exact hc, fun j hj => ?_⟩
    by_cases hjn : j = np
    · subst hjn
      exact hnp.2
    · rw [hst hjn]
      exact hno j ((hpar hjn).symm.trans hj)

theorem Family.reap (h : Family L m) (hinit : m'.k.initproc = m.k.initproc) (hz : m.st z = .zombie)
    (hfree : m'.st z = .unused) (hnone : m'.parent z = none) (hothers : ∀ j ≠ z, m'.k.proc j = m.k.proc j)
    (hstage : m'.stage = m.stage) (hresume : m'.resume = m.resume) (hembryo : ∀ p np, m.stage p = .copied np →
      m.st np = .embryo) :
    Family L m' := by
  have hne {q : Fin nproc} (hq : m.st q ≠ .zombie) : q ≠ z := by
    rintro rfl
    exact hq hz
  have hlz {q : Fin nproc} (hq : Live (m.st q)) : q ≠ z := hne hq.ne.2.2
  have hst {q : Fin nproc} (hq : q ≠ z) : m'.st q = m.st q := by simp only [Machine.st, hothers q hq]
  have hpar {q : Fin nproc} (hq : q ≠ z) : m'.parent q = m.parent q := by simp only [Machine.parent, hothers q hq]
  have hold {j q : Fin nproc} (hj : m'.parent j = some q) : j ≠ z ∧ m.parent j = some q := by
    have : j ≠ z := by
      rintro rfl
      rw [hnone] at hj
      cases hj
    exact ⟨this, (hpar this).symm.trans hj⟩
  refine ⟨?_, fun j q hq => ?_, fun j hj => ?_, fun j h1 h2 h3 => ?_, fun p x hp => ?_, fun p hs hr => ?_⟩
  · rcases h.init with ⟨i, hi, hl, hp⟩ | hu
    · exact .inl ⟨i, hinit.trans hi, by rw [hst (hlz hl)]; exact hl, (hpar (hlz hl)).trans hp⟩
    · exact absurd (hz.symm.trans (hu z)) (by simp)
  · have hl := h.live j q (hold hq).2
    rw [hst (hlz hl)]
    exact hl
  · exact h.self j (hold hj).2
  · have hjz : j ≠ z := fun hc => h1 (hc ▸ hfree)
    rw [hpar hjz]
    rw [hst hjz] at h1 h2
    exact h.child j h1 h2 (hinit ▸ h3)
  · rw [hstage] at hp
    have hx : x ≠ z := hne (by rw [hembryo p x hp]; simp)
    rw [hpar hx]
    exact h.copied p x hp
  · have hpz : p ≠ z := by
      rintro rfl
      exact absurd (hs.symm.trans hfree) (by simp)
    rw [hst hpz] at hs
    rw [hresume] at hr
    obtain ⟨hc, hno⟩ := h.waiting p hs hr
    refine ⟨by rw [hothers p hpz]; exact hc, fun j hj => ?_⟩
    obtain ⟨hjz, hj⟩ := hold hj
    rw [hst hjz]
    exact hno j hj

/-- Process `i` exits. Its parent and, if it leaves zombies, init do not sleep in `wait` any more. -/
theorem Family.exit {i : Fin nproc} (h : Family L m) (he : Exited L m.k i m'.k) (hrun : m.st i = .running)
    (hstage : m'.stage = m.stage) (hresume : ∀ p ≠ i, m'.resume p = m.resume p) : Family L m' := by
  obtain ⟨z, hz, hlz, hpz⟩ : ∃ z, m.k.initproc = some z ∧ Live (m.st z) ∧ m.parent z = none := by
    rcases h.init with hz | hu
    · exact hz
    · exact absurd (hrun.symm.trans (hu i)) (by simp)
  have hzi : z ≠ i := by
    rintro rfl
    exact he.notInit hz
  have hpar (j : Fin nproc) : m'.parent j = if m.parent j = some i then some z else m.parent j := by
    rw [← hz]
    exact he.parent j
  have hlive {q : Fin nproc} (hq : q ≠ i) (hl : Live (m.st q)) : Live (m'.st q) := (he.woken q hq).moves.live hl
  refine ⟨?_, fun j q hq => ?_, fun j hj => ?_, fun j h1 h2 h3 => ?_, fun p x hp => ?_, fun p hs hr => ?_⟩
  · refine .inl ⟨z, he.initproc.trans hz, hlive hzi hlz, ?_⟩
    rw [hpar z, hpz]
    rfl
  · rw [hpar j] at hq
    split at hq
    · cases hq
      exact hlive hzi hlz
    · rename_i hj
      refine hlive ?_ (h.live j q hq)
      rintro rfl
      exact hj hq
  · rw [hpar j] at hj
    split at hj
    · -- Init has no parent.
      rename_i hji
      cases hj
      rw [hpz] at hji
      cases hji
    · exact h.self j hj
  · rw [hpar j]
    split
    · simp
    · rw [he.initproc] at h3
      by_cases hji : j = i
      · subst hji
        exact h.child j (by rw [hrun]; simp) (by rw [hrun]; simp) h3
      · have hm := (he.woken j hji).moves
        rcases hm with heq | ⟨hl, -⟩
        · exact h.child j (fun hc => h1 (heq.trans hc)) (fun hc => h2 (heq.trans hc)) h3
        · exact h.child j hl.ne.1 hl.ne.2.1 h3
  · rw [hstage] at hp
    rw [hpar x]
    split
    · simp
    · exact h.copied p x hp
  · have hpi : p ≠ i := by
      rintro rfl
      exact absurd (hs.symm.trans he.zombie) (by simp)
    have hsold : m.st p = .sleeping := (he.woken p hpi).sleeping hs
    rw [hresume p hpi] at hr
    obtain ⟨hc, hno⟩ := h.waiting p hsold hr
    refine ⟨(he.chan p).trans hc, fun j hj hzombie => ?_⟩
    rw [hpar j] at hj
    by_cases hji : j = i
    · -- The process that exits has woken its parent.
      subst hji
      rw [if_neg (h.self j)] at hj
      exact he.wakes p hpi hj hc hs
    · have hjold : m.st j = .zombie := ((he.woken j hji).moves.eq_of_not_live fun hl => hl.ne.2.2 hzombie).trans hzombie
      split at hj
      · rename_i hjp
        cases hj
        exact he.wakesInit z j hz hc hji hjp hjold hs
      · exact hno j hj hjold

/-! ### The identifiers -/

def pid (m : Machine n) (j : Fin nproc) : Int := (m.k.proc j).pid

structure Pids (m : Machine n) (b : Nat) : Prop where
  next : m.k.nextpid = int32 b
  bound : 1 ≤ b ∧ b ≤ m.forks + 2
  old : ∀ j, m.st j ≠ .unused → Old b (m.pid j)
  apart : ∀ i j, m.st i ≠ .unused → m.st j ≠ .unused → m.pid i = m.pid j → i = j
  zombie : ∀ j, m.st j = .zombie → m.pid j ∈ m.exited
  gone : ∀ r ∈ m.returned, Old b r.pid ∧ (∀ j, m.st j ≠ .unused → m.pid j ≠ r.pid) ∧ r.pid ∈ m.exited ∧
    r.parent = some r.caller
  once : (m.returned.map Reap.pid).Nodup

theorem Pids.keep (h : Pids m b) (hnext : m'.k.nextpid = m.k.nextpid) (hforks : m.forks ≤ m'.forks)
    (hused : ∀ j, m'.st j ≠ .unused → m.st j ≠ .unused ∧ m'.pid j = m.pid j)
    (hzombie : ∀ j, m'.st j = .zombie → m.st j = .zombie ∨ m.pid j ∈ m'.exited) (hexited : m.exited ⊆ m'.exited)
    (hreturned : m'.returned = m.returned) : Pids m' b := by
  have hb := h.bound
  refine ⟨hnext.trans h.next, ⟨hb.1, by omega⟩, fun j hj => ?_, fun i j hi hj heq => ?_, fun j hj => ?_, fun r hr => ?_, ?_⟩
  · rw [(hused j hj).2]
    exact h.old j (hused j hj).1
  · rw [(hused i hi).2, (hused j hj).2] at heq
    exact h.apart i j (hused i hi).1 (hused j hj).1 heq
  · rw [(hused j (by simp [hj])).2]
    rcases hzombie j hj with hz | hz
    · exact hexited (h.zombie j hz)
    · exact hz
  · rw [hreturned] at hr
    obtain ⟨h1, h2, h3, h4⟩ := h.gone r hr
    refine ⟨h1, fun j hj => ?_, hexited h3, h4⟩
    rw [(hused j hj).2]
    exact h2 j (hused j hj).1
  · rw [hreturned]
    exact h.once

theorem Pids.alloc (h : Pids m b) (hb : b ≤ 0x80000001) (hnp : m'.pid np = m.k.nextpid)
    (hothers : ∀ j ≠ np, m'.k.proc j = m.k.proc j) (hnext : m'.k.nextpid = int32 (m.k.nextpid + 1))
    (hforks : m'.forks = m.forks + 1) (hstate : m'.st np ≠ .zombie) (hexited : m'.exited = m.exited)
    (hreturned : m'.returned = m.returned) : Pids m' (b + 1) := by
  have hst {q : Fin nproc} (hq : q ≠ np) : m'.st q = m.st q := by simp only [Machine.st, hothers q hq]
  have hpid {q : Fin nproc} (hq : q ≠ np) : m'.pid q = m.pid q := by simp only [Machine.pid, hothers q hq]
  have hbound := h.bound
  rw [h.next] at hnp
  -- The new pid is that of no slot and of no process that is gone.
  have hnew {j : Fin nproc} (hjn : j ≠ np) (hj : m'.st j ≠ .unused) : m'.pid j ≠ m'.pid np := by
    rw [hpid hjn, hnp]
    exact (h.old j (hst hjn ▸ hj)).ne hb
  refine ⟨?_, ⟨by omega, by omega⟩, fun j hj => ?_, fun i j hi hj heq => ?_, fun j hj => ?_, fun r hr => ?_, ?_⟩
  · rw [hnext, h.next, int32_succ]
  · by_cases hjn : j = np
    · rw [hjn, hnp]
      exact ⟨b, hbound.1, by omega, rfl⟩
    · rw [hpid hjn]
      exact (h.old j (hst hjn ▸ hj)).succ
  · by_cases hin : i = np
    · by_cases hjn : j = np
      · rw [hin, hjn]
      · rw [hin] at heq
        exact absurd heq.symm (hnew hjn hj)
    · by_cases hjn : j = np
      · rw [hjn] at heq
        exact absurd heq (hnew hin hi)
      · rw [hpid hin, hpid hjn] at heq
        rw [hst hin] at hi
        rw [hst hjn] at hj
        exact h.apart i j hi hj heq
  · have hjn : j ≠ np := fun hc => hstate (hc ▸ hj)
    rw [hpid hjn, hexited]
    exact h.zombie j (hst hjn ▸ hj)
  · rw [hreturned] at hr
    obtain ⟨h1, h2, h3, h4⟩ := h.gone r hr
    refine ⟨h1.succ, fun j hj => ?_, hexited ▸ h3, h4⟩
    by_cases hjn : j = np
    · rw [hjn, hnp]
      exact (h1.ne hb).symm
    · rw [hpid hjn]
      exact h2 j (hst hjn ▸ hj)
  · rw [hreturned]
    exact h.once

theorem Pids.reap (h : Pids m b) (hz : m.st z = .zombie) (hparent : m.parent z = some p)
    (hfree : m'.st z = .unused) (hothers : ∀ j ≠ z, m'.k.proc j = m.k.proc j) (hnext : m'.k.nextpid = m.k.nextpid)
    (hforks : m'.forks = m.forks) (hexited : m'.exited = m.exited)
    (hreturned : m'.returned = ⟨p, m.pid z, m.parent z⟩ :: m.returned) : Pids m' b := by
  have hzused : m.st z ≠ .unused := by simp [hz]
  have hkept {j : Fin nproc} (hj : m'.st j ≠ .unused) : j ≠ z ∧ m'.st j = m.st j ∧ m'.pid j = m.pid j := by
    have hjz : j ≠ z := fun hc => hj (hc ▸ hfree)
    simp only [Machine.st, Machine.pid, hothers j hjz]
    exact ⟨hjz, trivial, trivial⟩
  have hb : Pids { m' with returned := m.returned } b :=
    h.keep hnext hforks.ge (fun j hj => ⟨(hkept hj).2.1 ▸ hj, (hkept hj).2.2⟩)
      (fun j hj => .inl ((hkept (by rw [show m'.st j = .zombie from hj]; simp)).2.1.symm.trans hj))
      (by rw [hexited]; exact List.Subset.refl _) rfl
  refine ⟨hb.next, hb.bound, hb.old, hb.apart, hb.zombie, fun r hr => ?_, ?_⟩
  · rw [hreturned, List.mem_cons] at hr
    rcases hr with rfl | hr
    · refine ⟨h.old z hzused, fun j hj heq => ?_, hexited ▸ h.zombie z hz, hparent⟩
      obtain ⟨hjz, hst, hpid⟩ := hkept hj
      exact hjz (h.apart j z (hst ▸ hj) hzused (hpid.symm.trans heq))
    · exact hb.gone r hr
  · rw [hreturned, List.map_cons, List.nodup_cons]
    refine ⟨fun hmem => ?_, h.once⟩
    obtain ⟨r, hr, heq⟩ := List.mem_map.mp hmem
    exact (h.gone r hr).2.1 z hzused heq.symm

theorem Pids.pid_ne {j : Fin nproc} (h : Pids m b) (hj : m.st j ≠ .unused) (hf : m.forks < 0x80000000) : m.pid j ≠ -1 := by
  obtain ⟨a, -, hab, hpid⟩ := h.old j hj
  have hb := h.bound
  rw [hpid, int32, Int.bmod]
  split
  · omega
  · omega

theorem Pids.find_pid (h : Pids m b) (hz : m.st z = .zombie) :
    ((List.finRange nproc).find? fun j => (m.k.proc j).pid = (m.k.proc z).pid ∧ (m.k.proc j).state = .zombie) = some z := by
  cases hj : (List.finRange nproc).find? _ with
  | none =>
    have hno := List.find?_eq_none.mp hj z (List.mem_finRange z)
    exact absurd ⟨rfl, hz⟩ (mt decide_eq_true hno)
  | some j =>
    have hfound := List.find?_some hj
    simp only [decide_eq_true_eq] at hfound
    have hst : m.st j = .zombie := hfound.2
    rw [h.apart j z (by simp [hst]) (by simp [hz]) hfound.1]

/-! ### Runs -/

structure Tree (L : Layout) (m : Machine n) : Prop where
  inv : m.Inv
  family : Family L m
  pids : m.forks < 0x80000000 → ∃ b, m.Pids b

theorem Tree.keep (h : Tree L m) (hinv : m'.Inv) (hinit : m'.k.initproc = m.k.initproc)
    (hnext : m'.k.nextpid = m.k.nextpid)
    (hproc : ∀ j, m'.pid j = m.pid j ∧ m'.parent j = m.parent j ∧ Moves (m.st j) (m'.st j))
    (hforks : m.forks ≤ m'.forks) (hexited : m'.exited = m.exited) (hreturned : m'.returned = m.returned)
    (hstage : m'.stage = m.stage) (hwait : ∀ p, m'.st p = .sleeping → m'.resume p = .wait →
      m.st p = .sleeping ∧ m.resume p = .wait ∧ (m'.k.proc p).chan = (m.k.proc p).chan ∨
        (m'.k.proc p).chan = L.procAddr p ∧ ∀ j, m.parent j = some p → m.st j ≠ .zombie) : Tree L m' := by
  refine ⟨hinv, h.family.keep hinit (fun j => (hproc j).2.1) (fun j => (hproc j).2.2) (fun p np hp => hstage ▸ hp) hwait,
    fun hf => ?_⟩
  obtain ⟨b, hb⟩ := h.pids (by omega)
  refine ⟨b, hb.keep hnext hforks (fun j hj => ⟨fun hc => ?_, (hproc j).1⟩) (fun j hj => .inl ?_)
    (by rw [hexited]; exact List.Subset.refl _) hreturned⟩
  · rcases (hproc j).2.2 with heq | ⟨hl, -⟩
    · exact hj (heq.trans hc)
    · exact hl.ne.1 hc
  · exact ((hproc j).2.2.eq_of_not_live fun hl => hl.ne.2.2 hj).trans hj

theorem Tree.woken (h : Tree L m) (hinv : m'.Inv) (hinit : m'.k.initproc = m.k.initproc)
    (hnext : m'.k.nextpid = m.k.nextpid)
    (hproc : ∀ j, m'.pid j = m.pid j ∧ m'.parent j = m.parent j ∧ (m'.k.proc j).chan = (m.k.proc j).chan ∧
      Woken (m.st j) (m'.st j))
    (hforks : m.forks ≤ m'.forks) (hexited : m'.exited = m.exited) (hreturned : m'.returned = m.returned)
    (hstage : m'.stage = m.stage) (hresume : m'.resume = m.resume) : Tree L m' :=
  h.keep hinv hinit hnext (fun j => ⟨(hproc j).1, (hproc j).2.1, (hproc j).2.2.2.moves⟩) hforks hexited hreturned hstage
    fun p hs hr => .inl ⟨(hproc p).2.2.2.sleeping hs, hresume ▸ hr, (hproc p).2.2.1⟩

theorem Tree.own {x : Proc} (h : Tree L m) (hinv : m'.Inv) (hk : m'.k = m.k.set p x) (hlive : Live (m.st p))
    (hx : Live x.state)
    (hpid : x.pid = (m.k.proc p).pid) (hparent : x.parent = (m.k.proc p).parent) (hforks : m'.forks = m.forks)
    (hexited : m'.exited = m.exited) (hreturned : m'.returned = m.returned) (hstage : m'.stage = m.stage)
    (hresume : ∀ q ≠ p, m'.resume q = m.resume q)
    (hwait : x.state = .sleeping → m'.resume p = .wait → x.chan = L.procAddr p ∧ ∀ j, m.parent j = some p →
      m.st j ≠ .zombie) :
    Tree L m' := by
  have hself : m'.k.proc p = x := by rw [hk, Kernel.set_self]
  have hothers {j : Fin nproc} (hj : j ≠ p) : m'.k.proc j = m.k.proc j := by rw [hk, Kernel.set_of_ne _ _ hj]
  refine h.keep hinv (by rw [hk]; rfl) (by rw [hk]; rfl) (fun j => ?_) hforks.ge hexited hreturned hstage
    fun q hs hr => ?_
  · by_cases hj : j = p
    · subst hj
      simp only [Machine.pid, Machine.parent, Machine.st, hself]
      exact ⟨hpid, hparent, .inr ⟨hlive, hx⟩⟩
    · simp only [Machine.pid, Machine.parent, Machine.st, hothers hj, true_and]
      exact .inl rfl
  · by_cases hq : q = p
    · subst hq
      simp only [Machine.st, hself] at hs
      rw [hself]
      exact .inr (hwait hs hr)
    · simp only [Machine.st, hothers hq] at hs
      rw [hothers hq]
      exact .inl ⟨hs, hresume q hq ▸ hr, rfl⟩

theorem Tree.waitLoop (h : Tree L m) (hrun : m.st p = .running) (hinv : Inv (m.waitLoop L c p)) :
    Tree L (m.waitLoop L c p) := by
  have hw := wait_waited L m.k p
  revert hinv
  unfold Machine.waitLoop
  cases hr : (m.k.wait L p).1 with
  | sleeps =>
    rw [hr] at hw
    generalize (m.k.wait L p).2 = k at hw
    cases hw with
    | sleeps hnone =>
      intro hinv
      refine h.own hinv rfl (.inr (.inr hrun)) (.inl rfl) rfl rfl rfl rfl rfl rfl (fun q hq => Function.update_of_ne hq _ _)
        fun _ _ => ⟨rfl, hnone⟩
  | ret pid =>
    rw [hr] at hw
    generalize (m.k.wait L p).2 = k at hw
    cases hw with
    | @reaped z hfind =>
      intro hinv
      obtain ⟨hparent, hz⟩ := find_zombie hfind
      have hothers (j : Fin nproc) (hj : j ≠ z) := Kernel.set_of_ne m.k
        { m.k.proc z with kstack := 0, pid := 0, parent := none, name := [], killed := 0, state := .unused } hj
      have hself :=
        Kernel.set_self m.k z
          { m.k.proc z with kstack := 0, pid := 0, parent := none, name := [], killed := 0, state := .unused }
      refine ⟨hinv, h.family.reap rfl hz ?_ ?_ hothers rfl rfl (fun q np hq => h.inv.embryo q np (by rw [hq]; rfl)),
        fun hf => ?_⟩
      · simp only [Machine.st, hself]
      · simp only [Machine.parent, hself]
      · obtain ⟨b, hb⟩ := h.pids hf
        refine ⟨b, hb.reap hz hparent ?_ hothers rfl rfl rfl ?_⟩
        · simp only [Machine.st, hself]
        · dsimp only
          have hused : m.st z ≠ .unused := fun hc => by rw [Machine.st, hz] at hc; cases hc
          have hne : (m.k.proc z).pid ≠ -1 := hb.pid_ne hused hf
          rw [if_neg hne, hb.find_pid hz]
          rfl
    | failed hnone =>
      intro hinv
      exact h.woken hinv rfl rfl (fun j => ⟨rfl, rfl, rfl, .inl rfl⟩) le_rfl rfl rfl rfl rfl

theorem copied_of_update {f : Fin nproc → Stage} {g : Stage} {q x : Fin nproc} (h : Function.update f p g q = .copied x) :
    f q = .copied x ∨ g = .copied x := by
  by_cases hq : q = p
  · rw [hq, Function.update_self] at h
    exact .inr h
  · rw [Function.update_of_ne hq] at h
    exact .inl h

theorem Tree.slot (h : Tree L m) (hinv : m'.Inv) (hinit : m'.k.initproc = m.k.initproc) (hnext : m'.k.nextpid = m.k.nextpid)
    (hold : m.st np = .embryo) (hnp : m'.st np ≠ .sleeping ∧ m'.st np ≠ .zombie) (hpid : m'.pid np = m.pid np)
    (hothers : ∀ j ≠ np, m'.k.proc j = m.k.proc j)
    (hparent : m'.parent np = m.parent np ∨ ∃ q, Live (m.st q) ∧ m'.parent np = some q)
    (hchild : m'.st np ≠ .unused → m'.st np ≠ .embryo → m.parent np ≠ none)
    (hstage : ∀ p x, m'.stage p = .copied x → m.stage p = .copied x ∨ x = np ∧ m'.parent np ≠ none)
    (hresume : ∀ p ≠ np, m'.resume p = m.resume p) (hrun : m.st p = .running)
    (hforks : m'.forks = m.forks) (hexited : m'.exited = m.exited) (hreturned : m'.returned = m.returned) : Tree L m' := by
  refine ⟨hinv, h.family.slot hinit (.inr hold) hnp hothers hparent hchild hstage hresume ⟨p, hrun⟩, fun hf => ?_⟩
  obtain ⟨b, hb⟩ := h.pids (by omega)
  refine ⟨b, hb.keep hnext (by omega) (fun j hj => ?_) (fun j hj => .inl ?_)
    (by rw [hexited]; exact List.Subset.refl _) hreturned⟩
  · by_cases hjn : j = np
    · rw [hjn, hold, hpid]
      simp
    · simpa only [Machine.st, Machine.pid, hothers j hjn, and_true] using hj
  · have hjn : j ≠ np := fun hc => hnp.2 (hc ▸ hj)
    simpa only [Machine.st, hothers j hjn] using hj

theorem Tree.step {e : Event n} (h : Tree L m) (hm : m.step L e = some m') : Tree L m' := by
  have hinv := h.inv.step hm
  have hrunning {c : Fin n} {p : Fin nproc} (hp : (m.cpu c).place = .run p ∨ (m.cpu c).place = .resumed p) :
      m.st p = .running := by
    refine (h.inv.excl.running p).mpr ⟨c, ?_⟩
    rcases hp with hp | hp <;> (rw [hp]; exact rfl)
  cases step_cases hm with
  | acquire | next | release | swtch =>
    exact h.woken hinv rfl rfl (fun j => ⟨rfl, rfl, rfl, .inl rfl⟩) le_rfl rfl rfl rfl rfl
  | full => exact h.woken hinv rfl rfl (fun j => ⟨rfl, rfl, rfl, .inl rfl⟩) (Nat.le_succ _) rfl rfl rfl rfl
  | wakeup => 
    refine h.woken hinv rfl rfl (fun j => ?_) le_rfl rfl rfl rfl rfl
    obtain ⟨h1, h2, h3, h4, -⟩ := wakeup1_spec m.k _ j
    exact ⟨h1, h2, h3, h4⟩
  | @kill c pid =>
    obtain ⟨hnext, hinit⟩ := kill_rest m.k pid
    exact h.woken hinv hinit hnext (kill_spec m.k pid) le_rfl rfl rfl rfl rfl
  | @pick c i hp hs =>
    exact h.own hinv rfl (.inr (.inl hs)) (.inr (.inr rfl)) rfl rfl rfl rfl rfl rfl (fun _ _ => rfl) fun hz => by cases hz
  | @goOn c p chan hp hr =>
    have hrun := hrunning (.inr hp)
    exact h.own hinv rfl (.inr (.inr hrun)) (.inr (.inr hrun)) rfl rfl rfl rfl rfl rfl (fun _ _ => rfl) fun _ hc =>
      absurd hc hr
  | @goWait c p hp hr =>
    have hrun := hrunning (.inr hp)
    have h' : Tree L { m with k := m.k.set p { m.k.proc p with chan := 0 } } :=
      h.own (h.inv.awake p) rfl (.inr (.inr hrun)) (.inr (.inr hrun)) rfl rfl rfl rfl rfl rfl (fun _ _ => rfl)
        fun hs => absurd (hs.symm.trans hrun) (by simp)
    refine h'.waitLoop ?_ hinv
    simp only [Machine.st, Kernel.set_self]
    exact hrun
  | @yield c p hp hl =>
    have hrun := hrunning (.inl hp)
    exact h.own hinv rfl (.inr (.inr hrun)) (.inr (.inl rfl)) rfl rfl rfl rfl rfl rfl (fun q hq =>
      Function.update_of_ne hq _ _)
      fun hz => by cases hz
  | @sleep c p chan hp hl =>
    have hrun := hrunning (.inl hp)
    refine h.own hinv rfl (.inr (.inr hrun)) (.inl rfl) rfl rfl rfl rfl rfl rfl (fun q hq => Function.update_of_ne hq _ _)
      fun _ hc => ?_
    dsimp only [Machine.sched] at hc
    rw [Function.update_self] at hc
    cases hc
  | @alloc c p np k hp hl ho hk =>
    have hrun := hrunning (.inl hp)
    obtain ⟨hfree, hnew, hpid, hparent, hothers, hnext, hinit⟩ := embryo_some hk
    refine ⟨hinv, h.family.slot hinit (.inl hfree) ⟨?_, ?_⟩ hothers (.inl hparent) (fun _ he => absurd hnew he)
      (fun q x hq => ?_)
      (fun _ _ => rfl) ⟨p, hrun⟩, fun hf => ?_⟩
    · simp only [Machine.st, hnew, ne_eq, reduceCtorEq, not_false_eq_true]
    · simp only [Machine.st, hnew, ne_eq, reduceCtorEq, not_false_eq_true]
    · rcases copied_of_update hq with hq | hq
      · exact .inl hq
      · cases hq
    · dsimp only at hf
      obtain ⟨b, hb⟩ := h.pids (by omega)
      have hbound := hb.bound
      refine ⟨b + 1, hb.alloc (by omega) hpid hothers hnext rfl ?_ rfl rfl⟩
      simp only [Machine.st, hnew, ne_eq, reduceCtorEq, not_false_eq_true]
  | @stack c p np kstack hp hs =>
    have hrun := hrunning (.inl hp)
    have hnp : m.st np = .embryo := h.inv.embryo p np (by rw [hs]; rfl)
    obtain ⟨hothers, hstate, hpid, hparent, hnext, hinit⟩ := giveStack_spec m.k np kstack
    rw [show (m.k.proc np).state = .embryo from hnp] at hstate
    refine h.slot hinv hinit hnext hnp ⟨?_, ?_⟩ hpid hothers (.inl hparent) (fun h1 h2 => ?_) (fun q x hq => ?_)
      (fun _ _ => rfl) hrun rfl rfl rfl
    · simp only [Machine.st, hstate]
      split <;> simp
    · simp only [Machine.st, hstate]
      split <;> simp
    · simp only [Machine.st, hstate] at h1 h2
      split at h1
      · simp_all
      · simp_all
    · rcases copied_of_update hq with hq | hq
      · exact .inl hq
      · split at hq <;> cases hq
  | @copy c p np pgdir hp hs =>
    have hrun := hrunning (.inl hp)
    have hnp : m.st np = .embryo := h.inv.embryo p np (by rw [hs]; rfl)
    obtain ⟨hothers, hstate, hpid, hparent, hnext, hinit⟩ := copyProc_spec m.k p np pgdir
    rw [show (m.k.proc np).state = .embryo from hnp] at hstate
    have hparent' : (m.k.copyProc p np pgdir).1 = true → ((m.k.copyProc p np pgdir).2.proc np).parent = some p := by
      intro hc
      rw [hparent, if_pos hc]
    refine h.slot hinv hinit hnext hnp ⟨?_, ?_⟩ hpid hothers ?_ (fun h1 h2 => ?_) (fun q x hq => ?_)
      (fun _ _ => rfl) hrun rfl rfl rfl
    · simp only [Machine.st, hstate]
      split <;> simp
    · simp only [Machine.st, hstate]
      split <;> simp
    · by_cases hc : (m.k.copyProc p np pgdir).1 = true
      · exact .inr ⟨p, .inr (.inr hrun), hparent' hc⟩
      · rw [if_neg hc] at hparent
        exact .inl hparent
    · simp only [Machine.st, hstate] at h1 h2
      split at h1
      · simp_all
      · simp_all
    · rcases copied_of_update hq with hq | hq
      · exact .inl hq
      · split at hq
        · rename_i hc
          cases hq
          refine .inr ⟨rfl, ?_⟩
          simp only [Machine.parent, hparent' hc, ne_eq, reduceCtorEq, not_false_eq_true]
        · cases hq
  | @run c p np hp hl hs =>
    have hrun := hrunning (.inl hp)
    have hnp : m.st np = .embryo := h.inv.embryo p np (by rw [hs]; rfl)
    refine h.slot hinv rfl rfl hnp ⟨?_, ?_⟩ ?_ (fun j hj => setState_of_ne _ _ hj) (.inl ?_)
      (fun _ _ => h.family.copied p np hs)
      (fun q x hq => ?_) (fun q hq => Function.update_of_ne hq _ _) hrun rfl rfl rfl
    · simp only [Machine.st, setState_self, ne_eq, reduceCtorEq, not_false_eq_true]
    · simp only [Machine.st, setState_self, ne_eq, reduceCtorEq, not_false_eq_true]
    · simp only [Machine.pid, Kernel.setState, Kernel.set_self]
    · simp only [Machine.parent, Kernel.setState, Kernel.set_self]
    · rcases copied_of_update hq with hq | hq
      · exact .inl hq
      · cases hq
  | @exit c p k hp hl ho hk =>
    have hrun := hrunning (.inl hp)
    have he := exit_exited hk
    refine ⟨hinv, h.family.exit he hrun rfl fun q hq => Function.update_of_ne hq _ _, fun hf => ?_⟩
    obtain ⟨b, hb⟩ := h.pids hf
    refine ⟨b, hb.keep he.nextpid le_rfl (fun j hj => ⟨?_, he.pid j⟩) (fun j hj => ?_) (List.subset_cons_self _ _) rfl⟩
    · by_cases hjp : j = p
      · rw [hjp, hrun]
        simp
      · intro hc
        have := (he.woken j hjp).moves
        rcases this with heq | ⟨hl, -⟩
        · exact hj (heq.trans hc)
        · exact hl.ne.1 hc
    · by_cases hjp : j = p
      · rw [hjp]
        exact .inr List.mem_cons_self
      · exact .inl (((he.woken j hjp).moves.eq_of_not_live fun hl => hl.ne.2.2 hj).trans hj)
  | @wait c p hp hl ho => exact h.waitLoop (hrunning (.inl hp)) hinv

theorem start_proc (n : Nat) (kstack pgdir : Addr) (initcode : Mem) (cwd : Addr) :
    (∀ j, (start n kstack pgdir initcode cwd).parent j = none) ∧ (start n kstack pgdir initcode cwd).pid 0 = 1 ∧
      (start n kstack pgdir initcode cwd).k.nextpid = 2 ∧
      (start n kstack pgdir initcode cwd).k.initproc = if kstack = 0 then none else some 0 := by
  refine ⟨userinit_slot (P := fun p => p.parent = none) rfl rfl fun _ _ _ => rfl, ?_⟩
  have hbooted := userinit_booted kstack pgdir initcode cwd
  simp only [Machine.pid, start]
  generalize Kernel.zeroed.userinit kstack pgdir initcode cwd = k at hbooted ⊢
  cases hbooted with
  | failed h0 => exact ⟨rfl, rfl, (if_pos h0).symm⟩
  | ready h0 => exact ⟨rfl, rfl, (if_neg h0).symm⟩

theorem start_tree (n : Nat) (kstack pgdir : Addr) (initcode : Mem) (cwd : Addr) :
    Tree L (start n kstack pgdir initcode cwd) := by
  obtain ⟨hparent, hpid, hnext, hinit⟩ := start_proc n kstack pgdir initcode cwd
  have hst := start_st n kstack pgdir initcode cwd
  have hfirst {j : Fin nproc} (hj : (start n kstack pgdir initcode cwd).st j ≠ .unused) : kstack ≠ 0 ∧ j = 0 := by
    by_contra hc
    rw [hst j, if_neg hc] at hj
    exact hj rfl
  refine ⟨start_inv n kstack pgdir initcode cwd, ⟨?_, fun j q hq => ?_, fun j hj => ?_, fun j h1 _ h3 => ?_, nofun, nofun⟩,
    fun _ => ⟨2, ?_⟩⟩
  · by_cases hk : kstack = 0
    · refine .inr fun j => ?_
      rw [hst j, if_neg fun hc => hc.1 hk]
    · refine .inl ⟨0, by rw [hinit, if_neg hk], .inr (.inl ?_), hparent 0⟩
      rw [hst 0, if_pos ⟨hk, rfl⟩]
  · rw [hparent j] at hq
    cases hq
  · rw [hparent j] at hj
    cases hj
  · obtain ⟨hk, rfl⟩ := hfirst h1
    exact absurd (by rw [hinit, if_neg hk]) h3
  · refine ⟨hnext.trans (by decide), ⟨by decide, by simp [start]⟩, fun j hj => ?_, fun i j hi hj _ => ?_, fun j hj => ?_,
      nofun, List.nodup_nil⟩
    · rw [(hfirst hj).2, hpid]
      exact ⟨1, le_rfl, by decide, by decide⟩
    · rw [(hfirst hi).2, (hfirst hj).2]
    · rw [hst j] at hj
      split at hj <;> cases hj

/-- What `wait` and `exit` do together. -/
structure Reaped (m : Machine n) : Prop where
  exited : ∀ r ∈ m.returned, r.pid ∈ m.exited ∧ r.parent = some r.caller
  once : (m.returned.map Reap.pid).Nodup
  parent : ∀ j, (m.k.proc j).state ≠ .unused → (m.k.proc j).state ≠ .embryo → m.k.initproc ≠ some j →
    ∃ q, (m.k.proc j).parent = some q ∧ (m.k.proc q).state ≠ .unused
  woken : m.lock = none → ∀ p j, (m.k.proc p).state = .sleeping → m.resume p = .wait → (m.k.proc j).parent = some p →
    (m.k.proc j).state ≠ .zombie

theorem Tree.reaped (h : Tree L m) (hf : m.forks < 0x80000000) : m.Reaped := by
  obtain ⟨b, hb⟩ := h.pids hf
  refine ⟨fun r hr => (hb.gone r hr).2.2, hb.once, fun j h1 h2 h3 => ?_, fun _ p j hs hr hj => ?_⟩
  · obtain ⟨q, hq⟩ := Option.ne_none_iff_exists'.mp (h.family.child j h1 h2 h3)
    exact ⟨q, hq, (h.family.live j q hq).ne.1⟩
  · exact (h.family.waiting p hs hr).2 j hj

end Machine

open Machine in
/-- With fewer than `2 ^ 31` calls of `fork`, every pid that `wait` returns is that of a child that has exited, and is
    returned once; every process but init has a parent; and no process sleeps in `wait` beside a zombie of its own. -/
theorem reaped_once {n : Nat} (L : Layout) (kstack pgdir : Addr) (initcode : Mem) (cwd : Addr) {m : Machine n}
    {tr : List (Machine n × Event n)} (hr : Run (OfStep (step L)) (start n kstack pgdir initcode cwd) tr m)
    (hf : m.forks < 0x80000000) : m.Reaped := by
  have h : Tree L m := hr.invariant (start_tree n kstack pgdir initcode cwd) Tree.step
  exact h.reaped hf

/-- A child exits on one CPU, and the first process finds it in `wait` on another one. -/
theorem reaped_once_child : ∃ tr m, Run (OfStep (Machine.step bootLayout)) (.start 2 1 1 (fun _ => 0) 0) tr m ∧
    m.forks < 0x80000000 ∧ m.returned = [⟨0, 2, some 0⟩] ∧ m.Reaped := by
  obtain ⟨tr, m, hr, -, hf, h⟩ := Run.exists_of_traceOf (f := Machine.step bootLayout) (.start 2 1 1 (fun _ => 0) 0)
    ([.acquire 0, .scan 0, .resume 0, .forkAlloc 0, .forkStack 0 2, .forkCopy 0 2, .forkRun 0, .acquire 1, .scan 1, .scan 1,
      .resume 1, .exit 1, .swtch 1] ++ List.replicate 63 (.scan 1) ++ [.wait 0])
    (fun _ m => m.forks < 0x80000000 ∧ m.returned = [⟨0, 2, some 0⟩]) (by decide +kernel)
  exact ⟨tr, m, hr, hf, h, reaped_once bootLayout 1 1 (fun _ => 0) 0 hr hf⟩

end Xv6.Cpus
