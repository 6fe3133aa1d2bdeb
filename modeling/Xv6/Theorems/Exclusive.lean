import Xv6.Cpus
import Xv6.Theorems.Frames

/-! No process is on two CPUs. A CPU that executes a process without `ptable.lock` executes one that is `RUNNING`, and
    every other change of a state is made by the CPU that holds the lock. -/

namespace Xv6.Cpus
open Lib

/-! ### What a step does -/

namespace Machine
variable {n : Nat} {L : Layout} {m m' : Machine n} {c : Fin n} {p : Fin nproc}

/-- The steps, with what they find. -/
inductive Step (L : Layout) (m : Machine n) : Event n → Machine n → Prop
  | acquire {c : Fin n} (hp : (m.cpu c).place = .idle) (hl : m.lock = none) :
      Step L m (.acquire c) { m.setCpu c ⟨.scan 0, none⟩ with lock := some c }
  | pick {c : Fin n} {i : Fin nproc} (hp : (m.cpu c).place = .scan i) (hs : (m.k.proc i).state = .runnable) :
      Step L m (.scan c) { m.setCpu c ⟨.resumed i, some i⟩ with k := m.k.setState i .running }
  | next {c : Fin n} {i : Nat} (hp : (m.cpu c).place = .scan i) : Step L m (.scan c) (m.setCpu c ⟨.scan (i + 1), none⟩)
  | release {c : Fin n} {i : Nat} (hp : (m.cpu c).place = .scan i) :
      Step L m (.scan c) { m.setCpu c ⟨.idle, none⟩ with lock := none }
  | goOn {c : Fin n} {p : Fin nproc} (chan : Addr) (hp : (m.cpu c).place = .resumed p) (hr : m.resume p ≠ .wait) :
      Step L m (.resume c) { m.setCpu c ⟨.run p, some p⟩ with k := m.k.set p { m.k.proc p with chan }, lock := none }
  | goWait {c : Fin n} {p : Fin nproc} (hp : (m.cpu c).place = .resumed p) (hr : m.resume p = .wait) :
      Step L m (.resume c) (waitLoop L { m with k := m.k.set p { m.k.proc p with chan := 0 } } c p)
  | swtch {c : Fin n} {p : Fin nproc} (hp : (m.cpu c).place = .leaving p) :
      Step L m (.swtch c) (m.setCpu c ⟨.scan (p.val + 1), none⟩)
  | yield {c : Fin n} {p : Fin nproc} (hp : (m.cpu c).place = .run p) (hl : m.lock = none) :
      Step L m (.yield c) (m.sched c p (m.k.setState p .runnable) .yield)
  | sleep {c : Fin n} {p : Fin nproc} {chan : Addr} (hp : (m.cpu c).place = .run p) (hl : m.lock = none) :
      Step L m (.sleep c chan) (m.sched c p (m.k.set p { m.k.proc p with chan, state := .sleeping }) .sleep)
  | wakeup {c : Fin n} {chan : Addr} (hl : m.lock = none) : Step L m (.wakeup c chan) { m with k := m.k.wakeup1 chan }
  | kill {c : Fin n} {pid : Int} (hl : m.lock = none) : Step L m (.kill c pid) { m with k := (m.k.kill pid).2 }
  | full {c : Fin n} (hl : m.lock = none) : Step L m (.forkAlloc c) { m with forks := m.forks + 1 }
  | alloc {c : Fin n} {p np : Fin nproc} {k : Kernel} (hp : (m.cpu c).place = .run p) (hl : m.lock = none)
    (ho : m.stage p = .out)
      (hk : m.k.embryo = (some np, k)) :
      Step L m (.forkAlloc c) { m with k, stage := Function.update m.stage p (.embryo np), forks := m.forks + 1 }
  | stack {c : Fin n} {p np : Fin nproc} {kstack : Addr} (hp : (m.cpu c).place = .run p) (hs : m.stage p = .embryo np) :
      Step L m (.forkStack c kstack) { m with
        k := (m.k.giveStack np kstack).2
        stage := Function.update m.stage p (if (m.k.giveStack np kstack).1 then .stack np else .out) }
  | copy {c : Fin n} {p np : Fin nproc} {pgdir : Addr} (hp : (m.cpu c).place = .run p) (hs : m.stage p = .stack np) :
      Step L m (.forkCopy c pgdir) { m with
        k := (m.k.copyProc p np pgdir).2
        stage := Function.update m.stage p (if (m.k.copyProc p np pgdir).1 then .copied np else .out) }
  | run {c : Fin n} {p np : Fin nproc} (hp : (m.cpu c).place = .run p) (hl : m.lock = none) (hs : m.stage p = .copied np) :
      Step L m (.forkRun c) { m with
        k := m.k.setState np .runnable
        stage := Function.update m.stage p .out
        resume := Function.update m.resume np .forkret }
  | exit {c : Fin n} {p : Fin nproc} {k : Kernel} (hp : (m.cpu c).place = .run p) (hl : m.lock = none)
    (ho : m.stage p = .out)
      (hk : m.k.exit L p = some k) :
      Step L m (.exit c) { m.sched c p k .yield with exited := (m.k.proc p).pid :: m.exited }
  | wait {c : Fin n} {p : Fin nproc} (hp : (m.cpu c).place = .run p) (hl : m.lock = none) (ho : m.stage p = .out) :
      Step L m (.wait c) (m.waitLoop L c p)

theorem locked_some {f : Fin nproc → Option (Machine n)} (h : m.locked c f = some m') :
    ∃ p, (m.cpu c).place = .run p ∧ m.lock = none ∧ f p = some m' := by
  unfold locked at h
  split at h
  · rename_i p hp
    split at h
    · exact ⟨p, hp, ‹_›, h⟩
    · cases h
  · cases h

theorem set_same (k : Kernel) (p : Fin nproc) : k.set p (k.proc p) = k := by
  rw [Kernel.set, Function.update_eq_self]

theorem step_cases {e : Event n} (h : m.step L e = some m') : Step L m e m' := by
  cases e with
  | acquire c =>
    simp only [step] at h
    split at h
    · rename_i hc
      cases h
      exact .acquire hc.1 hc.2
    · cases h
  | scan c =>
    simp only [step] at h
    split at h
    · rename_i i hp
      cases h
      unfold scanAt
      split
      · rename_i hi
        split
        · rename_i hs
          exact .pick (i := ⟨i, hi⟩) hp hs
        · exact .next hp
      · exact .release hp
    · cases h
  | resume c =>
    simp only [step] at h
    split at h
    · rename_i p hp
      cases h
      unfold goOn
      -- `forkret` and `yield` leave the channel as it is.
      have same : m.k.set p { m.k.proc p with chan := (m.k.proc p).chan } = m.k := set_same m.k p
      cases hr : m.resume p with
      | forkret | yield =>
        have := Step.goOn (L := L) (m.k.proc p).chan hp (by rw [hr]; nofun)
        rwa [same] at this
      | sleep => exact .goOn 0 hp (by rw [hr]; nofun)
      | wait => exact .goWait hp hr
    · cases h
  | swtch c =>
    simp only [step] at h
    split at h
    · cases h
      exact .swtch ‹_›
    · cases h
  | yield c =>
    obtain ⟨p, hp, hl, h⟩ := locked_some h
    cases h
    exact .yield hp hl
  | sleep c chan =>
    obtain ⟨p, hp, hl, h⟩ := locked_some h
    cases h
    exact .sleep hp hl
  | wakeup c chan =>
    simp only [step] at h
    split at h
    · split at h
      · cases h
        exact .wakeup ‹_›
      · cases h
    · split at h
      · cases h
        exact .wakeup ‹_›
      · cases h
    · cases h
  | kill c pid =>
    obtain ⟨p, hp, hl, h⟩ := locked_some h
    cases h
    exact .kill hl
  | forkAlloc c =>
    obtain ⟨p, hp, hl, h⟩ := locked_some h
    split at h
    · rename_i ho
      split at h
      · rename_i k hk
        cases h
        have : k = m.k := by
          unfold Kernel.embryo at hk
          split at hk <;> cases hk
          rfl
        rw [this]
        exact .full hl
      · rename_i np k hk
        cases h
        exact .alloc hp hl ho hk
    · cases h
  | forkStack c kstack =>
    simp only [step] at h
    split at h
    · rename_i p hp
      split at h
      · rename_i np hs
        cases h
        exact .stack hp hs
      · cases h
    · cases h
  | forkCopy c pgdir =>
    simp only [step] at h
    split at h
    · rename_i p hp
      split at h
      · rename_i np hs
        cases h
        exact .copy hp hs
      · cases h
    · cases h
  | forkRun c =>
    obtain ⟨p, hp, hl, h⟩ := locked_some h
    split at h
    · rename_i np hs
      cases h
      exact .run hp hl hs
    · cases h
  | exit c =>
    obtain ⟨p, hp, hl, h⟩ := locked_some h
    split at h
    · rename_i ho
      obtain ⟨k, hk, heq⟩ := Option.map_eq_some_iff.mp h
      cases heq
      exact .exit hp hl ho hk
    · cases h
  | wait c =>
    obtain ⟨p, hp, hl, h⟩ := locked_some h
    split at h
    · rename_i ho
      cases h
      exact .wait hp hl ho
    · cases h

end Machine

/-! ### States under the operations -/

def Woken (a b : ProcState) : Prop := b = a ∨ a = .sleeping ∧ b = .runnable

variable {a b : ProcState}

theorem Woken.sleeping (h : Woken a b) (hb : b = .sleeping) : a = .sleeping := by
  rcases h with rfl | ⟨-, rfl⟩
  · exact hb
  · cases hb

theorem Woken.trans {c : ProcState} (h : Woken a b) (h' : Woken b c) : Woken a c := by
  rcases h with rfl | ⟨rfl, rfl⟩
  · exact h'
  · rcases h' with rfl | ⟨h, -⟩
    · exact .inr ⟨rfl, rfl⟩
    · cases h

/-- The operation of another process wakes a sleeper, frees a zombie or leaves the state alone. -/
def Calm (a b : ProcState) : Prop := b = a ∨ a = .sleeping ∧ b = .runnable ∨ a = .zombie ∧ b = .unused

theorem Calm.running (h : Calm a b) : b = .running ↔ a = .running := by
  rcases h with rfl | ⟨rfl, rfl⟩ | ⟨rfl, rfl⟩ <;> simp

theorem Calm.embryo (h : Calm a b) (ha : a = .embryo) : b = .embryo := by
  rcases h with rfl | ⟨rfl, rfl⟩ | ⟨rfl, rfl⟩
  · exact ha
  · cases ha
  · cases ha

theorem Woken.calm (h : Woken a b) : Calm a b := by
  rcases h with h | h
  · exact .inl h
  · exact .inr (.inl h)

section
variable {k k' : Kernel} {L : Layout} {i j : Fin nproc}

theorem wakeup1_spec (k : Kernel) (chan : Addr) (j : Fin nproc) :
    ((k.wakeup1 chan).proc j).pid = (k.proc j).pid ∧ ((k.wakeup1 chan).proc j).parent = (k.proc j).parent ∧
      ((k.wakeup1 chan).proc j).chan = (k.proc j).chan ∧ Woken (k.proc j).state ((k.wakeup1 chan).proc j).state ∧
      ((k.proc j).chan = chan → ((k.wakeup1 chan).proc j).state ≠ .sleeping) := by
  simp only [Kernel.wakeup1]
  split
  · rename_i h
    refine ⟨rfl, rfl, rfl, .inr ⟨h.1, rfl⟩, fun _ => by simp⟩
  · rename_i h
    exact ⟨rfl, rfl, rfl, .inl rfl, fun hc hs => h ⟨hs, hc⟩⟩

theorem kill_spec (k : Kernel) (pid : Int) (j : Fin nproc) :
    ((k.kill pid).2.proc j).pid = (k.proc j).pid ∧ ((k.kill pid).2.proc j).parent = (k.proc j).parent ∧
      ((k.kill pid).2.proc j).chan = (k.proc j).chan ∧ Woken (k.proc j).state ((k.kill pid).2.proc j).state := by
  unfold Kernel.kill
  split
  · exact ⟨rfl, rfl, rfl, .inl rfl⟩
  · rename_i i _
    by_cases hj : j = i
    · subst hj
      rw [Kernel.set_self]
      refine ⟨rfl, rfl, rfl, ?_⟩
      dsimp only
      split
      · rename_i h
        exact .inr ⟨h, rfl⟩
      · exact .inl rfl
    · rw [Kernel.set_of_ne _ _ hj]
      exact ⟨rfl, rfl, rfl, .inl rfl⟩

theorem kill_rest (k : Kernel) (pid : Int) : (k.kill pid).2.nextpid = k.nextpid ∧ (k.kill pid).2.initproc = k.initproc := by
  unfold Kernel.kill
  split <;> exact ⟨rfl, rfl⟩

theorem passChildren_spec (L : Layout) (k : Kernel) (i j : Fin nproc) :
    ((k.passChildren L i).proc j).pid = (k.proc j).pid ∧
      ((k.passChildren L i).proc j).parent = (if (k.proc j).parent = some i then k.initproc else (k.proc j).parent) ∧
      ((k.passChildren L i).proc j).chan = (k.proc j).chan ∧
      Woken (k.proc j).state ((k.passChildren L i).proc j).state ∧
      ∀ x, (k.proc x).parent = some i → (k.proc x).state = .zombie → (k.proc j).chan = Kernel.chanOf L k.initproc →
        ((k.passChildren L i).proc j).state ≠ .sleeping := by
  let f (j : Fin nproc) : Proc := if (k.proc j).parent = some i then { k.proc j with parent := k.initproc } else k.proc j
  have hpid : (f j).pid = (k.proc j).pid := by unfold f; split <;> rfl
  have hparent :
    (f j).parent = if (k.proc j).parent = some i then k.initproc else (k.proc j).parent := by unfold f; split <;> rfl
  have hchan : (f j).chan = (k.proc j).chan := by unfold f; split <;> rfl
  have hstate (j : Fin nproc) : (f j).state = (k.proc j).state := by unfold f; split <;> rfl
  have hdef : k.passChildren L i =
      if ((List.finRange nproc).filter fun j => (k.proc j).parent = some i).any fun j => (f j).state = .zombie then
        { k with proc := f }.wakeup1 (Kernel.chanOf L k.initproc)
      else { k with proc := f } := rfl
  rw [hdef]
  split
  · obtain ⟨h1, h2, h3, h4, h5⟩ := wakeup1_spec { k with proc := f } (Kernel.chanOf L k.initproc) j
    exact ⟨h1.trans hpid, h2.trans hparent, h3.trans hchan, hstate j ▸ h4, fun _ _ _ hc => h5 (hchan.trans hc)⟩
  · rename_i hany
    refine ⟨hpid, hparent, hchan, .inl (hstate j), fun x hx hz => absurd ?_ hany⟩
    exact List.any_eq_true.mpr ⟨x, by simp [hx], by simp [hstate, hz]⟩

theorem passChildren_rest (L : Layout) (k : Kernel) (i : Fin nproc) :
    (k.passChildren L i).nextpid = k.nextpid ∧ (k.passChildren L i).initproc = k.initproc := by
  unfold Kernel.passChildren
  dsimp only
  split <;> exact ⟨rfl, rfl⟩

/-- What `exit` does to another process: its parent and init may wake up, and a child goes to init. -/
structure Exited (L : Layout) (k : Kernel) (i : Fin nproc) (k' : Kernel) : Prop where
  notInit : k.initproc ≠ some i
  initproc : k'.initproc = k.initproc
  nextpid : k'.nextpid = k.nextpid
  pid : ∀ j, (k'.proc j).pid = (k.proc j).pid
  parent : ∀ j, (k'.proc j).parent = if (k.proc j).parent = some i then k.initproc else (k.proc j).parent
  chan : ∀ j, (k'.proc j).chan = (k.proc j).chan
  zombie : (k'.proc i).state = .zombie
  woken : ∀ j ≠ i, Woken (k.proc j).state (k'.proc j).state
  wakes : ∀ q ≠ i, (k.proc i).parent = some q → (k.proc q).chan = L.procAddr q → (k'.proc q).state ≠ .sleeping
  wakesInit : ∀ z j, k.initproc = some z → (k.proc z).chan = L.procAddr z → j ≠ i → (k.proc j).parent = some i →
    (k.proc j).state = .zombie → (k'.proc z).state ≠ .sleeping

theorem set_ids (k : Kernel) (i : Fin nproc) {p : Proc} (hpid : p.pid = (k.proc i).pid)
    (hparent : p.parent = (k.proc i).parent)
    (hchan : p.chan = (k.proc i).chan) (j : Fin nproc) : ((k.set i p).proc j).pid = (k.proc j).pid ∧
      ((k.set i p).proc j).parent = (k.proc j).parent ∧ ((k.set i p).proc j).chan = (k.proc j).chan := by
  by_cases hj : j = i
  · rw [hj, Kernel.set_self]
    exact ⟨hpid, hparent, hchan⟩
  · rw [Kernel.set_of_ne _ _ hj]
    exact ⟨rfl, rfl, rfl⟩

theorem exit_exited (h : k.exit L i = some k') : Exited L k i k' := by
  obtain ⟨hinit, k₁, k₂, hk₁, hk₂, rfl⟩ := exit_steps h
  have hinit₂ : k₂.initproc = k.initproc := by rw [hk₂, hk₁]; rfl
  -- Files and the directory are closed first, which no other process sees.
  have h₁ (j : Fin nproc) : (k₁.proc j).pid = (k.proc j).pid ∧ (k₁.proc j).parent = (k.proc j).parent ∧
      (k₁.proc j).chan = (k.proc j).chan := by
    rw [hk₁]
    exact set_ids k i (p := { k.proc i with ofile := fun _ => 0, cwd := 0 }) rfl rfl rfl j
  have hstate₁ (j : Fin nproc) : (k₁.proc j).state = (k.proc j).state := by
    rw [hk₁]
    by_cases hj : j = i
    · rw [hj, Kernel.set_self]
    · rw [Kernel.set_of_ne _ _ hj]
  have h₂ (j : Fin nproc) : (k₂.proc j).pid = (k.proc j).pid ∧ (k₂.proc j).parent = (k.proc j).parent ∧
      (k₂.proc j).chan = (k.proc j).chan ∧ Woken (k.proc j).state (k₂.proc j).state ∧
      ((k.proc j).chan = Kernel.chanOf L (k.proc i).parent → (k₂.proc j).state ≠ .sleeping) := by
    obtain ⟨a1, a2, a3⟩ := h₁ j
    obtain ⟨b1, b2, b3, b4, b5⟩ := wakeup1_spec k₁ (Kernel.chanOf L (k₁.proc i).parent) j
    rw [← hk₂] at b1 b2 b3 b4 b5
    rw [(h₁ i).2.1, a3] at b5
    rw [hstate₁] at b4
    exact ⟨b1.trans a1, b2.trans a2, b3.trans a3, b4, b5⟩
  have h₃ (j : Fin nproc) := passChildren_spec L k₂ i j
  -- The last step changes only the state of process `i`.
  have h₄ (j : Fin nproc) (hj : j ≠ i) := Kernel.set_of_ne (k₂.passChildren L i)
    { (k₂.passChildren L i).proc i with state := .zombie } hj
  have hlast (j : Fin nproc) := set_ids (k₂.passChildren L i) i
    (p := { (k₂.passChildren L i).proc i with state := .zombie }) rfl rfl rfl j
  have hparent (j : Fin nproc) : ((k₂.passChildren L i).proc j).parent =
      if (k.proc j).parent = some i then k.initproc else (k.proc j).parent := by
    rw [(h₃ j).2.1, (h₂ j).2.1, hinit₂]
  have hself := Kernel.set_self (k₂.passChildren L i) i { (k₂.passChildren L i).proc i with state := .zombie }
  have hrest := passChildren_rest L k₂ i
  refine ⟨hinit, ?_, ?_, fun j => ?_, fun j => ?_, fun j => ?_, ?_, fun j hj => ?_, fun q hq hp hc => ?_,
    fun z j hz hc hj hp hzombie => ?_⟩
  · exact hrest.2.trans hinit₂
  · refine hrest.1.trans ?_
    rw [hk₂, hk₁]
    rfl
  · exact (hlast j).1.trans ((h₃ j).1.trans (h₂ j).1)
  · exact (hlast j).2.1.trans (hparent j)
  · exact (hlast j).2.2.trans ((h₃ j).2.2.1.trans (h₂ j).2.2.1)
  · rw [hself]
  · rw [h₄ j hj]
    exact (h₂ j).2.2.2.1.trans (h₃ j).2.2.2.1
  · -- A process that `wakeup1` has left without sleep does not sleep later.
    rw [h₄ q hq]
    have hawake := (h₂ q).2.2.2.2 (by rw [hp]; exact hc)
    exact fun hs => hawake ((h₃ q).2.2.2.1.sleeping hs)
  · have hzi : z ≠ i := by
      rintro rfl
      exact hinit hz
    rw [h₄ z hzi]
    refine (h₃ z).2.2.2.2 j ?_ ?_ ?_
    · rw [(h₂ j).2.1, hp]
    · rcases (h₂ j).2.2.2.1 with heq | ⟨hl, -⟩
      · rw [heq, hzombie]
      · exact absurd (hzombie.symm.trans hl) (by simp)
    · rw [(h₂ z).2.2.1, hinit₂, hz]
      exact hc

/-- `wait` frees a zombie of its own, or sleeps, or changes nothing. -/
inductive Waited (L : Layout) (k : Kernel) (i : Fin nproc) : Kernel.WaitResult → Kernel → Prop
  | reaped {z : Fin nproc}
  (hfind : (List.finRange nproc).find? (fun j => (k.proc j).parent = some i ∧ (k.proc j).state = .zombie) = some z) :
      Waited L k i (.ret (k.proc z).pid)
        (k.set z { k.proc z with kstack := 0, pid := 0, parent := none, name := [], killed := 0, state := .unused })
  | failed (hnone : (List.finRange nproc).find? (fun j => (k.proc j).parent = some i ∧ (k.proc j).state = .zombie) = none) :
      Waited L k i (.ret (-1)) k
  | sleeps (hnone : ∀ j, (k.proc j).parent = some i → (k.proc j).state ≠ .zombie) :
      Waited L k i .sleeps (k.set i { k.proc i with chan := L.procAddr i, state := .sleeping })

theorem wait_waited (L : Layout) (k : Kernel) (i : Fin nproc) : Waited L k i (k.wait L i).1 (k.wait L i).2 := by
  unfold Kernel.wait
  split
  · exact .reaped ‹_›
  · rename_i hnone
    split
    · exact .failed hnone
    · refine .sleeps fun j hp hz => ?_
      have := List.find?_eq_none.mp hnone j (List.mem_finRange j)
      exact this (by simp [hp, hz])

theorem find_zombie {z : Fin nproc}
    (hfind : (List.finRange nproc).find? (fun j => (k.proc j).parent = some i ∧ (k.proc j).state = .zombie) = some z) :
    (k.proc z).parent = some i ∧ (k.proc z).state = .zombie := by
  have := List.find?_some hfind
  simpa only [decide_eq_true_eq] using this

theorem setState_self (k : Kernel) (i : Fin nproc) (s : ProcState) : ((k.setState i s).proc i).state = s := by
  rw [Kernel.setState, Kernel.set_self]

theorem setState_of_ne (k : Kernel) (s : ProcState) (h : j ≠ i) : (k.setState i s).proc j = k.proc j :=
  Kernel.set_of_ne _ _ h

end

/-! ### The invariant -/

/-- The CPU holds `ptable.lock`. -/
def Place.Holds : Place → Prop
  | .scan _ | .resumed _ | .leaving _ => True
  | .idle | .run _ => False

/-- The process whose kernel stack the CPU is on. -/
def Place.current : Place → Option (Fin nproc)
  | .run p | .resumed p | .leaving p => some p
  | .idle | .scan _ => none

/-- The CPU executes the process, which has not given it up. -/
def Place.Runs (p : Fin nproc) : Place → Prop
  | .run q | .resumed q => q = p
  | .idle | .scan _ | .leaving _ => False

def Place.inScheduler : Place → Bool
  | .idle | .scan _ => true
  | .run _ | .resumed _ | .leaving _ => false

def Left (s : ProcState) : Prop := s = .runnable ∨ s = .sleeping ∨ s = .zombie

/-- The processes that run are those that the CPUs execute, each on one CPU. -/
structure Exclusive {n : Nat} (st : Fin nproc → ProcState) (cpu : Fin n → Cpu) (lock : Option (Fin n)) : Prop where
  held : ∀ c, (cpu c).place.Holds ↔ lock = some c
  proc : ∀ c, (cpu c).proc = (cpu c).place.current
  running : ∀ p, st p = .running ↔ ∃ c, (cpu c).place.Runs p
  leaving : ∀ c p, (cpu c).place = .leaving p → Left (st p)
  apart : ∀ c c' p, (cpu c).place.current = some p → (cpu c').place.current = some p → c = c'

namespace Exclusive
variable {n : Nat} {st st' : Fin nproc → ProcState} {cpu : Fin n → Cpu} {lock : Option (Fin n)} {c : Fin n} {p : Fin nproc}

theorem not_leaving (h : Exclusive st cpu lock) (hl : lock = none) (c : Fin n) (p : Fin nproc) :
    (cpu c).place ≠ .leaving p := by
  intro hp
  have := (h.held c).mp (by rw [hp]; trivial)
  rw [hl] at this
  cases this

theorem only_leaving {c' : Fin n} (h : Exclusive st cpu lock) (hc : (cpu c).place.Holds) (hne : c' ≠ c) (p : Fin nproc) :
    (cpu c').place ≠ .leaving p := by
  intro hp
  have h1 := (h.held c').mp (by rw [hp]; trivial)
  have h2 := (h.held c).mp hc
  exact hne (Option.some.inj (h1.symm.trans h2))

theorem others_not_leaving {c' : Fin n} (h : Exclusive st cpu lock) (hl : lock = none ∨ lock = some c) (hne : c' ≠ c)
    (p : Fin nproc) : (cpu c').place ≠ .leaving p := by
  rcases hl with hl | hl
  · exact h.not_leaving hl c' p
  · exact h.only_leaving ((h.held c).mpr hl) hne p

theorem runs_of_current (hp : (cpu c).place.current = some p) (hl : (cpu c).place ≠ .leaving p) : (cpu c).place.Runs p := by
  revert hp hl
  cases (cpu c).place with
  | idle | scan => nofun
  | run q => exact fun h _ => Option.some.inj h
  | resumed q => exact fun h _ => Option.some.inj h
  | leaving q => exact fun h hl => absurd (congrArg Place.leaving (Option.some.inj h)) hl

theorem Place.Runs.current {pl : Place} (h : pl.Runs p) : pl.current = some p := by
  cases pl with
  | idle | scan => exact h.elim
  | run q => exact congrArg some h
  | resumed q => exact congrArg some h
  | leaving => exact h.elim

theorem calm (h : Exclusive st cpu lock) (hrun : ∀ p, st' p = .running ↔ st p = .running)
    (hleave : ∀ c p, (cpu c).place = .leaving p → Left (st' p)) : Exclusive st' cpu lock :=
  ⟨h.held, h.proc, fun p => (hrun p).trans (h.running p), hleave, h.apart⟩

theorem move {new : Cpu} {l : Option (Fin n)} (h : Exclusive st cpu lock) (hheld : new.place.Holds ↔ l = some c)
    (hlock : ∀ c' ≠ c, l = some c' ↔ lock = some c') (hproc : new.proc = new.place.current)
    (hcur : ∀ p, new.place.current = some p → (cpu c).place.current = some p ∨ ∀ c', (cpu c').place.current ≠ some p)
    (hrun : ∀ p, st' p = .running ↔ new.place.Runs p ∨ st p = .running ∧ (cpu c).place.current ≠ some p)
    (hleave : ∀ p, new.place = .leaving p → Left (st' p))
    (hkeep : ∀ c' ≠ c, ∀ p, (cpu c').place = .leaving p → Left (st' p)) :
    Exclusive st' (Function.update cpu c new) l := by
  have hself : Function.update cpu c new c = new := Function.update_self ..
  have hne {c' : Fin n} (hc : c' ≠ c) : Function.update cpu c new c' = cpu c' := Function.update_of_ne hc ..
  refine ⟨fun c' => ?_, fun c' => ?_, fun p => ?_, fun c' p hp => ?_, fun c₁ c₂ p h₁ h₂ => ?_⟩
  · by_cases hc : c' = c
    · rw [hc, hself]
      exact hheld
    · rw [hne hc, h.held, hlock c' hc]
  · by_cases hc : c' = c
    · rw [hc, hself]
      exact hproc
    · rw [hne hc]
      exact h.proc c'
  · rw [hrun p]
    constructor
    · rintro (hr | ⟨hr, hc⟩)
      · exact ⟨c, by rw [hself]; exact hr⟩
      · obtain ⟨c', hr⟩ := (h.running p).mp hr
        have : c' ≠ c := by
          rintro rfl
          exact hc (Place.Runs.current hr)
        exact ⟨c', by rw [hne this]; exact hr⟩
    · rintro ⟨c', hr⟩
      by_cases hc : c' = c
      · rw [hc, hself] at hr
        exact .inl hr
      · rw [hne hc] at hr
        exact .inr ⟨(h.running p).mpr ⟨c', hr⟩, fun hp => hc (h.apart c' c p (Place.Runs.current hr) hp)⟩
  · by_cases hc : c' = c
    · rw [hc, hself] at hp
      exact hleave p hp
    · rw [hne hc] at hp
      exact hkeep c' hc p hp
  · -- A process that comes to CPU `c` was there before, or was nowhere.
    have key {c' : Fin n} (hc : c' ≠ c) (hn : new.place.current = some p) (hp : (cpu c').place.current = some p) :
        False := by
      rcases hcur p hn with hp' | hno
      · exact hc (h.apart c' c p hp hp')
      · exact hno c' hp
    by_cases hc₁ : c₁ = c
    · by_cases hc₂ : c₂ = c
      · rw [hc₁, hc₂]
      · rw [hc₁, hself] at h₁
        rw [hne hc₂] at h₂
        exact (key hc₂ h₁ h₂).elim
    · rw [hne hc₁] at h₁
      by_cases hc₂ : c₂ = c
      · rw [hc₂, hself] at h₂
        exact (key hc₁ h₂ h₁).elim
      · rw [hne hc₂] at h₂
        exact h.apart c₁ c₂ p h₁ h₂

end Exclusive

/-- The slot that the process is filling. -/
def Stage.slot : Stage → Option (Fin nproc)
  | .out => none
  | .embryo np | .stack np | .copied np => some np

theorem embryo_some {k k' : Kernel} {np : Fin nproc} (h : k.embryo = (some np, k')) :
    (k.proc np).state = .unused ∧ (k'.proc np).state = .embryo ∧ (k'.proc np).pid = k.nextpid ∧
      (k'.proc np).parent = (k.proc np).parent ∧ (∀ j ≠ np, k'.proc j = k.proc j) ∧
      k'.nextpid = int32 (k.nextpid + 1) ∧ k'.initproc = k.initproc := by
  unfold Kernel.embryo at h
  split at h
  · cases h
  · rename_i i hfind
    cases h
    refine ⟨by simpa using List.find?_some hfind, ?_, ?_, ?_, fun j hj => ?_, rfl, rfl⟩
    · rw [Kernel.set_self]
    · rw [Kernel.set_self]
    · rw [Kernel.set_self]
    · rw [Kernel.set_of_ne _ _ hj]

theorem giveStack_spec (k : Kernel) (np : Fin nproc) (kstack : Addr) :
    (∀ j ≠ np, (k.giveStack np kstack).2.proc j = k.proc j) ∧
      (((k.giveStack np kstack).2.proc np).state = if (k.giveStack np kstack).1 then (k.proc np).state else .unused) ∧
      ((k.giveStack np kstack).2.proc np).pid = (k.proc np).pid ∧
      ((k.giveStack np kstack).2.proc np).parent = (k.proc np).parent ∧
      (k.giveStack np kstack).2.nextpid = k.nextpid ∧ (k.giveStack np kstack).2.initproc = k.initproc := by
  unfold Kernel.giveStack
  split <;> exact ⟨fun j hj => Kernel.set_of_ne _ _ hj, by simp, by simp, by simp, rfl, rfl⟩

theorem copyProc_spec (k : Kernel) (p np : Fin nproc) (pgdir : Addr) :
    (∀ j ≠ np, (k.copyProc p np pgdir).2.proc j = k.proc j) ∧
      (((k.copyProc p np pgdir).2.proc np).state = if (k.copyProc p np pgdir).1 then (k.proc np).state else .unused) ∧
      ((k.copyProc p np pgdir).2.proc np).pid = (k.proc np).pid ∧
      (((k.copyProc p np pgdir).2.proc np).parent = if (k.copyProc p np pgdir).1 then some p else (k.proc np).parent) ∧
      (k.copyProc p np pgdir).2.nextpid = k.nextpid ∧ (k.copyProc p np pgdir).2.initproc = k.initproc := by
  unfold Kernel.copyProc
  dsimp only
  split <;> exact ⟨fun j hj => Kernel.set_of_ne _ _ hj, by simp, by simp, by simp, rfl, rfl⟩

namespace Machine
variable {n : Nat} {L : Layout} {m m' : Machine n} {c : Fin n} {p : Fin nproc} {k : Kernel} {np : Fin nproc} {e : Event n}

def st (m : Machine n) (p : Fin nproc) : ProcState := (m.k.proc p).state

structure Inv (m : Machine n) : Prop where
  excl : Exclusive m.st m.cpu m.lock
  embryo : ∀ p np, (m.stage p).slot = some np → m.st np = .embryo
  once : ∀ p p' np, (m.stage p).slot = some np → (m.stage p').slot = some np → p = p'

/-- No slot that is being filled is that of a running process. -/
theorem Inv.embryo_others (h : m.Inv) (hp : (m.cpu c).place.Runs p) (hothers : ∀ j ≠ p, Calm (m.st j) (k.proc j).state)
    {q : Fin nproc} (hq : (m.stage q).slot = some np) : (k.proc np).state = .embryo := by
  have hne : np ≠ p := by
    rintro rfl
    have := h.embryo q np hq
    rw [(h.excl.running np).mpr ⟨c, hp⟩] at this
    cases this
  exact (hothers np hne).embryo (h.embryo q np hq)

theorem Inv.sched {r : Resume} (exited : List Int) (h : m.Inv) (hp : (m.cpu c).place.Runs p)
    (hlock : m.lock = none ∨ m.lock = some c) (hself : Left (k.proc p).state)
    (hothers : ∀ j ≠ p, Calm (m.st j) (k.proc j).state) : Inv { m.sched c p k r with exited } := by
  have hcur := Exclusive.Place.Runs.current hp
  refine ⟨h.excl.move (l := some c) (c := c) (by simp [Place.Holds]) (fun c' hc => ?_) rfl (fun q hq => ?_) (fun q => ?_)
    (fun q hq => ?_) fun c' hc q hq => ?_, fun q np hq => ?_, h.once⟩
  · rcases hlock with hl | hl <;> simp [hl, Ne.symm hc]
  · exact .inl (hcur.trans hq)
  · by_cases hqp : q = p
    · subst hqp
      simp only [Machine.st, Machine.sched, Machine.setCpu, Place.Runs, hcur, ne_eq, not_true_eq_false, and_false, or_false,
        iff_false]
      rcases hself with h | h | h <;> simp [h]
    · have : ¬(m.cpu c).place.current = some q := fun hc => hqp (Option.some.inj (hc.symm.trans hcur))
      simp only [Place.Runs, false_or, ne_eq, this, not_false_eq_true, and_true]
      exact (hothers q hqp).running
  · cases hq
    exact hself
  · exact absurd hq (h.excl.others_not_leaving hlock hc q)
  · exact h.embryo_others hp hothers hq

theorem Inv.goes (returned : List Reap) (h : m.Inv) (hp : (m.cpu c).place.Runs p)
    (hlock : m.lock = none ∨ m.lock = some c) (hself : (k.proc p).state = m.st p)
    (hothers : ∀ j ≠ p, Calm (m.st j) (k.proc j).state) :
    Inv { m.setCpu c ⟨.run p, some p⟩ with k, lock := none, returned } := by
  have hrunning := (h.excl.running p).mpr ⟨c, hp⟩
  have hcur := Exclusive.Place.Runs.current hp
  refine ⟨h.excl.move (l := none) (c := c) (by simp [Place.Holds]) (fun c' hc => ?_) rfl (fun q hq => ?_) (fun q => ?_)
    nofun fun c' hc q hq => ?_, fun q np hq => ?_, h.once⟩
  · rcases hlock with hl | hl
    · simp [hl]
    · simp [hl, Ne.symm hc]
  · exact .inl (hcur.trans hq)
  · by_cases hqp : q = p
    · subst hqp
      simp only [Machine.st, Place.Runs, true_or, iff_true]
      exact hself.trans hrunning
    · have : ¬(m.cpu c).place.current = some q := fun hc => hqp (Option.some.inj (hc.symm.trans hcur))
      simp only [Place.Runs, Ne.symm hqp, false_or, ne_eq, this, not_false_eq_true, and_true]
      exact (hothers q hqp).running
  · exact absurd hq (h.excl.others_not_leaving hlock hc q)
  · exact h.embryo_others hp hothers hq

theorem Inv.waitLoop (h : m.Inv) (hp : (m.cpu c).place.Runs p) (hlock : m.lock = none ∨ m.lock = some c) :
    Inv (m.waitLoop L c p) := by
  have hw := wait_waited L m.k p
  have hrunning := (h.excl.running p).mpr ⟨c, hp⟩
  unfold Machine.waitLoop
  cases hr : (m.k.wait L p).1 with
  | sleeps =>
    rw [hr] at hw
    generalize (m.k.wait L p).2 = k at hw
    cases hw with
    | sleeps hnone =>
      exact h.sched (k := m.k.set p _) m.exited hp hlock (.inr (.inl (by rw [Kernel.set_self])))
        fun j hj => .inl (by rw [Kernel.set_of_ne _ _ hj]; rfl)
  | ret pid =>
    rw [hr] at hw
    generalize (m.k.wait L p).2 = k at hw
    cases hw with
    | reaped hfind =>
      rename_i z
      obtain ⟨-, hz⟩ := find_zombie hfind
      have hne : p ≠ z := by
        rintro rfl
        exact absurd (hz.symm.trans hrunning) (by simp)
      refine h.goes _ hp hlock (by rw [Kernel.set_of_ne _ _ hne]; rfl) fun j hj => ?_
      by_cases hjz : j = z
      · rw [hjz, Kernel.set_self]
        exact .inr (.inr ⟨hz, rfl⟩)
      · rw [Kernel.set_of_ne _ _ hjz]
        exact .inl rfl
    | failed hnone => exact h.goes _ hp hlock rfl fun j _ => .inl rfl

theorem Inv.quiet (h : m.Inv) (hl : m.lock = none) (hk : ∀ j, Calm (m.st j) (k.proc j).state) : Inv { m with k } :=
  ⟨h.excl.calm (fun p => (hk p).running) fun c p hp => absurd hp (h.excl.not_leaving hl c p),
    fun q np hq => (hk np).embryo (h.embryo q np hq), h.once⟩

/-- The slot that a process is filling changes, and the process goes on to the next part of `fork` or leaves it. -/
theorem Inv.fill {r : Fin nproc → Resume} {g : Stage} (h : m.Inv) (hs : (m.stage p).slot = some np)
    (hothers : ∀ j ≠ np, k.proc j = m.k.proc j) (hg : g.slot = none ∨ g.slot = some np ∧ (k.proc np).state = .embryo)
    (hstate : (k.proc np).state ≠ .running) :
    Inv { m with k, stage := Function.update m.stage p g, resume := r } := by
  have hnp := h.embryo p np hs
  refine ⟨h.excl.calm (fun q => ?_) (fun c q hq => ?_), fun q nq hq => ?_, fun q q' nq hq hq' => ?_⟩
  · by_cases hqn : q = np
    · subst hqn
      exact ⟨fun hr => absurd hr hstate, fun hr => by rw [hnp] at hr; cases hr⟩
    · simp only [Machine.st, hothers q hqn]
  · -- A process in `sched` is none that is being made.
    have hleft := h.excl.leaving c q hq
    have hqn : q ≠ np := by
      rintro rfl
      rw [hnp] at hleft
      rcases hleft with h | h | h <;> cases h
    simp only [Machine.st, hothers q hqn]
    exact hleft
  · by_cases hqp : q = p
    · subst hqp
      dsimp only at hq
      rw [Function.update_self] at hq
      rcases hg with hg | ⟨hg, he⟩
      · rw [hg] at hq
        cases hq
      · rw [hg] at hq
        cases hq
        exact he
    · dsimp only at hq
      rw [Function.update_of_ne hqp] at hq
      have hne : nq ≠ np := fun hc => hqp (h.once q p np (hc ▸ hq) hs)
      simp only [Machine.st, hothers nq hne]
      exact h.embryo q nq hq
  · have key {x : Fin nproc} (hx : (Function.update m.stage p g x).slot = some nq) : (m.stage x).slot = some nq := by
      by_cases hxp : x = p
      · subst hxp
        rw [Function.update_self] at hx
        rcases hg with hg | ⟨hg, -⟩
        · rw [hg] at hx
          cases hx
        · rw [hg] at hx
          rw [hs, hx]
      · rwa [Function.update_of_ne hxp] at hx
    exact h.once q q' nq (key hq) (key hq')

theorem Inv.awake (h : m.Inv) (p : Fin nproc) : Inv { m with k := m.k.set p { m.k.proc p with chan := 0 } } := by
  have hst (j : Fin nproc) : ((m.k.set p { m.k.proc p with chan := 0 }).proc j).state = m.st j := by
    by_cases hj : j = p
    · rw [hj, Kernel.set_self]
      rfl
    · rw [Kernel.set_of_ne _ _ hj]
      rfl
  refine ⟨h.excl.calm (fun q => ?_) (fun c q hq => ?_), fun q np hq => ?_, h.once⟩
  · simp only [Machine.st, hst]
  · simp only [Machine.st, hst]
    exact h.excl.leaving c q hq
  · simp only [Machine.st, hst]
    exact h.embryo q np hq

theorem Inv.pick {c : Fin n} {i : Fin nproc} (h : m.Inv) (hp : (m.cpu c).place = .scan i)
    (hs : (m.k.proc i).state = .runnable) :
    Inv { m.setCpu c ⟨.resumed i, some i⟩ with k := m.k.setState i .running } := by
  have hheld : (m.cpu c).place.Holds := by
    rw [hp]
    trivial
  refine ⟨h.excl.move (l := m.lock) (by simpa [Place.Holds] using (h.excl.held c).mp hheld) (fun _ _ => Iff.rfl) rfl
    (fun q hq => .inr fun c' hc' => ?_) (fun q => ?_) nofun fun c' hc q hq => absurd hq (h.excl.only_leaving hheld hc q),
    fun q np hq => ?_, h.once⟩
  · -- A process that is `RUNNABLE` without the lock is on no CPU.
    cases hq
    by_cases hc : c' = c
    · rw [hc, hp] at hc'
      cases hc'
    · have := (h.excl.running i).mpr ⟨c', Exclusive.runs_of_current hc' (h.excl.only_leaving hheld hc i)⟩
      exact absurd (hs.symm.trans this) (by simp)
  · simp only [Place.Runs, hp, Place.current, ne_eq, reduceCtorEq, not_false_eq_true, and_true, Machine.st]
    by_cases hq : q = i
    · subst hq
      simp [setState_self]
    · rw [setState_of_ne _ _ hq]
      simp [Ne.symm hq]
  · have hne : np ≠ i := by
      rintro rfl
      exact absurd ((h.embryo q np hq).symm.trans hs) (by simp)
    simp only [Machine.st, setState_of_ne _ _ hne]
    exact h.embryo q np hq

theorem Inv.alloc {p : Fin nproc} (h : m.Inv) (hl : m.lock = none) (hk : m.k.embryo = (some np, k)) :
    Inv { m with k, stage := Function.update m.stage p (.embryo np), forks := m.forks + 1 } := by
  obtain ⟨hfree, hnew, -, -, hothers, -, -⟩ := embryo_some hk
  have hfresh (q : Fin nproc) : (m.stage q).slot ≠ some np := fun hq => by
    have := h.embryo q np hq
    exact absurd (hfree.symm.trans this) (by simp)
  refine ⟨h.excl.calm (fun q => ?_) fun c q hq => absurd hq (h.excl.not_leaving hl c q), fun q nq hq => ?_,
    fun q q' nq hq hq' => ?_⟩
  · by_cases hq : q = np
    · subst hq
      simp only [Machine.st, hnew, hfree, reduceCtorEq]
    · simp only [Machine.st, hothers q hq]
  · by_cases hqp : q = p
    · subst hqp
      dsimp only at hq
      rw [Function.update_self] at hq
      cases hq
      exact hnew
    · dsimp only at hq
      rw [Function.update_of_ne hqp] at hq
      have hne : nq ≠ np := fun hc => hfresh q (hc ▸ hq)
      simp only [Machine.st, hothers nq hne]
      exact h.embryo q nq hq
  · dsimp only at hq hq'
    by_cases hqp : q = p
    · by_cases hqp' : q' = p
      · rw [hqp, hqp']
      · rw [hqp, Function.update_self] at hq
        rw [Function.update_of_ne hqp'] at hq'
        cases hq
        exact absurd hq' (hfresh q')
    · rw [Function.update_of_ne hqp] at hq
      by_cases hqp' : q' = p
      · rw [hqp', Function.update_self] at hq'
        cases hq'
        exact absurd hq (hfresh q)
      · rw [Function.update_of_ne hqp'] at hq'
        exact h.once q q' nq hq hq'

theorem Inv.step (h : m.Inv) (hm : m.step L e = some m') : m'.Inv := by
  cases step_cases hm with
  | @acquire c hp hl =>
    refine ⟨h.excl.move (by simp [Place.Holds]) (fun c' hc => ?_) rfl nofun (fun q => ?_) nofun
      fun c' _ q hq => absurd hq (h.excl.not_leaving hl c' q), h.embryo, h.once⟩
    · simp [hl, Ne.symm hc]
    · simp only [Place.Runs, hp, Place.current, false_or, ne_eq, reduceCtorEq, not_false_eq_true, and_true]
      exact Iff.rfl
  | pick hp hs => exact h.pick hp hs
  | @next c i hp =>
    have hheld : (m.cpu c).place.Holds := by
      rw [hp]
      trivial
    refine ⟨h.excl.move (l := m.lock) (by simpa [Place.Holds] using (h.excl.held c).mp hheld) (fun _ _ => Iff.rfl) rfl nofun
      (fun q => ?_) nofun fun c' hc q hq => absurd hq (h.excl.only_leaving hheld hc q), h.embryo, h.once⟩
    simp only [Place.Runs, hp, Place.current, false_or, ne_eq, reduceCtorEq, not_false_eq_true, and_true]
    exact Iff.rfl
  | @release c i hp =>
    have hheld : (m.cpu c).place.Holds := by
      rw [hp]
      trivial
    refine ⟨h.excl.move (l := none) (by simp [Place.Holds]) (fun c' hc => ?_) rfl nofun
      (fun q => ?_) nofun fun c' hc q hq => absurd hq (h.excl.only_leaving hheld hc q), h.embryo, h.once⟩
    · simp [(h.excl.held c).mp hheld, Ne.symm hc]
    · simp only [Place.Runs, hp, Place.current, false_or, ne_eq, reduceCtorEq, not_false_eq_true, and_true]
      exact Iff.rfl
  | @goOn c p chan hp hr =>
    have hheld := (h.excl.held c).mp (by rw [hp]; trivial)
    refine h.goes m.returned (by rw [hp]; exact rfl) (.inr hheld) (by rw [Kernel.set_self]; rfl) fun j hj => .inl ?_
    rw [Kernel.set_of_ne _ _ hj]
    rfl
  | @goWait c p hp hr =>
    have hheld := (h.excl.held c).mp (by rw [hp]; trivial)
    exact (h.awake p).waitLoop (by rw [hp]; exact rfl) (.inr hheld)
  | @swtch c p hp =>
    have hheld : (m.cpu c).place.Holds := by
      rw [hp]
      trivial
    refine ⟨h.excl.move (l := m.lock) (by simpa [Place.Holds] using (h.excl.held c).mp hheld) (fun _ _ => Iff.rfl) rfl nofun
      (fun q => ?_) nofun fun c' hc q hq => absurd hq (h.excl.only_leaving hheld hc q), h.embryo, h.once⟩
    simp only [Place.Runs, hp, Place.current, false_or, ne_eq, Option.some.injEq]
    refine ⟨fun hq => ⟨hq, ?_⟩, And.left⟩
    rintro rfl
    have hq : m.st p = .running := hq
    have hleft := h.excl.leaving c p hp
    rw [hq] at hleft
    rcases hleft with h | h | h <;> cases h
  | @yield c p hp hl =>
    exact h.sched (k := m.k.setState p .runnable) m.exited (by rw [hp]; exact rfl) (.inl hl) (.inl (setState_self ..))
      fun j hj => .inl (by rw [setState_of_ne _ _ hj]; rfl)
  | @sleep c p chan hp hl =>
    exact h.sched (k := m.k.set p _) m.exited (by rw [hp]; exact rfl) (.inl hl) (.inr (.inl (by rw [Kernel.set_self])))
      fun j hj => .inl (by rw [Kernel.set_of_ne _ _ hj]; rfl)
  | wakeup hl => exact h.quiet hl fun j => (wakeup1_spec m.k _ j).2.2.2.1.calm
  | kill hl => exact h.quiet hl fun j => (kill_spec m.k _ j).2.2.2.calm
  | full hl => exact ⟨h.excl, h.embryo, h.once⟩
  | alloc hp hl ho hk => exact h.alloc hl hk
  | @stack c p np kstack hp hs =>
    have hslot : (m.stage p).slot = some np := by rw [hs]; rfl
    obtain ⟨hothers, hstate, -⟩ := giveStack_spec m.k np kstack
    have hnp : (m.k.proc np).state = .embryo := h.embryo p np hslot
    refine h.fill (r := m.resume) hslot hothers ?_ (by rw [hstate, hnp]; split <;> simp)
    rw [hstate, hnp]
    cases (m.k.giveStack np kstack).1
    · exact .inl rfl
    · exact .inr ⟨rfl, rfl⟩
  | @copy c p np pgdir hp hs =>
    have hslot : (m.stage p).slot = some np := by rw [hs]; rfl
    obtain ⟨hothers, hstate, -⟩ := copyProc_spec m.k p np pgdir
    have hnp : (m.k.proc np).state = .embryo := h.embryo p np hslot
    refine h.fill (r := m.resume) hslot hothers ?_ (by rw [hstate, hnp]; split <;> simp)
    rw [hstate, hnp]
    cases (m.k.copyProc p np pgdir).1
    · exact .inl rfl
    · exact .inr ⟨rfl, rfl⟩
  | @run c p np hp hl hs =>
    have hslot : (m.stage p).slot = some np := by rw [hs]; rfl
    exact h.fill hslot (fun j hj => setState_of_ne _ _ hj) (.inl rfl) (by rw [setState_self]; simp)
  | @exit c p k hp hl ho hk =>
    have he := exit_exited hk
    exact h.sched _ (by rw [hp]; exact rfl) (.inl hl) (.inr (.inr he.zombie)) fun j hj => (he.woken j hj).calm
  | @wait c p hp hl ho => exact h.waitLoop (by rw [hp]; exact rfl) (.inl hl)

theorem start_st (n : Nat) (kstack pgdir : Addr) (initcode : Mem) (cwd : Addr) (p : Fin nproc) :
    (start n kstack pgdir initcode cwd).st p = if kstack ≠ 0 ∧ p = 0 then .runnable else .unused := by
  have hbooted := userinit_booted kstack pgdir initcode cwd
  simp only [Machine.st, start]
  generalize Kernel.zeroed.userinit kstack pgdir initcode cwd = k at hbooted ⊢
  by_cases hp : p = 0
  · cases hbooted with
    | failed h0 => rw [hp, Kernel.set_self, if_neg fun h => h.1 h0]
    | ready h0 => rw [hp, Kernel.set_self, if_pos ⟨h0, rfl⟩]
  · rw [if_neg fun h => hp h.2]
    cases hbooted <;> rw [Kernel.set_of_ne _ _ hp] <;> rfl

theorem start_inv (n : Nat) (kstack pgdir : Addr) (initcode : Mem) (cwd : Addr) :
    (start n kstack pgdir initcode cwd).Inv := by
  refine ⟨⟨fun c => by simp [start, Place.Holds], fun c => rfl, fun p => ?_, nofun, nofun⟩, nofun, nofun⟩
  rw [start_st]
  constructor
  · intro h
    split at h <;> cases h
  · rintro ⟨c, hc⟩
    exact hc.elim

/-- What holds of a machine whose `ptable.lock` is free. -/
structure Sharing (m : Machine n) : Prop where
  running : ∀ p, (m.k.proc p).state = .running ↔ ∃ c, (m.cpu c).place.inScheduler = false ∧ (m.cpu c).proc = some p
  apart : ∀ c c' p, (m.cpu c).proc = some p → (m.cpu c').proc = some p → c = c'
  state : ∀ c p, (m.cpu c).proc = some p →
    (m.k.proc p).state ≠ .unused ∧ (m.k.proc p).state ≠ .embryo ∧ (m.k.proc p).state ≠ .zombie

theorem Inv.sharing (h : m.Inv) (hl : m.lock = none) : m.Sharing := by
  have hruns {c : Fin n} {p : Fin nproc} (hp : (m.cpu c).proc = some p) : (m.cpu c).place.Runs p := by
    rw [h.excl.proc c] at hp
    exact Exclusive.runs_of_current hp (h.excl.not_leaving hl c p)
  refine ⟨fun p => ⟨fun hp => ?_, ?_⟩, fun c c' p hp hp' => ?_, fun c p hp => ?_⟩
  · obtain ⟨c, hc⟩ := (h.excl.running p).mp hp
    have hcur := Exclusive.Place.Runs.current hc
    refine ⟨c, ?_, (h.excl.proc c).trans hcur⟩
    revert hcur
    cases (m.cpu c).place <;> simp [Place.inScheduler, Place.current]
  · rintro ⟨c, -, hp⟩
    exact (h.excl.running p).mpr ⟨c, hruns hp⟩
  · exact h.excl.apart c c' p ((h.excl.proc c).symm.trans hp) ((h.excl.proc c').symm.trans hp')
  · have hrunning : (m.k.proc p).state = .running := (h.excl.running p).mpr ⟨c, hruns hp⟩
    simp [hrunning]

/-- The step by which `wait` frees the stack of a zombie, and makes its slot `UNUSED`. -/
def Frees (m m' : Machine n) (z : Fin nproc) : Prop := (m.k.proc z).state = .zombie ∧ (m'.k.proc z).state = .unused

theorem Inv.freed {z : Fin nproc} (h : m.Inv) (hm : m.step L e = some m') (hz : Frees m m' z) (c : Fin n) :
    (m.cpu c).place.current ≠ some z := by
  intro hc
  obtain ⟨hz, hfree⟩ := hz
  have hleaving : (m.cpu c).place = .leaving z := by
    by_contra hne
    have := (h.excl.running z).mpr ⟨c, Exclusive.runs_of_current hc hne⟩
    exact absurd (hz.symm.trans this) (by simp)
  have hlock : m.lock = some c := (h.excl.held c).mp (by rw [hleaving]; trivial)
  have hfree' (hl : m.lock = none) : False := by
    rw [hlock] at hl
    cases hl
  have hheld {c' : Fin n} (hp : (m.cpu c').place.Holds) : (m.cpu c').place = .leaving z := by
    have := (h.excl.held c').mp hp
    rw [← Option.some.inj (hlock.symm.trans this)]
    exact hleaving
  have hnot {p np : Fin nproc} (hs : (m.stage p).slot = some np) : z ≠ np := by
    rintro rfl
    exact absurd ((h.embryo p z hs).symm.trans hz) (by simp)
  have hsame (hsame : m'.k.proc z = m.k.proc z) : False := by
    rw [hsame, hz] at hfree
    cases hfree
  cases step_cases hm with
  | pick hp | next hp | release hp | goOn _ hp | goWait hp =>
    have := hheld (by rw [hp]; trivial)
    rw [hp] at this
    cases this
  | swtch hp => exact hsame rfl
  | acquire _ hl | yield _ hl | sleep _ hl | exit _ hl | wait _ hl => exact hfree' hl
  | wakeup hl | kill hl | full hl | alloc _ hl | run _ hl => exact hfree' hl
  | stack hp hs => exact hsame ((giveStack_spec ..).1 z (hnot (by rw [hs]; rfl)))
  | copy hp hs => exact hsame ((copyProc_spec ..).1 z (hnot (by rw [hs]; rfl)))

end Machine

open Machine in
/-- Whatever the number of CPUs and whatever they do: with `ptable.lock` free, the `RUNNING` processes are those of the
    CPUs outside `scheduler`, each of one CPU; and `wait` frees no stack on which a CPU still is. -/
theorem one_cpu_each {n : Nat} (L : Layout) (kstack pgdir : Addr) (initcode : Mem) (cwd : Addr) {m : Machine n}
    {tr : List (Machine n × Event n)} (hr : Run (OfStep (step L)) (start n kstack pgdir initcode cwd) tr m) :
    (m.lock = none → m.Sharing) ∧
      ∀ e m' z, m.step L e = some m' → m.Frees m' z → ∀ c, (m.cpu c).place.current ≠ some z := by
  have h : m.Inv := hr.invariant (start_inv n kstack pgdir initcode cwd) Inv.step
  exact ⟨h.sharing, fun e m' z hm hz => h.freed hm hz⟩

/-- The first process forks on one CPU, and the child runs on another one. -/
theorem one_cpu_each_forked : ∃ tr m, Run (OfStep (Machine.step bootLayout)) (.start 2 1 1 (fun _ => 0) 0) tr m ∧
    m.lock = none ∧ (m.cpu 0).proc = some 0 ∧ (m.cpu 1).proc = some 1 ∧ m.Sharing := by
  obtain ⟨tr, m, hr, -, hl, h0, h1⟩ := Run.exists_of_traceOf (f := Machine.step bootLayout) (.start 2 1 1 (fun _ => 0) 0)
    [.acquire 0, .scan 0, .resume 0, .forkAlloc 0, .forkStack 0 2, .forkCopy 0 2, .forkRun 0, .acquire 1, .scan 1, .scan 1,
      .resume 1]
    (fun _ m => m.lock = none ∧ (m.cpu 0).proc = some 0 ∧ (m.cpu 1).proc = some 1) (by decide +kernel)
  exact ⟨tr, m, hr, hl, h0, h1, (one_cpu_each bootLayout 1 1 (fun _ => 0) 0 hr).1 hl⟩

end Xv6.Cpus
