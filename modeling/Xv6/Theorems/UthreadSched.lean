import Xv6.Lib.Run
import Xv6.Uthread

/-! The scheduling invariant of the thread library: the current index is in the pool, and its slot is the only running
    one. Every operation keeps it, except a `uthred_join` pass that puts its caller to sleep when no other thread is
    ready. -/

namespace Xv6.Ult
open Lib

/-! ### The lottery -/

def readyCount (pool : Pool) (js : List (Fin maxThreads)) : Nat := js.countP fun j => (pool j).state = .runnable

variable {pool : Pool} {choosen tid : Int} {c j i : Fin maxThreads} {regs : Regs} {t u : Threads} {a : Call}

theorem foldl_tickets (hn : ∀ j, (pool j).ntickets = nticket) (hr : ∀ j, (pool j).state ≠ .running)
    (js : List (Fin maxThreads)) (n : Int) :
    js.foldl (fun n j => if (pool j).state ≠ .free ∧ (pool j).state ≠ .sleep then n + (pool j).ntickets else n) n =
      n + nticket * readyCount pool js := by
  induction js generalizing n with
  | nil => simp [readyCount]
  | cons j js ih =>
    have hr := hr j
    rw [List.foldl_cons, ih, hn]
    simp only [nticket]
    cases hs : (pool j).state <;> simp_all [readyCount]
    omega

theorem ticketNum_eq (hn : ∀ j, (pool j).ntickets = nticket) (hr : ∀ j, (pool j).state ≠ .running) :
    ticketNum pool = nticket * readyCount pool (List.finRange maxThreads) - 1 := by
  rw [ticketNum, foldl_tickets hn hr]
  omega

theorem readyCount_le (pool : Pool) : readyCount pool (List.finRange maxThreads) ≤ maxThreads :=
  (List.countP_le_length).trans (by simp)

/-- The one ticket that is missing from the total never takes a whole thread away. -/
theorem draw_range (r : BitVec 32) {k : Nat} (h1 : 1 ≤ k) (h7 : k ≤ maxThreads) :
    0 ≤ draw r (nticket * k - 1) ∧ draw r (nticket * k - 1) < k := by
  simp only [maxThreads, nticket] at h7 ⊢
  have htotal : BitVec.ofInt 32 (5 * k - 1) = BitVec.ofNat 32 (5 * k - 1) := by
    have : (5 * (k : Int) - 1) = ((5 * k - 1 : Nat) : Int) := by omega
    rw [this, BitVec.ofInt_natCast]
  have hmod : (r % BitVec.ofNat 32 (5 * k - 1)).toNat < 5 * k - 1 := by
    rw [BitVec.toNat_umod, BitVec.toNat_ofNat, Nat.mod_eq_of_lt (a := 5 * k - 1) (by omega)]
    exact Nat.mod_lt _ (by omega)
  have hint : (r % BitVec.ofNat 32 (5 * k - 1)).toInt = ((r % BitVec.ofNat 32 (5 * k - 1)).toNat : Int) :=
    BitVec.toInt_eq_toNat_of_lt (by omega)
  rw [draw, htotal, hint, Int.tdiv_eq_ediv_of_nonneg (by omega)]
  simp only [nticket]
  omega

theorem pick_ready : ∀ (js : List (Fin maxThreads)) (chooseCount : Int),
    chooseCount < choosen → choosen ≤ chooseCount + readyCount pool js →
    ∃ j : Fin maxThreads, pick pool choosen js chooseCount = j ∧ (pool j).state = .runnable
  | [], chooseCount, hlt, hle => by
    simp only [readyCount, List.countP_nil] at hle
    omega
  | j :: js, chooseCount, hlt, hle => by
    by_cases hj : (pool j).state = .runnable
    · by_cases hc : choosen = chooseCount + 1
      · exact ⟨j, by rw [pick, if_pos hj, if_pos hc], hj⟩
      · rw [pick, if_pos hj, if_neg hc]
        refine pick_ready js (chooseCount + 1) (by omega) ?_
        simp only [readyCount, List.countP_cons, hj, decide_true, if_true] at hle ⊢
        omega
    · rw [pick, if_neg hj]
      refine pick_ready js chooseCount hlt ?_
      simpa [readyCount, List.countP_cons, hj] using hle

theorem pick_cases (pool : Pool) (choosen : Int) : ∀ (js : List (Fin maxThreads)) (chooseCount : Int),
    pick pool choosen js chooseCount = maxThreads ∨
      ∃ j : Fin maxThreads, pick pool choosen js chooseCount = j ∧ (pool j).state = .runnable
  | [], _ => .inl rfl
  | j :: js, chooseCount => by
    rw [pick]
    split
    · rename_i hready
      split
      · exact .inr ⟨j, rfl, hready⟩
      · exact pick_cases pool choosen js _
    · exact pick_cases pool choosen js _

theorem pick_none (h : ∀ j, (pool j).state ≠ .runnable) :
    ∀ (js : List (Fin maxThreads)) (chooseCount : Int), pick pool choosen js chooseCount = maxThreads
  | [], _ => rfl
  | j :: js, chooseCount => by rw [pick, if_neg (h j), pick_none h js chooseCount]

/-! ### What `uthread_yield` does -/

theorem suspend_state_of_ne (hj : j ≠ c) :
    (suspend pool c regs j).state = (pool j).state := by
  simp [suspend, hj]

theorem suspend_self_state (pool : Pool) (c : Fin maxThreads) (regs : Regs) :
    (suspend pool c regs c).state = if (pool c).state = .running then .runnable else (pool c).state := by
  simp [suspend]

theorem suspend_ntickets (c : Fin maxThreads) (regs : Regs) (j : Fin maxThreads) :
    (suspend pool c regs j).ntickets = (pool j).ntickets := by
  by_cases hj : j = c
  · subst hj
    simp [suspend]
  · simp [suspend, hj]

theorem suspend_not_running (h : ∀ j, j ≠ c → (pool j).state ≠ .running)
    (regs : Regs) (j : Fin maxThreads) : (suspend pool c regs j).state ≠ .running := by
  by_cases hj : j = c
  · subst hj
    rw [suspend_self_state]
    split
    · simp
    · assumption
  · rw [suspend_state_of_ne hj]
    exact h j hj

/-- The invariant: the current slot is in the pool and is the only running one. -/
structure OneRunning (t : Threads) : Prop where
  index : t.cUthreadIndex < maxThreads
  running : ∀ j : Fin maxThreads, (t.pool j).state = .running ↔ j.val = t.cUthreadIndex

/-- The invariant with what the lottery relies on: every slot has its five tickets. -/
structure Inv (t : Threads) : Prop where
  one : OneRunning t
  tickets : ∀ j, (t.pool j).ntickets = nticket

theorem Inv.of_eq (h : Inv t) (hp : u.pool = t.pool) (hc : u.cUthreadIndex = t.cUthreadIndex) :
    Inv u where
  one := ⟨by rw [hc]; exact h.one.index, by rw [hp, hc]; exact h.one.running⟩
  tickets := by rw [hp]; exact h.tickets

theorem Inv.not_running (h : Inv t) (hc : c.val = t.cUthreadIndex) (hj : j ≠ c) :
    (t.pool j).state ≠ .running := fun hs =>
  hj (Fin.ext (((h.one.running j).mp hs).trans hc.symm))

theorem switchTo_inv (hn : ∀ j, (t.pool j).ntickets = nticket) (hr : ∀ j, (t.pool j).state ≠ .running)
    (j : Fin maxThreads) : Inv (switchTo t j) := by
  rw [switchTo, dif_pos j.isLt]
  refine ⟨⟨j.isLt, fun i => ?_⟩, fun i => ?_⟩ <;> by_cases hi : i = j
  · subst hi
    simp
  · have : i.val ≠ j.val := fun h => hi (Fin.ext h)
    simp [hi, hr i, this]
  · subst hi
    simpa using hn i
  · simpa [hi] using hn i

/-- `uthread_yield` restores the invariant when some slot is ready after the current one is suspended. -/
theorem uthreadYield_inv (hn : ∀ j, (t.pool j).ntickets = nticket)
    (hr : ∀ j, j ≠ c → (t.pool j).state ≠ .running)
    (hi : (suspend t.pool c regs i).state = .runnable) : Inv (uthreadYield t c regs) := by
  have hn' : ∀ j, (suspend t.pool c regs j).ntickets = nticket := fun j => (suspend_ntickets c regs j).trans (hn j)
  have hr' := suspend_not_running hr regs
  have hpos : 1 ≤ readyCount (suspend t.pool c regs) (List.finRange maxThreads) :=
    List.countP_pos_iff.mpr ⟨i, List.mem_finRange i, by simpa using hi⟩
  obtain ⟨h0, hk⟩ := draw_range (rand t.randstate) hpos (readyCount_le _)
  rw [← ticketNum_eq hn' hr'] at h0 hk
  have hle : draw (rand t.randstate) (ticketNum (suspend t.pool c regs)) ≤
      -1 + readyCount (suspend t.pool c regs) (List.finRange maxThreads) := by omega
  obtain ⟨j, hpick, -⟩ := pick_ready (List.finRange maxThreads) (-1) (by omega) hle
  rw [uthreadYield, hpick]
  exact switchTo_inv hn' hr' j

theorem uthreadYield_lost
    (h : ∀ i, (suspend t.pool c regs i).state ≠ .runnable) : (uthreadYield t c regs).cUthreadIndex = maxThreads := by
  rw [uthreadYield, pick_none h]
  rfl

/-! ### The operations -/

theorem uthreadInit_inv (t : Threads) (signal : Word) : Inv (uthreadInit t signal).2 := by
  have hpool : ∀ t' : Threads, t'.cUthreadIndex = 0 → t'.pool = (uthreadInit t signal).2.pool → Inv t' := by
    intro t' hc hp
    refine ⟨⟨by rw [hc]; decide, fun j => ?_⟩, fun j => ?_⟩ <;> rw [hp] <;> by_cases hj : j = 0
    all_goals simp only [uthreadInit]; split <;> simp [hj, hc, Fin.val_eq_zero_iff]
  refine hpool _ ?_ rfl
  simp only [uthreadInit]
  split <;> rfl

theorem freeSlot_state (h : freeSlot pool = some i) : (pool i).state = .free := by
  simpa using List.find?_some h

theorem uthreadCreate_inv (h : Inv t) (func arg block : Word) :
    Inv (uthreadCreate t func arg block).2 := by
  unfold uthreadCreate
  split
  · exact h.of_eq rfl rfl
  · rename_i i hi
    have hfree := freeSlot_state hi
    -- The slot that `uthread_create` takes is free, so it is not the current one.
    have hne : i.val ≠ t.cUthreadIndex := fun hc => by
      have := (h.one.running i).mpr hc
      rw [hfree] at this
      cases this
    refine ⟨⟨h.one.index, fun j => ?_⟩, fun j => ?_⟩ <;> by_cases hj : j = i
    · subst hj
      simp [hne]
    · simpa [hj] using h.one.running j
    · subst hj
      simpa using h.tickets j
    · simpa [hj] using h.tickets j

theorem yield_inv (h : Inv t) (hc : c.val = t.cUthreadIndex) (regs : Regs) :
    Inv (uthreadYield t c regs) := by
  refine uthreadYield_inv h.tickets (fun j hj => h.not_running hc hj) (i := c) ?_
  rw [suspend_self_state, if_pos ((h.one.running c).mpr hc)]

theorem wakeAll_ntickets (pool : Pool) (j : Fin maxThreads) : (wakeAll pool j).ntickets = (pool j).ntickets := by
  unfold wakeAll
  split <;> rfl

theorem wakeAll_state (pool : Pool) (j : Fin maxThreads) :
    (wakeAll pool j).state = if (pool j).state = .sleep then .runnable else (pool j).state := by
  unfold wakeAll
  split <;> simp_all

/-- After the wake-up in `uthread_exit` a slot that is not free is ready, so the lottery has a ticket. -/
theorem uthreadExit_inv (h : Inv t) (hc : c.val = t.cUthreadIndex)
    (hu : uthreadExit t c regs = some u) : Inv u := by
  simp only [uthreadExit] at hu
  split at hu
  · rename_i hex
    obtain ⟨i, hi⟩ := hex
    cases hu
    have hic : i ≠ c := fun hic => by
      subst hic
      simp [wakeAll_state] at hi
    have hstate : ∀ j, j ≠ c →
      (wakeAll (Function.update t.pool c { t.pool c with state := .free }) j).state ≠ .running := by
      intro j hj
      have := h.not_running hc hj
      rw [wakeAll_state]
      split <;> simp_all
    refine uthreadYield_inv (fun j => ?_) hstate (i := i) ?_
    · rw [wakeAll_ntickets]
      by_cases hj : j = c
      · subst hj
        simpa using h.tickets j
      · simpa [hj] using h.tickets j
    · have hr := hstate i hic
      rw [suspend_state_of_ne hic]
      dsimp only at hi hr ⊢
      rw [wakeAll_state] at hi hr ⊢
      cases hs : (Function.update t.pool c { t.pool c with state := .free } i).state <;> simp_all
  · cases hu

/-! ### Joins -/

theorem asleep_state (j : Fin maxThreads) :
    (suspend (Function.update t.pool c { t.pool c with state := .sleep }) c regs j).state =
      if j = c then .sleep else (t.pool j).state := by
  by_cases hj : j = c
  · subst hj
    rw [suspend_self_state]
    simp
  · rw [suspend_state_of_ne hj]
    simp [hj]

def Holds (t : Threads) (tid : Int) : Prop := ∃ i, (t.pool i).tid = tid

def OtherReady (t : Threads) : Prop := ∃ j : Fin maxThreads, j.val ≠ t.cUthreadIndex ∧ (t.pool j).state = .runnable

theorem uthredJoin_of_holds (h0 : 0 ≤ tid)
    (hlt : tid < t.nextTid) (hh : Holds t tid) :
    uthredJoin t c regs tid = (.slept, uthreadYield { t with
      pool := Function.update t.pool c { t.pool c with state := .sleep }, alarm := 0 } c regs) := by
  rw [uthredJoin, if_neg (by omega), if_pos]
  simpa [Holds] using hh

theorem uthredJoin_of_not_holds (h0 : 0 ≤ tid)
    (hlt : tid < t.nextTid) (hh : ¬Holds t tid) :
    uthredJoin t c regs tid = (.ret 0, { t with alarm := uthreadQuanta }) := by
  rw [uthredJoin, if_neg (by omega), if_neg]
  simpa [Holds] using hh

instance (t : Threads) (tid : Int) : Decidable (Holds t tid) := inferInstanceAs (Decidable (∃ _, _))
instance (t : Threads) : Decidable (OtherReady t) := inferInstanceAs (Decidable (∃ _, _))

/-- What a step needs: a join that finds its `tid` in the pool is made while another thread is ready. -/
def JoinReady (t : Threads) (a : Call) : Prop :=
  match a.op with
  | .join tid => 0 ≤ tid → tid < t.nextTid → Holds t tid → OtherReady t
  | _ => True

instance (t : Threads) : (a : Call) → Decidable (JoinReady t a)
  | ⟨.join _, _, _⟩ => inferInstanceAs (Decidable (_ → _))
  | ⟨.create .., _, _⟩ | ⟨.yield, _, _⟩ | ⟨.exit, _, _⟩ => inferInstanceAs (Decidable True)

theorem uthredJoin_inv (h : Inv t) (hc : c.val = t.cUthreadIndex)
    (hready : 0 ≤ tid → tid < t.nextTid → Holds t tid → OtherReady t) :
    Inv (uthredJoin t c regs tid).2 := by
  by_cases hg : tid ≥ t.nextTid ∨ tid < 0
  · rw [uthredJoin, if_pos hg]
    exact h
  by_cases hh : Holds t tid
  · obtain ⟨i, hi, hs⟩ := hready (by omega) (by omega) hh
    have hic : i ≠ c := fun e => hi (e ▸ hc)
    rw [uthredJoin_of_holds (by omega) (by omega) hh]
    refine uthreadYield_inv (fun j => ?_) (fun j hj => ?_) (i := i) ?_
    · by_cases hj : j = c
      · subst hj
        simpa using h.tickets j
      · simpa [hj] using h.tickets j
    · simpa [hj] using h.not_running hc hj
    · rw [asleep_state, if_neg hic]
      exact hs
  · rw [uthredJoin_of_not_holds (by omega) (by omega) hh]
    exact h.of_eq rfl rfl

theorem uthredJoin_lost (hc : c.val = t.cUthreadIndex)
    (h0 : 0 ≤ tid) (hlt : tid < t.nextTid) (hh : Holds t tid) (hready : ¬OtherReady t) :
    (uthredJoin t c regs tid).2.cUthreadIndex = maxThreads := by
  rw [uthredJoin_of_holds h0 hlt hh]
  refine uthreadYield_lost fun i hi => ?_
  rw [asleep_state] at hi
  split at hi
  · cases hi
  · rename_i hic
    exact hready ⟨i, fun e => hic (Fin.ext (e.trans hc.symm)), hi⟩

/-! ### Runs -/

theorem step_inv (h : Inv t) (hg : JoinReady t a) (hs : OfStep step t a u) : Inv u := by
  have h' : Inv { t with randstate := a.randstate } := h.of_eq rfl rfl
  rw [OfStep, step, dif_pos h.one.index] at hs
  cases hop : a.op with
  | create func arg block =>
    simp only [hop, Option.some.injEq] at hs
    exact hs ▸ uthreadCreate_inv h' func arg block
  | yield =>
    simp only [hop, Option.some.injEq] at hs
    exact hs ▸ yield_inv h' rfl a.regs
  | exit =>
    simp only [hop] at hs
    exact uthreadExit_inv h' rfl hs
  | join tid =>
    simp only [hop, Option.some.injEq] at hs
    simp only [JoinReady, hop] at hg
    exact hs ▸ uthredJoin_inv h' rfl hg

theorem step_lost (h : Inv t) (hg : ¬JoinReady t a) (hs : OfStep step t a u) :
    ¬OneRunning u := by
  unfold JoinReady at hg
  split at hg
  rotate_left
  · exact absurd trivial hg
  rename_i tid hop
  obtain ⟨h0, hlt, hh, hready⟩ : 0 ≤ tid ∧ tid < t.nextTid ∧ Holds t tid ∧ ¬OtherReady t := by
    simpa only [Classical.not_imp] using hg
  rw [OfStep, step, dif_pos h.one.index] at hs
  simp only [hop, Option.some.injEq] at hs
  have hlost : u.cUthreadIndex = maxThreads :=
    hs ▸ uthredJoin_lost (t := { t with randstate := a.randstate }) rfl h0 hlt hh hready
  intro hone
  exact Nat.lt_irrefl maxThreads (hlost ▸ hone.index)

/-- In every run from `uthread_init`, the scheduling invariant holds after every operation exactly if
    every join that finds its `tid` in the pool is made while another thread is ready. -/
theorem sched_always_iff {t₀ t : Threads} {signal : Word} {tr : List (Threads × Call)}
    (hr : Run (OfStep step) (uthreadInit t₀ signal).2 tr t) : Always OneRunning tr t ↔ Meets JoinReady tr :=
  hr.always_iff_meets (uthreadInit_inv t₀ signal) (fun _ h => h.one) step_inv step_lost

/-- The state that a fresh process leaves `uthread_init` with. -/
def booted : Threads := (uthreadInit (zeroed 1 ⟨0x3000, 0x3000⟩ fun _ => 0) 0).2

/-- Thread 0 creates thread 1, which gets the processor. -/
def createAndRun : List Call :=
  [⟨.create 0x100 0 0x4000, ⟨0x2F00, 0x2F00⟩, 1⟩, ⟨.yield, ⟨0x2F00, 0x2F00⟩, 0⟩]

/-- Thread 1 exits, and thread 0 joins it: the free slot still carries its `tid`, so the only thread
    left goes to sleep, and the current index is past the pool. -/
theorem sched_lost : ∃ tr t, Run (OfStep step) booted tr t ∧
    tr.map (·.2) = createAndRun ++ [⟨.exit, ⟨0x4F00, 0x4F00⟩, 0⟩, ⟨.join 1, ⟨0x2F00, 0x2F00⟩, 0⟩] ∧
    ¬Always OneRunning tr t := by
  obtain ⟨tr, t, hr, hl, hc⟩ := Run.exists_of_traceOf (f := step) booted
    (createAndRun ++ [⟨.exit, ⟨0x4F00, 0x4F00⟩, 0⟩, ⟨.join 1, ⟨0x2F00, 0x2F00⟩, 0⟩])
    (fun _ t => t.cUthreadIndex = maxThreads) (by decide)
  exact ⟨tr, t, hr, hl, fun h => Nat.lt_irrefl maxThreads (hc ▸ h.2.index)⟩

/-- Thread 1 joins thread 0 while that one is ready. -/
theorem sched_always_joined : ∃ tr t, Run (OfStep step) booted tr t ∧
    tr.map (·.2) = createAndRun ++ [⟨.join 0, ⟨0x4F00, 0x4F00⟩, 0⟩] ∧ Always OneRunning tr t := by
  obtain ⟨tr, t, hr, hl, hg⟩ := Run.exists_of_traceOf (f := step) booted
    (createAndRun ++ [⟨.join 0, ⟨0x4F00, 0x4F00⟩, 0⟩]) (fun tr _ => Meets JoinReady tr) (by decide)
  exact ⟨tr, t, hr, hl, (sched_always_iff hr).mpr hg⟩

end Xv6.Ult
