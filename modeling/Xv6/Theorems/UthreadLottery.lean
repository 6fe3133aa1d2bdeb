import Mathlib.Algebra.BigOperators.Fin
import Mathlib.Data.Set.Card
import Mathlib.Order.Interval.Finset.Nat
import Xv6.Theorems.UthreadSched

/-! The lottery of `uthread_yield`, ticket by ticket. The total is counted from -1, so the last ticket is never drawn, and
    the last ready slot has one ticket less than the others. -/

namespace Xv6.Ult
open Lib

def randomTicket (r : BitVec 32) (ticketNum : Int) : BitVec 32 := r % BitVec.ofInt 32 ticketNum

def winner (pool : Pool) (ticket : Nat) : Nat := pick pool ((ticket : Int).tdiv nticket) (List.finRange maxThreads) (-1)

def Draws (pool : Pool) (ticket : Nat) : Prop :=
    ∃ randstate, (randomTicket (rand randstate) (ticketNum pool)).toNat = ticket

/-- The tickets of the ready slots. -/
def total (pool : Pool) : Int :=
  ∑ j with (pool j).state ≠ .free ∧ (pool j).state ≠ .sleep, (pool j).ntickets

section
variable {pool : Pool} {choosen chooseCount : Int} {i : Fin maxThreads} {js : List (Fin maxThreads)}

/-! ### Which slot is picked -/

def rank (pool : Pool) (js : List (Fin maxThreads)) (i : Fin maxThreads) : Nat := readyCount pool (js.takeWhile (· ≠ i))

theorem pick_mem : ∀ {js : List (Fin maxThreads)} {chooseCount : Int}, pick pool choosen js chooseCount = i → i ∈ js
  | [], _, h => absurd h (Nat.ne_of_gt i.isLt)
  | j :: js, chooseCount, h => by
    rw [pick] at h
    split at h
    · split at h
      · rw [Fin.ext h]
        exact List.mem_cons_self ..
      · exact List.mem_cons_of_mem _ (pick_mem h)
    · exact List.mem_cons_of_mem _ (pick_mem h)

theorem rank_cons_self (js : List (Fin maxThreads)) : rank pool (i :: js) i = 0 := by
  simp [rank, readyCount]

theorem rank_cons_of_ne {j : Fin maxThreads} (hj : j ≠ i) :
    rank pool (j :: js) i = (if (pool j).state = .runnable then 1 else 0) + rank pool js i := by
  simp only [rank, readyCount, List.takeWhile_cons, hj, ne_eq, not_false_eq_true, decide_true, if_true, List.countP_cons,
    decide_eq_true_eq]
  omega

theorem readyCount_cons (j : Fin maxThreads) (js : List (Fin maxThreads)) :
    readyCount pool (j :: js) = (if (pool j).state = .runnable then 1 else 0) + readyCount pool js := by
  simp only [readyCount, List.countP_cons, decide_eq_true_eq]
  omega

theorem pick_eq_iff (hi : (pool i).state = .runnable) (hmem : i ∈ js) (hnd : js.Nodup) :
    pick pool choosen js chooseCount = i ↔ choosen = chooseCount + 1 + rank pool js i := by
  induction js generalizing chooseCount with
  | nil => cases hmem
  | cons j js ih =>
    obtain ⟨hnot, hnd⟩ := List.nodup_cons.mp hnd
    by_cases hj : j = i
    · subst hj
      rw [rank_cons_self, pick, if_pos hi]
      split
      · rename_i heq
        simp [heq]
      · rename_i hne
        exact iff_of_false (fun h => hnot (pick_mem h)) fun h => hne (by simpa using h)
    · have hmem := (List.mem_cons.mp hmem).resolve_left fun h => hj h.symm
      rw [rank_cons_of_ne hj, pick]
      split
      · rename_i hready
        split
        · rename_i heq
          refine iff_of_false (fun h => hj (Fin.ext h)) fun h => ?_
          push_cast at h
          omega
        · rw [ih hmem hnd]
          push_cast
          constructor <;> intro h <;> omega
      · rw [ih hmem hnd]
        simp

theorem rank_lt_iff (hi : (pool i).state = .runnable) (hmem : i ∈ js) (hsorted : js.Pairwise (· < ·)) :
    rank pool js i + 1 < readyCount pool js ↔ ∃ j ∈ js, i < j ∧ (pool j).state = .runnable := by
  induction js with
  | nil => cases hmem
  | cons j js ih =>
    obtain ⟨hlt, hsorted⟩ := List.pairwise_cons.mp hsorted
    rw [readyCount_cons]
    by_cases hj : j = i
    · subst hj
      have hpos : 0 < readyCount pool js ↔ ∃ a ∈ js, (pool a).state = .runnable := by simp [readyCount, List.countP_pos_iff]
      rw [rank_cons_self, if_pos hi, Nat.add_comm 0, Nat.add_lt_add_iff_left, hpos]
      constructor
      · rintro ⟨a, ha, hready⟩
        exact ⟨a, List.mem_cons_of_mem _ ha, hlt a ha, hready⟩
      · rintro ⟨a, ha, hja, hready⟩
        exact ⟨a, (List.mem_cons.mp ha).resolve_left (Fin.ne_of_gt hja), hready⟩
    · have hrest := (List.mem_cons.mp hmem).resolve_left fun h => hj h.symm
      rw [rank_cons_of_ne hj, Nat.add_assoc, Nat.add_lt_add_iff_left, ih hrest hsorted]
      constructor
      · rintro ⟨a, ha, h⟩
        exact ⟨a, List.mem_cons_of_mem _ ha, h⟩
      · rintro ⟨a, ha, hia, hready⟩
        refine ⟨a, (List.mem_cons.mp ha).resolve_left ?_, hia, hready⟩
        rintro rfl
        exact Fin.lt_asymm hia (hlt i hrest)

theorem rank_lt (hi : (pool i).state = .runnable) (hmem : i ∈ js) : rank pool js i < readyCount pool js := by
  induction js with
  | nil => cases hmem
  | cons j js ih =>
    rw [readyCount_cons]
    by_cases hj : j = i
    · subst hj
      rw [rank_cons_self, if_pos hi]
      omega
    · rw [rank_cons_of_ne hj]
      have := ih ((List.mem_cons.mp hmem).resolve_left fun h => hj h.symm)
      omega

/-! ### Which tickets are drawn -/

theorem rand_surjective (r : BitVec 32) : ∃ randstate, rand randstate = r := by
  -- The multiplier is odd, so it has an inverse.
  have hinv : (0xFEE058C5 : BitVec 32) * 1664525 = 1#32 := by decide
  refine ⟨(r - 1013904223) * 0xFEE058C5, ?_⟩
  rw [rand, BitVec.mul_assoc, hinv, BitVec.mul_one, BitVec.sub_add_cancel]

theorem total_eq (hn : ∀ j, (pool j).ntickets = nticket) (hr : ∀ j, (pool j).state ≠ .running) :
    total pool = nticket * readyCount pool (List.finRange maxThreads) := by
  have hready (j : Fin maxThreads) : (pool j).state ≠ .free ∧ (pool j).state ≠ .sleep ↔ (pool j).state = .runnable := by
    have := hr j
    cases hs : (pool j).state <;> simp_all
  simp only [total, hn, hready, Finset.sum_const, nsmul_eq_mul, readyCount]
  rw [Finset.card_filter, Fin.sum_univ_def, mul_comm]
  congr 2
  induction List.finRange maxThreads with
  | nil => rfl
  | cons j js ih =>
    rw [List.map_cons, List.sum_cons, ih, List.countP_cons, Nat.add_comm]
    simp

theorem randomTicket_toNat (r : BitVec 32) {k : Nat} (h1 : 1 ≤ k) (h7 : k ≤ maxThreads) :
    (randomTicket r (nticket * k - 1)).toNat = r.toNat % (5 * k - 1) := by
  simp only [maxThreads, nticket] at h7 ⊢
  have htotal : BitVec.ofInt 32 (5 * k - 1) = BitVec.ofNat 32 (5 * k - 1) := by
    have : (5 * (k : Int) - 1) = ((5 * k - 1 : Nat) : Int) := by omega
    rw [this, BitVec.ofInt_natCast]
  rw [randomTicket, htotal, BitVec.toNat_umod, BitVec.toNat_ofNat, Nat.mod_eq_of_lt (a := 5 * k - 1) (by omega)]

theorem draws_iff (hn : ∀ j, (pool j).ntickets = nticket) (hr : ∀ j, (pool j).state ≠ .running)
    (hready : 1 ≤ readyCount pool (List.finRange maxThreads)) (k : Nat) :
    Draws pool k ↔ k + 1 < 5 * readyCount pool (List.finRange maxThreads) := by
  have h7 : readyCount pool (List.finRange maxThreads) ≤ 7 := readyCount_le pool
  have hticket (randstate : BitVec 32) := randomTicket_toNat (rand randstate) hready h7
  rw [← ticketNum_eq hn hr] at hticket
  unfold Draws
  constructor
  · rintro ⟨randstate, rfl⟩
    have hlt := Nat.mod_lt (rand randstate).toNat (y := 5 * readyCount pool (List.finRange maxThreads) - 1) (by omega)
    rw [hticket]
    omega
  · intro hk
    obtain ⟨randstate, hrand⟩ := rand_surjective (BitVec.ofNat 32 k)
    refine ⟨randstate, ?_⟩
    rw [hticket, hrand, BitVec.toNat_ofNat, Nat.mod_eq_of_lt (a := k) (by omega), Nat.mod_eq_of_lt (by omega)]

theorem winner_eq_iff (hi : (pool i).state = .runnable) (k : Nat) :
    winner pool k = i ↔ k / 5 = rank pool (List.finRange maxThreads) i := by
  rw [winner, pick_eq_iff hi (List.mem_finRange i) (List.nodup_finRange _), Int.tdiv_eq_ediv_of_nonneg (by omega)]
  simp only [nticket]
  omega

theorem uthreadYield_winner {t : Threads} {c : Fin maxThreads} {regs : Regs} (hn : ∀ j, (t.pool j).ntickets = nticket)
    (hr : ∀ j, (suspend t.pool c regs j).state ≠ .running)
    (hready : 1 ≤ readyCount (suspend t.pool c regs) (List.finRange maxThreads)) :
    (uthreadYield t c regs).cUthreadIndex = winner (suspend t.pool c regs)
      (randomTicket (rand t.randstate) (ticketNum (suspend t.pool c regs))).toNat := by
  have hn' (j : Fin maxThreads) : (suspend t.pool c regs j).ntickets = nticket := (suspend_ntickets c regs j).trans (hn j)
  have h7 : readyCount (suspend t.pool c regs) (List.finRange maxThreads) ≤ 7 := readyCount_le _
  have hticket := randomTicket_toNat (rand t.randstate) hready h7
  rw [← ticketNum_eq hn' hr] at hticket
  have hlt : (randomTicket (rand t.randstate) (ticketNum (suspend t.pool c regs))).toNat < 35 := by
    rw [hticket]
    have := Nat.mod_lt (rand t.randstate).toNat (y := 5 * readyCount (suspend t.pool c regs) (List.finRange maxThreads) - 1)
      (by omega)
    omega
  have hint : (randomTicket (rand t.randstate) (ticketNum (suspend t.pool c regs))).toInt =
      (randomTicket (rand t.randstate) (ticketNum (suspend t.pool c regs))).toNat := BitVec.toInt_eq_toNat_of_lt (by omega)
  rw [winner, ← hint]
  unfold uthreadYield switchTo
  dsimp only
  split <;> rfl

end

/-- Every slot has its tickets, no slot runs any more, and one of them is ready. -/
structure Waiting (pool : Pool) : Prop where
  tickets : ∀ j, (pool j).ntickets = nticket
  stopped : ∀ j, (pool j).state ≠ .running
  ready : ∃ j, (pool j).state = .runnable

theorem Waiting.pos {pool : Pool} (h : Waiting pool) : 1 ≤ readyCount pool (List.finRange maxThreads) := by
  obtain ⟨j, hj⟩ := h.ready
  exact List.countP_pos_iff.mpr ⟨j, List.mem_finRange j, by simpa using hj⟩

theorem Waiting.draws {pool : Pool} (h : Waiting pool) (k : Nat) : Draws pool k ↔ (k : Int) + 1 < total pool := by
  rw [draws_iff h.tickets h.stopped h.pos, total_eq h.tickets h.stopped]
  simp only [nticket]
  omega

/-- The winning tickets of a slot follow one another; for the last ready slot they end before the last ticket. -/
theorem Waiting.wins {pool : Pool} (h : Waiting pool) {i : Fin maxThreads} (hi : (pool i).state = .runnable) :
    ({k | Draws pool k ∧ winner pool k = i}.ncard : Int) =
      if ∃ j, i < j ∧ (pool j).state = .runnable then (pool i).ntickets else (pool i).ntickets - 1 := by
  have hrank := rank_lt hi (List.mem_finRange i)
  have hlast := rank_lt_iff hi (List.mem_finRange i) (List.pairwise_lt_finRange _)
  simp only [List.mem_finRange, true_and] at hlast
  have hset : {k | Draws pool k ∧ winner pool k = i} =
      ((Finset.Ico (5 * rank pool (List.finRange maxThreads) i)
        (min (5 * rank pool (List.finRange maxThreads) i + 5) (5 * readyCount pool (List.finRange maxThreads) - 1)) :
          Finset Nat) :
          Set Nat) := by
    ext k
    simp only [Set.mem_ofPred_eq, draws_iff h.tickets h.stopped h.pos, winner_eq_iff hi, Finset.coe_Ico, Set.mem_Ico]
    omega
  rw [hset, Set.ncard_coe_finset, Nat.card_Ico, h.tickets]
  simp only [nticket]
  split
  · rename_i hex
    have := hlast.mpr hex
    omega
  · rename_i hex
    have := mt hlast.mp hex
    omega

/-- Every ticket but the last can be drawn, and every ready slot wins with as many of them as it has tickets, but the
    last one with one less. -/
theorem lottery_tickets {pool : Pool} (h : Waiting pool) :
    (∀ k : Nat, Draws pool k ↔ (k : Int) + 1 < total pool) ∧
    (∀ i, (pool i).state = .runnable → ({k | Draws pool k ∧ winner pool k = i}.ncard : Int) =
      if ∃ j, i < j ∧ (pool j).state = .runnable then (pool i).ntickets else (pool i).ntickets - 1) ∧
    ∀ (t : Threads) (c : Fin maxThreads) (regs : Regs), suspend t.pool c regs = pool →
      Draws pool (randomTicket (rand t.randstate) (ticketNum pool)).toNat ∧
      (uthreadYield t c regs).cUthreadIndex = winner pool (randomTicket (rand t.randstate) (ticketNum pool)).toNat := by
  refine ⟨h.draws, fun i hi => h.wins hi, fun t c regs hpool => ⟨⟨t.randstate, rfl⟩, ?_⟩⟩
  subst hpool
  exact uthreadYield_winner (fun j => (suspend_ntickets c regs j).symm.trans (h.tickets j)) h.stopped h.pos

def twoReady : Pool := fun i => { state := if i.val < 2 then .runnable else .free, ntickets := nticket }

theorem waiting_twoReady : Waiting twoReady := ⟨by decide, by decide, 0, by decide⟩

/-- Of the ten tickets of two threads the last is never drawn, and the second thread wins with four. -/
theorem last_ticket_lost : total twoReady = 10 ∧ ¬Draws twoReady 9 ∧ (twoReady 1).ntickets = 5 ∧
    {k | Draws twoReady k ∧ winner twoReady k = (1 : Fin maxThreads)}.ncard = 4 := by
  have htotal : total twoReady = 10 := by decide
  have hwins := waiting_twoReady.wins (i := 1) (by decide)
  rw [if_neg (by decide), show (twoReady 1).ntickets - 1 = 4 by decide] at hwins
  refine ⟨htotal, ?_, by decide, by exact_mod_cast hwins⟩
  rw [waiting_twoReady.draws, htotal]
  decide

/-- The first of two threads wins with all its tickets. -/
theorem lottery_tickets_first : Waiting twoReady ∧ Draws twoReady 8 ∧
    ({k | Draws twoReady k ∧ winner twoReady k = (0 : Fin maxThreads)}.ncard : Int) = (twoReady 0).ntickets := by
  obtain ⟨hdraws, hwins, -⟩ := lottery_tickets waiting_twoReady
  refine ⟨waiting_twoReady, (hdraws 8).mpr (by decide), ?_⟩
  rw [hwins 0 (by decide), if_pos (by decide)]

/-! ### A thread that exits -/

section Exit
variable {t u : Threads} {c j : Fin maxThreads} {regs : Regs}

theorem exited_state (h : Inv t) (hc : c.val = t.cUthreadIndex) (i : Fin maxThreads) :
    (wakeAll (Function.update t.pool c { t.pool c with state := .free }) i).state =
      if i = c ∨ (t.pool i).state = .free then .free else .runnable := by
  rw [wakeAll_state]
  by_cases hi : i = c
  · subst hi
    simp
  · have := h.not_running hc hi
    rw [Function.update_of_ne hi]
    cases hs : (t.pool i).state <;> simp_all

theorem uthreadYield_state (t : Threads) (c : Fin maxThreads) (regs : Regs) (i : Fin maxThreads) :
    ((uthreadYield t c regs).pool i).state =
      if i.val = (uthreadYield t c regs).cUthreadIndex then .running else (suspend t.pool c regs i).state := by
  unfold uthreadYield switchTo
  dsimp only
  split
  · rename_i hlt
    dsimp only
    by_cases hi : i = ⟨_, hlt⟩
    · rw [hi, if_pos rfl, Function.update_self]
    · rw [if_neg fun h => hi (Fin.ext h), Function.update_of_ne hi]
  · rename_i hlt
    refine (if_neg fun heq => hlt ?_).symm
    rw [← show i.val = pick _ _ _ _ from heq]
    exact i.isLt

theorem uthreadYield_ready (t : Threads) (c : Fin maxThreads) (regs : Regs) :
    (uthreadYield t c regs).cUthreadIndex = maxThreads ∨
      ∃ j : Fin maxThreads, (uthreadYield t c regs).cUthreadIndex = j ∧ (suspend t.pool c regs j).state = .runnable := by
  have hindex : (uthreadYield t c regs).cUthreadIndex = pick (suspend t.pool c regs)
      (draw (rand t.randstate) (ticketNum (suspend t.pool c regs))) (List.finRange maxThreads) (-1) := by
    unfold uthreadYield switchTo
    dsimp only
    split <;> rfl
  rw [hindex]
  exact pick_cases ..

def Away (c : Fin maxThreads) (t : Threads) : Prop := (t.pool c).state = .free ∧ t.cUthreadIndex ≠ c

/-- The step gives the slot to a new thread. -/
def Takes (c : Fin maxThreads) (t : Threads) (a : Call) : Prop :=
  (∃ func arg block, a.op = .create func arg block) ∧ freeSlot t.pool = some c

theorem away_yield {d : Fin maxThreads} (h : (suspend t.pool d regs c).state = .free) : Away c (uthreadYield t d regs) := by
  have hne : (uthreadYield t d regs).cUthreadIndex ≠ c := by
    intro hc
    rcases uthreadYield_ready t d regs with hlost | ⟨j, hj, hready⟩
    · exact Nat.ne_of_lt c.isLt (hc.symm.trans hlost)
    · obtain rfl : j = c := Fin.ext (hj.symm.trans hc)
      rw [h] at hready
      cases hready
  refine ⟨?_, hne⟩
  rw [uthreadYield_state, if_neg hne.symm]
  exact h

theorem away_exit {d : Fin maxThreads} (h : (t.pool c).state = .free ∨ d = c) (hu : uthreadExit t d regs = some u) :
    Away c u := by
  unfold uthreadExit at hu
  dsimp only at hu
  split at hu
  · cases hu
    refine away_yield ?_
    dsimp only
    by_cases hd : c = d
    · subst hd
      simp [suspend_self_state, wakeAll_state]
    · rw [suspend_state_of_ne hd, wakeAll_state, Function.update_of_ne hd, h.resolve_right fun h => hd h.symm]
      rfl
  · cases hu

theorem Away.step {a : Call} (h : Away c t) (hnot : ¬Takes c t a) (hs : step t a = some u) : Away c u := by
  obtain ⟨hfree, hidx⟩ := h
  unfold Ult.step at hs
  split at hs
  · rename_i hlt
    have hne : c ≠ ⟨t.cUthreadIndex, hlt⟩ := fun hc => hidx (congrArg Fin.val hc).symm
    dsimp only at hs
    split at hs
    · rename_i func arg block hop
      obtain rfl := Option.some.inj hs
      unfold uthreadCreate
      split
      · exact ⟨hfree, hidx⟩
      · rename_i i hi
        have hic : c ≠ i := fun hic => hnot ⟨⟨func, arg, block, hop⟩, hic ▸ hi⟩
        refine ⟨?_, hidx⟩
        dsimp only
        rw [Function.update_of_ne hic]
        exact hfree
    · obtain rfl := Option.some.inj hs
      refine away_yield ?_
      rw [suspend_state_of_ne hne]
      exact hfree
    · exact away_exit (t := { t with randstate := a.randstate }) (.inl hfree) hs
    · obtain rfl := Option.some.inj hs
      unfold uthredJoin
      split
      · exact ⟨hfree, hidx⟩
      · split
        · refine away_yield ?_
          rw [suspend_state_of_ne hne]
          dsimp only
          rw [Function.update_of_ne hne]
          exact hfree
        · exact ⟨hfree, hidx⟩
  · cases hs

/-- A thread that has exited does not run again: its slot becomes current only after another thread has got it. -/
theorem Away.run {tr : List (Threads × Call)} (h : Away c t) (hr : Run (OfStep Ult.step) t tr u) :
    Away c u ∨ ∃ x ∈ tr, Takes c x.1 x.2 := by
  induction hr with
  | nil => exact .inl h
  | snoc hr hs ih =>
    rename_i tr v w a
    rcases ih with ih | ⟨x, hx, htakes⟩
    · by_cases htakes : Takes c v a
      · exact .inr ⟨(v, a), List.mem_append_right _ (List.mem_singleton.mpr rfl), htakes⟩
      · exact .inl (ih.step htakes hs)
    · exact .inr ⟨x, List.mem_append_left _ hx, htakes⟩

end Exit

/-- `uthread_exit` ends the process if no other slot is in use. Otherwise it frees its slot, wakes the sleepers up and
    switches to another slot that is ready, and no later step switches to its slot before a new thread has it. -/
theorem exit_hands_over {t : Threads} {c : Fin maxThreads} (h : Inv t) (hc : c.val = t.cUthreadIndex) (regs : Regs) :
    (uthreadExit t c regs = none ↔ ∀ i, i ≠ c → (t.pool i).state = .free) ∧
    ∀ u, uthreadExit t c regs = some u →
      (∃ j, j ≠ c ∧ u.cUthreadIndex = j ∧ (t.pool j).state ≠ .free ∧
        ∀ i, (u.pool i).state =
          if i = j then .running else if i = c ∨ (t.pool i).state = .free then .free else .runnable) ∧
      ∀ tr v, Run (OfStep step) u tr v → v.cUthreadIndex = c → ∃ x ∈ tr, Takes c x.1 x.2 := by
  have hstate := exited_state h hc
  refine ⟨?_, fun u hu => ⟨?_, fun tr v hr hv => ?_⟩⟩
  · unfold uthreadExit
    dsimp only
    constructor
    · intro hnone i hi
      split at hnone
      · cases hnone
      · rename_i hall
        by_contra hne
        refine hall ⟨i, ?_⟩
        rw [hstate, if_neg (by simp [hi, hne])]
        simp
    · intro hall
      refine if_neg ?_
      rintro ⟨i, hi⟩
      refine hi ?_
      rw [hstate, if_pos]
      by_cases hic : i = c
      · exact .inl hic
      · exact .inr (hall i hic)
  · have hI := uthreadExit_inv h hc hu
    have haway : Away c u := away_exit (.inr rfl) hu
    refine ⟨⟨u.cUthreadIndex, hI.one.index⟩, fun heq => haway.2 (congrArg Fin.val heq), rfl, ?_⟩
    unfold uthreadExit at hu
    dsimp only at hu
    split at hu
    · cases hu
      have hsus (i : Fin maxThreads) :
        (suspend (wakeAll (Function.update t.pool c { t.pool c with state := .free })) c regs i).state =
          if i = c ∨ (t.pool i).state = .free then .free else .runnable := by
        by_cases hi : i = c
        · subst hi
          rw [suspend_self_state, hstate]
          simp
        · rw [suspend_state_of_ne hi, hstate]
      refine ⟨fun hfree => ?_, fun i => ?_⟩
      · rcases uthreadYield_ready _ c regs with hlost | ⟨j, hj, hready⟩
        · exact Nat.ne_of_lt hI.one.index hlost
        · rw [hsus, if_pos] at hready
          · cases hready
          · refine .inr ?_
            convert hfree
            exact hj.symm
      · rw [uthreadYield_state, hsus]
        simp only [Fin.ext_iff]
    · cases hu
  · rcases (away_exit (.inr rfl) hu : Away c u).run hr with haway | htakes
    · exact absurd hv haway.2
    · exact htakes

/-- Thread 0 has created thread 1 and exits. -/
theorem exit_hands_over_created : ∃ u, uthreadExit (uthreadCreate booted 0x100 0 0x4000).2 0 ⟨0x2F00, 0x2F00⟩ = some u ∧
    u.cUthreadIndex = 1 ∧ (u.pool 0).state = .free ∧
    ∀ tr v, Run (OfStep step) u tr v → v.cUthreadIndex = (0 : Fin maxThreads) → ∃ x ∈ tr, Takes 0 x.1 x.2 := by
  have hI : Inv (uthreadCreate booted 0x100 0 0x4000).2 := uthreadCreate_inv (uthreadInit_inv _ _) ..
  obtain ⟨hnone, hsome⟩ := exit_hands_over (c := 0) hI (by decide) ⟨0x2F00, 0x2F00⟩
  cases hu : uthreadExit (uthreadCreate booted 0x100 0 0x4000).2 0 ⟨0x2F00, 0x2F00⟩ with
  | none => exact absurd (hnone.mp hu 1 (by decide)) (by decide)
  | some u =>
    obtain ⟨⟨j, hj, hidx, hused, hstate⟩, hrun⟩ := hsome u hu
    have hone : ∀ j, j ≠ 0 → ((uthreadCreate booted 0x100 0 0x4000).2.pool j).state ≠ .free → j = 1 := by decide
    obtain rfl := hone j hj hused
    refine ⟨u, rfl, hidx, ?_, hrun⟩
    rw [hstate, if_neg (by decide), if_pos (.inl rfl)]

end Xv6.Ult
