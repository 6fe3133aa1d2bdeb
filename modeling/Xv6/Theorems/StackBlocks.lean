import Xv6.Stacks
import Xv6.Theorems.UmallocRuns
import Xv6.Theorems.UthreadSched

/-! Who has which stack. A thread in the pool has a block of its own that is in use, from `uthread_create` until
    `uthread_exit` gives it to `free`; from there until it switches away, the thread that exits runs on a free block. -/

namespace Xv6.Stacks
open Lib Ult

/-! ### What the operations do to a slot -/

/-- The slots keep their stacks, and a free slot stays free. -/
def Follows (pool pool' : Pool) : Prop :=
  ∀ i, (pool' i).stack = (pool i).stack ∧ ((pool' i).state ≠ .free → (pool i).state ≠ .free)

theorem Follows.trans {p q r : Pool} (h : Follows p q) (h' : Follows q r) : Follows p r := fun i =>
  ⟨(h' i).1.trans (h i).1, fun hr => (h i).2 ((h' i).2 hr)⟩

theorem follows_update {pool : Pool} {c : Fin maxThreads} {u : Uthread} (hstack : u.stack = (pool c).stack)
    (hstate : u.state ≠ .free → (pool c).state ≠ .free) : Follows pool (Function.update pool c u) := by
  intro i
  by_cases hi : i = c
  · subst hi
    rw [Function.update_self]
    exact ⟨hstack, hstate⟩
  · rw [Function.update_of_ne hi]
    exact ⟨rfl, id⟩

theorem follows_suspend (pool : Pool) (c : Fin maxThreads) (regs : Regs) : Follows pool (suspend pool c regs) := by
  refine follows_update rfl fun hstate hfree => hstate ?_
  simp [hfree]

theorem follows_wakeAll (pool : Pool) : Follows pool (wakeAll pool) := by
  intro i
  unfold wakeAll
  split
  · rename_i hsleep
    exact ⟨rfl, fun _ => by simp [hsleep]⟩
  · exact ⟨rfl, id⟩

theorem follows_yield (t : Threads) (c : Fin maxThreads) (regs : Regs) : Follows t.pool (uthreadYield t c regs).pool ∧
    ∀ j : Fin maxThreads, j.val = (uthreadYield t c regs).cUthreadIndex →
        ((uthreadYield t c regs).pool j).state ≠ .free := by
  unfold uthreadYield
  rcases pick_cases (suspend t.pool c regs) (draw (rand t.randstate) (ticketNum (suspend t.pool c regs)))
    (List.finRange maxThreads) (-1) with hpast | ⟨j, hj, hready⟩
  · dsimp only
    rw [hpast, switchTo, dif_neg (Nat.lt_irrefl _)]
    exact ⟨follows_suspend t.pool c regs, fun j hj => absurd hj (Nat.ne_of_lt j.isLt)⟩
  · dsimp only
    rw [hj, switchTo, dif_pos j.isLt]
    refine ⟨(follows_suspend t.pool c regs).trans (follows_update rfl fun _ => by simp [hready]), fun i hi => ?_⟩
    obtain rfl := Fin.ext hi
    simp

/-! ### The invariant -/

namespace State

/-- The thread in slot `i` is inside `uthread_exit`, past the call of `free`. -/
def Past (s : State) (i : Fin maxThreads) : Prop :=
  i.val = s.threads.cUthreadIndex ∧ s.exiting ≠ none ∧ s.exiting ≠ some .called

/-- The current thread has freed the stack that it executes on. -/
def Released (s : State) : Prop := ∃ c, s.Past c ∧ (s.threads.pool c).stack ≠ 0

/-- Every thread with a stack has a block of its own that is in use and not in the free list. -/
structure Owned (base : Nat) (s : State) : Prop where
  live : ∀ i, s.Holds i → s.stack i ∈ s.heap.live.map Prod.fst
  clear : ∀ i, s.Holds i → ∃ fs, s.heap.WellFormed base fs ∧ ∀ f ∈ fs, (s.heap.heap.block (s.stack i)).Apart f
  apart : ∀ i j, i ≠ j → s.Holds i → s.Holds j → (s.heap.heap.block (s.stack i)).Apart (s.heap.heap.block (s.stack j))

def Keeps (s : State) (i : Fin maxThreads) : Prop := s.Holds i ∧ ¬s.Past i

structure Inv (base : Nat) (s : State) : Prop where
  reached : s.heap.Reached base
  brk : s.heap.heap.brk < kernbase
  current : ∀ c : Fin maxThreads, c.val = s.threads.cUthreadIndex → ¬s.Past c → (s.threads.pool c).state ≠ .free
  live : ∀ i, s.Keeps i → s.stack i ∈ s.heap.live.map Prod.fst
  distinct : ∀ i j, i ≠ j → s.Keeps i → s.Keeps j → s.stack i ≠ s.stack j
  gone : ∀ c, s.Past c → (s.threads.pool c).stack ≠ 0 → s.stack c ∉ s.heap.live.map Prod.fst
  slot : s.exiting = some .released ∨ s.exiting = some .woken →
    ∀ c : Fin maxThreads, c.val = s.threads.cUthreadIndex → (s.threads.pool c).state = .free

section
variable {base : Nat} {s s' : State} {c : Fin maxThreads} {regs : Regs} {heap : Umalloc.State} {t : Threads} {stage : Stage}
  {i : Fin maxThreads} {a : Call}

theorem Inv.owned_iff (hI : Inv base s) : s.Owned base ↔ ¬s.Released := by
  constructor
  · rintro hO ⟨c, hpast, hstack⟩
    exact hI.gone c hpast hstack (hO.live c ⟨hstack, .inr hpast.1⟩)
  · intro hR
    have hkeeps (i : Fin maxThreads) (hi : s.Holds i) : s.Keeps i := ⟨hi, fun hpast => hR ⟨i, hpast, hi.1⟩⟩
    have hheap (i : Fin maxThreads) (hi : s.Holds i) : ∃ fs, Umalloc.State.Inv base s.heap fs := by
      obtain ⟨-, ⟨-, hnil, -⟩ | hI'⟩ := hI.reached
      · have := hI.live i (hkeeps i hi)
        simp [hnil] at this
      · exact hI'
    refine ⟨fun i hi => hI.live i (hkeeps i hi), fun i hi => ?_, fun i j hij hi hj => ?_⟩
    · obtain ⟨fs, hI'⟩ := hheap i hi
      obtain ⟨a, ha, heq⟩ := List.mem_map.mp (hI.live i (hkeeps i hi))
      refine ⟨fs, hI'.wellFormed, fun f hf => hI'.sound.clear _ (List.mem_map.mpr ⟨a, ha, ?_⟩) f hf⟩
      rw [heq]
    · obtain ⟨fs, hI'⟩ := hheap i hi
      obtain ⟨a, ha, heq⟩ := List.mem_map.mp (hI.live i (hkeeps i hi))
      obtain ⟨b, hb, heq'⟩ := List.mem_map.mp (hI.live j (hkeeps j hj))
      rw [← heq, ← heq']
      refine hI'.apart ha hb fun hab => hI.distinct i j hij (hkeeps i hi) (hkeeps j hj) ?_
      rw [← heq, ← heq', hab]

theorem Inv.of_heap (hI : Inv base s) (hreached : heap.Reached base) (hbrk : heap.heap.brk < kernbase)
    (hlive : ∀ i, s.Keeps i → s.stack i ∈ heap.live.map Prod.fst) (hexit : s.exiting = none) :
        Inv base { s with heap } where
  reached := hreached
  brk := hbrk
  current := hI.current
  live := hlive
  distinct := hI.distinct
  gone := fun _ hpast => absurd hexit hpast.2.1
  slot := hI.slot

theorem Inv.of_follows (hI : Inv base s) (hf : Follows s.threads.pool t.pool)
    (hcur : ∀ j : Fin maxThreads, j.val = t.cUthreadIndex → (t.pool j).state ≠ .free)
    (hpast : ∀ i, s.Past i → (s.threads.pool i).state = .free) : Inv base { s with threads := t, exiting := none } := by
  have hkeeps (i : Fin maxThreads) (hi : State.Keeps { s with threads := t, exiting := none } i) : s.Keeps i := by
    obtain ⟨⟨hstack, hstate⟩, -⟩ := hi
    have hstate := (hf i).2 (hstate.elim id (hcur i))
    exact ⟨⟨(hf i).1 ▸ hstack, .inl hstate⟩, fun hi => hstate (hpast i hi)⟩
  have hsame (i : Fin maxThreads) : State.stack { s with threads := t, exiting := none } i = s.stack i :=
    congrArg BitVec.toNat (hf i).1
  refine ⟨hI.reached, hI.brk, fun j hj _ => hcur j hj, fun i hi => ?_, fun i j hij hi hj => ?_, fun _ hp => ?_,
    fun hexit => ?_⟩
  · rw [hsame]
    exact hI.live i (hkeeps i hi)
  · rw [hsame, hsame]
    exact hI.distinct i j hij (hkeeps i hi) (hkeeps j hj)
  · exact absurd rfl hp.2.1
  · rcases hexit with hexit | hexit <;> cases hexit

theorem Inv.of_past {pool : Pool} (hI : Inv base s) (hnone : s.exiting ≠ none) (hcalled : s.exiting ≠ some .called)
    (hf : Follows s.threads.pool pool) (hstage : stage ≠ .called)
    (hslot : ∀ c : Fin maxThreads, c.val = s.threads.cUthreadIndex → (pool c).state = .free) :
    Inv base { s with threads.pool := pool, exiting := some stage } := by
  have hpast (c : Fin maxThreads) (hc : c.val = s.threads.cUthreadIndex) :
      State.Past { s with threads.pool := pool, exiting := some stage } c :=
    ⟨hc, (fun h => by cases h), fun h => hstage (Option.some.inj h)⟩
  have hkeeps (i : Fin maxThreads) (hi : State.Keeps { s with threads.pool := pool, exiting := some stage } i) :
      s.Keeps i := by
    obtain ⟨⟨hstack, hstate⟩, hnot⟩ := hi
    have hstate := (hf i).2 (hstate.resolve_right fun hc => hnot (hpast i hc))
    exact ⟨⟨(hf i).1 ▸ hstack, .inl hstate⟩, fun hi => hnot (hpast i hi.1)⟩
  have hsame (i : Fin maxThreads) : State.stack { s with threads.pool := pool, exiting := some stage } i = s.stack i :=
    congrArg BitVec.toNat (hf i).1
  refine ⟨hI.reached, hI.brk, fun j hj hnot => absurd (hpast j hj) hnot, fun i hi => ?_, fun i j hij hi hj => ?_,
    fun j hj hstack => ?_, fun _ => hslot⟩
  · rw [hsame]
    exact hI.live i (hkeeps i hi)
  · rw [hsame, hsame]
    exact hI.distinct i j hij (hkeeps i hi) (hkeeps j hj)
  · rw [hsame]
    exact hI.gone j ⟨hj.1, hnone, hcalled⟩ ((hf j).1 ▸ hstack)

/-! ### uthread_create -/

theorem uthreadCreate_some (hi : freeSlot t.pool = some i) (func arg block : Word) :
    (uthreadCreate t func arg block).2.pool = Function.update t.pool i
      { t.pool i with tid := t.nextTid, stack := block, state := .runnable, esp := 0, ebp := 0 } ∧
    (uthreadCreate t func arg block).2.cUthreadIndex = t.cUthreadIndex := by
  simp [uthreadCreate, hi]

theorem Inv.of_create (hI : Inv base s) (hexit : s.exiting = none) (hi : freeSlot s.threads.pool = some i)
    (func arg block : Word)
    (hblock : block ≠ 0 → block.toNat ∈ s.heap.live.map Prod.fst ∧ ∀ j, s.Keeps j → s.stack j ≠ block.toNat) :
    Inv base { s with threads := (uthreadCreate s.threads func arg block).2 } := by
  obtain ⟨hpool, hidx⟩ := uthreadCreate_some hi func arg block
  generalize (uthreadCreate s.threads func arg block).2 = t at hpool hidx
  have hnot (j : Fin maxThreads) : ¬s.Past j := fun hpast => hpast.2.1 hexit
  -- The current slot is not free, so another one is taken.
  have hne (j : Fin maxThreads) (hj : j.val = t.cUthreadIndex) : j ≠ i := by
    rintro rfl
    exact hI.current j (hj.trans hidx) (hnot j) (freeSlot_state hi)
  have hold (j : Fin maxThreads) (hj : j ≠ i) : t.pool j = s.threads.pool j := by rw [hpool, Function.update_of_ne hj]
  have hnew : State.stack { s with threads := t } i = block.toNat := by simp [State.stack, hpool]
  have hkeeps (j : Fin maxThreads) (hj : j ≠ i) (hk : State.Keeps { s with threads := t } j) : s.Keeps j := by
    obtain ⟨⟨hstack, hstate⟩, -⟩ := hk
    rw [hold j hj, hidx] at hstate
    exact ⟨⟨hold j hj ▸ hstack, hstate⟩, hnot j⟩
  have hsame (j : Fin maxThreads) (hj : j ≠ i) : State.stack { s with threads := t } j = s.stack j := by
    simp only [State.stack, hold j hj]
  have hgot (hk : State.Keeps { s with threads := t } i) := hblock fun h0 => hk.1.1 (by simp [hpool, h0])
  refine ⟨hI.reached, hI.brk, fun j hj _ => ?_, fun j hj => ?_, fun j k hjk hj hk => ?_,
    fun j hj => absurd hj.2.1 (by simp [hexit]),
    fun h => by simp [hexit] at h⟩
  · rw [hold j (hne j hj)]
    exact hI.current j (hj.trans hidx) (hnot j)
  · by_cases hji : j = i
    · subst hji
      rw [hnew]
      exact (hgot hj).1
    · rw [hsame j hji]
      exact hI.live j (hkeeps j hji hj)
  · by_cases hji : j = i
    · subst hji
      rw [hnew, hsame k (Ne.symm hjk)]
      exact ((hgot hj).2 k (hkeeps k (Ne.symm hjk) hk)).symm
    · by_cases hki : k = i
      · subst hki
        rw [hnew, hsame j hji]
        exact (hgot hk).2 j (hkeeps j hji hj)
      · rw [hsame j hji, hsame k hki]
        exact hI.distinct j k hjk (hkeeps j hji hj) (hkeeps k hki hk)

theorem mem_allocated {h : Umalloc.State} {ap nbytes : Nat} {r : Nat × Umalloc.Heap} (hap : ap ∈ h.live.map Prod.fst) :
    ap ∈ (h.allocated nbytes r).live.map Prod.fst := by
  simp only [Umalloc.State.allocated]
  split
  · exact hap
  · rw [List.map_append]
    exact List.mem_append_left _ hap

theorem Inv.create {func arg : Word} {ok : Bool} (hI : Inv base s) (h0 : 0 < base) (hexit : s.exiting = none)
    (hs : s.create base func arg ok = some s') : Inv base s' := by
  unfold State.create at hs
  split at hs
  · rename_i hfull
    obtain rfl := Option.some.inj hs
    have hsame : (uthreadCreate s.threads func arg 0).2 = { s.threads with alarm := uthreadQuanta } := by
      simp [uthreadCreate, hfull]
    rw [hsame]
    exact ⟨hI.reached, hI.brk, hI.current, hI.live, hI.distinct, hI.gone, hI.slot⟩
  · rename_i i hi
    obtain ⟨r, hr, rfl⟩ := Option.map_eq_some_iff.mp hs
    obtain ⟨r', hr', hreached⟩ := hI.reached.malloc h0 ok stackSize.toNat
    obtain rfl : r = r' := Option.some.inj (hr.symm.trans hr')
    have hbrk := Umalloc.malloc_brk hI.brk hr
    refine (hI.of_heap hreached hbrk (fun i hk => mem_allocated (hI.live i hk)) hexit).of_create hexit hi func arg
      (BitVec.ofNat 32 r.1) fun hne => ?_
    have hr0 : r.1 ≠ 0 := by
      intro h
      simp [h] at hne
    obtain ⟨hlive, hfresh, hbelow⟩ := hreached.fresh hr0
    have hnat : (BitVec.ofNat 32 r.1).toNat = r.1 := by
      rw [BitVec.toNat_ofNat]
      exact Nat.mod_eq_of_lt (by simp only [kernbase] at hbrk; omega)
    rw [hnat]
    refine ⟨List.mem_map.mpr ⟨(r.1, stackSize.toNat), ?_, rfl⟩, fun j hj heq => hfresh ?_⟩
    · change _ ∈ (s.heap.allocated stackSize.toNat r).live
      rw [hlive]
      exact List.mem_append_right _ (List.mem_singleton.mpr rfl)
    · rw [← heq]
      exact hI.live j hj

/-! ### uthread_exit -/

theorem Inv.exit_free (hI : Inv base s) (h0 : 0 < base) (hc : c.val = s.threads.cUthreadIndex)
    (hexit : s.exiting = some .called)
    (hs : s.exitNext c regs .called = some s') : Inv base s' := by
  have hnot (j : Fin maxThreads) : ¬s.Past j := fun hpast => hpast.2.2 hexit
  have hcur (j : Fin maxThreads) (hj : j.val = s.threads.cUthreadIndex) : j = c := Fin.ext (hj.trans hc.symm)
  simp only [State.exitNext] at hs
  split at hs
  · rename_i hstack
    obtain ⟨h', hfree, rfl⟩ := Option.map_eq_some_iff.mp hs
    have hkc : s.Keeps c := ⟨⟨hstack, .inr hc⟩, hnot c⟩
    have hstep : s.heap.step base (.free (s.stack c)) =
        some { s.heap with heap := h', live := s.heap.live.filter fun a => a.1 ≠ s.stack c } := by
      simp only [Umalloc.State.step]
      rw [if_pos (hI.live c hkc), hfree]
      rfl
    have hrest (i : Fin maxThreads) (hne : i ≠ c) (hk : s.Keeps i) :
        s.stack i ∈ (s.heap.live.filter fun a => a.1 ≠ s.stack c).map Prod.fst := by
      obtain ⟨a, ha, heq⟩ := List.mem_map.mp (hI.live i hk)
      refine List.mem_map.mpr ⟨a, List.mem_filter.mpr ⟨ha, ?_⟩, heq⟩
      simpa [heq] using hI.distinct i c hne hk hkc
    have hkeeps (freed : List Addr) (heap : Umalloc.State) (i : Fin maxThreads)
        (hk : State.Keeps ⟨{ s.threads with freed }, heap, some .freed⟩ i) : i ≠ c ∧ s.Keeps i := by
      obtain ⟨hholds, hpast⟩ := hk
      refine ⟨?_, hholds, hnot i⟩
      rintro rfl
      exact hpast ⟨hc, (fun h => by cases h), fun h => by cases h⟩
    refine ⟨hI.reached.step h0 hstep, (Umalloc.free_brk hfree).symm ▸ hI.brk, fun j hj hp => hI.current j hj (hnot j),
      fun i hi => ?_,
      fun i j hij hi hj => ?_, fun j hj _ hmem => ?_, fun h => by simp at h⟩
    · obtain ⟨hne, hk⟩ := hkeeps _ _ i hi
      exact hrest i hne hk
    · exact hI.distinct i j hij (hkeeps _ _ i hi).2 (hkeeps _ _ j hj).2
    · obtain rfl := hcur j hj.1
      obtain ⟨a, ha, heq⟩ := List.mem_map.mp hmem
      have hne : a.1 ≠ s.stack j := by simpa using (List.mem_filter.mp ha).2
      exact hne heq
  · rename_i hstack
    obtain rfl := Option.some.inj hs
    have hnull : (s.threads.pool c).stack = 0 := not_not.mp hstack
    have hkeeps (i : Fin maxThreads) (hk : State.Keeps { s with exiting := some .freed } i) : s.Keeps i := ⟨hk.1, hnot i⟩
    refine ⟨hI.reached, hI.brk, fun j hj _ => hI.current j hj (hnot j), fun i hi => hI.live i (hkeeps i hi),
      fun i j hij hi hj => hI.distinct i j hij (hkeeps i hi) (hkeeps j hj), fun j hj hne => ?_, fun h => by simp at h⟩
    obtain rfl := hcur j hj.1
    exact absurd hnull hne

theorem Inv.exitNext (hI : Inv base s) (h0 : 0 < base) (hc : c.val = s.threads.cUthreadIndex)
    (hexit : s.exiting = some stage) (hs : s.exitNext c regs stage = some s') : Inv base s' := by
  have hcur (j : Fin maxThreads) (hj : j.val = s.threads.cUthreadIndex) : j = c := Fin.ext (hj.trans hc.symm)
  cases stage with
  | called => exact hI.exit_free h0 hc hexit hs
  | freed =>
    obtain rfl := Option.some.inj hs
    refine hI.of_past (by simp [hexit]) (by simp [hexit]) (follows_update rfl fun h => absurd rfl h) (by simp)
      fun j hj => ?_
    obtain rfl := hcur j hj
    simp
  | released =>
    obtain rfl := Option.some.inj hs
    refine hI.of_past (by simp [hexit]) (by simp [hexit]) (follows_wakeAll _) (by simp) fun j hj => ?_
    rw [wakeAll_state, hI.slot (.inl hexit) j hj]
    rfl
  | woken =>
    simp only [State.exitNext] at hs
    split at hs
    · obtain rfl := Option.some.inj hs
      obtain ⟨hf, hcur⟩ := follows_yield s.threads c regs
      exact hI.of_follows hf hcur fun j hj => hI.slot (.inr hexit) j hj.1
    · cases hs

theorem exitNext_uthreadExit {s₁ s₂ s₃ : State} (halarm : s.threads.alarm = 0) (h₁ : s.exitNext c regs .called = some s₁)
    (h₂ : s₁.exitNext c regs .freed = some s₂) (h₃ : s₂.exitNext c regs .released = some s₃) :
    (s₃.exitNext c regs .woken).map State.threads = uthreadExit s.threads c regs := by
  obtain rfl := Option.some.inj h₃
  obtain rfl := Option.some.inj h₂
  simp only [State.exitNext] at h₁
  split at h₁
  · rename_i hstack
    obtain ⟨h', -, rfl⟩ := Option.map_eq_some_iff.mp h₁
    simp only [State.exitNext, uthreadExit, if_pos hstack, ← halarm]
    split <;> rfl
  · rename_i hstack
    obtain rfl := Option.some.inj h₁
    simp only [State.exitNext, uthreadExit, if_neg hstack, ← halarm]
    split <;> rfl

/-! ### Steps -/

theorem Inv.join (hI : Inv base s) (regs : Regs) (tid : Int) (hc : c.val = s.threads.cUthreadIndex)
    (hexit : s.exiting = none) :
    Inv base { s with threads := (uthredJoin s.threads c regs tid).2, exiting := none } := by
  have hnot (j : Fin maxThreads) : ¬s.Past j := fun hpast => hpast.2.1 hexit
  have hpast (j : Fin maxThreads) (hj : s.Past j) : (s.threads.pool j).state = .free := absurd hj (hnot j)
  have hrunning := hI.current c hc (hnot c)
  unfold uthredJoin
  split
  · exact hI.of_follows (fun _ => ⟨rfl, id⟩) (fun j hj => hI.current j hj (hnot j)) hpast
  · split
    · obtain ⟨hf, hcur⟩ := follows_yield
        { s.threads with pool := Function.update s.threads.pool c { s.threads.pool c with state := .sleep }, alarm := 0 } c
          regs
      have hsleep : Follows s.threads.pool (Function.update s.threads.pool c { s.threads.pool c with state := .sleep }) :=
        follows_update rfl fun _ => hrunning
      exact hI.of_follows (hsleep.trans hf) hcur hpast
    · exact hI.of_follows (fun _ => ⟨rfl, id⟩) (fun j hj => hI.current j hj (hnot j)) hpast

theorem Inv.program {e : Umalloc.Event} (hI : Inv base s) (h0 : 0 < base) (hexit : s.exiting = none)
    (howns : s.Owns e) (hs : s.heap.step base e = some heap) : Inv base { s with heap } := by
  refine hI.of_heap (hI.reached.step h0 hs) (Umalloc.State.step_brk hI.brk hs) (fun i hi => ?_) hexit
  have hmem := hI.live i hi
  cases Umalloc.State.step_made hs with
  | malloc hr => exact mem_allocated hmem
  | free hap hf =>
    obtain ⟨a, ha, heq⟩ := List.mem_map.mp hmem
    refine List.mem_map.mpr ⟨a, List.mem_filter.mpr ⟨ha, ?_⟩, heq⟩
    simpa [heq] using howns i hi.1
  | sbrk hroom => exact hmem
  | store hap => exact hmem

theorem Inv.step (hI : Inv base s) (h0 : 0 < base) (hs : s.step base a = some s') : Inv base s' := by
  unfold State.step at hs
  split at hs
  · rename_i hidx
    have hI' : Inv base { s with threads.randstate := a.randstate } :=
      ⟨hI.reached, hI.brk, hI.current, hI.live, hI.distinct, hI.gone, hI.slot⟩
    dsimp only at hs
    split at hs
    · rename_i hexit _
      exact hI'.create h0 hexit hs
    · rename_i hexit _
      obtain rfl := Option.some.inj hs
      obtain ⟨hf, hcur⟩ := follows_yield { s.threads with randstate := a.randstate } ⟨s.threads.cUthreadIndex, hidx⟩ a.regs
      have hnew := hI'.of_follows hf hcur fun j hj => absurd hexit hj.2.1
      rw [← hexit] at hnew
      exact hnew
    · rename_i tid hexit _
      obtain rfl := Option.some.inj hs
      have hnew := hI'.join (c := ⟨s.threads.cUthreadIndex, hidx⟩) a.regs tid rfl hexit
      rw [← hexit] at hnew
      exact hnew
    · rename_i hexit _
      obtain rfl := Option.some.inj hs
      have hnot (j : Fin maxThreads) : ¬s.Past j := fun hpast => hpast.2.1 hexit
      exact ⟨hI.reached, hI.brk, fun j hj _ => hI.current j hj (hnot j), fun i hi => hI.live i ⟨hi.1, hnot i⟩,
        fun i j hij hi hj => hI.distinct i j hij ⟨hi.1, hnot i⟩ ⟨hj.1, hnot j⟩, fun j hj => absurd rfl hj.2.2,
        fun h => by simp at h⟩
    · rename_i e hexit _
      split at hs
      · rename_i howns
        obtain ⟨heap, hheap, rfl⟩ := Option.map_eq_some_iff.mp hs
        exact hI'.program h0 hexit howns hheap
      · cases hs
    · rename_i stage hexit _
      exact hI'.exitNext h0 rfl hexit hs
    · cases hs
  · cases hs

theorem inv_start (t : Threads) (signal : Word) {brk : Nat} (ptr size : Nat → Nat) (hbase : base < brk)
    (hbrk : brk < kernbase)
    (hnull : ∀ i, (t.pool i).stack = 0) : Inv base (.start t signal brk ptr size) := by
  have hinit := uthreadInit_inv t signal
  have hstack (i : Fin maxThreads) : ((uthreadInit t signal).2.pool i).stack = 0 := by
    simp only [uthreadInit]
    split <;> by_cases hi : i = 0 <;> simp [hi, hnull]
  refine ⟨⟨hbase, .inl ⟨rfl, rfl, rfl⟩⟩, hbrk, fun c hc _ => ?_, fun i hi => absurd (hstack i) hi.1.1,
    fun i _ _ hi => absurd (hstack i) hi.1.1, fun c hc => absurd rfl hc.2.1, fun h => by simp [State.start] at h⟩
  have hrunning := (hinit.one.running c).mpr hc
  simp [State.start, hrunning]

/-! ### Runs -/

/-- A thread that calls `uthread_exit` has no stack of `uthread_create`. -/
def KeepsStack (s : State) (a : Call) : Prop :=
  a.event = .exit → ∀ c : Fin maxThreads, c.val = s.threads.cUthreadIndex → (s.threads.pool c).stack = 0

/-- A thread inside `uthread_exit` has no stack of `uthread_create`. -/
def ExitsBare (s : State) : Prop :=
  s.exiting ≠ none → ∀ c : Fin maxThreads, c.val = s.threads.cUthreadIndex → (s.threads.pool c).stack = 0

theorem exitNext_bare (hb : s.ExitsBare) (hexit : s.exiting = some stage)
    (hs : s.exitNext c regs stage = some s') : s'.ExitsBare := by
  have hnull := hb (by simp [hexit])
  cases stage with
  | called =>
    simp only [State.exitNext] at hs
    split at hs
    · obtain ⟨h', -, rfl⟩ := Option.map_eq_some_iff.mp hs
      exact fun _ => hnull
    · obtain rfl := Option.some.inj hs
      exact fun _ => hnull
  | freed =>
    obtain rfl := Option.some.inj hs
    have hf : Follows s.threads.pool (Function.update s.threads.pool c { s.threads.pool c with state := .free }) :=
      follows_update rfl fun h => absurd rfl h
    exact fun _ j hj => (hf j).1.trans (hnull j hj)
  | released =>
    obtain rfl := Option.some.inj hs
    exact fun _ j hj => (follows_wakeAll s.threads.pool j).1.trans (hnull j hj)
  | woken =>
    simp only [State.exitNext] at hs
    split at hs
    · obtain rfl := Option.some.inj hs
      exact fun h => absurd rfl h
    · cases hs

theorem step_bare (hb : s.ExitsBare) (hk : s.KeepsStack a) (hs : s.step base a = some s') : s'.ExitsBare := by
  unfold State.step at hs
  split at hs
  · have hb' : State.ExitsBare { s with threads.randstate := a.randstate } := hb
    dsimp only at hs
    split at hs
    · rename_i hexit _
      unfold State.create at hs
      split at hs
      · obtain rfl := Option.some.inj hs
        exact fun h => absurd hexit h
      · obtain ⟨r, -, rfl⟩ := Option.map_eq_some_iff.mp hs
        exact fun h => absurd hexit h
    · rename_i hexit _
      obtain rfl := Option.some.inj hs
      exact fun h => absurd hexit h
    · rename_i hexit _
      obtain rfl := Option.some.inj hs
      exact fun h => absurd hexit h
    · rename_i hexit hevent
      obtain rfl := Option.some.inj hs
      exact fun _ => hk hevent
    · rename_i hexit _
      split at hs
      · obtain ⟨heap, -, rfl⟩ := Option.map_eq_some_iff.mp hs
        exact fun h => absurd hexit h
      · cases hs
    · rename_i hexit _
      exact exitNext_bare hb' hexit hs
    · cases hs
  · cases hs

end

end State

/-- In every run, the stacks are blocks in use that do not overlap in exactly those states in which the current thread
    is not inside `uthread_exit` with its stack freed; so in all states if no thread with a stack calls it. -/
theorem stacks_owned {base brk : Nat} {t : Threads} {signal : Word} {ptr size : Nat → Nat} {tr : List (State × Call)}
    {s : State}
    (h0 : 0 < base) (hbase : base < brk) (hbrk : brk < kernbase) (hnull : ∀ i, (t.pool i).stack = 0)
    (hr : Run (OfStep (State.step base)) (.start t signal brk ptr size) tr s) :
    Always (fun s => s.Owned base ↔ ¬s.Released) tr s ∧ (Meets State.KeepsStack tr → Always (State.Owned base) tr s) := by
  have hstart := State.inv_start t signal ptr size hbase hbrk hnull
  have hall := hr.always (G := fun _ _ => True) hstart (fun _ _ => trivial) fun hI _ hstep => hI.step h0 hstep
  refine ⟨hall.mono fun s hI => hI.owned_iff, fun hG => ?_⟩
  have hbare : State.ExitsBare (.start t signal brk ptr size) := fun h => absurd rfl h
  have hboth := hr.always (I := fun s => State.Inv base s ∧ s.ExitsBare) ⟨hstart, hbare⟩ hG fun hI hg hstep =>
    ⟨hI.1.step h0 hstep, State.step_bare hI.2 hg hstep⟩
  refine hboth.mono fun s hs => hs.1.owned_iff.mpr ?_
  rintro ⟨c, hpast, hstack⟩
  exact hstack (hs.2 hpast.2.1 c hpast.1)

/-- The state before the first operation of a process whose break is at 0x4000. -/
def booted : State := .start (zeroed 1 ⟨0x3000, 0x3000⟩ fun _ => 0) 0 0x4000 (fun _ => 0) fun _ => 0

/-- Thread 1 gets the processor and exits: behind `free` it is still running, on a stack that lies in the block that
    follows `base` in the free list. -/
theorem exit_frees_own_stack : ∃ tr s, Run (OfStep (State.step 0x800)) booted tr s ∧
    tr.map (·.2) = [⟨.create 0x100 0 true, ⟨0x2F00, 0x2F00⟩, 1⟩, ⟨.yield, ⟨0x2F00, 0x2F00⟩, 0⟩,
      ⟨.exit, ⟨0xBF00, 0xBF00⟩, 0⟩, ⟨.next, ⟨0xBF00, 0xBF00⟩, 0⟩] ∧
    s.threads.cUthreadIndex = 1 ∧ (s.threads.pool 1).state = .running ∧ s.heap.heap.ptr 0x800 < s.stack 1 ∧
    s.stack 1 + 4096 ≤ s.heap.heap.stop (s.heap.heap.ptr 0x800) ∧ ¬s.Owned 0x800 := by
  obtain ⟨tr, s, hr, hl, hcur, hrunning, hlow, hhigh, hholds, hgone⟩ := Run.exists_of_traceOf (f := State.step 0x800) booted
    [⟨.create 0x100 0 true, ⟨0x2F00, 0x2F00⟩, 1⟩, ⟨.yield, ⟨0x2F00, 0x2F00⟩, 0⟩, ⟨.exit, ⟨0xBF00, 0xBF00⟩, 0⟩,
      ⟨.next, ⟨0xBF00, 0xBF00⟩, 0⟩]
    (fun _ s => s.threads.cUthreadIndex = 1 ∧ (s.threads.pool 1).state = .running ∧ s.heap.heap.ptr 0x800 < s.stack 1 ∧
      s.stack 1 + 4096 ≤ s.heap.heap.stop (s.heap.heap.ptr 0x800) ∧ s.Holds 1 ∧ s.stack 1 ∉ s.heap.live.map Prod.fst)
    (by decide +kernel)
  exact ⟨tr, s, hr, hl, hcur, hrunning, hlow, hhigh, fun hO => hgone (hO.live 1 hholds)⟩

/-- The main thread creates thread 1 and exits, and thread 1 runs on its stack. -/
theorem stacks_owned_main : ∃ tr s, Run (OfStep (State.step 0x800)) booted tr s ∧
    s.threads.cUthreadIndex = 1 ∧ s.exiting = none ∧ s.Holds 1 ∧ Always (State.Owned 0x800) tr s := by
  obtain ⟨tr, s, hr, -, hbare, hcur, hexit, hholds⟩ := Run.exists_of_traceOf (f := State.step 0x800) booted
    [⟨.create 0x100 0 true, ⟨0x2F00, 0x2F00⟩, 1⟩, ⟨.exit, ⟨0x2F00, 0x2F00⟩, 0⟩, ⟨.next, ⟨0x2F00, 0x2F00⟩, 0⟩,
      ⟨.next, ⟨0x2F00, 0x2F00⟩, 0⟩, ⟨.next, ⟨0x2F00, 0x2F00⟩, 0⟩, ⟨.next, ⟨0x2F00, 0x2F00⟩, 0⟩]
    (fun tr s => (∀ x ∈ tr, ∀ c : Fin maxThreads, c.val = x.1.threads.cUthreadIndex → (x.1.threads.pool c).stack = 0) ∧
      s.threads.cUthreadIndex = 1 ∧ s.exiting = none ∧ s.Holds 1) (by decide +kernel)
  exact ⟨tr, s, hr, hcur, hexit, hholds,
    (stacks_owned (by decide) (by decide) (by decide) (fun _ => rfl) hr).2 fun x hx _ => hbare x hx⟩

end Xv6.Stacks
