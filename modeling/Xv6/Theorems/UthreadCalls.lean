import Xv6.Theorems.Frames
import Xv6.Theorems.StackBlocks

/-! What `uthread_init` and `uthread_create` promise their caller. `uthread_init` takes the previous handler that
    `signal` returns for an error, and `uthread_create` does not look at what `malloc` returns. -/

namespace Xv6.Stacks
open Lib Ult

/-! ### uthread_create -/

/-- What `uthread_create` returns; the block that `malloc` returns has no part in it. -/
def State.returns (s : State) (func arg : Word) : Int := (uthreadCreate s.threads func arg 0).1

/-- What the calls of `uthread_create` in a run have returned. -/
def returned (tr : List (State × Call)) : List Int :=
  tr.filterMap fun x =>
    match x.2.event with
    | .create func arg _ => some (x.1.returns func arg)
    | _ => none

def created (tr : List (State × Call)) : Nat := (returned tr).countP (· ≠ -1)

/-- Nothing has changed, or one free slot has become a thread that is ready to start on a stack of its own. -/
structure AllOrNothing (base : Nat) (before : List Int) (s : State) (func arg : Word) (ret : Int) (s' : State) : Prop where
  alarm : s'.threads.alarm = uthreadQuanta
  heap : s'.heap.Good base
  result : (ret = -1 ∧ s'.threads.pool = s.threads.pool ∧ s'.threads.nextTid = s.threads.nextTid ∧
      s'.threads.mem = s.threads.mem ∧ s'.heap = s.heap) ∨
    (∀ r ∈ before, r < ret) ∧ ∃ i, ∃ stack : Addr, stack ≠ 0 ∧ (stack.toNat, stackSize.toNat) ∈ s'.heap.live ∧
      (s.threads.pool i).state = .free ∧
      s'.threads.pool = Function.update s.threads.pool i
        { s.threads.pool i with tid := ret, stack, state := .runnable, esp := 0, ebp := 0 } ∧
      load32 s'.threads.mem (stack + stackSize - 12) = 0 ∧ load32 s'.threads.mem (stack + stackSize - 8) = func ∧
      load32 s'.threads.mem (stack + stackSize - 4) = arg

/-- No slot is free, or `malloc` returns a block. -/
def GetsStack (base : Nat) (s : State) (ok : Bool) : Prop :=
  freeSlot s.threads.pool = none ∨ ∃ r, s.heap.heap.malloc base ok stackSize.toNat = some r ∧ r.1 ≠ 0

section
variable {base : Nat} {s s' : State} {func arg : Word} {ok : Bool} {tr : List (State × Call)}

theorem uthreadYield_nextTid (t : Threads) (c : Fin maxThreads) (regs : Regs) :
    (uthreadYield t c regs).nextTid = t.nextTid := by
  unfold uthreadYield switchTo
  dsimp only
  split <;> rfl

theorem exitNext_nextTid {c : Fin maxThreads} {regs : Regs} {stage : Stage} (hs : s.exitNext c regs stage = some s') :
    s'.threads.nextTid = s.threads.nextTid := by
  cases stage with
  | called =>
    rw [State.exitNext] at hs
    split at hs
    · obtain ⟨h, -, rfl⟩ := Option.map_eq_some_iff.mp hs
      rfl
    · obtain rfl := Option.some.inj hs
      rfl
  | freed | released =>
    obtain rfl := Option.some.inj hs
    rfl
  | woken =>
    rw [State.exitNext] at hs
    split at hs
    · obtain rfl := Option.some.inj hs
      exact uthreadYield_nextTid ..
    · cases hs

theorem step_nextTid {a : Call} (hs : s.step base a = some s') :
    (∃ func arg ok, a.event = .create func arg ok ∧ s.exiting = none ∧
      { s with threads.randstate := a.randstate }.create base func arg ok = some s') ∨
    (∀ func arg ok, a.event ≠ .create func arg ok) ∧ s'.threads.nextTid = s.threads.nextTid := by
  unfold State.step at hs
  split at hs
  · dsimp only at hs
    split at hs
    · rename_i func arg ok hexit hev
      exact .inl ⟨func, arg, ok, hev, hexit, hs⟩
    · rename_i hev
      obtain rfl := Option.some.inj hs
      exact .inr ⟨by simp [hev], uthreadYield_nextTid ..⟩
    · rename_i hev
      obtain rfl := Option.some.inj hs
      refine .inr ⟨by simp [hev], ?_⟩
      unfold uthredJoin
      split
      · rfl
      · split
        · exact uthreadYield_nextTid ..
        · rfl
    · rename_i hev
      obtain rfl := Option.some.inj hs
      exact .inr ⟨by simp [hev], rfl⟩
    · rename_i hev
      split at hs
      · obtain ⟨h, -, rfl⟩ := Option.map_eq_some_iff.mp hs
        exact .inr ⟨by simp [hev], rfl⟩
      · cases hs
    · rename_i hev
      exact .inr ⟨by simp [hev], exitNext_nextTid (s := { s with threads.randstate := a.randstate }) hs⟩
    · cases hs
  · cases hs

theorem returns_randstate (s : State) (func arg randstate : Word) :
    { s with threads.randstate := randstate }.returns func arg = s.returns func arg := by
  unfold State.returns uthreadCreate
  dsimp only
  split <;> rfl

theorem create_nextTid (hs : s.create base func arg ok = some s') :
    s.returns func arg = -1 ∧ s'.threads.nextTid = s.threads.nextTid ∨
    s.returns func arg = s.threads.nextTid ∧ s'.threads.nextTid = int32 (s.threads.nextTid + 1) := by
  unfold State.create at hs
  unfold State.returns
  split at hs
  · rename_i hfull
    obtain rfl := Option.some.inj hs
    exact .inl (by simp [uthreadCreate, hfull])
  · rename_i i hi
    obtain ⟨r, -, rfl⟩ := Option.map_eq_some_iff.mp hs
    exact .inr (by simp [uthreadCreate, hi])

theorem returned_snoc {a : Call} : returned (tr ++ [(s, a)]) = returned tr ++
    match a.event with
    | .create func arg _ => [s.returns func arg]
    | _ => [] := by
  rw [returned, List.filterMap_append]
  congr 1
  cases hev : a.event <;> simp [hev]

theorem nextTid_eq {s₀ : State} (h1 : s₀.threads.nextTid = 1) (hr : Run (OfStep (State.step base)) s₀ tr s)
    (hcount : created tr + 1 < 2 ^ 31) :
    s.threads.nextTid = created tr + 1 ∧ ∀ r ∈ returned tr, r < s.threads.nextTid := by
  induction hr with
  | nil =>
    refine ⟨h1, fun r hr => ?_⟩
    cases hr
  | snoc hr hs ih =>
    rename_i tr v w a
    rcases step_nextTid hs with ⟨func, arg, ok, hev, -, hs⟩ | ⟨hev, hsame⟩
    · have hret : returned (tr ++ [(v, a)]) = returned tr ++ [v.returns func arg] := by rw [returned_snoc, hev]
      rw [created, hret, List.countP_append] at hcount ⊢
      obtain ⟨heq, hlt⟩ := ih (by rw [created]; omega)
      rw [created] at heq
      have hcases := create_nextTid hs
      rw [returns_randstate] at hcases
      dsimp only at hcases
      rcases hcases with ⟨hneg, hsame⟩ | ⟨hnew, hnext⟩
      · rw [hneg] at hcount ⊢
        refine ⟨by simpa using hsame.trans heq, fun r hr => ?_⟩
        rw [hsame]
        rcases List.mem_append.mp hr with hr | hr
        · exact hlt r hr
        · rw [List.mem_singleton.mp hr]
          omega
      · have hone : [v.returns func arg].countP (· ≠ -1) = 1 := by
          have : v.threads.nextTid ≠ -1 := by omega
          simp [hnew, this]
        rw [hone] at hcount ⊢
        have hnext' : w.threads.nextTid = v.threads.nextTid + 1 := by
          rw [hnext, int32, Int.bmod_eq_of_le] <;> omega
        refine ⟨by omega, fun r hr => ?_⟩
        rcases List.mem_append.mp hr with hr | hr
        · have := hlt r hr
          omega
        · rw [List.mem_singleton.mp hr, hnew]
          omega
    · have hret : returned (tr ++ [(v, a)]) = returned tr := by
        rw [returned_snoc]
        cases hop : a.event with
        | create func arg ok => exact absurd hop (hev func arg ok)
        | _ => exact List.append_nil _
      rw [created, hret] at hcount ⊢
      rw [hsame]
      exact ih hcount

theorem load32_top (m : Mem) (top func arg : Word) :
    let m' := store32 (store32 (store32 m (top - 12) 0) (top - 8) func) (top - 4) arg
    load32 m' (top - 12) = 0 ∧ load32 m' (top - 8) = func ∧ load32 m' (top - 4) = arg := by
  refine ⟨?_, ?_, load32_store32 _ _ _⟩
  · rw [load32_store32_of_ne _ _ (by bv_omega) (by bv_omega), load32_store32_of_ne _ _ (by bv_omega) (by bv_omega),
      load32_store32]
  · rw [load32_store32_of_ne _ _ (by bv_omega) (by bv_omega), load32_store32]

theorem create_allOrNothing_iff {before : List Int} (hI : State.Inv base s) (h0 : 0 < base) (hexit : s.exiting = none)
    (hbefore : ∀ r ∈ before, r < s.threads.nextTid) (hpos : s.threads.nextTid ≠ -1)
    (hs : s.create base func arg ok = some s') :
    AllOrNothing base before s func arg (s.returns func arg) s' ↔ GetsStack base s ok := by
  have hI' := hI.create h0 hexit hs
  unfold State.create at hs
  split at hs
  · rename_i hfull
    obtain rfl := Option.some.inj hs
    refine iff_of_true ⟨?_, hI'.reached.good, .inl ?_⟩ (.inl hfull) <;> simp [State.returns, uthreadCreate, hfull]
  · rename_i i hi
    obtain ⟨r, hr, rfl⟩ := Option.map_eq_some_iff.mp hs
    have hret : s.returns func arg = s.threads.nextTid := by simp [State.returns, uthreadCreate, hi]
    have hpool := (State.uthreadCreate_some hi func arg (BitVec.ofNat 32 r.1)).1
    have hfree := freeSlot_state hi
    constructor
    · rintro ⟨-, -, ⟨hneg, -⟩ | ⟨-, j, stack, hne, -, hfree', hpool', -⟩⟩
      · exact absurd (hret.symm.trans hneg) hpos
      · refine .inr ⟨r, hr, fun hr0 => hne ?_⟩
        -- The slot that has become ready is the one that was taken.
        have hready := congrFun (hpool.symm.trans hpool') j
        rw [Function.update_self] at hready
        by_cases hji : j = i
        · subst hji
          rw [Function.update_self] at hready
          rw [← show BitVec.ofNat 32 r.1 = stack from congrArg Uthread.stack hready, hr0]
          rfl
        · rw [Function.update_of_ne hji] at hready
          have hstate := congrArg Uthread.state hready
          rw [hfree'] at hstate
          cases hstate
    · rintro (hnone | ⟨r', hr', hne⟩)
      · rw [hi] at hnone
        cases hnone
      · obtain rfl := Option.some.inj (hr.symm.trans hr')
        obtain ⟨r', hr', hreached⟩ := hI.reached.malloc h0 ok stackSize.toNat
        obtain rfl := Option.some.inj (hr.symm.trans hr')
        have hbrk := Umalloc.malloc_brk hI.brk hr
        obtain ⟨hlive, -, hbelow⟩ := hreached.fresh hne
        have hnat : (BitVec.ofNat 32 r.1).toNat = r.1 := by
          rw [BitVec.toNat_ofNat]
          exact Nat.mod_eq_of_lt (by simp only [kernbase] at hbrk; omega)
        have hmem : (uthreadCreate s.threads func arg (BitVec.ofNat 32 r.1)).2.mem = store32 (store32 (store32 s.threads.mem
            (BitVec.ofNat 32 r.1 + stackSize - 12) 0) (BitVec.ofNat 32 r.1 + stackSize - 8) func)
            (BitVec.ofNat 32 r.1 + stackSize - 4) arg := by simp [uthreadCreate, hi]
        refine ⟨by simp [uthreadCreate, hi], hI'.reached.good,
          .inr ⟨?_, i, BitVec.ofNat 32 r.1, fun h => ?_, ?_, hfree, ?_, ?_⟩⟩
        · rw [hret]
          exact hbefore
        · rw [h] at hnat
          exact hne hnat.symm
        · rw [hnat]
          change _ ∈ (s.heap.allocated stackSize.toNat r).live
          rw [hlive]
          exact List.mem_append_right _ (List.mem_singleton.mpr rfl)
        · rw [hret]
          exact hpool
        · dsimp only
          rw [hmem]
          exact load32_top _ _ _ _

end

/-- In every run with fewer than `2 ^ 31` threads, `uthread_create` is all or nothing exactly if the pool is full or
    `malloc` returns a block. -/
theorem create_all_or_nothing {base brk : Nat} {t : Threads} {signal : Word} {ptr size : Nat → Nat}
    {tr : List (State × Call)}
    {s s' : State} {func arg : Word} {ok : Bool} {regs : Regs} {randstate : BitVec 32} (h0 : 0 < base) (hbase : base < brk)
    (hbrk : brk < kernbase) (hnull : ∀ i, (t.pool i).stack = 0)
    (hr : Run (OfStep (State.step base)) (.start t signal brk ptr size) tr s) (hcount : created tr + 1 < 2 ^ 31)
    (hs : s.step base ⟨.create func arg ok, regs, randstate⟩ = some s') :
    AllOrNothing base (returned tr) s func arg (s.returns func arg) s' ↔ GetsStack base s ok := by
  have hI := hr.invariant (State.inv_start t signal ptr size hbase hbrk hnull) fun hI hstep => hI.step h0 hstep
  have h1 : (State.start t signal brk ptr size).threads.nextTid = 1 := by
    simp only [State.start, uthreadInit]
    split <;> rfl
  obtain ⟨htid, hbefore⟩ := nextTid_eq h1 hr hcount
  rcases step_nextTid hs with ⟨_, _, _, hev, hexit, hs⟩ | ⟨hev, -⟩
  · obtain ⟨rfl, rfl, rfl⟩ := Event.create.inj hev
    have hI' : State.Inv base { s with threads.randstate := randstate } :=
      ⟨hI.reached, hI.brk, hI.current, hI.live, hI.distinct, hI.gone, hI.slot⟩
    have hiff := create_allOrNothing_iff hI' h0 hexit hbefore (by dsimp only; omega) hs
    rw [returns_randstate] at hiff
    exact Iff.trans ⟨fun h => ⟨h.alarm, h.heap, h.result⟩, fun h => ⟨h.alarm, h.heap, h.result⟩⟩ hiff
  · exact absurd rfl (hev func arg ok)

/-- `sbrk` has no memory for the first thread: the slot becomes ready all the same, with no stack, and its function and
    argument are stored below address 4096. -/
theorem create_without_stack : ∃ s', booted.step 0x800 ⟨.create 0x100 7 false, ⟨0x2F00, 0x2F00⟩, 1⟩ = some s' ∧
    booted.returns 0x100 7 = 1 ∧ (s'.threads.pool 1).state = .runnable ∧ (s'.threads.pool 1).stack = 0 ∧
    load32 booted.threads.mem 0xFF8 = 0 ∧ load32 s'.threads.mem 0xFF8 = 0x100 ∧ load32 s'.threads.mem 0xFFC = 7 ∧
    ¬AllOrNothing 0x800 [] booted 0x100 7 1 s' := by
  have hrun : (booted.step 0x800 ⟨.create 0x100 7 false, ⟨0x2F00, 0x2F00⟩, 1⟩).any (fun s' => decide
      (booted.returns 0x100 7 = 1 ∧ (s'.threads.pool 1).state = .runnable ∧ (s'.threads.pool 1).stack = 0 ∧
        load32 booted.threads.mem 0xFF8 = 0 ∧ load32 s'.threads.mem 0xFF8 = 0x100 ∧ load32 s'.threads.mem 0xFFC = 7)) =
      true := by decide +kernel
  obtain ⟨s', hs, hP⟩ := (Option.any_eq_true ..).mp hrun
  obtain ⟨hret, hready, hnull, hbefore, hfunc, harg⟩ := of_decide_eq_true hP
  refine ⟨s', hs, hret, hready, hnull, hbefore, hfunc, harg, ?_⟩
  rintro ⟨-, -, ⟨hneg, -⟩ | ⟨-, j, stack, hne, -, -, hpool, -⟩⟩
  · cases hneg
  · rw [hpool] at hready hnull
    by_cases hj : (1 : Fin maxThreads) = j
    · subst hj
      rw [Function.update_self] at hnull
      exact hne hnull
    · rw [Function.update_of_ne hj] at hready
      cases hready

/-- With memory from `sbrk`, the first thread gets its stack. -/
theorem create_all_or_nothing_first : ∃ s', booted.step 0x800 ⟨.create 0x100 7 true, ⟨0x2F00, 0x2F00⟩, 1⟩ = some s' ∧
    (s'.threads.pool 1).state = .runnable ∧ AllOrNothing 0x800 [] booted 0x100 7 (booted.returns 0x100 7) s' := by
  have hrun : (booted.step 0x800 ⟨.create 0x100 7 true, ⟨0x2F00, 0x2F00⟩, 1⟩).any (fun s' => decide
      ((s'.threads.pool 1).state = .runnable)) = true := by decide +kernel
  have hmalloc : (booted.heap.heap.malloc 0x800 true stackSize.toNat).any (fun r => decide (r.1 ≠ 0)) = true := by
    decide +kernel
  obtain ⟨s', hs, hP⟩ := (Option.any_eq_true ..).mp hrun
  obtain ⟨r, hr, hne⟩ := (Option.any_eq_true ..).mp hmalloc
  refine ⟨s', hs, of_decide_eq_true hP, ?_⟩
  exact (create_all_or_nothing (by decide) (by decide) (by decide) (fun _ => rfl) .nil (by decide) hs).mpr
    (.inr ⟨r, hr, of_decide_eq_true hne⟩)

end Xv6.Stacks

namespace Xv6.Ult
open Lib

/-! ### uthread_init -/

/-- The kernel accepts a `signal` system call: it can fetch the arguments, and the number is that of a signal. -/
def Accepts (p : Proc) : Prop :=
  ∃ sigNum handler, argint p 0 = some sigNum ∧ argint p 1 = some handler ∧ 0 ≤ sigNum ∧ sigNum ≤ numsig - 1

/-- `uthread_init` fails exactly if `signal` was rejected, and otherwise leaves the main thread alone in the pool with
    the handler and the countdown of the library. -/
structure Agrees (i : Fin nproc) (handler : Word) (accepted : Prop) (r : Int × Threads × Kernel) : Prop where
  fails : r.1 = -1 ↔ ¬accepted
  starts : accepted → r.1 = 0 ∧ (r.2.2.proc i).sighandlers sigalrm = handler ∧ (r.2.1.pool 0).state = .running ∧
    (∀ j ≠ 0, (r.2.1.pool j).state = .free) ∧ (r.2.2.proc i).alarmTicksNum = uthreadQuanta

section
variable (k : Kernel) (i : Fin nproc) (t : Threads) (p : Proc) (handler ret ret' : Word)

theorem argint_calls_one (v : Word) : argint (p.calls [v] ret) 0 =
    if p.frame.esp - 4 ≥ p.sz ∨ p.frame.esp - 4 + 4 > p.sz then none else some v.toInt := by
  have haddr : argAddr (p.calls [v] ret) 0 = p.frame.esp - 4 := by
    simp only [argAddr, Proc.calls, List.foldr_cons, List.foldr_nil]
    bv_omega
  have hload : load32 (p.calls [v] ret).mem (p.frame.esp - 4) = v := by
    simp only [Proc.calls, List.foldr_cons, List.foldr_nil]
    rw [load32_store32_of_ne _ _ (by bv_omega) (by bv_omega), load32_store32]
  rw [argint, haddr, fetchint, hload]
  rfl

theorem argint_calls_two (v w : Word) :
    argint (p.calls [v, w] ret) 0 = (if p.frame.esp - 8 ≥ p.sz ∨ p.frame.esp - 8 + 4 > p.sz then none else some v.toInt) ∧
    argint (p.calls [v, w] ret) 1 = if p.frame.esp - 4 ≥ p.sz ∨ p.frame.esp - 4 + 4 > p.sz then none else some w.toInt := by
  have hmem : (p.calls [v, w] ret).mem =
      store32 (store32 (store32 p.mem (p.frame.esp - 4) w) (p.frame.esp - 4 - 4) v) (p.frame.esp - 4 - 4 - 4) ret := rfl
  have haddr : argAddr (p.calls [v, w] ret) 0 = p.frame.esp - 8 ∧ argAddr (p.calls [v, w] ret) 1 = p.frame.esp - 4 := by
    simp only [argAddr, Proc.calls, List.foldr_cons, List.foldr_nil]
    constructor <;> bv_omega
  have hfirst : load32 (p.calls [v, w] ret).mem (p.frame.esp - 8) = v := by
    rw [hmem, load32_store32_of_ne _ _ (by bv_omega) (by bv_omega), show p.frame.esp - 8 = p.frame.esp - 4 - 4 by bv_omega,
      load32_store32]
  have hsecond : load32 (p.calls [v, w] ret).mem (p.frame.esp - 4) = w := by
    rw [hmem, load32_store32_of_ne _ _ (by bv_omega) (by bv_omega), load32_store32_of_ne _ _ (by bv_omega) (by bv_omega),
      load32_store32]
  have hsz : (p.calls [v, w] ret).sz = p.sz := by simp only [Proc.calls, List.foldr_cons, List.foldr_nil]
  simp only [argint, haddr.1, haddr.2, fetchint, hfirst, hsecond, hsz, and_self]

theorem sysSignal_calls :
    let call := p.calls [BitVec.ofNat 32 sigalrm, handler] ret
    (¬Accepts call ∧ (sysSignal (k.set i call) i).1 = -1) ∨
    Accepts call ∧ ¬(p.frame.esp - 4 ≥ p.sz ∨ p.frame.esp - 4 + 4 > p.sz) ∧
      ∃ k', sysSignal (k.set i call) i = (p.sighandlers sigalrm, k') ∧ (k'.proc i).sz = p.sz ∧
        (k'.proc i).sighandlers sigalrm = handler := by
  intro call
  obtain ⟨h0, h1⟩ := argint_calls_two p ret (BitVec.ofNat 32 sigalrm) handler
  change argint call 0 = _ at h0
  change argint call 1 = _ at h1
  have hsz : call.sz = p.sz := by simp only [call, Proc.calls, List.foldr_cons, List.foldr_nil]
  have hhandlers : call.sighandlers = p.sighandlers := by simp only [call, Proc.calls, List.foldr_cons, List.foldr_nil]
  -- The stores of the call are not to be looked at any more.
  clear_value call
  unfold sysSignal
  rw [Kernel.set_self]
  split at h0
  · refine .inl ⟨?_, by rw [h0]⟩
    rintro ⟨_, _, hsome, -⟩
    rw [h0] at hsome
    cases hsome
  · split at h1
    · refine .inl ⟨?_, by rw [h0, h1]⟩
      rintro ⟨_, _, -, hsome, -⟩
      rw [h1] at hsome
      cases hsome
    · rename_i hinside
      refine .inr ⟨⟨_, _, h0, h1, by decide, by decide⟩, hinside,
        (k.set i call).set i { call with sighandlers := Function.update call.sighandlers sigalrm handler }, ?_, ?_, ?_⟩
      · rw [h0, h1, ← hhandlers]
        simp only [Kernel.signal, BitVec.ofInt_toInt, Kernel.set_self]
        rw [dif_neg (by decide)]
        rfl
      · rw [Kernel.set_self]
        exact hsz
      · rw [Kernel.set_self]
        exact Function.update_self sigalrm handler call.sighandlers

theorem sysAlarm_calls {p : Proc} (hinside : ¬(p.frame.esp - 4 ≥ p.sz ∨ p.frame.esp - 4 + 4 > p.sz)) :
    (sysAlarm (p.calls [BitVec.ofInt 32 uthreadQuanta] ret)).alarmTicksNum = uthreadQuanta ∧
    (sysAlarm (p.calls [BitVec.ofInt 32 uthreadQuanta] ret)).sighandlers = p.sighandlers := by
  rw [sysAlarm, argint_calls_one, if_neg hinside]
  exact ⟨rfl, rfl⟩

theorem initProcess_threads :
    let previous := (sysSignal (k.set i ((k.proc i).calls [BitVec.ofNat 32 sigalrm, handler] ret)) i).1
    (initProcess k i t handler ret ret').1 = (uthreadInit t previous).1 ∧
    (initProcess k i t handler ret ret').2.1 = (uthreadInit t previous).2 := by
  unfold initProcess
  dsimp only
  split <;> exact ⟨rfl, rfl⟩

end

/-- `uthread_init` agrees with `signal` exactly if the kernel rejects the call or the handler that it replaces is 0. -/
theorem init_agrees_iff (k : Kernel) (i : Fin nproc) (t : Threads) (handler ret ret' : Word) :
    let accepted := Accepts ((k.proc i).calls [BitVec.ofNat 32 sigalrm, handler] ret)
    Agrees i handler accepted (initProcess k i t handler ret ret') ↔ (accepted → (k.proc i).sighandlers sigalrm = 0) := by
  intro accepted
  have hthreads := initProcess_threads k i t handler ret ret'
  rcases sysSignal_calls k i (k.proc i) handler ret with ⟨hrej, hneg⟩ | ⟨hacc, hinside, k', hprev, hsz, hhandler⟩
  · rw [hneg] at hthreads
    refine iff_of_true ⟨iff_of_true ?_ hrej, fun h => absurd h hrej⟩ fun h => absurd h hrej
    rw [hthreads.1]
    rfl
  · rw [hprev] at hthreads
    replace hinside : ¬((k.proc i).frame.esp - 4 ≥ (k'.proc i).sz ∨ (k.proc i).frame.esp - 4 + 4 > (k'.proc i).sz) := by
      rw [hsz]
      exact hinside
    by_cases h0 : (k.proc i).sighandlers sigalrm = 0
    · refine iff_of_true ⟨iff_of_false ?_ (not_not.mpr hacc), fun _ => ⟨?_, ?_, ?_, fun j hj => ?_, ?_⟩⟩ fun _ => h0
      · simp [hthreads.1, h0, uthreadInit]
      · simp [hthreads.1, h0, uthreadInit]
      · simp only [initProcess, hprev, h0, ne_eq, not_true_eq_false, if_false, Kernel.set_self]
        rw [(sysAlarm_calls (p := { k'.proc i with frame.esp := (k.proc i).frame.esp }) ret' hinside).2]
        exact hhandler
      · simp [hthreads.2, h0, uthreadInit]
      · simp [hthreads.2, h0, uthreadInit, hj]
      · simp only [initProcess, hprev, h0, ne_eq, not_true_eq_false, if_false, Kernel.set_self]
        exact (sysAlarm_calls (p := { k'.proc i with frame.esp := (k.proc i).frame.esp }) ret' hinside).1
    · refine iff_of_false (fun h => h.fails.mp ?_ hacc) fun h => h0 (h hacc)
      rw [hthreads.1, uthreadInit]
      dsimp only
      rw [if_pos h0]

/-- In the first process, whose handlers are the default ones, the kernel installs `uthread_yield`, and `uthread_init`
    fails and starts no countdown. -/
theorem init_fails_by_default :
    let p := (bootKernel.proc 0).calls [BitVec.ofNat 32 sigalrm, 0x200] 0x40
    let r := initProcess bootKernel 0 (zeroed 1 ⟨0x1000, 0x1000⟩ fun _ => 0) 0x200 0x40 0x60
    (bootKernel.proc 0).sighandlers sigalrm = defualtHandlerAdd ∧ Accepts p ∧ r.1 = -1 ∧
    (r.2.2.proc 0).sighandlers sigalrm = 0x200 ∧ (r.2.2.proc 0).alarmTicksNum = 0 ∧ ¬Agrees 0 0x200 (Accepts p) r := by
  have hacc : Accepts ((bootKernel.proc 0).calls [BitVec.ofNat 32 sigalrm, 0x200] 0x40) :=
    ⟨14, 0x200, by decide +kernel, by decide +kernel, by decide, by decide⟩
  refine ⟨by decide +kernel, hacc, by decide +kernel, by decide +kernel, by decide +kernel, fun h => ?_⟩
  exact h.fails.mp (by decide +kernel) hacc

end Xv6.Ult
