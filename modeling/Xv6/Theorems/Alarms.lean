import Xv6.Theorems.Pids

/-! Countdowns. `alarm` sets the count of its caller, `fork` gives the child what is left of its parent's, and every
    tick takes one from each count that is positive, in whatever state the slot is. -/

namespace Xv6
open Lib

/-- What a step sets the count of slot `j` to. -/
def countSet (j : Fin nproc) : Kernel × Action → Option Int
  | (_, .alarm i ticksNum _) => if i = j then some ticksNum else none
  | (k, .fork i kstack pgdir) =>
    if k.freeSlot = some j then some (if kstack = 0 ∨ pgdir = 0 then 0 else (k.proc i).alarmTicksNum) else none
  | _ => none

def Action.isTick : Action → Bool
  | .tick => true
  | _ => false

def ticksIn (tr : List (Kernel × Action)) : Nat := tr.countP fun x => x.2.isTick

/-- The count of slot `j` was last set to `n`, and `t` ticks ago. -/
def LastSet (tr : List (Kernel × Action)) (j : Fin nproc) (n : Int) (t : Nat) : Prop :=
  ∃ before x after, tr = before ++ x :: after ∧ countSet j x = some n ∧ (∀ y ∈ after, countSet j y = none) ∧
    ticksIn after = t

/-- With the next tick, it is as many ticks as the count was set to. -/
def Due (tr : List (Kernel × Action)) (j : Fin nproc) : Prop := ∃ n t, LastSet tr j n t ∧ 0 < n ∧ (t : Int) + 1 = n

section Counts
variable {k k' : Kernel} {i j : Fin nproc} {L : Layout} {a : Action} {x : Kernel × Action} {tr : List (Kernel × Action)}
  {n : Int} {t : Nat} {count : Int} {kstack pgdir cwd : Addr} {initcode : Mem}

/-! ### The last setting -/

theorem not_lastSet_nil : ¬LastSet [] j n t := by
  rintro ⟨before, x, after, h, -⟩
  simp at h

theorem lastSet_snoc : LastSet (tr ++ [x]) j n t ↔
    countSet j x = some n ∧ t = 0 ∨ countSet j x = none ∧ ∃ u, LastSet tr j n u ∧ t = u + ticksIn [x] := by
  constructor
  · rintro ⟨before, y, after, h, hy, hafter, rfl⟩
    -- The setting is the new step, or it is in the old run.
    rcases List.eq_nil_or_concat after with rfl | ⟨after, z, rfl⟩
    · obtain ⟨-, hx⟩ := List.append_inj' h rfl
      obtain rfl := List.singleton_inj.mp hx
      exact .inl ⟨hy, rfl⟩
    · rw [List.concat_eq_append] at h hafter ⊢
      rw [← List.cons_append, ← List.append_assoc] at h
      obtain ⟨rfl, hx⟩ := List.append_inj' h rfl
      obtain rfl := List.singleton_inj.mp hx
      refine .inr ⟨hafter x (by simp), ticksIn after, ⟨before, y, after, rfl, hy, fun y hy => hafter y (by simp [hy]), rfl⟩,
        ?_⟩
      simp [ticksIn, List.countP_append]
  · rintro (⟨hx, rfl⟩ | ⟨hx, u, ⟨before, y, after, rfl, hy, hafter, rfl⟩, rfl⟩)
    · exact ⟨tr, x, [], rfl, hx, by simp, rfl⟩
    · refine ⟨before, y, after ++ [x], by simp, hy, fun z hz => ?_, by simp [ticksIn, List.countP_append]⟩
      rcases List.mem_append.mp hz with hz | hz
      · exact hafter z hz
      · rw [List.mem_singleton.mp hz, hx]

theorem LastSet.unique {n' : Int} {t' : Nat} (h : LastSet tr j n t) (h' : LastSet tr j n' t') : n = n' ∧ t = t' := by
  induction tr using List.reverseRecOn generalizing t t' with
  | nil => exact absurd h not_lastSet_nil
  | append_singleton tr x ih =>
    rcases lastSet_snoc.mp h with ⟨hx, rfl⟩ | ⟨hx, u, hu, rfl⟩
    · rcases lastSet_snoc.mp h' with ⟨hx', rfl⟩ | ⟨hx', -⟩
      · exact ⟨Option.some.inj (hx.symm.trans hx'), rfl⟩
      · exact absurd (hx.symm.trans hx') nofun
    · rcases lastSet_snoc.mp h' with ⟨hx', -⟩ | ⟨-, u', hu', rfl⟩
      · exact absurd (hx.symm.trans hx') nofun
      · obtain ⟨rfl, rfl⟩ := ih hu hu'
        exact ⟨rfl, rfl⟩

theorem LastSet.append {tr' : List (Kernel × Action)} (h : LastSet tr j n t) (htr' : ∀ y ∈ tr', countSet j y = none) :
    LastSet (tr ++ tr') j n (t + ticksIn tr') := by
  obtain ⟨before, x, after, rfl, hx, hafter, rfl⟩ := h
  refine ⟨before, x, after ++ tr', by simp, hx, fun y hy => ?_, by simp [ticksIn, List.countP_append]⟩
  rcases List.mem_append.mp hy with hy | hy
  · exact hafter y hy
  · exact htr' y hy

/-! ### A step -/

def ticked (a : Action) (count : Int) : Int := if a.isTick ∧ 0 < count then count - 1 else count

theorem tick_count (p : Proc) :
    (Kernel.tick p).alarmTicksNum = if 0 < p.alarmTicksNum then p.alarmTicksNum - 1 else p.alarmTicksNum := by
  unfold Kernel.tick
  dsimp only
  split_ifs <;> rfl

theorem Edits.alarmTicksNum {p q : Proc} (h : Edits L k a j p q) (hset : ∀ n eax, a ≠ .alarm j n eax) (htick : a ≠ .tick) :
    q.alarmTicksNum = p.alarmTicksNum := by
  induction h with
  | refl => rfl
  | tail _ h ih =>
    refine Eq.trans ?_ ih
    cases h with
    | alarm ha => exact absurd ha (hset _ _)
    | tick ha => exact absurd ha htick
    | own _ hown => exact congrArg (fun t => t.2.1) hown.tag
    | _ => rfl

theorem step_count (ha : Tame k a) (hs : k.step L a = some k') (j : Fin nproc) :
    (k'.proc j).alarmTicksNum = (countSet j (k, a)).getD (ticked a (k.proc j).alarmTicksNum) := by
  cases a with
  | fork i kstack pgdir =>
    unfold Kernel.step at hs
    obtain ⟨hi, rfl⟩ := byRunning_eq hs
    rw [(((Edited.refl (L := L) (k := k) (a := .fork i kstack pgdir) _).ret i _).slot j).alarmTicksNum (by simp) (by simp)]
    simp only [countSet]
    have hforked := fork_forked hi kstack pgdir
    generalize (k.fork i kstack pgdir).2 = k' at hforked ⊢
    cases hforked with
    | full hfree =>
      rw [hfree]
      rfl
    | @failed c _ _ _ _ _ hfree hfail =>
      rw [hfree]
      by_cases hc : c = j
      · rw [if_pos (congrArg some hc), if_pos hfail, hc, Kernel.set_self]
        rfl
      · rw [if_neg (fun h => hc (Option.some.inj h)), Kernel.set_of_ne _ _ (Ne.symm hc)]
        rfl
    | @child c _ _ hfree hok =>
      rw [hfree]
      by_cases hc : c = j
      · rw [if_pos (congrArg some hc), if_neg hok, hc, Kernel.set_self]
        rfl
      · rw [if_neg (fun h => hc (Option.some.inj h)), Kernel.set_of_ne _ _ (Ne.symm hc)]
        rfl
  | alarm i ticksNum eax =>
    unfold Kernel.step at hs
    obtain ⟨hi, rfl⟩ := byRunning_eq hs
    simp only [countSet]
    by_cases hij : i = j
    · rw [hij, if_pos rfl, Kernel.ret, Kernel.set_self, Kernel.set_self]
      rfl
    · rw [if_neg hij, Kernel.ret_of_ne _ _ (Ne.symm hij), Kernel.set_of_ne _ _ (Ne.symm hij)]
      rfl
  | tick =>
    obtain rfl := Option.some.inj hs
    simp [Kernel.alarm, tick_count, countSet, ticked, Action.isTick]
  | wild => exact absurd ha Bool.false_ne_true
  | _ =>
    cases step_cases hs with
    | edited he => exact (he.slot j).alarmTicksNum (by simp) (by simp)

/-! ### Runs -/

def remaining (n : Int) (t : Nat) : Int := if 0 < n then max (n - t) 0 else n

/-- The count of slot `j` is what is left of its last setting. -/
structure CountKnown (tr : List (Kernel × Action)) (j : Fin nproc) (count : Int) : Prop where
  set : ∀ n t, LastSet tr j n t → count = remaining n t
  unset : (∀ n t, ¬LastSet tr j n t) → count = 0

theorem ticked_remaining (a : Action) (k : Kernel) (n : Int) (t : Nat) :
    ticked a (remaining n t) = remaining n (t + ticksIn [(k, a)]) := by
  have hone : ticksIn [(k, a)] = if a.isTick then 1 else 0 := by simp [ticksIn, List.countP_cons]
  rw [hone]
  unfold ticked remaining
  by_cases hn : 0 < n
  · simp only [if_pos hn]
    cases a.isTick
    · simp
    · simp
      omega
  · simp only [if_neg hn, ite_eq_right_iff, and_imp]
    intro _ h
    exact absurd h hn

theorem CountKnown.step (h : CountKnown tr j count) (x : Kernel × Action) :
    CountKnown (tr ++ [x]) j ((countSet j x).getD (ticked x.2 count)) := by
  cases hx : countSet j x with
  | some m =>
    refine ⟨fun n t hset => ?_, fun hno => absurd (lastSet_snoc.mpr (.inl ⟨hx, rfl⟩)) (hno m 0)⟩
    rcases lastSet_snoc.mp hset with ⟨hm, rfl⟩ | ⟨hm, -⟩
    · obtain rfl := Option.some.inj (hx.symm.trans hm)
      rw [Option.getD_some, remaining]
      split <;> omega
    · exact absurd (hx.symm.trans hm) nofun
  | none =>
    refine ⟨fun n t hset => ?_, fun hno => ?_⟩
    · rcases lastSet_snoc.mp hset with ⟨hm, -⟩ | ⟨-, u, hu, rfl⟩
      · exact absurd (hx.symm.trans hm) nofun
      · rw [Option.getD_none, h.set n u hu]
        exact ticked_remaining x.2 x.1 n u
    · have hcount := h.unset fun n t hset => hno n _ (lastSet_snoc.mpr (.inr ⟨hx, t, hset, rfl⟩))
      simp [hcount, ticked]

theorem userinit_count (j : Fin nproc) :
    ((Kernel.zeroed.userinit kstack pgdir initcode cwd).proc j).alarmTicksNum = 0 :=
  userinit_slot (P := fun p => p.alarmTicksNum = 0) rfl rfl (fun _ _ _ => rfl) j

theorem run_count
    (hr : Run (OfStep (Kernel.step L)) (Kernel.zeroed.userinit kstack pgdir initcode cwd) tr k) (hG : Meets Tame tr)
    (j : Fin nproc) : CountKnown tr j (k.proc j).alarmTicksNum := by
  induction hr with
  | nil => exact ⟨fun n t h => absurd h not_lastSet_nil, fun _ => userinit_count j⟩
  | @snoc tr k k' a hr hs ih =>
    obtain ⟨hG, hg⟩ := meets_snoc.mp hG
    rw [step_count hg hs j]
    exact (ih hG).step (k, a)

theorem CountKnown.due_iff (h : CountKnown tr j count) : count = 1 ↔ Due tr j := by
  constructor
  · intro hcount
    by_contra hno
    have hnone : ∀ n t, ¬LastSet tr j n t := fun n t hset => by
      have hrem := h.set n t hset
      unfold remaining at hrem
      split at hrem
      · exact hno ⟨n, t, hset, ‹_›, by omega⟩
      · omega
    have := h.unset hnone
    omega
  · rintro ⟨n, t, hset, hn, ht⟩
    rw [h.set n t hset, remaining, if_pos hn]
    omega

theorem tick_pending (p : Proc) : (Kernel.tick p).pending =
    if p.alarmTicksNum = 1 then Function.update p.pending sigalrm 1 else p.pending := by
  unfold Kernel.tick
  dsimp only
  by_cases h : p.alarmTicksNum = 1
  · simp [h]
  · rw [if_neg h]
    split_ifs
    · omega
    · rfl
    · rfl

end Counts

/-! ### Without `signal` -/

/-- The step is no call of `signal`. -/
def signalless : Action → Bool
  | .signal _ _ _ => false
  | _ => true

def Signalless (_ : Kernel) (a : Action) : Prop := signalless a = true

instance (k : Kernel) (a : Action) : Decidable (Signalless k a) := inferInstanceAs (Decidable (_ = true))

def DefaultHandlers (k : Kernel) : Prop := ∀ j, Live (k.proc j) → (k.proc j).sighandlers = fun _ => defualtHandlerAdd

section Default
variable {k k' : Kernel} {j : Fin nproc} {L : Layout} {a : Action} {p q : Proc} {tr : List (Kernel × Action)}

theorem Own.sighandlers (h : Own L k j a q) (ha : Signalless k a) : q.sighandlers = (k.proc j).sighandlers := by
  cases h with
  | exec hexec => cases Proc.exec_end hexec <;> rfl
  | sbrk hgrow =>
    obtain ⟨sz, mem, rfl⟩ := growproc_some hgrow
    rfl
  | signal => exact absurd ha Bool.false_ne_true
  | sigreturn => simp [Kernel.sigreturn]
  | nested | trapret =>
    rw [handlingSignal_eq]
    rfl
  | trap | other => rfl

theorem DefaultHandlers.tame (h : DefaultHandlers k) (hs : k.step L a = some k') : Tame k a := by
  unfold Kernel.step at hs
  cases a with
  | wild i k₁ =>
    obtain ⟨hrun, hs⟩ := byRunning_some hs
    have hnone : userSignals (k.proc i) = [] := by
      rw [userSignals, List.filter_eq_nil_iff]
      intro s _ hp
      exact (of_decide_eq_true hp).2 (congrFun (h i (Busy.live (.inr (.inr hrun)))) s)
    rw [if_pos ((storesInside_iff_range _).mpr (by simp [hnone]))] at hs
    cases hs
  | _ => rfl

theorem DefaultHandlers.step (h : DefaultHandlers k) (ha : Signalless k a) (hs : k.step L a = some k') :
    DefaultHandlers k' :=
  step_keeps (P := fun c => c.sighandlers = fun _ => defualtHandlerAdd) hs (h.tame hs) h
    (fun _ _ hq => (hq.sighandlers ha).trans) fun _ _ _ => rfl

theorem run_tame {kstack pgdir cwd : Addr} {initcode : Mem}
    (hr : Run (OfStep (Kernel.step L)) (Kernel.zeroed.userinit kstack pgdir initcode cwd) tr k) (hG : Meets Signalless tr) :
    Meets Tame tr ∧ DefaultHandlers k := by
  induction hr with
  | nil => exact ⟨fun _ h => absurd h List.not_mem_nil, fun j hlive => (userinit_live hlive).2.1⟩
  | snoc hr hs ih =>
    obtain ⟨hG, hg⟩ := meets_snoc.mp hG
    obtain ⟨htame, hdefault⟩ := ih hG
    exact ⟨meets_snoc.mpr ⟨htame, hdefault.tame hs⟩, hdefault.step hg hs⟩

end Default

open Classical in
/-- As long as no process calls `signal`, a tick makes the signal pending for exactly the slots whose count was last set,
    to a positive value, that many ticks ago. -/
theorem alarms_exact {L : Layout} {kstack pgdir cwd : Addr} {initcode : Mem} {tr : List (Kernel × Action)} {k : Kernel}
    (hr : Run (OfStep (Kernel.step L)) (Kernel.zeroed.userinit kstack pgdir initcode cwd) tr k) (hG : Meets Signalless tr)
    (j : Fin nproc) :
    (k.alarm.proc j).pending = (if Due tr j then Function.update (k.proc j).pending sigalrm 1 else (k.proc j).pending) ∧
      (∀ n t, LastSet tr j n t → n ≤ 0 → ¬Due tr j) ∧
      ∀ tr₁ k₁ tr₂, tr = tr₁ ++ (k₁, .tick) :: tr₂ → Due tr₁ j → (∀ y ∈ tr₂, countSet j y = none) → ¬Due tr j := by
  have hcount := run_count hr (run_tame hr hG).1 j
  refine ⟨?_, fun n t hset hn hdue => ?_, fun tr₁ k₁ tr₂ htr hdue hsince hagain => ?_⟩
  · calc (k.alarm.proc j).pending = (Kernel.tick (k.proc j)).pending := rfl
      _ = _ := by rw [tick_pending, if_congr hcount.due_iff rfl rfl]
  · obtain ⟨n', t', hset', hn', -⟩ := hdue
    obtain ⟨rfl, -⟩ := hset.unique hset'
    omega
  · -- Both ticks count from the same setting, and the second one comes later.
    obtain ⟨n, t, hset, -, ht⟩ := hdue
    obtain ⟨n', t', hset', -, ht'⟩ := hagain
    have hkept : LastSet tr j n (t + ticksIn ((k₁, .tick) :: tr₂)) := by
      rw [htr]
      refine hset.append fun y hy => ?_
      rcases List.mem_cons.mp hy with rfl | hy
      · rfl
      · exact hsince y hy
    have hlater : 1 ≤ ticksIn ((k₁, .tick) :: tr₂) := by simp [ticksIn, Action.isTick]
    obtain ⟨rfl, rfl⟩ := hkept.unique hset'
    omega

/-- The first process calls `alarm(2)` and `fork` and sends itself a signal; the second tick after that makes the signal
    pending for the child as well. -/
theorem alarms_exact_two : ∃ tr k, Run (OfStep (Kernel.step bootLayout)) bootKernel tr k ∧
    tr.map (·.2) = [.scheduler 0, .alarm 0 2 0, .fork 0 0x80500000 0x80600000, .sigsend 0 1 3, .tick] ∧
    ∀ j ∈ [(0 : Fin nproc), 1], Due tr j ∧ (k.alarm.proc j).pending = Function.update (k.proc j).pending sigalrm 1 := by
  obtain ⟨tr, k, hr, hl, hG, hcount⟩ := Run.exists_of_traceOf (f := Kernel.step bootLayout) bootKernel
    [.scheduler 0, .alarm 0 2 0, .fork 0 0x80500000 0x80600000, .sigsend 0 1 3, .tick]
    (fun tr k => Meets Signalless tr ∧ ∀ j ∈ [(0 : Fin nproc), 1], (k.proc j).alarmTicksNum = 1) (by decide +kernel)
  refine ⟨tr, k, hr, hl, fun j hj => ?_⟩
  have hdue := (run_count hr (run_tame hr hG).1 j).due_iff.mp (hcount j hj)
  refine ⟨hdue, ?_⟩
  rw [(alarms_exact hr hG j).1, if_pos hdue]

end Xv6
