import Xv6.Theorems.Inherit

/-! Which process `kill` and `sigsend` hit. Both compare pids only, so that they find the process that is named as
    long as no free slot has its pid: a slot that `wait` has freed has pid 0, and one whose `fork` failed keeps the pid
    that it was given. -/

namespace Xv6
open Lib

/-! ### Pids in the slots -/

/-- The slot keeps its pid, or is freed and has none. -/
def PidKept (p q : Proc) : Prop :=
  q.pid = p.pid ∧ (q.state = .unused ↔ p.state = .unused) ∨ q.pid = 0 ∧ q.state = .unused

section PidKept
variable {k : Kernel} {j : Fin nproc} {p q r : Proc} {L : Layout} {a : Action}

theorem PidKept.trans (h : PidKept p q) (h' : PidKept q r) : PidKept p r := by
  rcases h' with ⟨hpid', hfree'⟩ | h'
  · rcases h with ⟨hpid, hfree⟩ | ⟨hpid, hfree⟩
    · exact .inl ⟨hpid'.trans hpid, hfree'.trans hfree⟩
    · exact .inr ⟨hpid'.trans hpid, hfree'.mpr hfree⟩
  · exact .inr h'

def Proc.tag (p : Proc) : Int × Int × ProcState := (p.pid, p.alarmTicksNum, p.state)

theorem Own.tag (h : Own L k j a q) : q.tag = (k.proc j).tag := by
  cases h with
  | exec hexec => cases Proc.exec_end hexec <;> rfl
  | sbrk hgrow =>
    obtain ⟨sz, mem, rfl⟩ := growproc_some hgrow
    rfl
  | sigreturn => simp [Kernel.sigreturn, Proc.tag]
  | nested | trapret =>
    rw [handlingSignal_eq]
    rfl
  | trap | signal | other => rfl

theorem Edit.pidKept (h : Edit L k a j p q) : PidKept p q := by
  cases h with
  | move hp hq =>
    refine .inl ⟨rfl, iff_of_false ?_ hp.live.1⟩
    rcases hq with rfl | rfl | ⟨rfl, -⟩ <;> simp
  | exit _ hrun => exact .inl ⟨rfl, by simp [hrun]⟩
  | reap => exact .inr ⟨rfl, rfl⟩
  | own _ hown =>
    have hstate : q.state = (k.proc j).state := congrArg (fun t => t.2.2) hown.tag
    exact .inl ⟨congrArg Prod.fst hown.tag, by rw [hstate]⟩
  | _ => exact .inl ⟨rfl, Iff.rfl⟩

theorem Edits.pidKept (h : Edits L k a j p q) : PidKept p q := by
  induction h with
  | refl => exact .inl ⟨rfl, Iff.rfl⟩
  | tail _ h ih => exact ih.trans h.pidKept

end PidKept

/-! ### Free slots -/

/-- The pids that were given to slots whose `fork` failed. -/
def failedPids (tr : List (Kernel × Action)) : List Int :=
  tr.filterMap fun x =>
    match x.2 with
    | .fork _ kstack pgdir => if x.1.freeSlot.isSome ∧ (kstack = 0 ∨ pgdir = 0) then some x.1.nextpid else none
    | _ => none

/-- Every fork is made before the pids become negative, and no delivery stores outside the process's memory. -/
def Kernel.beforeWrap (k : Kernel) : Action → Bool
  | .fork _ _ _ => 0 < k.nextpid
  | .wild _ _ => false
  | _ => true

def Kernel.BeforeWrap (k : Kernel) (a : Action) : Prop := k.beforeWrap a = true

instance (k : Kernel) (a : Action) : Decidable (k.BeforeWrap a) := inferInstanceAs (Decidable (_ = true))

/-- The next pid is `b`; a process has the only slot with its pid, and a free slot has pid 0 or that of a `fork` that
    failed. -/
structure PidsBelow (failed : List Int) (b : Int) (k : Kernel) : Prop where
  next : k.nextpid = int32 b
  range : 1 ≤ b ∧ b ≤ 0x80000000
  below : ∀ i, 0 ≤ (k.proc i).pid ∧ (k.proc i).pid < b
  used : ∀ i, (k.proc i).state ≠ .unused → 0 < (k.proc i).pid
  apart : ∀ i j, (k.proc i).state ≠ .unused → (k.proc i).pid = (k.proc j).pid → i = j
  free : ∀ i, (k.proc i).state = .unused → (k.proc i).pid = 0 ∨ (k.proc i).pid ∈ failed

section Pids
variable {k k' k₁ : Kernel} {i j : Fin nproc} {L : Layout} {a : Action} {b : Int} {failed failed' : List Int}
  {kstack pgdir : Addr} {tr : List (Kernel × Action)}

theorem PidsBelow.edited (h : PidsBelow failed b k₁) (he : Edited L k a k₁ k') : PidsBelow failed b k' := by
  have hslot (x : Fin nproc) : PidKept (k₁.proc x) (k'.proc x) := (he.slot x).pidKept
  have hpid {x : Fin nproc} (hx : (k'.proc x).state ≠ .unused) :
      (k'.proc x).pid = (k₁.proc x).pid ∧ (k₁.proc x).state ≠ .unused := by
    rcases hslot x with ⟨hpid, hfree⟩ | ⟨-, hfree⟩
    · exact ⟨hpid, mt hfree.mpr hx⟩
    · exact absurd hfree hx
  refine ⟨he.nextpid.trans h.next, h.range, fun x => ?_, fun x hx => ?_, fun x y hx heq => ?_, fun x hx => ?_⟩
  · rcases hslot x with ⟨hpid, -⟩ | ⟨hpid, -⟩
    · rw [hpid]
      exact h.below x
    · have := h.range.1
      omega
  · rw [(hpid hx).1]
    exact h.used x (hpid hx).2
  · have hused := h.used x (hpid hx).2
    rw [(hpid hx).1] at heq
    rcases hslot y with ⟨hy, -⟩ | ⟨hy, -⟩
    · rw [hy] at heq
      exact h.apart x y (hpid hx).2 heq
    · omega
  · rcases hslot x with ⟨hpid, hfree⟩ | ⟨hpid, -⟩
    · rw [hpid]
      exact h.free x (hfree.mp hx)
    · exact .inl hpid

theorem PidsBelow.mono (h : PidsBelow failed b k) (hsub : failed ⊆ failed') : PidsBelow failed' b k :=
  ⟨h.next, h.range, h.below, h.used, h.apart, fun i hi => (h.free i hi).imp_right fun hm => hsub hm⟩

theorem int32_of_range {b : Int} (h : 1 ≤ b ∧ b < 0x80000000) : int32 b = b := by
  unfold int32
  rw [Int.bmod_def]
  split <;> omega

theorem lt_of_int32_pos {b : Int} (hb : 1 ≤ b ∧ b ≤ 0x80000000) (h : 0 < int32 b) : b < 0x80000000 := by
  by_contra hc
  have heq : b = 0x80000000 := by omega
  rw [heq] at h
  exact absurd h (by decide)

/-- The next pid goes to slot `j`. -/
theorem PidsBelow.give {p : Proc} {initproc : Option (Fin nproc)} (h : PidsBelow failed b k) (hpos : 0 < k.nextpid)
    (hpid : p.pid = k.nextpid)
    (hfailed : failed ⊆ failed') (hnew : p.state = .unused → k.nextpid ∈ failed') :
    PidsBelow failed' (b + 1) ({ k with nextpid := int32 (k.nextpid + 1), initproc }.set j p) := by
  have hb := lt_of_int32_pos h.range (h.next ▸ hpos)
  have hnextb : k.nextpid = b := h.next.trans (int32_of_range ⟨h.range.1, hb⟩)
  have hself : ({ k with nextpid := int32 (k.nextpid + 1), initproc }.set j p).proc j = p := Kernel.set_self ..
  have hne {x : Fin nproc} (hx : x ≠ j) :
      ({ k with nextpid := int32 (k.nextpid + 1), initproc }.set j p).proc x = k.proc x :=
    Kernel.set_of_ne _ _ hx
  refine ⟨by rw [← hnextb]; rfl, ⟨by omega, by omega⟩, fun x => ?_, fun x hx => ?_, fun x y hx heq => ?_, fun x hx => ?_⟩
  · by_cases hxj : x = j
    · rw [hxj, hself, hpid, hnextb]
      omega
    · have := h.below x
      rw [hne hxj]
      omega
  · by_cases hxj : x = j
    · rw [hxj, hself, hpid]
      exact hpos
    · rw [hne hxj] at hx ⊢
      exact h.used x hx
  · -- The new pid is above all others.
    have hbelow {z : Fin nproc} : (k.proc z).pid ≠ p.pid := by
      have := h.below z
      rw [hpid, hnextb]
      omega
    by_cases hxj : x = j
    · by_cases hyj : y = j
      · rw [hxj, hyj]
      · rw [hxj, hself, hne hyj] at heq
        exact absurd heq.symm hbelow
    · by_cases hyj : y = j
      · rw [hyj, hself, hne hxj] at heq
        exact absurd heq hbelow
      · rw [hne hxj, hne hyj] at heq
        rw [hne hxj] at hx
        exact h.apart x y hx heq
  · by_cases hxj : x = j
    · rw [hxj, hself] at hx ⊢
      rw [hpid]
      exact .inr (hnew hx)
    · rw [hne hxj] at hx ⊢
      exact (h.free x hx).imp_right fun hm => hfailed hm

theorem PidsBelow.fork (h : PidsBelow failed b k) (hpos : 0 < k.nextpid) (hf : Forked k i kstack pgdir k')
    (hfailed : failed ⊆ failed')
    (hnew : k.freeSlot.isSome ∧ (kstack = 0 ∨ pgdir = 0) → k.nextpid ∈ failed') : ∃ b, PidsBelow failed' b k' := by
  cases hf with
  | full => exact ⟨b, h.mono hfailed⟩
  | failed hfree hfail => exact ⟨b + 1, h.give hpos rfl hfailed fun _ => hnew ⟨by rw [hfree]; rfl, hfail⟩⟩
  | child => exact ⟨b + 1, h.give hpos rfl hfailed nofun⟩

theorem failedPids_snoc (tr : List (Kernel × Action)) (k : Kernel) (a : Action) :
    failedPids tr ⊆ failedPids (tr ++ [(k, a)]) := by
  unfold failedPids
  rw [List.filterMap_append]
  exact List.subset_append_left _ _

theorem mem_failedPids
    (h : k.freeSlot.isSome ∧ (kstack = 0 ∨ pgdir = 0)) : k.nextpid ∈ failedPids (tr ++ [(k, .fork i kstack pgdir)]) := by
  unfold failedPids
  rw [List.filterMap_append, List.mem_append]
  refine .inr ?_
  simp only [List.filterMap_cons, List.filterMap_nil, if_pos h]
  exact List.mem_singleton_self _

theorem PidsBelow.step (h : PidsBelow (failedPids tr) b k) (hG : k.BeforeWrap a)
    (hs : k.step L a = some k') : ∃ b, PidsBelow (failedPids (tr ++ [(k, a)])) b k' := by
  cases step_cases hs with
  | edited he => exact ⟨b, (h.edited he).mono (failedPids_snoc ..)⟩
  | @fork i kstack pgdir _ _ _ hf he =>
    have hpos : 0 < k.nextpid := of_decide_eq_true hG
    obtain ⟨b, hb⟩ := h.fork hpos hf (failedPids_snoc tr k (.fork i kstack pgdir)) mem_failedPids
    exact ⟨b, hb.edited he⟩
  | wild => exact absurd hG Bool.false_ne_true

end Pids

/-! ### Hits -/

/-- A call that names a process by `pid` finds it if there is one, and makes `change` of it alone. -/
structure Hits (k : Kernel) (pid : Int) (change : Proc → Proc) (r : Int × Kernel) : Prop where
  found : (∃ i, (k.proc i).state ≠ .unused ∧ (k.proc i).pid = pid) →
    r.1 = 0 ∧ ∃! i, ((k.proc i).state ≠ .unused ∧ (k.proc i).pid = pid) ∧ r.2 = k.set i (change (k.proc i))
  missed : (¬∃ i, (k.proc i).state ≠ .unused ∧ (k.proc i).pid = pid) → r = (-1, k)

/-- What `kill` does to the process. -/
def Proc.killedBy (p : Proc) : Proc :=
  { p with killed := 1, state := if p.state = .sleeping then .runnable else p.state }

def Proc.sentTo (n : Fin numsig) (p : Proc) : Proc := { p with pending := Function.update p.pending n 1 }

variable {k : Kernel} {kstack pgdir cwd : Addr} {initcode : Mem}

/-- No free slot has the pid. -/
def Kernel.NoStale (k : Kernel) (pid : Int) : Prop := ∀ i, (k.proc i).state = .unused → (k.proc i).pid ≠ pid

/-- The scan takes the first slot with the pid, whatever its state. -/
theorem scan_hits {failed : List Int} {b pid : Int} (h : PidsBelow failed b k) (change : Proc → Proc) {r : Int × Kernel}
    (hr : r = match (List.finRange nproc).find? fun i => (k.proc i).pid = pid with
      | none => (-1, k)
      | some i => (0, k.set i (change (k.proc i)))) : Hits k pid change r ↔ k.NoStale pid := by
  cases hfind : (List.finRange nproc).find? fun i => (k.proc i).pid = pid with
  | none =>
    rw [hfind] at hr
    have hnone (i : Fin nproc) : (k.proc i).pid ≠ pid := by
      simpa using List.find?_eq_none.mp hfind i (List.mem_finRange i)
    exact iff_of_true ⟨fun ⟨i, _, hi⟩ => absurd hi (hnone i), fun _ => hr⟩ fun i _ => hnone i
  | some i =>
    rw [hfind] at hr
    have hi : (k.proc i).pid = pid := by simpa using List.find?_some hfind
    subst hr
    constructor
    · intro hits j hj hjpid
      -- No process has the pid of a free slot, so the call should have missed.
      have hmissed := hits.missed fun ⟨x, hx, hxpid⟩ => hx (h.apart x j hx (hxpid.trans hjpid.symm) ▸ hj)
      cases congrArg Prod.fst hmissed
    · intro hstale
      have hused : (k.proc i).state ≠ .unused := fun hu => hstale i hu hi
      refine ⟨fun _ => ⟨rfl, i, ⟨⟨hused, hi⟩, rfl⟩, ?_⟩, fun hno => absurd ⟨i, hused, hi⟩ hno⟩
      rintro j ⟨⟨hj, hjpid⟩, -⟩
      exact h.apart j i hj (hjpid.trans hi.symm)

theorem userinit_pidsBelow (hk : kstack ≠ 0) :
    PidsBelow [] 2 (Kernel.zeroed.userinit kstack pgdir initcode cwd) := by
  have hzeroed : PidsBelow [] 1 Kernel.zeroed :=
    ⟨rfl, by decide, fun _ => ⟨le_refl _, one_pos⟩, fun _ h => absurd rfl h, fun _ _ h => absurd rfl h, fun _ _ => .inl rfl⟩
  have hbooted := userinit_booted kstack pgdir initcode cwd
  generalize Kernel.zeroed.userinit kstack pgdir initcode cwd = k at hbooted ⊢
  cases hbooted with
  | failed h0 => exact absurd h0 hk
  | ready => exact hzeroed.give (by decide) rfl (List.Subset.refl _) nofun

theorem run_pidsBelow {L : Layout} {tr : List (Kernel × Action)}
    (hk : kstack ≠ 0) (hr : Run (OfStep (Kernel.step L)) (Kernel.zeroed.userinit kstack pgdir initcode cwd) tr k)
    (hG : Meets Kernel.BeforeWrap tr) : ∃ b, PidsBelow (failedPids tr) b k := by
  induction hr with
  | nil => exact ⟨2, userinit_pidsBelow hk⟩
  | snoc hr hs ih =>
    obtain ⟨hG, hg⟩ := meets_snoc.mp hG
    obtain ⟨b, hb⟩ := ih hG
    exact hb.step hg hs

/-- In every table that is reached before the pids wrap around, `kill` and `sigsend` hit exactly the process that is
    named if and only if no free slot has the pid; none has if the pid is not 0 and not that of a `fork` that failed. -/
theorem named_process_hit {L : Layout} {kstack pgdir cwd : Addr} {initcode : Mem} {tr : List (Kernel × Action)} {k : Kernel}
    (hk : kstack ≠ 0) (hr : Run (OfStep (Kernel.step L)) (Kernel.zeroed.userinit kstack pgdir initcode cwd) tr k)
    (hG : Meets Kernel.BeforeWrap tr) (pid : Int) :
    (Hits k pid Proc.killedBy (k.kill pid) ↔ k.NoStale pid) ∧
      ((∀ n : Fin numsig, Hits k pid (Proc.sentTo n) (k.sigsend pid n)) ↔ k.NoStale pid) ∧
      (pid ≠ 0 → pid ∉ failedPids tr → k.NoStale pid) := by
  obtain ⟨b, hb⟩ := run_pidsBelow hk hr hG
  refine ⟨scan_hits hb _ rfl, ?_, fun h0 hf i hi hpid => ?_⟩
  · by_cases hneg : pid < 0
    · -- No slot has a negative pid.
      have hno (i : Fin nproc) : (k.proc i).pid ≠ pid := by
        have := (hb.below i).1
        omega
      refine iff_of_true (fun n => ⟨fun ⟨i, _, hi⟩ => absurd hi (hno i), fun _ => ?_⟩) fun i _ => hno i
      unfold Kernel.sigsend
      rw [dif_pos (.inl hneg)]
    · have hsend (n : Fin numsig) : Hits k pid (Proc.sentTo n) (k.sigsend pid n) ↔ k.NoStale pid := by
        have hn : ¬(pid < 0 ∨ (n : Int) < 0 ∨ (n : Int) > numsig - 1) := by
          have := n.isLt
          simp only [numsig] at this ⊢
          omega
        refine scan_hits hb _ ?_
        unfold Kernel.sigsend
        rw [dif_neg hn]
        rfl
      exact ⟨fun h => (hsend 0).mp (h 0), fun h n => (hsend n).mpr h⟩
  · rcases hb.free i hi with hz | hz
    · exact h0 (hpid.symm.trans hz)
    · exact hf (hpid ▸ hz)

/-- A `fork` without memory for the kernel stack has taken pid 2 and left it in slot 1. `kill(2)` and `sigsend(2, 0)`
    find it there. -/
theorem failed_fork_hit : ∃ tr k, Run (OfStep (Kernel.step bootLayout)) bootKernel tr k ∧
    tr.map (·.2) = [.scheduler 0, .fork 0 0 0] ∧ (∀ i, (k.proc i).pid = 2 → (k.proc i).state = .unused) ∧
    (k.kill 2).1 = 0 ∧ ((k.kill 2).2.proc 1).killed = 1 ∧ (k.proc 1).killed = 0 ∧
    (k.sigsend 2 0).1 = 0 ∧ ((k.sigsend 2 0).2.proc 1).pending 0 = 1 ∧ (k.proc 1).pending 0 = 0 := by
  obtain ⟨tr, k, hr, hl, h⟩ := Run.exists_of_traceOf (f := Kernel.step bootLayout) bootKernel [.scheduler 0, .fork 0 0 0]
    (fun _ k => (∀ i, (k.proc i).pid = 2 → (k.proc i).state = .unused) ∧ (k.kill 2).1 = 0 ∧
      ((k.kill 2).2.proc 1).killed = 1 ∧ (k.proc 1).killed = 0 ∧ (k.sigsend 2 0).1 = 0 ∧
      ((k.sigsend 2 0).2.proc 1).pending 0 = 1 ∧ (k.proc 1).pending 0 = 0) (by decide +kernel)
  exact ⟨tr, k, hr, hl, h⟩

theorem named_process_hit_child : ∃ tr k, Run (OfStep (Kernel.step bootLayout)) bootKernel tr k ∧
    tr.map (·.2) = [.scheduler 0, .fork 0 0x80500000 0x80600000] ∧ (k.proc 1).state = .runnable ∧ (k.proc 1).pid = 2 ∧
    Hits k 2 Proc.killedBy (k.kill 2) ∧ ∀ n : Fin numsig, Hits k 2 (Proc.sentTo n) (k.sigsend 2 n) := by
  obtain ⟨tr, k, hr, hl, hG, hf, hstate, hpid⟩ := Run.exists_of_traceOf (f := Kernel.step bootLayout) bootKernel
    [.scheduler 0, .fork 0 0x80500000 0x80600000] (fun tr k => Meets Kernel.BeforeWrap tr ∧ 2 ∉ failedPids tr ∧
      (k.proc 1).state = .runnable ∧ (k.proc 1).pid = 2) (by decide +kernel)
  obtain ⟨hkill, hsend, hstale⟩ := named_process_hit (by decide) hr hG 2
  have hno := hstale (by decide) hf
  exact ⟨tr, k, hr, hl, hstate, hpid, hkill.mpr hno, hsend.mpr hno⟩

end Xv6
