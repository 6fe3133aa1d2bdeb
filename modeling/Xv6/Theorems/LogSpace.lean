import Mathlib.Data.List.Dedup
import Xv6.Lib.Writes
import Xv6.Log

/-! The space in the log. `begin_op` lets an operation in while `MAXOPBLOCKS` blocks for each one under way
    fit into `LOGSIZE` blocks, but of the `LOGSIZE` blocks of the log one is the header, and `log_write`
    stops the machine when all the others are taken, even for a block that it would absorb. -/

namespace Xv6.Log
open Lib

/-- The steps of the operations, by cases. -/
inductive Ops.Stepped (A : Area) (s : Ops) : OpEvent → Ops → Prop
  | beginOp {i : Nat} : Stepped A s (.beginOp i) (s.beginOp i)
  | logWriteTest {i b : Nat} {o : Op} : Stepped A s (.logWriteTest i b) (s.logWriteTest A i o b)
  | logWriteRecord {i b : Nat} {o : Op} : s.ops i = some o → o.checked = some b →
      Stepped A s (.logWriteRecord i) (s.logWriteRecord i o b)
  | endOp {i : Nat} : Stepped A s (.endOp i) (s.endOp i)
  | committed : Stepped A s .committed { s with lh := [], committing := false }

theorem Ops.step_cases {A : Area} {s s' : Ops} {e : OpEvent} (h : s.step A e = some s') :
    s.panic = none ∧ Ops.Stepped A s e s' := by
  simp only [Ops.step] at h
  split at h
  · cases h
  · rename_i hpanic
    refine ⟨not_not.mp hpanic, ?_⟩
    cases e with
    | beginOp i =>
      dsimp only at h
      split_ifs at h
      obtain rfl := Option.some.inj h
      exact .beginOp
    | logWriteTest i b =>
      dsimp only at h
      split at h
      · split_ifs at h
        obtain rfl := Option.some.inj h
        exact .logWriteTest
      · cases h
    | logWriteRecord i =>
      dsimp only at h
      split at h
      · obtain rfl := Option.some.inj h
        exact .logWriteRecord ‹_› rfl
      · cases h
    | endOp i =>
      dsimp only at h
      split at h
      · obtain rfl := Option.some.inj h
        exact .endOp
      · cases h
    | committed =>
      dsimp only at h
      split_ifs at h
      obtain rfl := Option.some.inj h
      exact .committed

/-- The operations with the blocks that have been recorded since the last commit, once for each call. -/
structure Recorded where
  ops : Ops
  blocks : List Nat

namespace Recorded

def step (A : Area) (s : Recorded) (e : OpEvent) : Option Recorded :=
  (s.ops.step A e).map fun ops =>
    match e with
    | .logWriteRecord i => ⟨ops, s.blocks ++ ((s.ops.ops i).bind Op.checked).toList⟩
    | .committed => ⟨ops, []⟩
    | _ => ⟨ops, s.blocks⟩

def idle : Recorded := ⟨.idle, []⟩

def NoPanic (s : Recorded) : Prop := s.ops.panic ≠ some .tooBigATransaction

/-- If the step is the start of a `log_write`, fewer than `LOGSIZE - 1` different blocks have been recorded
    since the last commit. -/
def spaceLeft (s : Recorded) : OpEvent → Bool
  | .logWriteTest _ _ => s.blocks.dedup.length < logsize - 1
  | _ => true

def SpaceLeft (s : Recorded) (e : OpEvent) : Prop := s.spaceLeft e = true

instance (s : Recorded) (e : OpEvent) : Decidable (SpaceLeft s e) := inferInstanceAs (Decidable (_ = true))

/-- The header lists the recorded blocks, each of them once. -/
structure Inv (s : Recorded) : Prop where
  nodup : s.ops.lh.Nodup
  mem : ∀ b, b ∈ s.ops.lh ↔ b ∈ s.blocks
  noPanic : NoPanic s

section Steps
variable {A : Area} {s s' : Recorded} {e : OpEvent} {i b : Nat}

theorem Inv.length (h : Inv s) : s.ops.lh.length = s.blocks.dedup.length := by
  refine ((List.perm_ext_iff_of_nodup h.nodup s.blocks.nodup_dedup).mpr fun b => ?_).length_eq
  rw [h.mem b, List.mem_dedup]

theorem Inv.of_lh {ops : Ops} (h : Inv s) (hlh : ops.lh = s.ops.lh) (hpanic : ops.panic ≠ some .tooBigATransaction) :
    Inv ⟨ops, s.blocks⟩ :=
  ⟨hlh ▸ h.nodup, fun b => by rw [hlh]; exact h.mem b, hpanic⟩

theorem Inv.record (h : Inv s) (hpanic : s.ops.panic = none) (i : Nat) (o : Op) (b : Nat) :
    Inv ⟨s.ops.logWriteRecord i o b, s.blocks ++ [b]⟩ := by
  refine ⟨nodup_append_new h.nodup, fun b' => ?_, by simp [NoPanic, Ops.logWriteRecord, hpanic]⟩
  rw [List.mem_append, List.mem_singleton, ← h.mem b']
  exact mem_append_new

theorem logWriteTest_panic (h : Inv s) (hpanic : s.ops.panic = none) (i : Nat) (o : Op) (b : Nat) :
    (s.ops.logWriteTest .mkfs i o b).panic = some .tooBigATransaction ↔ ¬s.blocks.dedup.length < logsize - 1 := by
  have hlen := h.length
  have hsize : Area.mkfs.size = logsize := rfl
  simp only [Ops.logWriteTest, hsize]
  split
  · simp only [true_iff]
    omega
  · split <;> simp [hpanic] <;> omega

theorem logWriteTest_lh (o : Op) : (s.ops.logWriteTest A i o b).lh = s.ops.lh := by
  simp only [Ops.logWriteTest]
  split_ifs <;> rfl

theorem Inv.step (h : Inv s) (hG : SpaceLeft s e) (hs : s.step .mkfs e = some s') : Inv s' := by
  obtain ⟨ops, hops, rfl⟩ := Option.map_eq_some_iff.mp hs
  obtain ⟨hpanic, hcase⟩ := Ops.step_cases hops
  cases hcase with
  | beginOp =>
    refine h.of_lh ?_ ?_
    all_goals
      simp only [Ops.beginOp]
      split_ifs
      all_goals first | rfl | simp [hpanic]
  | logWriteTest =>
    refine h.of_lh (logWriteTest_lh _) ?_
    rw [ne_eq, logWriteTest_panic h hpanic, not_not]
    exact of_decide_eq_true hG
  | logWriteRecord ho hb =>
    simp only [ho, Option.bind_some, hb, Option.toList_some]
    exact h.record hpanic ..
  | endOp =>
    refine h.of_lh ?_ ?_
    all_goals
      simp only [Ops.endOp]
      split_ifs
      all_goals first | rfl | simp [hpanic]
  | committed => exact ⟨by simp, by simp, by simp [NoPanic, hpanic]⟩

theorem Inv.panics (h : Inv s) (hG : ¬SpaceLeft s e) (hs : s.step .mkfs e = some s') : ¬NoPanic s' := by
  obtain ⟨ops, hops, rfl⟩ := Option.map_eq_some_iff.mp hs
  obtain ⟨hpanic, hcase⟩ := Ops.step_cases hops
  cases hcase with
  | logWriteTest =>
    rw [NoPanic, not_not, logWriteTest_panic h hpanic]
    simpa [SpaceLeft, spaceLeft] using hG
  | beginOp | logWriteRecord | endOp | committed => simp [SpaceLeft, spaceLeft] at hG

end Steps

/-- With the log of `mkfs`, the operations never run out of space exactly if each `log_write` starts while
    fewer than `LOGSIZE - 1` different blocks have been recorded since the last commit. -/
theorem noPanic_iff {tr : List (Recorded × OpEvent)} {s : Recorded} (hr : Run (OfStep (step .mkfs)) idle tr s) :
    Always NoPanic tr s ↔ Meets SpaceLeft tr :=
  hr.always_iff_meets (I := Inv) ⟨by simp [idle, Ops.idle], by simp [idle, Ops.idle], by simp [NoPanic, idle, Ops.idle]⟩
    (fun _ hI => hI.noPanic) (fun hI hG hs => hI.step hG hs) (fun hI hG hs => hI.panics hG hs)

def logs (i : Nat) (bs : List Nat) : List OpEvent := bs.flatMap fun b => [.logWriteTest i b, .logWriteRecord i]

/-- Three operations are let in, and each of them logs ten blocks of its own: the last `log_write` finds 29
    blocks in the log. -/
theorem three_ops_panic : ∃ tr s, Run (OfStep (step .mkfs)) idle tr s ∧
    tr.map (·.2) = [.beginOp 0, .beginOp 1, .beginOp 2] ++ logs 0 (List.range' 100 10) ++ logs 1 (List.range' 200 10) ++
      logs 2 (List.range' 300 9) ++ [.logWriteTest 2 309] ∧
    ¬Always NoPanic tr s := by
  obtain ⟨tr, s, hr, hl, hpanic⟩ := Run.exists_of_traceOf (f := step .mkfs) idle
    ([.beginOp 0, .beginOp 1, .beginOp 2] ++ logs 0 (List.range' 100 10) ++ logs 1 (List.range' 200 10) ++
      logs 2 (List.range' 300 9) ++ [.logWriteTest 2 309])
    (fun _ s => s.ops.panic = some .tooBigATransaction) (by decide +kernel)
  exact ⟨tr, s, hr, hl, fun h => h.2 hpanic⟩

/-- One operation logs two blocks. -/
theorem noPanic_iff_one : ∃ tr s, Run (OfStep (step .mkfs)) idle tr s ∧
    tr.map (·.2) = [.beginOp 0] ++ logs 0 [100, 101] ++ [.endOp 0, .committed] ∧ Always NoPanic tr s := by
  obtain ⟨tr, s, hr, hl, hG⟩ := Run.exists_of_traceOf (f := step .mkfs) idle
    ([.beginOp 0] ++ logs 0 [100, 101] ++ [.endOp 0, .committed]) (fun tr _ => Meets SpaceLeft tr) (by decide +kernel)
  exact ⟨tr, s, hr, hl, (noPanic_iff hr).mpr hG⟩

end Recorded

end Xv6.Log
