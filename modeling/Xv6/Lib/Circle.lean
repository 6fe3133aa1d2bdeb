import Mathlib.Dynamics.PeriodicPts.Defs

/-! Loops that follow links until a node has some property. On a circle each node comes up, so they end. -/

namespace Lib

section Walk
variable {α : Type} (next : α → α) (stop : α → Bool) {p : α}

/-- The loop, with a bound on its rounds. -/
def walk : Nat → α → Option α
  | 0, _ => none
  | fuel + 1, p => if stop p then some p else walk fuel (next p)

/-- The loop ends at a node with the property if it is going to pass one. -/
theorem walk_some {k fuel : Nat} (hk : stop (next^[k] p) = true) (hfuel : k < fuel) :
    ∃ j, walk next stop fuel p = some (next^[j] p) ∧ stop (next^[j] p) = true := by
  induction k generalizing p fuel with
  | zero =>
    obtain ⟨fuel, rfl⟩ := Nat.exists_eq_succ_of_ne_zero (Nat.ne_of_gt hfuel)
    exact ⟨0, if_pos hk, hk⟩
  | succ k ih =>
    obtain ⟨fuel, rfl⟩ := Nat.exists_eq_succ_of_ne_zero (Nat.ne_of_gt (Nat.zero_lt_of_lt hfuel))
    by_cases hp : stop p = true
    · exact ⟨0, if_pos hp, hp⟩
    · obtain ⟨j, hj, hstop⟩ := ih hk (Nat.lt_of_succ_lt_succ hfuel)
      refine ⟨j + 1, ?_, hstop⟩
      rw [walk, if_neg hp]
      exact hj

end Walk

/-- A walk around a circle from `q` meets a node with the property or comes back to `q`, and in the second case no node
    has it. -/
theorem circle_first {α : Type} {next : α → α} {P : α → Prop} {q : α} {n : Nat} (hn : 0 < n) (hq : next^[n] q = q) :
    ∃ i < n, (∀ j < i, ¬P (next^[j + 1] q) ∧ next^[j + 1] q ≠ q) ∧
      (P (next^[i + 1] q) ∨ next^[i + 1] q = q ∧ ∀ j, ¬P (next^[j] q)) := by
  classical
  have hex : ∃ i, P (next^[i + 1] q) ∨ next^[i + 1] q = q := ⟨n - 1, .inr (by rwa [Nat.sub_add_cancel hn])⟩
  refine ⟨Nat.find hex, ?_, fun j hj => not_or.mp (Nat.find_min hex hj), ?_⟩
  · have := Nat.find_min' hex (.inr (by rwa [Nat.sub_add_cancel hn]) : P (next^[n - 1 + 1] q) ∨ next^[n - 1 + 1] q = q)
    omega
  · by_cases hP : P (next^[Nat.find hex + 1] q)
    · exact .inl hP
    · have hback := (Nat.find_spec hex).resolve_left hP
      refine .inr ⟨hback, fun j => ?_⟩
      have hperiod : Function.IsPeriodicPt next (Nat.find hex + 1) q := hback
      rw [← hperiod.iterate_mod_apply j]
      have hlt : j % (Nat.find hex + 1) < Nat.find hex + 1 := Nat.mod_lt _ (Nat.succ_pos _)
      rcases Nat.eq_zero_or_pos (j % (Nat.find hex + 1)) with h0 | hpos
      · rw [h0, Function.iterate_zero_apply, ← hback]
        exact hP
      · have := (not_or.mp (Nat.find_min hex (m := j % (Nat.find hex + 1) - 1) (by omega))).1
        rwa [Nat.sub_add_cancel hpos] at this

end Lib
