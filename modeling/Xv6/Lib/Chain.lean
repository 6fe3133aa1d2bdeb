import Mathlib.Data.List.Basic
import Mathlib.Logic.Function.Basic

/-! Singly linked lists in memory: a pointer to the first element, or null, and a `next` field in each. -/

namespace Lib

section Chain
variable {α : Type} {next next' : α → Option α} {p : Option α} {l : List α} {a : α}

/-- The elements that are reached from `p`, in order. -/
def Chain (next : α → Option α) : Option α → List α → Prop
  | p, [] => p = none
  | p, a :: l => p = some a ∧ Chain next (next a) l

theorem Chain.head (h : Chain next p l) : p = l.head? := by
  cases l with
  | nil => exact h
  | cons => exact h.1

theorem Chain.congr (h : Chain next p l) (hnext : ∀ a ∈ l, next' a = next a) : Chain next' p l := by
  induction l generalizing p with
  | nil => exact h
  | cons a l ih =>
    refine ⟨h.1, ?_⟩
    rw [hnext a (List.mem_cons_self ..)]
    exact ih h.2 fun b hb => hnext b (List.mem_cons_of_mem _ hb)

/-- The address of a link of the chain: that of the first pointer, or that of the `next` field of an element. -/
abbrev Link (α : Type) := Option α

def Link.get (p : Option α) (next : α → Option α) : Link α → Option α
  | none => p
  | some a => next a

/-- The walk along the links to the one that is null. -/
def Link.last (p : Option α) (next : α → Option α) : Nat → Link α → Option (Link α)
  | 0, _ => none
  | fuel + 1, pp =>
    match pp.get p next with
    | none => some pp
    | some a => Link.last p next fuel (some a)

theorem Link.last_of_chain (pp : Link α) (fuel : Nat) (h : Chain next (pp.get p next) l) (hfuel : l.length < fuel) :
    Link.last p next fuel pp = some (l.getLast?.or pp) := by
  induction l generalizing pp fuel with
  | nil =>
    obtain ⟨fuel, rfl⟩ := Nat.exists_eq_succ_of_ne_zero (Nat.ne_of_gt hfuel)
    have hnone : pp.get p next = none := h
    simp [Link.last, hnone]
  | cons a l ih =>
    obtain ⟨fuel, rfl⟩ := Nat.exists_eq_succ_of_ne_zero (Nat.ne_of_gt (Nat.zero_lt_of_lt hfuel))
    obtain ⟨ha, hl⟩ := h
    have hlen : l.length < fuel := by simpa using hfuel
    simp only [Link.last, ha]
    rw [ih (some a) fuel hl hlen]
    cases l with
    | nil => rfl
    | cons b l => rw [List.getLast?_cons_cons]; simp [List.getLast?_cons]

variable [DecidableEq α]

/-- An element that is linked in behind the last one. -/
theorem Chain.snoc {z : α} (h : Chain next p (l ++ [z])) (hnodup : (l ++ [z]).Nodup) (ha : a ∉ l ++ [z])
    (hnull : next a = none) : Chain (Function.update next z (some a)) p (l ++ [z] ++ [a]) := by
  induction l generalizing p with
  | nil =>
    have hza : a ≠ z := by simpa using ha
    refine ⟨h.1, ?_, ?_⟩
    · rw [Function.update_self]
    · rw [Function.update_of_ne hza]
      exact hnull
  | cons b l ih =>
    simp only [List.cons_append, List.nodup_cons, List.mem_cons, not_or] at hnodup ha
    have hbz : b ≠ z := by
      rintro rfl
      exact hnodup.1 (by simp)
    refine ⟨h.1, ?_⟩
    rw [Function.update_of_ne hbz]
    exact ih h.2 hnodup.2 ha.2

end Chain

end Lib
