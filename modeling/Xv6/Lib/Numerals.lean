import Mathlib.Data.List.Basic

/-! Numerals in a base, as lists of digits with the high one first. -/

namespace Lib

/-- `ds` are the digits of `n` in base `b`; a leading zero stands only alone. -/
structure Numeral (b n : Nat) (ds : List Nat) : Prop where
  below : ∀ d ∈ ds, d < b
  value : ds.foldl (fun v d => v * b + d) 0 = n
  nonempty : ds ≠ []
  leading : ds.head? = some 0 → ds = [0]

namespace Numeral
variable {b n : Nat} {ds : List Nat}

theorem single (h : n < b) : Numeral b n [n] := by
  refine ⟨fun d hd => ?_, ?_, List.cons_ne_nil _ _, fun h0 => ?_⟩
  · rwa [List.mem_singleton.mp hd]
  · rw [List.foldl_cons, List.foldl_nil, Nat.zero_mul, Nat.zero_add]
  · rw [List.head?_cons, Option.some.injEq] at h0
    rw [h0]

/-- The last digit is behind the numeral of the quotient. -/
theorem snoc (h : Numeral b (n / b) ds) (hb : 0 < b) (hn : n / b ≠ 0) : Numeral b n (ds ++ [n % b]) := by
  refine ⟨fun d hd => ?_, ?_, List.append_ne_nil_of_right_ne_nil _ (List.cons_ne_nil _ _), fun h0 => ?_⟩
  · rcases List.mem_append.mp hd with hd | hd
    · exact h.below d hd
    · rw [List.mem_singleton.mp hd]
      exact Nat.mod_lt n hb
  · rw [List.foldl_append, h.value, List.foldl_cons, List.foldl_nil]
    exact Nat.div_add_mod' n b
  · rw [List.head?_append_of_ne_nil _ h.nonempty] at h0
    have hvalue := h.value
    rw [h.leading h0, List.foldl_cons, List.foldl_nil, Nat.zero_mul] at hvalue
    exact absurd hvalue.symm hn

end Numeral

end Lib
