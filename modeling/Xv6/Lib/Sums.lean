import Mathlib.Algebra.BigOperators.Group.Finset.Piecewise
import Mathlib.Algebra.Order.Group.Multiset

/-! What finitely many places hold together, when one place changes. -/

namespace Lib

variable {ι α β M : Type}

/-- The share of one place in a sum is replaced by another. -/
theorem sum_update_add [DecidableEq ι] [AddCommMonoid M] {s : Finset ι} (share : ι → β → M) (f : ι → β) {i : ι} (hi : i ∈ s)
    (b : β) : (∑ x ∈ s, share x (Function.update f i b x)) + share i (f i) = (∑ x ∈ s, share x (f x)) + share i b := by
  have hrest : ∑ x ∈ s \ {i}, share x (Function.update f i b x) = ∑ x ∈ s \ {i}, share x (f x) := by
    refine Finset.sum_congr rfl fun x hx => ?_
    rw [Function.update_of_ne (by simpa using (Finset.mem_sdiff.mp hx).2)]
  rw [Finset.sum_eq_add_sum_sdiff_singleton_of_mem hi, hrest, Function.update_self,
    Finset.sum_eq_add_sum_sdiff_singleton_of_mem hi fun x => share x (f x)]
  ac_rfl

/-- What a place holds, if anything. -/
def held (o : Option α) : Multiset α := o.elim 0 ({·})

@[simp] theorem held_none : held (none : Option α) = 0 := rfl

@[simp] theorem held_some (a : α) : held (some a) = {a} := rfl

theorem coe_cons (a : α) (l : List α) : ((a :: l : List α) : Multiset α) = {a} + (l : Multiset α) := by
  rw [Multiset.singleton_add, Multiset.cons_coe]

end Lib
