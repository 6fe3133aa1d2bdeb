import Mathlib.Algebra.GroupWithZero.Nat
import Mathlib.Data.List.Basic
import Mathlib.Logic.Function.Basic

/-! Ring buffers with free-running counters: the counters of `w` bits count all elements ever put in and
    taken out, and the place of an element is its counter modulo the capacity. When the capacity divides
    `2 ^ w`, a counter that wraps around goes on at the right place. -/

namespace Lib

structure Ring (w cap : Nat) (α : Type) where
  data : Fin cap → α
  nread : BitVec w
  nwrite : BitVec w

namespace Ring

section Counters
variable {w cap : Nat} {α : Type} (r : Ring w cap α)

/-- The number of elements that have been put in and not taken out. -/
def used : Nat := (r.nwrite - r.nread).toNat

theorem nwrite_eq : r.nwrite = r.nread + BitVec.ofNat w r.used := by
  rw [used, BitVec.ofNat_toNat, BitVec.setWidth_eq, BitVec.add_comm, BitVec.sub_add_cancel]

theorem nread_eq_nwrite_iff : r.nread = r.nwrite ↔ r.used = 0 := by
  refine ⟨fun h => by simp [used, h], fun h => ?_⟩
  have hw := r.nwrite_eq
  rw [h] at hw
  simp [hw]

/-- How the counters tell the number of elements. -/
theorem nwrite_eq_add_iff {n : Nat} (hn : n < 2 ^ w) : r.nwrite = r.nread + BitVec.ofNat w n ↔ r.used = n := by
  constructor
  · intro h
    have hsub : r.nread + BitVec.ofNat w n - r.nread = BitVec.ofNat w n := by
      rw [BitVec.add_comm, BitVec.add_sub_cancel]
    rw [used, h, hsub, BitVec.toNat_ofNat, Nat.mod_eq_of_lt hn]
  · rintro rfl
    exact r.nwrite_eq

def pop : Ring w cap α := { r with nread := r.nread + 1 }

theorem used_pop (h : 0 < r.used) : r.pop.used + 1 = r.used := by
  have hlt : r.used < 2 ^ w := BitVec.isLt _
  suffices h' : r.pop.used = r.used - 1 by omega
  rw [← nwrite_eq_add_iff _ (by omega)]
  simp only [pop]
  have hsucc : r.used = 1 + (r.used - 1) := by omega
  have hw := r.nwrite_eq
  rw [hsucc, BitVec.ofNat_add, ← BitVec.add_assoc] at hw
  exact hw

/-- The newest element is taken back. -/
def unput : Ring w cap α := { r with nwrite := r.nwrite - 1 }

theorem used_unput (h : 0 < r.used) : r.unput.used + 1 = r.used := by
  have hlt : r.used < 2 ^ w := BitVec.isLt _
  suffices h' : r.unput.used = r.used - 1 by omega
  rw [← nwrite_eq_add_iff _ (by omega)]
  have hw := r.nwrite_eq
  rw [show r.used = r.used - 1 + 1 by omega, BitVec.ofNat_add, ← BitVec.add_assoc] at hw
  simp only [unput]
  rw [hw]
  exact BitVec.add_sub_cancel _ _

end Counters

section Ring
variable {w cap : Nat} [NeZero cap] {α : Type} (r : Ring w cap α) (a : α)

/-- The place of the element with counter `c`. -/
def index (cap : Nat) [NeZero cap] (c : BitVec w) : Fin cap := Fin.ofNat cap c.toNat

/-- The elements that have been put in and not taken out, the oldest first. -/
def contents : List α := (List.range r.used).map fun k => r.data (index cap (r.nread + BitVec.ofNat w k))

def put : Ring w cap α := { r with data := Function.update r.data (index cap r.nwrite) a, nwrite := r.nwrite + 1 }

/-- The oldest element. -/
def front : α := r.data (index cap r.nread)

@[simp] theorem length_contents : r.contents.length = r.used := by simp [contents]

theorem used_put (h : r.used + 1 < 2 ^ w) : (r.put a).used = r.used + 1 := by
  rw [← nwrite_eq_add_iff _ h]
  simp only [put]
  rw [r.nwrite_eq, BitVec.add_assoc, BitVec.ofNat_add]
  rfl

/-- Places less than a capacity apart are different, also where the counters wrap around. -/
theorem index_add_ne (hdvd : cap ∣ 2 ^ w) (c : BitVec w) {i j : Nat} (hij : i < j) (hj : j < cap) :
    index cap (c + BitVec.ofNat w i) ≠ index cap (c + BitVec.ofNat w j) := by
  have hmod (k : Nat) : (index cap (c + BitVec.ofNat w k)).val = (c.toNat + k) % cap := by
    simp only [index, Fin.ofNat, BitVec.toNat_add, BitVec.toNat_ofNat, Nat.add_mod_mod, Nat.mod_mod_of_dvd _ hdvd]
  intro h
  have hval := congrArg Fin.val h
  rw [hmod, hmod] at hval
  have hdiff : (c.toNat + j - (c.toNat + i)) % cap = 0 := Nat.sub_mod_eq_zero_of_mod_eq hval.symm
  rw [Nat.mod_eq_of_lt (by omega)] at hdiff
  omega

theorem contents_put (hdvd : cap ∣ 2 ^ w) (hcap : cap < 2 ^ w) (h : r.used < cap) :
    (r.put a).contents = r.contents ++ [a] := by
  have hindex : index cap r.nwrite = index cap (r.nread + BitVec.ofNat w r.used) := by rw [← r.nwrite_eq]
  simp only [contents, used_put r a (by omega), List.range_succ, List.map_append, List.map_singleton]
  congr 1
  · apply List.map_congr_left
    intro k hk
    simp only [put]
    rw [Function.update_of_ne]
    rw [hindex]
    exact index_add_ne hdvd _ (List.mem_range.mp hk) h
  · simp only [put, ← hindex, Function.update_self]

theorem contents_pop (h : 0 < r.used) : r.contents = r.front :: r.pop.contents := by
  simp only [contents, ← used_pop r h, List.range_succ_eq_map, List.map_cons, List.map_map]
  congr 1
  · simp [front]
  · apply List.map_congr_left
    intro k _
    simp only [pop, Function.comp, BitVec.add_assoc]
    congr 3
    rw [Nat.succ_eq_one_add, BitVec.ofNat_add]
    rfl

/-- The newest element. -/
def back : α := r.data (index cap (r.nwrite - 1))

theorem contents_unput (h : 0 < r.used) : r.contents = r.unput.contents ++ [r.back] := by
  have hback : r.nwrite - 1 = r.nread + BitVec.ofNat w r.unput.used := r.unput.nwrite_eq
  simp only [contents, ← used_unput r h, List.range_succ, List.map_append, List.map_singleton, back, hback]
  rfl

end Ring

end Ring

end Lib
