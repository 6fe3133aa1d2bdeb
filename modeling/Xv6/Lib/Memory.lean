import Mathlib.Algebra.GroupWithZero.Nat
import Mathlib.Data.List.Basic

/-! Byte-addressed memory of a 32-bit machine: little-endian words, and what a store leaves alone.
    Address arithmetic wraps around at `2 ^ 32`. -/

namespace Lib

abbrev Addr := BitVec 32
abbrev Word := BitVec 32

/-- The contents of the address space. -/
abbrev Mem := Addr → BitVec 8

/-- Store the four bytes of `v` at `a`, the low byte first. -/
def store32 (m : Mem) (a : Addr) (v : Word) : Mem := fun x =>
  if x = a then v.extractLsb' 0 8
  else if x = a + 1 then v.extractLsb' 8 8
  else if x = a + 2 then v.extractLsb' 16 8
  else if x = a + 3 then v.extractLsb' 24 8
  else m x

/-- Load the word whose low byte is at `a`. -/
def load32 (m : Mem) (a : Addr) : Word := m (a + 3) ++ m (a + 2) ++ m (a + 1) ++ m a

theorem word_of_bytes (v : Word) :
    v.extractLsb' 24 8 ++ v.extractLsb' 16 8 ++ v.extractLsb' 8 8 ++ v.extractLsb' 0 8 = v := by
  ext i hi
  simp only [BitVec.getElem_append, BitVec.getElem_extractLsb']
  grind

theorem load32_store32 (m : Mem) (a : Addr) (v : Word) : load32 (store32 m a v) a = v := by
  have h1 : a + 1 ≠ a := by bv_omega
  have h2 : a + 2 ≠ a := by bv_omega
  have h3 : a + 3 ≠ a := by bv_omega
  have h21 : a + 2 ≠ a + 1 := by bv_omega
  have h31 : a + 3 ≠ a + 1 := by bv_omega
  have h32 : a + 3 ≠ a + 2 := by bv_omega
  simp only [load32, store32, h1, h2, h3, h21, h31, h32, if_true, if_false]
  exact word_of_bytes v

theorem store32_of_ne (m : Mem) {a x : Addr} (v : Word) (h : x.toNat < a.toNat ∨ a.toNat + 4 ≤ x.toNat)
    (ha : a.toNat + 4 ≤ 2 ^ 32) : store32 m a v x = m x := by
  have h0 : x ≠ a := by bv_omega
  have h1 : x ≠ a + 1 := by bv_omega
  have h2 : x ≠ a + 2 := by bv_omega
  have h3 : x ≠ a + 3 := by bv_omega
  simp only [store32, h0, h1, h2, h3, if_false]

/-- A word that a store does not overlap, on either side of the end of memory. -/
theorem load32_store32_of_ne (m : Mem) {a b : Addr} (v : Word) (hab : 4 ≤ (a - b).toNat) (hba : 4 ≤ (b - a).toNat) :
    load32 (store32 m a v) b = load32 m b := by
  have hmiss (x : Addr) (hx : 4 ≤ (x - a).toNat) : store32 m a v x = m x := by
    have h0 : x ≠ a := by bv_omega
    have h1 : x ≠ a + 1 := by bv_omega
    have h2 : x ≠ a + 2 := by bv_omega
    have h3 : x ≠ a + 3 := by bv_omega
    simp only [store32, h0, h1, h2, h3, if_false]
  rw [load32, load32, hmiss _ hba, hmiss _ (by bv_omega), hmiss _ (by bv_omega), hmiss _ (by bv_omega)]

/-! ### Bytes -/

/-- Store the bytes `bs` from address `a` on. -/
def storeBytes (m : Mem) (a : Nat) (bs : List (BitVec 8)) : Mem := fun x =>
  if a ≤ x.toNat then bs[x.toNat - a]?.getD (m x) else m x

/-- The `n` bytes from address `a` on. -/
def bytesAt (m : Mem) (a : Addr) (n : Nat) : List (BitVec 8) := (List.range n).map fun i => m (a + BitVec.ofNat 32 i)

/-- The bytes of a word, the low byte first. -/
def wordBytes (v : Word) : List (BitVec 8) :=
  [v.extractLsb' 0 8, v.extractLsb' 8 8, v.extractLsb' 16 8, v.extractLsb' 24 8]

theorem bytesAt_storeBytes (m : Mem) {a : Nat} {bs : List (BitVec 8)} (h : a + bs.length ≤ 2 ^ 32) :
    bytesAt (storeBytes m a bs) (BitVec.ofNat 32 a) bs.length = bs := by
  apply List.ext_getElem
  · simp [bytesAt]
  · intro i hi hi'
    have hx : (BitVec.ofNat 32 a + BitVec.ofNat 32 i).toNat = a + i := by
      rw [BitVec.toNat_add, BitVec.toNat_ofNat, BitVec.toNat_ofNat]
      omega
    simp only [bytesAt, storeBytes, List.getElem_map, List.getElem_range, hx, Nat.le_add_right, if_true,
      Nat.add_sub_cancel_left, List.getElem?_eq_getElem hi', Option.getD_some]

theorem wordBytes_flatMap_getElem? (ws : List Word) (i j : Nat) (hj : j < 4) :
    (ws.flatMap wordBytes)[4 * i + j]? = ws[i]?.bind fun v => (wordBytes v)[j]? := by
  induction ws generalizing i with
  | nil => simp
  | cons w ws ih =>
    have hlen : (wordBytes w).length = 4 := rfl
    rw [List.flatMap_cons]
    cases i with
    | zero => rw [List.getElem?_append_left (by omega), Nat.mul_zero, Nat.zero_add, List.getElem?_cons_zero,
      Option.bind_some]
    | succ i =>
      rw [List.getElem?_append_right (by omega), List.getElem?_cons_succ, ← ih]
      congr 1
      omega

/-- A word of a block of words that has been stored. -/
theorem load32_storeBytes (m : Mem) {a i : Nat} {v : Word} {ws : List Word} (hi : ws[i]? = some v)
    (h : a + 4 * ws.length ≤ 2 ^ 32) :
        load32 (storeBytes m a (ws.flatMap wordBytes)) (BitVec.ofNat 32 (a + 4 * i)) = v := by
  have hlt := (List.getElem?_eq_some_iff.mp hi).1
  have hbyte (d : Word) (hd : d.toNat < 4) : storeBytes m a (ws.flatMap wordBytes) (BitVec.ofNat 32 (a + 4 * i) + d) =
      v.extractLsb' (8 * d.toNat) 8 := by
    have hx : (BitVec.ofNat 32 (a + 4 * i) + d).toNat = a + (4 * i + d.toNat) := by
      rw [BitVec.toNat_add, BitVec.toNat_ofNat]
      omega
    rw [storeBytes, hx, if_pos (Nat.le_add_right ..), Nat.add_sub_cancel_left, wordBytes_flatMap_getElem? ws i _ hd, hi]
    generalize d.toNat = j at hd
    obtain rfl | rfl | rfl | rfl : j = 0 ∨ j = 1 ∨ j = 2 ∨ j = 3 := by omega
    all_goals rfl
  have h0 := hbyte 0 (by decide)
  rw [show BitVec.ofNat 32 (a + 4 * i) + 0 = BitVec.ofNat 32 (a + 4 * i) from BitVec.add_zero _] at h0
  rw [load32, h0, hbyte 1 (by decide), hbyte 2 (by decide), hbyte 3 (by decide)]
  exact word_of_bytes v

/-! ### Addresses from an address on -/

theorem toNat_add_ofNat {x : Addr} {a : Nat} (h : x.toNat + a < 2 ^ 32) : (x + BitVec.ofNat 32 a).toNat = x.toNat + a := by
  rw [BitVec.toNat_add, BitVec.toNat_ofNat]
  omega

theorem add_ofNat_add (x : Addr) (a b : Nat) : x + BitVec.ofNat 32 a + BitVec.ofNat 32 b = x + BitVec.ofNat 32 (a + b) := by
  rw [BitVec.ofNat_add, BitVec.add_assoc]

/-! ### Addresses below an address -/

theorem sub_ofNat_sub (x : Addr) (a b : Nat) :
    x - BitVec.ofNat 32 a - BitVec.ofNat 32 b = x - BitVec.ofNat 32 (a + b) := by
  apply BitVec.eq_of_toNat_eq
  simp only [BitVec.toNat_sub, BitVec.toNat_ofNat]
  omega

theorem toNat_sub_ofNat {x : Addr} {a : Nat} (h : a ≤ x.toNat) : (x - BitVec.ofNat 32 a).toNat = x.toNat - a := by
  simp only [BitVec.toNat_sub, BitVec.toNat_ofNat]
  omega

theorem toNat_sub_four {x : Addr} (h : 4 ≤ x.toNat) : (x - 4).toNat = x.toNat - 4 := toNat_sub_ofNat h

/-- Below address zero the address space continues at its top. -/
theorem toNat_sub_ofNat_wrap {x : Addr} {a : Nat} (h : x.toNat < a) (ha : a < 2 ^ 32) :
    (x - BitVec.ofNat 32 a).toNat = 2 ^ 32 + x.toNat - a := by
  simp only [BitVec.toNat_sub, BitVec.toNat_ofNat]
  omega

/-! ### Memories that agree from an address up -/

/-- Two memories hold the same bytes at every address from `n` up. -/
def AgreeFrom (n : Nat) (m m' : Mem) : Prop := ∀ x : Addr, n ≤ x.toNat → m x = m' x

namespace AgreeFrom
variable {n k : Nat} {m m' m'' : Mem} {a : Addr}

theorem refl (n : Nat) (m : Mem) : AgreeFrom n m m := fun _ _ => rfl

theorem trans (h₁ : AgreeFrom n m m') (h₂ : AgreeFrom n m' m'') : AgreeFrom n m m'' :=
  fun x hx => (h₁ x hx).trans (h₂ x hx)

theorem mono (h : AgreeFrom n m m') (hnk : n ≤ k) : AgreeFrom k m m' := fun x hx => h x (Nat.le_trans hnk hx)

/-- A store below `n` is not seen from `n` up. -/
theorem store32 {v : Word} (ha : a.toNat + 4 ≤ n) : AgreeFrom n (store32 m a v) m := fun x hx =>
  store32_of_ne m v (Or.inr (by omega)) (by have := x.isLt; omega)

/-- Bytes stored below `n` are not seen from `n` up. -/
theorem storeBytes {a : Nat} {bs : List (BitVec 8)} (ha : a + bs.length ≤ n) :
    AgreeFrom n (storeBytes m a bs) m := by
  intro x hx
  have hnone : bs[x.toNat - a]? = none := List.getElem?_eq_none (by omega)
  simp [Lib.storeBytes, hnone]

theorem bytesAt {j : Nat} (h : AgreeFrom n m m') (hn : n ≤ a.toNat) (ha : a.toNat + j ≤ 2 ^ 32) :
    bytesAt m a j = bytesAt m' a j := by
  apply List.map_congr_left
  intro i hi
  have hij := List.mem_range.mp hi
  refine h _ ?_
  rw [BitVec.toNat_add, BitVec.toNat_ofNat]
  omega

theorem load32 (h : AgreeFrom n m m') (hn : n ≤ a.toNat) (ha : a.toNat + 4 ≤ 2 ^ 32) :
    load32 m a = load32 m' a := by
  have h0 : m a = m' a := h a hn
  have h1 : m (a + 1) = m' (a + 1) := h _ (by bv_omega)
  have h2 : m (a + 2) = m' (a + 2) := h _ (by bv_omega)
  have h3 : m (a + 3) = m' (a + 3) := h _ (by bv_omega)
  simp only [Lib.load32, h0, h1, h2, h3]

end AgreeFrom

end Lib
