import Xv6.Strings

/-! Both versions of `memmove`, for ranges that may overlap. The kernel copies downwards where copying upwards would
    write over bytes that it has not read yet; the user library always copies upwards. -/

namespace Xv6
open Lib

/-- The `n` bytes at `src` have been moved to `dst`, and the other bytes are as before. -/
structure Moved (m : Mem) (dst src : Addr) (n : Nat) (m' : Mem) : Prop where
  copied : ∀ i < n, m' (dst + BitVec.ofNat 32 i) = m (src + BitVec.ofNat 32 i)
  kept : ∀ x : Addr, x.toNat < dst.toNat ∨ dst.toNat + n ≤ x.toNat → m' x = m x

section
variable {m : Mem} {d s x : Addr} {n i : Nat}

/-! ### Upwards -/

theorem copyUp_succ (n : Nat) (m : Mem) (d s : Addr) : copyUp (n + 1) m d s =
    Function.update (copyUp n m d s) (d + BitVec.ofNat 32 n) (copyUp n m d s (s + BitVec.ofNat 32 n)) := by
  induction n generalizing m d s with
  | zero =>
    have hzero (a : Addr) : a + BitVec.ofNat 32 0 = a := BitVec.add_zero a
    rw [hzero, hzero]
    rfl
  | succ n ih =>
    have hone (a : Addr) : a + 1 + BitVec.ofNat 32 n = a + BitVec.ofNat 32 (n + 1) := by
      rw [Nat.add_comm n 1]
      exact add_ofNat_add a 1 n
    rw [copyUp, ih, hone, hone]
    rfl

theorem copyUp_kept (hd : d.toNat + n ≤ 2 ^ 32) (hx : x.toNat < d.toNat ∨ d.toNat + n ≤ x.toNat) :
    copyUp n m d s x = m x := by
  induction n with
  | zero => rfl
  | succ n ih =>
    have hne : x ≠ d + BitVec.ofNat 32 n := by
      rintro rfl
      rw [toNat_add_ofNat (by omega)] at hx
      omega
    rw [copyUp_succ, Function.update_of_ne hne]
    exact ih (by omega) (by omega)

/-- What the loop puts at the place of byte `i` is what it finds at the place of byte `i` of the source. -/
theorem copyUp_copied (hd : d.toNat + n ≤ 2 ^ 32) (hi : i < n) :
    copyUp n m d s (d + BitVec.ofNat 32 i) = copyUp i m d s (s + BitVec.ofNat 32 i) := by
  induction n with
  | zero => omega
  | succ n ih =>
    rw [copyUp_succ]
    rcases Nat.eq_or_lt_of_le (Nat.le_of_lt_succ hi) with rfl | hi
    · rw [Function.update_self]
    · have hne : d + BitVec.ofNat 32 i ≠ d + BitVec.ofNat 32 n := by
        intro heq
        have heq := congrArg BitVec.toNat heq
        rw [toNat_add_ofNat (by omega), toNat_add_ofNat (by omega)] at heq
        omega
      rw [Function.update_of_ne hne]
      exact ih (by omega) hi

theorem copyUp_of_le (hd : d.toNat + n ≤ 2 ^ 32) (hs : s.toNat + n ≤ 2 ^ 32) (hle : d.toNat ≤ s.toNat) (hi : i < n) :
    copyUp n m d s (d + BitVec.ofNat 32 i) = m (s + BitVec.ofNat 32 i) := by
  rw [copyUp_copied hd hi]
  refine copyUp_kept (by omega) (.inr ?_)
  rw [toNat_add_ofNat (by omega)]
  omega

theorem copyUp_of_lt (hd : d.toNat + n ≤ 2 ^ 32) (hlt : s.toNat < d.toNat) (hi : i < n) :
    copyUp n m d s (d + BitVec.ofNat 32 i) = m (s + BitVec.ofNat 32 (i % (d.toNat - s.toNat))) := by
  induction i using Nat.strongRecOn with
  | ind i ih =>
    rw [copyUp_copied hd hi]
    by_cases hfar : i < d.toNat - s.toNat
    · rw [Nat.mod_eq_of_lt hfar]
      refine copyUp_kept (by omega) (.inl ?_)
      rw [toNat_add_ofNat (by omega)]
      omega
    · -- Byte `i` of the source is a byte that the loop has written.
      have hback : s + BitVec.ofNat 32 i = d + BitVec.ofNat 32 (i - (d.toNat - s.toNat)) := by
        apply BitVec.eq_of_toNat_eq
        rw [toNat_add_ofNat (by omega), toNat_add_ofNat (by omega)]
        omega
      rw [hback, copyUp_copied (by omega) (by omega), ← copyUp_copied hd (by omega), ih _ (by omega) (by omega),
        Nat.mod_eq_sub_mod (Nat.le_of_not_lt hfar)]

/-! ### Downwards -/

theorem copyDown_moved (hd : d.toNat + n ≤ 2 ^ 32) (hle : s.toNat ≤ d.toNat) :
    Moved m d s n (copyDown n m (d + BitVec.ofNat 32 n) (s + BitVec.ofNat 32 n)) := by
  induction n generalizing m with
  | zero => exact ⟨fun i hi => absurd hi (Nat.not_lt_zero i), fun _ _ => rfl⟩
  | succ n ih =>
    have hpred (a : Addr) : a + BitVec.ofNat 32 (n + 1) - 1 = a + BitVec.ofNat 32 n := by
      rw [← add_ofNat_add]
      exact BitVec.add_sub_cancel ..
    rw [copyDown, hpred, hpred]
    have hrest := ih (m := Function.update m (d + BitVec.ofNat 32 n) (m (s + BitVec.ofNat 32 n))) (by omega)
    have htop : (d + BitVec.ofNat 32 n).toNat = d.toNat + n := toNat_add_ofNat (by omega)
    refine ⟨fun i hi => ?_, fun x hx => ?_⟩
    · rcases Nat.eq_or_lt_of_le (Nat.le_of_lt_succ hi) with rfl | hi
      · rw [hrest.kept _ (.inr (Nat.le_of_eq htop.symm)), Function.update_self]
      · have hne : s + BitVec.ofNat 32 i ≠ d + BitVec.ofNat 32 n := by
          intro heq
          have heq := congrArg BitVec.toNat heq
          rw [htop, toNat_add_ofNat (by omega)] at heq
          omega
        rw [hrest.copied i hi, Function.update_of_ne hne]
    · have hne : x ≠ d + BitVec.ofNat 32 n := by
        rintro rfl
        omega
      rw [hrest.kept x (by omega), Function.update_of_ne hne]

end

/-! ### memmove -/

section
variable {m : Mem} {dst src : Addr} {n : Word}

theorem Kernel.memmove_moved (hsrc : src.toNat + n.toNat ≤ 2 ^ 32) (hdst : dst.toNat + n.toNat ≤ 2 ^ 32) :
    Moved m dst src n.toNat (Kernel.memmove m dst src n).2 := by
  have hn : BitVec.ofNat 32 n.toNat = n := by rw [BitVec.ofNat_toNat, BitVec.setWidth_eq]
  unfold Kernel.memmove
  split
  · rename_i hover
    have hlt : src.toNat < dst.toNat := hover.1
    have hdown := copyDown_moved (m := m) hdst (Nat.le_of_lt hlt)
    rwa [hn] at hdown
  · rename_i hover
    refine ⟨fun i hi => ?_, fun x hx => copyUp_kept hdst hx⟩
    by_cases hle : dst.toNat ≤ src.toNat
    · exact copyUp_of_le hdst hsrc hle hi
    · -- The end of the source is below the destination; `src + n` does not wrap around.
      have hlt : src.toNat < dst.toNat := Nat.lt_of_not_le hle
      have hend : (src + n).toNat = src.toNat + n.toNat := by
        rw [BitVec.toNat_add]
        omega
      have hfar : src.toNat + n.toNat ≤ dst.toNat := by
        by_contra hnot
        refine hover ⟨hlt, ?_⟩
        rw [gt_iff_lt, BitVec.lt_def, hend]
        omega
      dsimp only
      rw [copyUp_of_lt hdst hlt hi, Nat.mod_eq_of_lt (by omega)]

theorem User.memmove_moved_iff (hn : 0 ≤ n.toInt) (hsrc : src.toNat + n.toNat ≤ 2 ^ 32)
    (hdst : dst.toNat + n.toNat ≤ 2 ^ 32) :
    Moved m dst src n.toNat (User.memmove m dst src n).2 ↔ (src < dst → ∀ i < n.toNat,
      m (src + BitVec.ofNat 32 i) = m (src + BitVec.ofNat 32 (i % (dst - src).toNat))) := by
  have hcount : n.toInt.toNat = n.toNat := by
    rw [BitVec.toInt_eq_toNat_cond] at hn ⊢
    split at hn
    · rename_i hsmall
      rw [if_pos hsmall, Int.toNat_natCast]
    · omega
  have hkept (x : Addr) (hx : x.toNat < dst.toNat ∨ dst.toNat + n.toNat ≤ x.toNat) : copyUp n.toNat m dst src x = m x :=
    copyUp_kept hdst hx
  rw [User.memmove, hcount]
  dsimp only
  by_cases hlt : src < dst
  · have hlt' : src.toNat < dst.toNat := hlt
    have hgap : (dst - src).toNat = dst.toNat - src.toNat := BitVec.toNat_sub_of_le (BitVec.le_of_lt hlt)
    rw [hgap]
    constructor
    · intro h _ i hi
      rw [← h.copied i hi, copyUp_of_lt hdst hlt' hi]
    · intro h
      refine ⟨fun i hi => ?_, hkept⟩
      rw [copyUp_of_lt hdst hlt' hi, h hlt i hi]
  · have hle : dst.toNat ≤ src.toNat := Nat.le_of_not_lt hlt
    exact iff_of_true ⟨fun i hi => copyUp_of_le hdst hsrc hle hi, hkept⟩ fun h => absurd h hlt

/-- The kernel moves the bytes wherever the ranges are. The user library moves them exactly if it need not copy downwards,
    or if the bytes repeat at the distance of the ranges. -/
theorem memmove_moves (hsrc : src.toNat + n.toNat ≤ 2 ^ 32) (hdst : dst.toNat + n.toNat ≤ 2 ^ 32) :
    Moved m dst src n.toNat (Kernel.memmove m dst src n).2 ∧
      (0 ≤ n.toInt → (Moved m dst src n.toNat (User.memmove m dst src n).2 ↔ (src < dst → ∀ i < n.toNat,
        m (src + BitVec.ofNat 32 i) = m (src + BitVec.ofNat 32 (i % (dst - src).toNat))))) :=
  ⟨Kernel.memmove_moved hsrc hdst, fun hn => User.memmove_moved_iff hn hsrc hdst⟩

end

def countingMem : Mem := fun x => x.setWidth 8

/-- Two bytes are moved down by one. -/
theorem memmove_moves_down : Moved countingMem 0 1 2 (Kernel.memmove countingMem 0 1 2).2 ∧
    Moved countingMem 0 1 2 (User.memmove countingMem 0 1 2).2 := by
  have h := memmove_moves (m := countingMem) (show (1 : Addr).toNat + (2 : Word).toNat ≤ 2 ^ 32 by decide)
    (show (0 : Addr).toNat + (2 : Word).toNat ≤ 2 ^ 32 by decide)
  exact ⟨h.1, (h.2 (by decide)).mpr fun hlt => absurd hlt (by decide)⟩

/-- Two bytes are moved up by one: the user library puts the first of them at both places. -/
theorem user_memmove_repeats : (Kernel.memmove countingMem 1 0 2).2 2 = 1 ∧ (User.memmove countingMem 1 0 2).2 2 = 0 ∧
    ¬Moved countingMem 1 0 2 (User.memmove countingMem 1 0 2).2 := by
  refine ⟨by decide +kernel, by decide +kernel, fun h => ?_⟩
  have hbyte := h.copied 1 (by decide)
  revert hbyte
  decide +kernel

end Xv6
