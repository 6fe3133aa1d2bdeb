import Mathlib.Order.Bounds.Basic
import Xv6.Fs.Dirs
import Xv6.Lib.Run
import Xv6.Theorems.FileBytes

/-! Directories as finite maps. The names are cut to `dirsiz` bytes; a map gives for a name the place of its entry and the
    inode number. -/

namespace Xv6.Fs
open Lib

/-! ### Names -/

/-- A name as a directory keeps it: up to its end, and at most `dirsiz` bytes. -/
def key (name : List Byte) : Name := (name.takeWhile (· ≠ 0)).take dirsiz

theorem takeWhile_take (P : Byte → Bool) (n : Nat) (l : List Byte) : (l.take n).takeWhile P = (l.takeWhile P).take n := by
  induction l generalizing n with
  | nil => simp
  | cons c l ih =>
    cases n with
    | zero => simp
    | succ n =>
      rw [List.take_succ_cons, List.takeWhile_cons, List.takeWhile_cons]
      split
      · rw [List.take_succ_cons, ih]
      · rfl

theorem take_cstring_succ (n : Nat) (l : List Byte) : (l.takeWhile (· ≠ 0)).take (n + 1) =
    if l.headD 0 ≠ 0 then l.headD 0 :: (l.tail.takeWhile (· ≠ 0)).take n else [] := by
  cases l with
  | nil => rfl
  | cons c l =>
    rw [List.takeWhile_cons, List.headD_cons, List.tail_cons]
    by_cases hc : c = 0
    · rw [if_neg (not_not.mpr hc), if_neg (by simpa using hc), List.take_nil]
    · rw [if_pos hc, if_pos (by simpa using hc), List.take_succ_cons]

theorem strncmp_eq_zero {n : Nat} {p q : List Byte} :
    strncmp n p q = 0 ↔ (p.takeWhile (· ≠ 0)).take n = (q.takeWhile (· ≠ 0)).take n := by
  induction n generalizing p q with
  | zero => simp [strncmp]
  | succ n ih =>
    rw [strncmp, take_cstring_succ, take_cstring_succ]
    by_cases heq : p.headD 0 = q.headD 0
    · rw [← heq]
      by_cases hp : p.headD 0 = 0
      · rw [if_neg (fun h => h.1 hp), if_neg (not_not.mpr hp), if_neg (not_not.mpr hp)]
        simp
      · rw [if_pos ⟨hp, rfl⟩, if_pos hp, if_pos hp, ih, List.cons.injEq]
        exact (and_iff_right rfl).symm
    · have hne : (p.headD 0).toNat ≠ (q.headD 0).toNat := fun h => heq (BitVec.eq_of_toNat_eq h)
      rw [if_neg (fun h => heq h.2)]
      constructor
      · intro h
        omega
      · intro h
        split_ifs at h with hp hq hq
        · exact absurd (List.cons.inj h).1 heq
        · exact absurd ((not_not.mp hp).trans (not_not.mp hq).symm) heq

theorem namecmp_eq_zero {name t : List Byte} : namecmp name t = 0 ↔ key name = key t := strncmp_eq_zero

theorem namecmp_dirent {name de : List Byte} : namecmp name (de.drop 2) = 0 ↔ direntName de = key name := by
  rw [namecmp_eq_zero, direntName, takeWhile_take, eq_comm]
  rfl

theorem dirlookupName_eq (d : Disk) (dp : Dinode) (name : List Byte) :
    d.dirlookupName dp name = d.dirlookup dp (name.takeWhile (· ≠ 0)) := by
  simp only [Disk.dirlookupName, Disk.dirlookup, namecmp_dirent]
  rfl

theorem length_strncpy (n : Nat) (t : List Byte) : (strncpy n t).length = n := by
  induction n generalizing t with
  | zero => rfl
  | succ n ih =>
    rw [strncpy, List.length_cons]
    split
    · rw [ih]
    · rw [List.length_replicate]

theorem takeWhile_strncpy (n : Nat) (t : List Byte) : (strncpy n t).takeWhile (· ≠ 0) = (t.takeWhile (· ≠ 0)).take n := by
  induction n generalizing t with
  | zero => rfl
  | succ n ih =>
    rw [strncpy, take_cstring_succ, List.takeWhile_cons]
    by_cases hc : t.headD 0 = 0
    · rw [if_neg (by simpa using hc), if_neg (not_not.mpr hc)]
    · rw [if_pos (by simpa using hc), if_pos hc, if_pos hc, ih]

theorem length_direntOf (inum : Nat) (name : List Byte) : (direntOf inum name).length = direntSize := by
  rw [direntOf, List.length_append, length_strncpy]
  rfl

theorem direntName_direntOf (inum : Nat) (name : List Byte) : direntName (direntOf inum name) = key name := by
  have hdrop : (direntOf inum name).drop 2 = strncpy dirsiz name := rfl
  rw [direntName, hdrop, List.take_of_length_le (length_strncpy ..).le, takeWhile_strncpy]
  rfl

theorem direntInum_direntOf (inum : Nat) (name : List Byte) : direntInum (direntOf inum name) = inum % 65536 := by
  change (BitVec.ofNat 8 inum).toNat + 256 * (BitVec.ofNat 8 (inum / 256)).toNat = _
  rw [BitVec.toNat_ofNat, BitVec.toNat_ofNat]
  omega

/-! ### Entries -/

namespace Node
variable {x : Node} {e : Panic} {P : List Byte → Bool}

def slot (x : Node) (k : Nat) : List Byte := x.read (direntSize * k) direntSize

theorem readDirent_slot {k : Nat} (hmax : x.size ≤ maxfile * bsize) (hk : direntSize * k + direntSize ≤ x.size) :
    x.readDirent e (direntSize * k) = .ok (x.slot k) := by
  have hbig : maxfile * bsize < 2 ^ 32 := by decide
  have hread : x.readi (direntSize * k) direntSize = some (x.slot k) := by
    rw [readi, if_neg (by omega), if_neg (by omega)]
    rfl
  rw [readDirent, hread]
  exact if_pos (x.length_read _ _)

theorem findDirent_slots (halign : x.size % direntSize = 0) (hmax : x.size ≤ maxfile * bsize) {c j : Nat}
    (hc : x.size ≤ direntSize * (j + c)) (hj : direntSize * j ≤ x.size) :
    ∃ k, j ≤ k ∧ (∀ q, j ≤ q → q < k → P (x.slot q) = false) ∧
      (direntSize * k < x.size ∧ P (x.slot k) = true ∧ x.findDirent e P c (direntSize * j) =
        .ok (direntSize * k, some (x.slot k)) ∨
        direntSize * k = x.size ∧ x.findDirent e P c (direntSize * j) = .ok (direntSize * k, none)) := by
  induction c generalizing j with
  | zero => exact ⟨j, Nat.le_refl _, fun q _ _ => by omega, .inr ⟨Nat.le_antisymm hj hc, rfl⟩⟩
  | succ c ih =>
    by_cases hlt : direntSize * j < x.size
    · have hnext : direntSize * j + direntSize ≤ x.size := by
        simp only [direntSize] at halign hlt ⊢
        omega
      have hstep : x.findDirent e P (c + 1) (direntSize * j) =
          if P (x.slot j) then .ok (direntSize * j, some (x.slot j)) else x.findDirent e P c (direntSize * (j + 1)) := by
        rw [findDirent, if_pos hlt, readDirent_slot hmax hnext]
        rfl
      rw [hstep]
      cases hP : P (x.slot j) with
      | true => exact ⟨j, Nat.le_refl _, fun q _ _ => by omega, .inl ⟨hlt, hP, rfl⟩⟩
      | false =>
        obtain ⟨k, hk, hbefore, hend⟩ := ih (j := j + 1) (by rw [Nat.add_right_comm]; exact hc) hnext
        refine ⟨k, by omega, fun q hq hqk => ?_, by simpa using hend⟩
        rcases Nat.eq_or_lt_of_le hq with rfl | hq
        · exact hP
        · exact hbefore q hq hqk
    · have hend : direntSize * j = x.size := by omega
      refine ⟨j, Nat.le_refl _, fun q _ _ => by omega, .inr ⟨hend, ?_⟩⟩
      rw [findDirent, if_neg hlt]

theorem findDirentFrom_slots (halign : x.size % direntSize = 0) (hmax : x.size ≤ maxfile * bsize) :
    ∃ k, (∀ q < k, P (x.slot q) = false) ∧
      (direntSize * k < x.size ∧ P (x.slot k) = true ∧ x.findDirentFrom e P 0 = .ok (direntSize * k, some (x.slot k)) ∨
        direntSize * k = x.size ∧ x.findDirentFrom e P 0 = .ok (direntSize * k, none)) := by
  obtain ⟨k, -, hbefore, hend⟩ :=
    x.findDirent_slots (e := e) (P := P) halign hmax (c := (x.size + direntSize - 1) / direntSize) (j := 0)
    (by simp only [direntSize]; omega) (Nat.zero_le _)
  exact ⟨k, fun q hq => hbefore q (Nat.zero_le _) hq, hend⟩

theorem slot_write {de : List Byte} (hde : de.length = direntSize) (j k : Nat) :
    (x.write de (direntSize * j)).slot k = if k = j then de else x.slot k := by
  refine List.ext_getElem? fun t => ?_
  by_cases ht : t < direntSize
  · rw [slot, getElem?_read _ ht, write]
    simp only [direntSize] at hde ht ⊢
    simp only [hde]
    split
    · rename_i hin
      have hkj : k = j := by omega
      rw [if_pos hkj, hkj, List.getD_eq_getElem?_getD, Nat.add_sub_cancel_left, List.getElem?_eq_getElem (by omega),
        Option.getD_some]
    · rename_i hout
      rw [if_neg (by omega), slot, getElem?_read _ ht]
  · rw [List.getElem?_eq_none (by rw [slot, length_read]; omega), List.getElem?_eq_none]
    split
    · omega
    · rw [slot, length_read]
      omega

end Node

/-! ### Where no block is missing -/

section
variable {d : Disk} {X : Nat → Dinode} {i off : Nat} {e : Panic} {P : List Byte → Bool}

theorem Dense.readDirent (own : Own d X) (hd : Dense d X) (hi : (X i).kind ≠ .free) :
    d.readDirent e (X i) off = (((X i).node d.block).readDirent e off).map fun de => (de, d, X i) := by
  rw [Disk.readDirent, hd.readi own hi off direntSize, ← Node.readi_eq_bytes, Node.readDirent]
  cases ((X i).node d.block).readi off direntSize with
  | none => rfl
  | some de =>
    change (if _ then _ else _) = Except.map _ (if _ then _ else _)
    split <;> rfl

theorem Dense.findDirent (own : Own d X) (hd : Dense d X) (hi : (X i).kind ≠ .free) (c off : Nat) :
    Disk.findDirent e P c d (X i) off = (((X i).node d.block).findDirent e P c off).map fun r => (r, d, X i) := by
  induction c generalizing off with
  | zero => rfl
  | succ c ih =>
    rw [Disk.findDirent, Node.findDirent]
    have hsize : ((X i).node d.block).size = (X i).size := rfl
    rw [hsize]
    split
    · rw [hd.readDirent own hi]
      cases ((X i).node d.block).readDirent e off with
      | error e => rfl
      | ok de =>
        change (if _ then _ else _) = Except.map _ (if _ then _ else _)
        split
        · rfl
        · exact ih _
    · rfl

theorem Dense.dirlookup (own : Own d X) (hd : Dense d X) (hi : (X i).kind ≠ .free) (name : Name) :
    d.dirlookup (X i) name = (((X i).node d.block).dirlookup name).map fun r => (r, d, X i) := by
  rw [Disk.dirlookup, Node.dirlookup]
  have hkind : ((X i).node d.block).kind = (X i).kind := rfl
  rw [hkind]
  split
  · rfl
  · rw [Disk.findDirentFrom, hd.findDirent own hi, Node.findDirentFrom]
    have hsize : ((X i).node d.block).size = (X i).size := rfl
    rw [hsize]
    cases ((X i).node d.block).findDirent _ _ _ _ with
    | error e => rfl
    | ok r => rfl

theorem Dense.dirlinkScan (own : Own d X) (hd : Dense d X) (hi : (X i).kind ≠ .free) :
    d.dirlinkScan (X i) = (((X i).node d.block).dirlinkScan).map fun r => (r, d, X i) := by
  rw [Disk.dirlinkScan, Node.dirlinkScan, Disk.findDirentFrom, hd.findDirent own hi, Node.findDirentFrom]
  have hsize : ((X i).node d.block).size = (X i).size := rfl
  rw [hsize]
  cases ((X i).node d.block).findDirent _ _ _ _ with
  | error e => rfl
  | ok r => rfl

end

/-! ### Maps -/

/-- For a name the place of its entry and the inode number. -/
abbrev Dir := Name → Option (Nat × Nat)

def Dir.Used (m : Dir) (k : Nat) : Prop := ∃ name inum, m name = some (direntSize * k, inum)

def maxEntries : Nat := maxfile * bsize / direntSize

/-- A call on a map. A new name gets the first entry that is not in use. -/
inductive Dir.Step (m : Dir) : DirOp × DirRet → Dir → Prop
  | lookup (name : List Byte) : Step m (.lookup name, .entry (m (key name))) m
  | present {name : List Byte} (inum : Nat) (h : m (key name) ≠ none) : Step m (.link name inum, .done false) m
  | link {name : List Byte} (inum : Nat) {k : Nat} (h : m (key name) = none) (hk : IsLeast {k | ¬m.Used k} k)
    (hroom : k < maxEntries) :
    Step m (.link name inum, .done true)
      (if inum % 65536 = 0 then m else Function.update m (key name) (some (direntSize * k, inum % 65536)))
  | refuse {name : List Byte} {busy : Bool} (h : key name = dot ∨ key name = dotdot ∨ m (key name) = none ∨ busy = true) :
    Step m (.unlink name busy, .done false) m
  | unlink {name : List Byte} (h : key name ≠ dot ∧ key name ≠ dotdot) (h' : m (key name) ≠ none) :
    Step m (.unlink name false, .done true) (Function.update m (key name) none)

/-- The entries of a directory are those of a map. -/
structure Represents (x : Node) (m : Dir) : Prop where
  kind : x.kind = .dir
  align : x.size % direntSize = 0
  bounded : x.size ≤ maxfile * bsize
  entry : ∀ {name off inum}, m name = some (off, inum) ↔ ∃ k, off = direntSize * k ∧ off < x.size ∧
    direntInum (x.slot k) = inum ∧
    inum ≠ 0 ∧ direntName (x.slot k) = name

namespace Represents
variable {x : Node} {m m' : Dir}

theorem used_iff (h : Represents x m) {k : Nat} : m.Used k ↔ direntSize * k < x.size ∧ direntInum (x.slot k) ≠ 0 := by
  constructor
  · rintro ⟨name, inum, hm⟩
    obtain ⟨k', hk, hlt, rfl, h0, -⟩ := h.entry.mp hm
    obtain rfl : k = k' := Nat.eq_of_mul_eq_mul_left (by decide) hk
    exact ⟨hlt, h0⟩
  · rintro ⟨hlt, h0⟩
    exact ⟨_, _, h.entry.mpr ⟨k, rfl, hlt, rfl, h0, rfl⟩⟩

theorem distinct (h : Represents x m) {j k : Nat} (hj : direntSize * j < x.size) (hk : direntSize * k < x.size)
    (hj0 : direntInum (x.slot j) ≠ 0) (hk0 : direntInum (x.slot k) ≠ 0)
    (hname : direntName (x.slot j) = direntName (x.slot k)) : j = k := by
  have h1 := h.entry.mpr ⟨j, rfl, hj, rfl, hj0, rfl⟩
  have h2 := h.entry.mpr ⟨k, rfl, hk, rfl, hk0, hname.symm⟩
  have heq := h1.symm.trans h2
  rw [Option.some.injEq, Prod.mk.injEq] at heq
  exact Nat.eq_of_mul_eq_mul_left (by decide) heq.1

theorem dirlookup (h : Represents x m) (name : Name) : x.dirlookup name = .ok (m (name.take dirsiz)) := by
  rw [Node.dirlookup, if_neg (not_not.mpr h.kind)]
  obtain ⟨k, hbefore, ⟨hlt, hP, hfind⟩ | ⟨hend, hfind⟩⟩ := x.findDirentFrom_slots (e := .dirlinkRead)
    (P := fun de => direntInum de ≠ 0 ∧ direntName de = name.take dirsiz) h.align h.bounded
  · rw [hfind]
    have hP := of_decide_eq_true hP
    rw [h.entry.mpr ⟨k, rfl, hlt, rfl, hP.1, hP.2⟩]
    rfl
  · rw [hfind]
    have hnone : m (name.take dirsiz) = none := by
      rw [Option.eq_none_iff_forall_ne_some]
      rintro ⟨off, inum⟩ hm
      obtain ⟨q, rfl, hlt, rfl, h0, hname⟩ := h.entry.mp hm
      have hq := hbefore q (Nat.lt_of_mul_lt_mul_left (hend.symm ▸ hlt))
      exact of_decide_eq_false hq ⟨h0, hname⟩
    rw [hnone]
    rfl

theorem dirlinkScan (h : Represents x m) :
    ∃ k, x.dirlinkScan = .ok (direntSize * k) ∧ IsLeast {k | ¬m.Used k} k ∧ direntSize * k ≤ x.size := by
  obtain ⟨k, hbefore, hend⟩ :=
    x.findDirentFrom_slots (e := .dirlinkRead) (P := fun de => direntInum de = 0) h.align h.bounded
  have hle : direntSize * k ≤ x.size := by
    rcases hend with ⟨hlt, -, -⟩ | ⟨hend, -⟩
    · exact hlt.le
    · exact hend.le
  refine ⟨k, ?_, ⟨fun hused => ?_, fun q hq => ?_⟩, hle⟩
  · rcases hend with ⟨-, -, hfind⟩ | ⟨-, hfind⟩
    · rw [Node.dirlinkScan, hfind]
      rfl
    · rw [Node.dirlinkScan, hfind]
      rfl
  · obtain ⟨hlt, h0⟩ := h.used_iff.mp hused
    rcases hend with ⟨-, hP, -⟩ | ⟨hend, -⟩
    · exact h0 (of_decide_eq_true hP)
    · omega
  · by_contra hqk
    have hqk : q < k := Nat.lt_of_not_le hqk
    have h0 := of_decide_eq_false (hbefore q hqk)
    exact hq (h.used_iff.mpr ⟨Nat.lt_of_lt_of_le (Nat.mul_lt_mul_of_pos_left hqk (by decide)) hle, h0⟩)

theorem write (h : Represents x m) {de : List Byte} {k : Nat} (hde : de.length = direntSize) (hk : direntSize * k ≤ x.size)
    (hroom : direntSize * k + direntSize ≤ maxfile * bsize)
    (hm : ∀ {name off inum}, m' name = some (off, inum) ↔ off ≠ direntSize * k ∧ m name = some (off, inum) ∨
      off = direntSize * k ∧ direntInum de = inum ∧ inum ≠ 0 ∧
          direntName de = name) : Represents (x.write de (direntSize * k)) m' := by
  have hsize : (x.write de (direntSize * k)).size = max x.size (direntSize * k + direntSize) := by rw [← hde]; rfl
  have halign := h.align
  refine ⟨h.kind, ?_, by rw [hsize]; exact Nat.max_le.mpr ⟨h.bounded, hroom⟩, fun {name off inum} => ?_⟩
  · rw [hsize]
    simp only [direntSize] at halign ⊢
    omega
  · rw [hm, h.entry]
    constructor
    · rintro (⟨hne, q, rfl, hlt, hinum, h0, hname⟩ | ⟨rfl, hinum, h0, hname⟩)
      · have hqk : q ≠ k := fun heq => hne (heq ▸ rfl)
        refine ⟨q, rfl, by rw [hsize]; omega, ?_⟩
        rw [Node.slot_write hde, if_neg hqk]
        exact ⟨hinum, h0, hname⟩
      · refine ⟨k, rfl, by rw [hsize]; simp only [direntSize]; omega, ?_⟩
        rw [Node.slot_write hde, if_pos rfl]
        exact ⟨hinum, h0, hname⟩
    · rintro ⟨q, rfl, hlt, hq⟩
      rw [Node.slot_write hde] at hq
      by_cases hqk : q = k
      · rw [if_pos hqk] at hq
        exact .inr ⟨by rw [hqk], hq⟩
      · rw [if_neg hqk] at hq
        refine .inl ⟨fun heq => hqk (Nat.eq_of_mul_eq_mul_left (by decide) heq), q, rfl, ?_, hq⟩
        rw [hsize] at hlt
        simp only [direntSize] at hk hlt halign ⊢
        omega

theorem link (h : Represents x m) {name : List Byte} {k : Nat} (inum : Nat) (hnone : m (key name) = none) (hk : ¬m.Used k)
    (hle : direntSize * k ≤ x.size) (hroom : direntSize * k + direntSize ≤ maxfile * bsize) :
    Represents (x.write (direntOf inum name) (direntSize * k))
      (if inum % 65536 = 0 then m else Function.update m (key name) (some (direntSize * k, inum % 65536))) := by
  have hold : ∀ {nm off n}, m nm = some (off, n) → off ≠ direntSize * k := by
    rintro nm off n hm rfl
    exact hk ⟨nm, n, hm⟩
  refine h.write (length_direntOf ..) hle hroom fun {nm off n} => ?_
  rw [direntInum_direntOf, direntName_direntOf]
  split
  · rename_i h0
    constructor
    · exact fun hm => .inl ⟨hold hm, hm⟩
    · rintro (⟨-, hm⟩ | ⟨-, hn, hne, -⟩)
      · exact hm
      · exact absurd (hn.symm.trans h0) hne
  · rename_i h0
    by_cases hnm : nm = key name
    · rw [hnm, Function.update_self, Option.some.injEq, Prod.mk.injEq, hnone]
      constructor
      · rintro ⟨rfl, rfl⟩
        exact .inr ⟨rfl, rfl, h0, rfl⟩
      · rintro (⟨-, hm⟩ | ⟨rfl, rfl, -, -⟩)
        · cases hm
        · exact ⟨rfl, rfl⟩
    · rw [Function.update_of_ne hnm]
      constructor
      · exact fun hm => .inl ⟨hold hm, hm⟩
      · rintro (⟨-, hm⟩ | ⟨-, -, -, hname⟩)
        · exact hm
        · exact absurd hname.symm hnm

theorem unlink (h : Represents x m) {nm : Name} {off inum : Nat} (hm : m nm = some (off, inum)) :
    off ≤ x.size ∧ off + direntSize ≤ maxfile * bsize ∧
      Represents (x.write (List.replicate direntSize 0) off) (Function.update m nm none) := by
  obtain ⟨k, rfl, hlt, hinum, h0, hname⟩ := h.entry.mp hm
  have halign := h.align
  have hroom : direntSize * k + direntSize ≤ maxfile * bsize := by
    refine Nat.le_trans ?_ h.bounded
    simp only [direntSize] at hlt halign ⊢
    omega
  refine ⟨hlt.le, hroom, h.write List.length_replicate hlt.le hroom fun {name off' n} => ?_⟩
  by_cases hnm : name = nm
  · rw [hnm, Function.update_self, hm]
    constructor
    · exact nofun
    · rintro (⟨hne, heq⟩ | ⟨-, rfl, hne, -⟩)
      · rw [Option.some.injEq, Prod.mk.injEq] at heq
        exact absurd heq.1.symm hne
      · exact absurd rfl hne
  · rw [Function.update_of_ne hnm]
    constructor
    · intro hm'
      refine .inl ⟨fun hoff => hnm ?_, hm'⟩
      obtain ⟨q, hq, -, -, -, hname'⟩ := h.entry.mp hm'
      have hqk : k = q := Nat.eq_of_mul_eq_mul_left (by decide) (hoff.symm.trans hq)
      rw [← hname', ← hqk, hname]
    · rintro (⟨-, hm'⟩ | ⟨-, rfl, hne, -⟩)
      · exact hm'
      · exact absurd rfl hne

end Represents

/-! ### Runs -/

theorem Own.writeDirent {d : Disk} {X : Nat → Dinode} {i off : Nat} {e : Panic} {de : List Byte} (own : Own d X)
    (hi : (X i).kind ≠ .free)
    (hde : de.length = direntSize) (hoff : off ≤ (X i).size) :
    if off + direntSize ≤ maxfile * bsize then
      d.writeDirent e i (X i) off de = .error .ballocOutOfBlocks ∨
        ∃ d' ip, d.writeDirent e i (X i) off de = .ok (d', ip) ∧ Wrote d X i de off d' ip
    else d.writeDirent e i (X i) off de = .error e := by
  have hmax : maxfile * bsize = 71680 := rfl
  have hw := own.writei hi de off
  rw [hde] at hw
  split
  · rename_i hroom
    rw [if_neg (by unfold Refused; simp only [direntSize] at hroom ⊢; omega)] at hw
    rcases hw with hw | ⟨d', ip, hw, hwrote⟩
    · exact .inl (bind_eq_error.mpr (.inl hw))
    · exact .inr ⟨d', ip, bind_eq_ok.mpr ⟨_, hw, rfl⟩, hwrote⟩
  · rename_i hroom
    rw [if_pos (.inr (.inr (Nat.lt_of_not_le hroom)))] at hw
    exact bind_eq_error.mpr (.inr ⟨_, hw, rfl⟩)

/-- Inode `i` is a directory with the entries of a map. -/
structure HoldsDir (i : Nat) (s : Inodes) (m : Dir) : Prop extends Owned s where
  dir : Represents ((s.mem i).node s.disk.block) m

def Dir.Full (m : Dir) : Prop := ∀ k < maxEntries, m.Used k

section
variable {i : Nat} {s s' : Inodes} {m : Dir}

theorem HoldsDir.allocated (h : HoldsDir i s m) : (s.mem i).kind ≠ .free := by
  have hkind : (s.mem i).kind = .dir := h.dir.kind
  rw [hkind]
  simp

theorem HoldsDir.lookup (h : HoldsDir i s m) (name : List Byte) :
    s.disk.dirlookupName (s.mem i) name = .ok (m (key name), s.disk, s.mem i) := by
  rw [dirlookupName_eq, h.dense.dirlookup h.own h.allocated, h.dir.dirlookup]
  rfl

theorem HoldsDir.unchanged {op : DirOp} {ret : DirRet} (h : HoldsDir i s m)
    (hop : s.dirStep i op = .ok (ret, ⟨s.disk, Function.update s.mem i (s.mem i)⟩)) (hm : m.Step (op, ret) m) :
    ∃ ret s' m', s.dirStep i op = .ok (ret, s') ∧ m.Step (op, ret) m' ∧ HoldsDir i s' m' := by
  rw [Function.update_eq_self] at hop
  exact ⟨ret, s, m, hop, hm, h⟩

theorem HoldsDir.writes {op : DirOp} {m' : Dir} {e : Panic} {de : List Byte} {off : Nat} (h : HoldsDir i s m)
    (hop : s.dirStep i op =
      (s.disk.writeDirent e i (s.mem i) off de).map fun r => (.done true, ⟨r.1, Function.update s.mem i r.2⟩))
    (hde : de.length = direntSize) (hoff : off ≤ (s.mem i).size) (hroom : off + direntSize ≤ maxfile * bsize)
    (hm : m.Step (op, .done true) m') (hdir : Represents (((s.mem i).node s.disk.block).write de off) m') :
    s.dirStep i op = .error .ballocOutOfBlocks ∨
      ∃ ret s' m', s.dirStep i op = .ok (ret, s') ∧ m.Step (op, ret) m' ∧ HoldsDir i s' m' := by
  have hwrite := h.own.writeDirent (e := e) h.allocated hde hoff
  rw [if_pos hroom] at hwrite
  rcases hwrite with hw | ⟨d', ip, hw, hwrote⟩
  · left
    rw [hop, hw]
    rfl
  · right
    refine ⟨.done true, ⟨d', Function.update s.mem i ip⟩, m', by rw [hop, hw]; rfl, hm,
      ⟨hwrote.own, hwrote.dense hoff h.dense⟩, ?_⟩
    dsimp only
    rw [Function.update_self, hwrote.node]
    exact hdir

theorem HoldsDir.dirStep_link {name : List Byte} {off : Nat} (h : HoldsDir i s m) (inum : Nat) (hm : m (key name) = none)
    (hscan : ((s.mem i).node s.disk.block).dirlinkScan = .ok off) :
    s.dirStep i (.link name inum) = (s.disk.writeDirent .dirlink i (s.mem i) off (direntOf inum name)).map fun r =>
      (.done true, ⟨r.1, Function.update s.mem i r.2⟩) := by
  rw [Inodes.dirStep, Disk.dirlink, h.lookup, hm]
  change Except.bind (Except.bind (s.disk.dirlinkScan (s.mem i)) _) _ = _
  rw [h.dense.dirlinkScan h.own h.allocated, hscan]
  change Except.bind (Except.bind (s.disk.writeDirent .dirlink i (s.mem i) off (direntOf inum name)) _) _ = _
  cases s.disk.writeDirent .dirlink i (s.mem i) off (direntOf inum name) with
  | error e => rfl
  | ok r => rfl

theorem HoldsDir.link {name : List Byte} (h : HoldsDir i s m) (inum : Nat) (hm : m (key name) = none) :
    (s.dirStep i (.link name inum) = .error .dirlink ∧ m.Full) ∨ s.dirStep i (.link name inum) = .error .ballocOutOfBlocks ∨
      ∃ ret s' m', s.dirStep i (.link name inum) = .ok (ret, s') ∧ m.Step (.link name inum, ret) m' ∧ HoldsDir i s' m' := by
  have hmax : maxfile * bsize = 71680 := rfl
  have hentries : maxEntries = 4480 := rfl
  obtain ⟨k, hscan, hleast, hle⟩ := h.dir.dirlinkScan
  have hop := h.dirStep_link inum hm hscan
  by_cases hroom : direntSize * k + direntSize ≤ maxfile * bsize
  · right
    refine h.writes hop (length_direntOf ..) hle hroom (.link inum hm hleast ?_) (h.dir.link inum hm hleast.1 hle hroom)
    simp only [direntSize] at hroom
    omega
  · have hwrite := h.own.writeDirent (e := .dirlink) h.allocated (length_direntOf inum name) hle
    rw [if_neg hroom] at hwrite
    refine .inl ⟨by rw [hop, hwrite]; rfl, fun q hq => ?_⟩
    by_contra hunused
    have := hleast.2 hunused
    simp only [direntSize] at hroom
    omega

theorem HoldsDir.unlink (h : HoldsDir i s m) (name : List Byte) (busy : Bool) :
    s.dirStep i (.unlink name busy) = .error .ballocOutOfBlocks ∨
      ∃ ret s' m', s.dirStep i (.unlink name busy) = .ok (ret, s') ∧ m.Step (.unlink name busy, ret) m' ∧
          HoldsDir i s' m' := by
  have hdot : namecmp name dot = 0 ↔ key name = dot := namecmp_eq_zero
  have hdotdot : namecmp name dotdot = 0 ↔ key name = dotdot := namecmp_eq_zero
  by_cases hdots : namecmp name dot = 0 ∨ namecmp name dotdot = 0
  · refine .inr (h.unchanged ?_ (.refuse ?_))
    · rw [Inodes.dirStep, Disk.unlinkEntry, if_pos hdots]
      rfl
    · rcases hdots with hd | hd
      · exact .inl (hdot.mp hd)
      · exact .inr (.inl (hdotdot.mp hd))
  · have hkey : key name ≠ dot ∧ key name ≠ dotdot :=
      ⟨fun h => hdots (.inl (hdot.mpr h)), fun h => hdots (.inr (hdotdot.mpr h))⟩
    cases hm : m (key name) with
    | none =>
      refine .inr (h.unchanged ?_ (.refuse (.inr (.inr (.inl hm)))))
      rw [Inodes.dirStep, Disk.unlinkEntry, if_neg hdots, h.lookup, hm]
      rfl
    | some r =>
      obtain ⟨off, inum⟩ := r
      cases busy with
      | true =>
        refine .inr (h.unchanged ?_ (.refuse (.inr (.inr (.inr rfl)))))
        rw [Inodes.dirStep, Disk.unlinkEntry, if_neg hdots, h.lookup, hm]
        rfl
      | false =>
        obtain ⟨hle, hroom, hdir⟩ := h.dir.unlink hm
        refine h.writes (e := .unlinkWritei) ?_ List.length_replicate hle hroom (.unlink hkey (by rw [hm]; simp)) hdir
        rw [Inodes.dirStep, Disk.unlinkEntry, if_neg hdots, h.lookup, hm]
        change Except.bind
          (Except.bind (s.disk.writeDirent .unlinkWritei i (s.mem i) off (List.replicate direntSize 0)) _) _ = _
        cases s.disk.writeDirent .unlinkWritei i (s.mem i) off (List.replicate direntSize 0) with
        | error e => rfl
        | ok r => rfl

/-- A call runs out of blocks, or it finds no room for a new name, or it does what it does on the map. -/
theorem HoldsDir.step (h : HoldsDir i s m) (op : DirOp) :
    s.dirStep i op = .error .ballocOutOfBlocks ∨
      (s.dirStep i op = .error .dirlink ∧ (∃ name inum, op = .link name inum ∧ m (key name) = none) ∧ m.Full) ∨
      ∃ ret s' m', s.dirStep i op = .ok (ret, s') ∧ m.Step (op, ret) m' ∧ HoldsDir i s' m' := by
  cases op with
  | lookup name =>
    refine .inr (.inr (h.unchanged ?_ (.lookup name)))
    rw [Inodes.dirStep, h.lookup]
    rfl
  | link name inum =>
    cases hm : m (key name) with
    | some r =>
      refine .inr (.inr (h.unchanged ?_ (.present inum (by rw [hm]; simp))))
      rw [Inodes.dirStep, Disk.dirlink, h.lookup, hm]
      rfl
    | none =>
      rcases h.link inum hm with ⟨hfull, hused⟩ | hout | hret
      · exact .inr (.inl ⟨hfull, ⟨name, inum, rfl, hm⟩, hused⟩)
      · exact .inl hout
      · exact .inr (.inr hret)
  | unlink name busy =>
    rcases h.unlink name busy with hout | hret
    · exact .inl hout
    · exact .inr (.inr hret)

end

def DirCall (i : Nat) (s : Inodes) (call : DirOp × DirRet) (s' : Inodes) : Prop := s.dirStep i call.1 = .ok (call.2, s')

theorem HoldsDir.call {i : Nat} {s s' : Inodes} {m : Dir} {call : DirOp × DirRet} (h : HoldsDir i s m)
    (hs : DirCall i s call s') :
    ∃ m', m.Step call m' ∧ HoldsDir i s' m' := by
  rcases h.step call.1 with he | ⟨he, -⟩ | ⟨ret, u, m', he, hm, hdir⟩
  · cases he.symm.trans hs
  · cases he.symm.trans hs
  · obtain ⟨rfl, rfl⟩ : ret = call.2 ∧ u = s' := by
      have heq := he.symm.trans hs
      rw [Except.ok.injEq, Prod.mk.injEq] at heq
      exact heq
    exact ⟨m', hm, hdir⟩

/-- A new directory with number `a` in the directory with number `b`. -/
def newDir (a b : Nat) : Dir := fun name => if name = dot then some (0, a) else if name = dotdot then some (direntSize, b)
    else none

def Dir.HasDots (a b : Nat) (m : Dir) : Prop := m dot = some (0, a) ∧ m dotdot = some (direntSize, b)

theorem Dir.HasDots.step {a b : Nat} {m m' : Dir} {call : DirOp × DirRet} (h : m.HasDots a b) (hs : m.Step call m') :
    m'.HasDots a b := by
  cases hs with
  | lookup | present | refuse => exact h
  | link inum hnone =>
    split
    · exact h
    · refine ⟨?_, ?_⟩
      · rw [Function.update_of_ne, h.1]
        intro heq
        rw [← heq, h.1] at hnone
        cases hnone
      · rw [Function.update_of_ne, h.2]
        intro heq
        rw [← heq, h.2] at hnone
        cases hnone
  | unlink hne =>
    rw [HasDots, Function.update_of_ne hne.1.symm, Function.update_of_ne hne.2.symm]
    exact h

/-- The calls on a directory, from its creation on, are calls on a map: they return the same, and the entries are those of
    the map, with different names, the first two of them `.` and `..`. A call does not return only if there is no block for
    it, or if it links a new name to a full directory. -/
theorem directory_map {i a b : Nat} {s₀ s : Inodes} {tr : List (Inodes × DirOp × DirRet)} (h₀ : HoldsDir i s₀ (newDir a b))
    (hrun : Run (DirCall i) s₀ tr s) :
    ∃ tr' m, Run Dir.Step (newDir a b) tr' m ∧ tr'.map (·.2) = tr.map (·.2) ∧
      Represents ((s.mem i).node s.disk.block) m ∧ m.HasDots a b ∧
      (∀ j k, m.Used j → m.Used k → direntName (((s.mem i).node s.disk.block).slot j) =
        direntName (((s.mem i).node s.disk.block).slot k) →
        j = k) ∧
      ∀ op e, s.dirStep i op = .error e → e = .ballocOutOfBlocks ∨
        e = .dirlink ∧ (∃ name inum, op = .link name inum ∧ m (key name) = none) ∧ m.Full := by
  obtain ⟨tr', m, hrun', hlabels, hdir, hdots⟩ :=
    hrun.simulates (R := fun s m => HoldsDir i s m ∧ m.HasDots a b) ⟨h₀, rfl, rfl⟩
    fun {_ _ _ _} h hs => by
      obtain ⟨m', hm, hdir⟩ := h.1.call hs
      exact ⟨m', hm, hdir, h.2.step hm⟩
  refine ⟨tr', m, hrun', hlabels, hdir.dir, hdots, fun j k hj hk => ?_, fun op e he => ?_⟩
  · obtain ⟨hj, hj0⟩ := hdir.dir.used_iff.mp hj
    obtain ⟨hk, hk0⟩ := hdir.dir.used_iff.mp hk
    exact hdir.dir.distinct hj hk hj0 hk0
  · rcases hdir.step op with hs | ⟨hs, hfull⟩ | ⟨ret, s', m', hs, -⟩
    · cases he.symm.trans hs
      exact .inl rfl
    · cases he.symm.trans hs
      exact .inr ⟨rfl, hfull⟩
    · cases he.symm.trans hs

/-! ### A directory -/

/-- Inode 1 is a directory in block 10, its own parent. -/
def rootDir : Inodes :=
  ⟨⟨smallSb, fun _ => ⟨.free, 0, 0, 0, 0, fun _ => 0⟩, fun b => b ≤ 10,
      fun b x => if b = 10 then (direntOf 1 dot ++ direntOf 1 dotdot).getD x 0 else 0⟩,
    fun i => ⟨if i = 1 then .dir else .free, 0, 0, 1, 32, fun r => if r = 0 then 10 else 0⟩⟩

theorem rootDir_refers {i r a : Nat} : Refers rootDir.disk rootDir.mem i r a ↔ i = 1 ∧ r = 0 ∧ a = 10 := by
  constructor
  · rintro ⟨hi, -, ha, h0⟩
    have h1 : i = 1 := eq_of_allocated hi
    have hr : r = 0 := by
      by_contra hne
      exact h0 (ha.symm.trans (by simp [Dinode.ref, rootDir, hne]))
    subst h1 hr
    exact ⟨rfl, rfl, ha.symm⟩
  · rintro ⟨rfl, rfl, rfl⟩
    exact ⟨by decide, by decide, rfl, by decide⟩

theorem rootDir_owned : Owned rootDir := by
  refine ⟨⟨by decide, fun b hb => decide_eq_true ?_, fun h => ?_, fun h h' => ?_⟩, fun i bn hi hbn => ?_⟩
  · have hb : b < 10 := hb
    omega
  · obtain ⟨-, -, rfl⟩ := rootDir_refers.mp h
    decide
  · obtain ⟨rfl, rfl, rfl⟩ := rootDir_refers.mp h
    obtain ⟨rfl, rfl, -⟩ := rootDir_refers.mp h'
    exact ⟨rfl, rfl⟩
  · have hbn : bn * 512 < 32 := hbn
    have h1 : i = 1 := eq_of_allocated hi
    obtain rfl : bn = 0 := by omega
    exact ⟨10, rootDir_refers.mpr ⟨h1, rfl, rfl⟩⟩

theorem rootDir_holds : HoldsDir 1 rootDir (newDir 1 1) := by
  have hslot0 : ((rootDir.mem 1).node rootDir.disk.block).slot 0 = direntOf 1 dot := by decide +kernel
  have hslot1 : ((rootDir.mem 1).node rootDir.disk.block).slot 1 = direntOf 1 dotdot := by decide +kernel
  have hname0 : key dot = dot := rfl
  have hname1 : key dotdot = dotdot := rfl
  refine ⟨rootDir_owned, rfl, rfl, by decide, fun {name off inum} => ?_⟩
  constructor
  · intro h
    unfold newDir at h
    split at h
    · rename_i hdot
      cases h
      exact ⟨0, rfl, by decide, by rw [hslot0]; rfl, by decide, by rw [hslot0, direntName_direntOf, hname0, hdot]⟩
    · split at h
      · rename_i hdotdot
        cases h
        exact ⟨1, rfl, by decide, by rw [hslot1]; rfl, by decide, by rw [hslot1, direntName_direntOf, hname1, hdotdot]⟩
      · cases h
  · rintro ⟨k, rfl, hlt, rfl, -, rfl⟩
    have hlt : 16 * k < 32 := hlt
    obtain rfl | rfl : k = 0 ∨ k = 1 := by omega
    · rw [hslot0, direntName_direntOf]
      rfl
    · rw [hslot1, direntName_direntOf]
      rfl

/-- A name is linked, looked up and unlinked. -/
theorem directory_map_unlink : ∃ s₁ s₂ s₃ tr' m, DirCall 1 rootDir (.link [0x61] 5, .done true) s₁ ∧
    DirCall 1 s₁ (.lookup [0x61], .entry (some (32, 5))) s₂ ∧ DirCall 1 s₂ (.unlink [0x61] false, .done true) s₃ ∧
    Run Dir.Step (newDir 1 1) tr' m ∧
    tr'.map (·.2) = [(.link [0x61] 5, .done true), (.lookup [0x61], .entry (some (32, 5))),
      (.unlink [0x61] false, .done true)] ∧
    Represents ((s₃.mem 1).node s₃.disk.block) m := by
  have hok : (do
      let x ← rootDir.dirStep 1 (.link [0x61] 5)
      let y ← x.2.dirStep 1 (.lookup [0x61])
      let z ← y.2.dirStep 1 (.unlink [0x61] false)
      .ok [x.1, y.1, z.1]) = .ok [.done true, .entry (some (32, 5)), .done true] := by decide +kernel
  obtain ⟨⟨r₁, s₁⟩, h₁, hok⟩ := bind_eq_ok.mp hok
  obtain ⟨⟨r₂, s₂⟩, h₂, hok⟩ := bind_eq_ok.mp hok
  obtain ⟨⟨r₃, s₃⟩, h₃, hok⟩ := bind_eq_ok.mp hok
  cases hok
  obtain ⟨tr', m, hrun, hlabels, hdir, -⟩ := directory_map (s := s₃) rootDir_holds
    (((Run.nil.snoc (show DirCall 1 _ (_, _) _ from h₁)).snoc (show DirCall 1 _ (_, _) _ from h₂)).snoc
      (show DirCall 1 _ (_, _) _ from h₃))
  exact ⟨s₁, s₂, s₃, tr', m, h₁, h₂, h₃, hrun, hlabels, hdir⟩

end Xv6.Fs
