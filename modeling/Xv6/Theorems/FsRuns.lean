import Xv6.Fs.Calls

/-! Programs of the file system that run alone. -/

namespace Xv6.Fs
open Lib

section
variable {p : Pid} {s : State} {k : Slot} {f : FileIx} {n : Nat}

@[simp] theorem run_beginOp : beginOp.run (act p) s = .done () { s with outstanding := s.outstanding + 1 } := rfl
@[simp] theorem run_endOp : endOp.run (act p) s = .done () { s with outstanding := s.outstanding - 1 } := rfl
@[simp] theorem run_peek : (peek k).run (act p) s = .done (s.icache k).din s := rfl
@[simp] theorem run_file : (file f).run (act p) s = .done (s.ftable f) s := rfl
@[simp] theorem run_fileOff : (fileOff f).run (act p) s = .done (s.ftable f).off s := rfl
@[simp] theorem run_addOff : (addOff f n).run (act p) s =
    .done () (s.setFile f { s.ftable f with off := (s.ftable f).off + n }) := rfl
@[simp] theorem run_acquiresleep : (acquiresleep k).run (act p) s = s.acquiresleep p k := Prog.run_op ..
@[simp] theorem run_load : (load k).run (act p) s = s.load k := Prog.run_op ..
@[simp] theorem run_iunlock : (iunlock k).run (act p) s = s.iunlock k := Prog.run_op ..

@[simp] theorem run_iget : (iget n).run (act p) s = s.iget n := Prog.run_op ..
@[simp] theorem run_iputTest : (iputTest k).run (act p) s = s.iputTest k := Prog.run_op ..
theorem run_dirlookupScan (name : Name) :
    (dirlookupScan k name).run (act p) s = s.withInode k (s.disk.dirlookup (s.icache k).din name) := Prog.run_op ..

theorem run_writei (h : (s.icache k).din.kind ≠ .dev) (src : List Byte) (off : Nat) :
    (writei k src off).run (act p) s = s.withInode k (s.disk.writei (s.icache k).inum (s.icache k).din src off) := by
  rw [writei, Prog.run_bind, run_peek, Outcome.bind, if_neg h]
  exact Prog.run_op ..

@[simp] theorem setInode_self {x : Inode} : (s.setInode k x).icache k = x := Function.update_self ..

theorem setInode_of_ne {x : Inode} {l : Slot} (h : l ≠ k) : (s.setInode k x).icache l = s.icache l :=
    Function.update_of_ne h ..

/-- The inode of an entry of the cache as it is in use. -/
def State.copyOf (s : State) (k : Slot) : Dinode :=
  if (s.icache k).valid then (s.icache k).din else s.disk.inode (s.icache k).inum

/-- An entry of the cache once `ilock` has returned. -/
def State.locked (s : State) (p : Pid) (k : Slot) : State :=
  s.setInode k { s.icache k with lock := some p, valid := true, din := s.copyOf k }

@[simp] theorem locked_self :
    (s.locked p k).icache k = { s.icache k with lock := some p, valid := true, din := s.copyOf k } :=
  Function.update_self ..

@[simp] theorem locked_disk : (s.locked p k).disk = s.disk := rfl
@[simp] theorem locked_ftable : (s.locked p k).ftable = s.ftable := rfl

theorem run_ilock (href : 0 < (s.icache k).ref) (hlock : (s.icache k).lock = none) (hkind : (s.copyOf k).kind ≠ .free) :
    (ilock k).run (act p) s = .done () (s.locked p k) := by
  rw [ilock, Prog.run_bind, run_acquiresleep, State.acquiresleep, if_neg (by omega), if_pos hlock, Outcome.bind, run_load,
    State.load]
  simp only [State.copyOf] at hkind
  simp only [State.locked, State.setInode, State.copyOf, Function.update_self]
  cases hv : (s.icache k).valid with
  | true =>
    simp only [if_true]
  | false =>
    rw [hv] at hkind
    simp only [Bool.false_eq_true, if_false] at hkind ⊢
    rw [if_neg hkind, Function.update_idem]

theorem run_iunlock_locked (href : 0 < (s.icache k).ref) (hlock : (s.icache k).lock ≠ none) :
    (iunlock k).run (act p) s = .done () (s.setInode k { s.icache k with lock := none }) := by
  rw [run_iunlock, State.iunlock, if_neg (not_or.mpr ⟨hlock, by omega⟩)]

end

end Xv6.Fs
