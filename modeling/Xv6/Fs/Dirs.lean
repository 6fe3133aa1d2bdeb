import Xv6.Fs.Inodes

/-! A directory to which names are linked and from which they are unlinked: `dirlookup` and `dirlink` (`fs.c`) and the
    part of `sys_unlink` that clears an entry, with the names compared and copied as `string.c` does it. -/

namespace Xv6.Fs

/-! ### string.c -/

/-- `strncmp`; the byte behind a string is zero. -/
def strncmp : Nat → List Byte → List Byte → Int
  | 0, _, _ => 0
  | n + 1, p, q => if p.headD 0 ≠ 0 ∧
    p.headD 0 = q.headD 0 then strncmp n p.tail q.tail else (p.headD 0).toNat - (q.headD 0).toNat

/-- The `n` bytes that `strncpy` writes. -/
def strncpy : Nat → List Byte → List Byte
  | 0, _ => []
  | n + 1, t => t.headD 0 :: if t.headD 0 ≠ 0 then strncpy n t.tail else List.replicate n 0

/-! ### fs.c -/

def namecmp (s t : List Byte) : Int := strncmp dirsiz s t

/-- `struct dirent` as `dirlink` fills it in. -/
def direntOf (inum : Nat) (name : List Byte) : List Byte :=
  [BitVec.ofNat 8 inum, BitVec.ofNat 8 (inum / 256)] ++ strncpy dirsiz name

namespace Disk

/-- `dirlookup`, with the place of the entry and the inode number in place of the inode. -/
def dirlookupName (d : Disk) (dp : Dinode) (name : List Byte) : Except Panic (Option (Nat × Nat) × Disk × Dinode) :=
  if dp.kind ≠ .dir then .error .dirlookupNotDir
  else do
    let ((off, de), d, dp) ←
      d.findDirentFrom .dirlinkRead (fun de => direntInum de ≠ 0 ∧ namecmp name (de.drop 2) = 0) dp 0
    .ok (de.map fun de => (off, direntInum de), d, dp)

/-- `dirlink` to the directory with number `i`; `false` is -1. -/
def dirlink (d : Disk) (i : Nat) (dp : Dinode) (name : List Byte) (inum : Nat) : Except Panic (Bool × Disk × Dinode) := do
  let (r, d, dp) ← d.dirlookupName dp name
  match r with
  | some _ => .ok (false, d, dp)
  | none =>
    let (off, d, dp) ← d.dirlinkScan dp
    let (d, dp) ← d.writeDirent .dirlink i dp off (direntOf inum name)
    .ok (true, d, dp)

/-- The part of `sys_unlink` on the parent; `busy` is whether the inode is a directory that is not empty. -/
def unlinkEntry (d : Disk) (i : Nat) (dp : Dinode) (name : List Byte) (busy : Bool) : Except Panic (Bool × Disk × Dinode) :=
  if namecmp name dot = 0 ∨ namecmp name dotdot = 0 then .ok (false, d, dp)
  else do
    let (r, d, dp) ← d.dirlookupName dp name
    match r with
    | none => .ok (false, d, dp)
    | some (off, _) =>
      if busy then .ok (false, d, dp)
      else do
        let (d, dp) ← d.writeDirent .unlinkWritei i dp off (List.replicate direntSize 0)
        .ok (true, d, dp)

end Disk

/-! ### Runs -/

inductive DirOp
  | lookup (name : List Byte)
  | link (name : List Byte) (inum : Nat)
  | unlink (name : List Byte) (busy : Bool)

inductive DirRet
  | entry (r : Option (Nat × Nat))
  | done (ok : Bool)
  deriving DecidableEq

/-- A call on the directory with number `i`. -/
def Inodes.dirStep (i : Nat) (s : Inodes) : DirOp → Except Panic (DirRet × Inodes)
  | .lookup name => do
    let (r, disk, dp) ← s.disk.dirlookupName (s.mem i) name
    .ok (.entry r, ⟨disk, Function.update s.mem i dp⟩)
  | .link name inum => do
    let (r, disk, dp) ← s.disk.dirlink i (s.mem i) name inum
    .ok (.done r, ⟨disk, Function.update s.mem i dp⟩)
  | .unlink name busy => do
    let (r, disk, dp) ← s.disk.unlinkEntry i (s.mem i) name busy
    .ok (.done r, ⟨disk, Function.update s.mem i dp⟩)

end Xv6.Fs
