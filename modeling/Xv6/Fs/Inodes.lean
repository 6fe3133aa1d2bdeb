import Xv6.Fs.Disk

/-! Inodes that are read and written, with `readi` and `writei` on the copies in memory. -/

namespace Xv6.Fs

/-- The disk and the inodes as they are in use. -/
structure Inodes where
  disk : Disk
  mem : Nat → Dinode

inductive Io
  | readi (i off n : Nat)
  | writei (i : Nat) (src : List Byte) (off : Nat)

def Io.inum : Io → Nat
  | .readi i _ _ | .writei i _ _ => i

/-- What `readi` has read and what `writei` has returned; `none` is -1. -/
inductive IoRet
  | read (r : Option (List Byte))
  | wrote (r : Option Nat)

namespace Inodes

def step (s : Inodes) : Io → Except Panic (IoRet × Inodes)
  | .readi i off n => do
    let (r, disk, ip) ← s.disk.readi (s.mem i) off n
    .ok (.read r, ⟨disk, Function.update s.mem i ip⟩)
  | .writei i src off => do
    let (r, disk, ip) ← s.disk.writei i (s.mem i) src off
    .ok (.wrote r, ⟨disk, Function.update s.mem i ip⟩)

/-- The calls one after the other, with what they return. -/
def run : List Io → Inodes → Except Panic (List IoRet × Inodes)
  | [], s => .ok ([], s)
  | op :: ops, s => do
    let (r, s) ← s.step op
    let (rs, s) ← run ops s
    .ok (r :: rs, s)

end Inodes

end Xv6.Fs
