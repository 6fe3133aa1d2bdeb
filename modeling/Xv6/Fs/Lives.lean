import Xv6.Fs.Inodes

/-! The lives of the inodes of files and directories: `ialloc`, calls of `readi`, `writei` and `itrunc`, changes of the link
    count, and the end of an inode in `iput`, one after the other. -/

namespace Xv6.Fs

inductive LifeOp
  | io (op : Io)
  /-- `ialloc` of a directory or a file, and the `ilock` that reads the new inode in. -/
  | ialloc (dir : Bool)
  | itrunc (i : Nat)
  /-- `ip->nlink = n`, and `iupdate`. -/
  | setNlink (i : Nat) (n : BitVec 16)
  /-- `iput` of the last reference to an inode without links. -/
  | ifree (i : Nat)

inductive LifeRet
  | io (r : IoRet)
  | inum (i : Nat)
  | none

namespace Inodes

/-- `ilock` before an operation. -/
def locked {α : Type} (s : Inodes) (i : Nat) (op : Except Panic α) : Except Panic α :=
  if (s.mem i).kind = .free then .error .ilockNoType else op

/-- The inode becomes `ip`, in memory and on the disk. -/
def iupdate (s : Inodes) (i : Nat) (ip : Dinode) : Inodes := ⟨s.disk.iupdate i ip, Function.update s.mem i ip⟩

def itrunc (s : Inodes) (i : Nat) : Except Panic Inodes := do
  let (disk, ip) ← s.disk.itrunc i (s.mem i)
  .ok ⟨disk, Function.update s.mem i ip⟩

def ialloc (s : Inodes) (kind : Kind) : Except Panic (Nat × Inodes) :=
  match (List.range' 1 (s.disk.sb.ninodes - 1)).find? fun i => (s.disk.inode i).kind = .free with
  | some i => .ok (i, s.iupdate i ⟨kind, 0, 0, 0, 0, fun _ => 0⟩)
  | none => .error .iallocNoInodes

def ifree (s : Inodes) (i : Nat) : Except Panic Inodes := do
  let s ← s.itrunc i
  .ok (s.iupdate i { s.mem i with kind := .free })

def lifeStep (s : Inodes) : LifeOp → Except Panic (LifeRet × Inodes)
  | .io op => s.locked op.inum do
    let (r, s) ← s.step op
    .ok (.io r, s)
  | .ialloc dir => do
    let (i, s) ← s.ialloc (if dir then .dir else .file)
    .ok (.inum i, s)
  | .itrunc i => s.locked i do
    let s ← s.itrunc i
    .ok (.none, s)
  | .setNlink i n => s.locked i (.ok (.none, s.iupdate i { s.mem i with nlink := n }))
  | .ifree i => s.locked i do
    let s ← s.ifree i
    .ok (.none, s)

def lifeRun : List LifeOp → Inodes → Except Panic (List LifeRet × Inodes)
  | [], s => .ok ([], s)
  | op :: ops, s => do
    let (r, s) ← s.lifeStep op
    let (rs, s) ← lifeRun ops s
    .ok (r :: rs, s)

end Inodes

end Xv6.Fs
