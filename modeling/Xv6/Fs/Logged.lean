import Xv6.Fs.Calls
import Xv6.Log

/-! What `writei` passes to `log_write`, and the transactions of `filewrite`. The functions here give the numbers of the
    blocks that the functions of the disk log, in order. -/

namespace Xv6.Fs

/-- The inodes of a block. -/
abbrev ipb : Nat := 8

/-- The bits of a block of the bitmap. -/
abbrev bpb : Nat := bsize * 8

/-- Where the inodes and the bitmap start and how long the log is, as the superblock says. -/
structure Layout where
  inodestart : Nat
  bmapstart : Nat
  nlog : Nat

namespace Logged
variable (A : Layout)

def iblock (i : Nat) : Nat := i / ipb + A.inodestart

def bblock (b : Nat) : Nat := b / bpb + A.bmapstart

/-- `balloc` logs the block of the bitmap, and `bzero` the new block. -/
def balloc (d : Disk) : List Nat :=
  match d.balloc with
  | .ok (b, _) => [bblock A b, b]
  | .error _ => []

/-- `bmap` logs what `balloc` does, and the indirect block when that gets a new entry. -/
def bmap (d : Disk) (ip : Dinode) (bn : Nat) : List Nat :=
  if bn < ndirect then
    if ip.addrs bn = 0 then balloc A d else []
  else
    (if ip.addrs ndirect = 0 then balloc A d else []) ++
      match d.indirect ip with
      | .ok (d, ip) =>
        if word (d.block (ip.addrs ndirect)) (bn - ndirect) = 0 then balloc A d ++ [ip.addrs ndirect] else []
      | .error _ => []

/-- The loop of `writei`, whose first round is the loop with one round. -/
def writeiLoop : Nat → Disk → Dinode → List Byte → Nat → List Nat
  | 0, _, _, _, _ => []
  | c + 1, d, ip, src, off =>
    if src = [] then []
    else
      match d.bmap ip (off / bsize), Disk.writeiLoop 1 d ip src off with
      | .ok (bp, _, _), .ok (d', ip') =>
        let m := min src.length (bsize - off % bsize)
        bmap A d ip (off / bsize) ++ [bp] ++ writeiLoop c d' ip' (src.drop m) (off + m)
      | _, _ => []

/-- `writei` to a file, which logs nothing when it returns -1. The last block is that of `iupdate`. -/
def writei (d : Disk) (inum : Nat) (ip : Dinode) (src : List Byte) (off : Nat) : List Nat :=
  match d.writei inum ip src off with
  | .ok (some n, _, _) =>
    writeiLoop A (rounds off n) d ip src off ++ if n > 0 ∧ off + n > ip.size then [iblock A inum] else []
  | _ => []

/-- `log_write` of block `b`, when `lh` lists the blocks that are logged. -/
def logWrite (outstanding : Nat) (lh : List Nat) (b : Nat) : Except Log.Panic (List Nat) :=
  if lh.length ≥ logsize ∨ lh.length ≥ A.nlog - 1 then .error .tooBigATransaction
  else if outstanding < 1 then .error .logWriteOutsideOfTrans
  else .ok (if b ∈ lh then lh else lh ++ [b])

/-- The calls of `log_write` for a list of blocks. Before the call after which `k` are left, other operations have logged
    the first part of `others k`; the second part is `outstanding`. -/
def logWrites (others : Nat → List Nat × Nat) : List Nat → List Nat → Except Log.Panic (List Nat)
  | lh, [] => .ok lh
  | lh, b :: bs => do
    let lh ← logWrite A (others bs.length).2 (lh ++ (others bs.length).1) b
    logWrites others lh bs

/-- What a transaction finds, as other processes have left it: the disk, the inode, the offset and the log. -/
structure Found where
  disk : Disk
  ip : Dinode
  off : Nat
  others : Nat → List Nat × Nat

/-- What lies between a `begin_op` and its `end_op`: a write of `n` bytes, which logs the blocks `log`. -/
structure Transaction extends Found where
  n : Nat
  log : List Nat

/-- The transactions of the loop of `filewrite`. One that panics does not come to `end_op`. -/
def filewriteLoop (inum : Nat) : List Found → List Byte → List Transaction
  | [], _ => []
  | f :: found, addr =>
    if addr = [] then []
    else
      let src := addr.take filewriteMax
      let log := writei A f.disk inum f.ip src f.off
      match f.disk.writei inum f.ip src f.off, logWrites A f.others [] log with
      | .ok (r, _, _), .ok _ =>
        { f with n := src.length, log } ::
          match r with
          | none => []
          | some n => if n ≠ src.length then [] else filewriteLoop inum found (addr.drop n)
      | _, _ => []

end Logged

end Xv6.Fs
