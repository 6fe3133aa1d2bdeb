import Mathlib.Logic.Function.Basic
import Xv6.Params

/-! The disk (`fs.h`) and the contents of inodes (`fs.c`). The inode table and the bitmap are kept as tables;
    the data blocks are blocks of bytes. The buffer cache and the log are transparent here, so a block is read
    and written in place. -/

namespace Xv6.Fs

/-! ### fs.h and stat.h -/

abbrev bsize : Nat := 512
abbrev ndirect : Nat := 12
abbrev nindirect : Nat := 128
abbrev maxfile : Nat := ndirect + nindirect
abbrev dirsiz : Nat := 14
abbrev rootino : Nat := 1

/-- A block, by the position of the byte. -/
abbrev Block := Nat → Byte

/-- The type of an inode: 0, `T_DIR`, `T_FILE` or `T_DEV`. -/
inductive Kind
  | free
  | dir
  | file
  | dev
  deriving DecidableEq

/-- `struct dinode`. -/
structure Dinode where
  kind : Kind
  major : BitVec 16
  minor : BitVec 16
  nlink : BitVec 16
  size : Nat
  addrs : Nat → Nat

/-- The fields of `struct superblock` that the running system uses. -/
structure Superblock where
  size : Nat
  nblocks : Nat
  ninodes : Nat
  fits : size < 2 ^ 32

/-- The first blocks hold the log, the inodes and the bitmap. -/
def Superblock.nmeta (sb : Superblock) : Nat := sb.size - sb.nblocks

structure Disk where
  sb : Superblock
  inode : Nat → Dinode
  bitmap : Nat → Bool
  block : Nat → Block

/-- The calls of `panic`. -/
inductive Panic
  | ballocOutOfBlocks
  | freeingFreeBlock
  | iallocNoInodes
  | igetNoInodes
  | ilock
  | ilockNoType
  | iunlock
  | bmapOutOfRange
  | dirlookupNotDir
  | dirlinkRead
  | dirlink
  | isdiremptyReadi
  | unlinkNlink
  | unlinkWritei
  | createDots
  | createDirlink
  | filedup
  | fileclose
  | fileread
  | filewrite
  | shortFilewrite
  | loaduvm
  | initExiting
  deriving DecidableEq

/-! ### Directory entries -/

/-- A name, without the zero bytes behind it. -/
abbrev Name := List Byte

def dot : Name := [0x2E]
def dotdot : Name := [0x2E, 0x2E]

/-- The size of `struct dirent`. -/
abbrev direntSize : Nat := 16

/-- `struct dirent` for a name and an inode number, with the name padded by `strncpy`. -/
def dirent (inum : Nat) (name : Name) : List Byte :=
  [BitVec.ofNat 8 inum, BitVec.ofNat 8 (inum / 256)] ++
    (List.range dirsiz).map fun x => (name.take dirsiz).getD x 0

/-- `de.inum`. -/
def direntInum (de : List Byte) : Nat := (de.getD 0 0).toNat + 256 * (de.getD 1 0).toNat

/-- `de.name`, up to its first zero byte. -/
def direntName (de : List Byte) : Name := ((de.drop 2).take dirsiz).takeWhile (· ≠ 0)

/-! ### Blocks -/

/-- The four bytes of a block at which entry `j` of an indirect block lies, as a number. -/
def word (b : Block) (j : Nat) : Nat :=
  (b (4 * j)).toNat + 256 * (b (4 * j + 1)).toNat + 65536 * (b (4 * j + 2)).toNat + 16777216 * (b (4 * j + 3)).toNat

/-- The block with the number `v` as entry `j`. -/
def putWord (b : Block) (j v : Nat) : Block := fun x =>
  if x / 4 = j then BitVec.ofNat 8 (v / 256 ^ (x % 4)) else b x

/-- The number of rounds that `readi` and `writei` need at most. -/
def rounds (off n : Nat) : Nat := (off % bsize + n + bsize - 1) / bsize

namespace Disk

def balloc (d : Disk) : Except Panic (Nat × Disk) :=
  match (List.range d.sb.size).find? fun b => !d.bitmap b with
  | some b =>
    .ok (b, { d with bitmap := Function.update d.bitmap b true, block := Function.update d.block b fun _ => 0 })
  | none => .error .ballocOutOfBlocks

def bfree (d : Disk) (b : Nat) : Except Panic Disk :=
  if d.bitmap b then .ok { d with bitmap := Function.update d.bitmap b false } else .error .freeingFreeBlock

/-! ### Inode content -/

/-- The indirect block of an inode, allocated if necessary. -/
def indirect (d : Disk) (ip : Dinode) : Except Panic (Disk × Dinode) :=
  if ip.addrs ndirect = 0 then do
    let (addr, d) ← balloc d
    .ok (d, { ip with addrs := Function.update ip.addrs ndirect addr })
  else .ok (d, ip)

/-- `bmap`, on the in-memory copy `ip` of an inode. -/
def bmap (d : Disk) (ip : Dinode) (bn : Nat) : Except Panic (Nat × Disk × Dinode) :=
  if bn < ndirect then
    if ip.addrs bn = 0 then do
      let (addr, d) ← balloc d
      .ok (addr, d, { ip with addrs := Function.update ip.addrs bn addr })
    else .ok (ip.addrs bn, d, ip)
  else if bn - ndirect < nindirect then do
    let (d, ip) ← indirect d ip
    let bp := ip.addrs ndirect
    let addr := word (d.block bp) (bn - ndirect)
    if addr = 0 then do
      let (addr, d) ← balloc d
      .ok (addr, { d with block := Function.update d.block bp (putWord (d.block bp) (bn - ndirect) addr) }, ip)
    else .ok (addr, d, ip)
  else .error .bmapOutOfRange

def iupdate (d : Disk) (inum : Nat) (ip : Dinode) : Disk := { d with inode := Function.update d.inode inum ip }

/-- The block numbers in a list that are not 0 are freed. -/
def bfreeAll (d : Disk) (bs : List Nat) : Except Panic Disk := (bs.filter (· ≠ 0)).foldlM bfree d

/-- The part of `itrunc` for the indirect block `bp`. -/
def itruncIndirect (d : Disk) (bp : Nat) : Except Panic Disk :=
  if bp ≠ 0 then do
    let d ← bfreeAll d ((List.range nindirect).map (word (d.block bp)))
    bfree d bp
  else .ok d

def itrunc (d : Disk) (inum : Nat) (ip : Dinode) : Except Panic (Disk × Dinode) := do
  let d ← bfreeAll d ((List.range ndirect).map ip.addrs)
  let d ← itruncIndirect d (ip.addrs ndirect)
  let ip := { ip with addrs := fun r => if r ≤ ndirect then 0 else ip.addrs r, size := 0 }
  .ok (iupdate d inum ip, ip)

/-- The loop of `readi`, which takes at most `c` rounds. -/
def readiLoop : Nat → Disk → Dinode → Nat → Nat → Except Panic (List Byte × Disk × Dinode)
  | 0, d, ip, _, _ => .ok ([], d, ip)
  | c + 1, d, ip, off, n =>
    if n = 0 then .ok ([], d, ip)
    else do
      let (bp, d, ip) ← bmap d ip (off / bsize)
      let m := min n (bsize - off % bsize)
      let bytes := (List.range m).map fun x => d.block bp (off % bsize + x)
      let (rest, d, ip) ← readiLoop c d ip (off + m) (n - m)
      .ok (bytes ++ rest, d, ip)

/-- `readi` of a file or directory; `none` is -1. -/
def readi (d : Disk) (ip : Dinode) (off n : Nat) : Except Panic (Option (List Byte) × Disk × Dinode) :=
  if off > ip.size ∨ off + n ≥ 2 ^ 32 then .ok (none, d, ip)
  else do
    let n := if off + n > ip.size then ip.size - off else n
    let (bytes, d, ip) ← readiLoop (rounds off n) d ip off n
    .ok (some bytes, d, ip)

/-- The loop of `writei`, which takes at most `c` rounds. -/
def writeiLoop : Nat → Disk → Dinode → List Byte → Nat → Except Panic (Disk × Dinode)
  | 0, d, ip, _, _ => .ok (d, ip)
  | c + 1, d, ip, src, off =>
    if src = [] then .ok (d, ip)
    else do
      let (bp, d, ip) ← bmap d ip (off / bsize)
      let m := min src.length (bsize - off % bsize)
      let data := fun x => if off % bsize ≤ x ∧ x < off % bsize + m then src.getD (x - off % bsize) 0 else d.block bp x
      writeiLoop c { d with block := Function.update d.block bp data } ip (src.drop m) (off + m)

/-- `writei` to a file or directory; `none` is -1. -/
def writei (d : Disk) (inum : Nat) (ip : Dinode) (src : List Byte) (off : Nat) :
    Except Panic (Option Nat × Disk × Dinode) :=
  let n := src.length
  if off > ip.size ∨ off + n ≥ 2 ^ 32 then .ok (none, d, ip)
  else if off + n > maxfile * bsize then .ok (none, d, ip)
  else do
    let (d, ip) ← writeiLoop (rounds off n) d ip src off
    if n > 0 ∧ off + n > ip.size then
      let ip := { ip with size := off + n }
      .ok (some n, iupdate d inum ip, ip)
    else .ok (some n, d, ip)

/-! ### Directories -/

/-- `readi` of one entry, in the loops over a directory. -/
def readDirent (d : Disk) (e : Panic) (ip : Dinode) (off : Nat) : Except Panic (List Byte × Disk × Dinode) := do
  let (r, d, ip) ← readi d ip off direntSize
  match r with
  | some de => if de.length = direntSize then .ok (de, d, ip) else .error e
  | none => .error e

/-- A loop over the entries of a directory from `off` on that stops at the first one with `P`; the result is
    the place of that entry and the entry, or the place where the loop ended. -/
def findDirent (e : Panic) (P : List Byte → Bool) :
    Nat → Disk → Dinode → Nat → Except Panic ((Nat × Option (List Byte)) × Disk × Dinode)
  | 0, d, ip, off => .ok ((off, none), d, ip)
  | c + 1, d, ip, off =>
    if off < ip.size then do
      let (de, d, ip) ← d.readDirent e ip off
      if P de then .ok ((off, some de), d, ip) else findDirent e P c d ip (off + direntSize)
    else .ok ((off, none), d, ip)

/-- The loop over all entries from `off` on. -/
def findDirentFrom (d : Disk) (e : Panic) (P : List Byte → Bool) (ip : Dinode) (off : Nat) :
    Except Panic ((Nat × Option (List Byte)) × Disk × Dinode) :=
  findDirent e P ((ip.size + direntSize - 1) / direntSize) d ip off

/-- The loop of `dirlookup`: the place and the inode number of the entry called `name`. -/
def dirlookup (d : Disk) (ip : Dinode) (name : Name) : Except Panic (Option (Nat × Nat) × Disk × Dinode) :=
  if ip.kind ≠ .dir then .error .dirlookupNotDir
  else do
    let ((off, de), d, ip) ←
      d.findDirentFrom .dirlinkRead (fun de => direntInum de ≠ 0 ∧ direntName de = name.take dirsiz) ip 0
    .ok (de.map fun de => (off, direntInum de), d, ip)

/-- The loop of `dirlink`: the place of the first empty entry, or the end of the directory. -/
def dirlinkScan (d : Disk) (ip : Dinode) : Except Panic (Nat × Disk × Dinode) := do
  let ((off, _), d, ip) ← d.findDirentFrom .dirlinkRead (fun de => direntInum de = 0) ip 0
  .ok (off, d, ip)

def isdirempty (d : Disk) (ip : Dinode) : Except Panic (Bool × Disk × Dinode) := do
  let ((_, de), d, ip) ← d.findDirentFrom .isdiremptyReadi (fun de => direntInum de ≠ 0) ip (2 * direntSize)
  .ok (de.isNone, d, ip)

/-- `writei` of one entry. -/
def writeDirent (d : Disk) (e : Panic) (inum : Nat) (ip : Dinode) (off : Nat) (de : List Byte) :
    Except Panic (Disk × Dinode) := do
  let (r, d, ip) ← writei d inum ip de off
  if r = some direntSize then .ok (d, ip) else .error e

end Disk

end Xv6.Fs
