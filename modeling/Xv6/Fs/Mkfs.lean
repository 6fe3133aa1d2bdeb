import Xv6.Fs.Calls

/-! The image that `mkfs.c` makes, the state after the boot, and runs of system calls that are each atomic. -/

namespace Xv6.Fs
open Lib

/-! ### mkfs.c -/

abbrev fssize : Nat := 1000
abbrev ninodes : Nat := 200

/-- The blocks before the data blocks: boot block, super block, log, inodes and bitmap. -/
abbrev nmeta : Nat := 2 + logsize + (ninodes / 8 + 1) + (fssize / (bsize * 8) + 1)

def mkfsSuperblock : Superblock := ⟨fssize, fssize - nmeta, ninodes, by decide⟩

/-- The image while `mkfs` works on it, without the bitmap, which it writes last. -/
structure Image where
  inode : Nat → Dinode
  block : Nat → Block
  freeinode : Nat
  freeblock : Nat

namespace Image

def ialloc (m : Image) (kind : Kind) : Nat × Image :=
  (m.freeinode, { m with
    inode := Function.update m.inode m.freeinode ⟨kind, 0, 0, 1, 0, fun _ => 0⟩
    freeinode := m.freeinode + 1 })

/-- The block of the inode `din` for the part `fbn` of the file, in the loop of `iappend`. -/
def bmap (m : Image) (din : Dinode) (fbn : Nat) : Nat × Image × Dinode :=
  if fbn < ndirect then
    if din.addrs fbn = 0 then
      (m.freeblock, { m with freeblock := m.freeblock + 1 },
        { din with addrs := Function.update din.addrs fbn m.freeblock })
    else (din.addrs fbn, m, din)
  else
    let (m, din) :=
      if din.addrs ndirect = 0 then
        ({ m with freeblock := m.freeblock + 1 }, { din with addrs := Function.update din.addrs ndirect m.freeblock })
      else (m, din)
    let ind := din.addrs ndirect
    let indirect := m.block ind
    if word indirect (fbn - ndirect) = 0 then
      (m.freeblock, { m with
        freeblock := m.freeblock + 1
        block := Function.update m.block ind (putWord indirect (fbn - ndirect) m.freeblock) }, din)
    else (word indirect (fbn - ndirect), m, din)

/-- The loop of `iappend`, which takes at most `c` rounds; `none` is a failed assertion. -/
def iappendLoop : Nat → Image → Dinode → List Byte → Nat → Option (Image × Dinode)
  | 0, m, din, _, _ => some (m, din)
  | c + 1, m, din, p, off =>
    if p = [] then some (m, din)
    else if ¬off / bsize < maxfile then none
    else
      let (x, m, din) := m.bmap din (off / bsize)
      let n1 := min p.length (bsize - off % bsize)
      let data := fun y => if off % bsize ≤ y ∧ y < off % bsize + n1 then p.getD (y - off % bsize) 0 else m.block x y
      iappendLoop c { m with block := Function.update m.block x data } din (p.drop n1) (off + n1)

def iappend (m : Image) (inum : Nat) (p : List Byte) : Option Image :=
  let din := m.inode inum
  (iappendLoop (rounds din.size p.length) m din p din.size).map fun (m, din) =>
    { m with inode := Function.update m.inode inum { din with size := din.size + p.length } }

/-- The contents of a file, in the pieces in which `mkfs` reads it. -/
def pieces : Nat → List Byte → List (List Byte)
  | 0, _ => []
  | c + 1, p => if p = [] then [] else p.take bsize :: pieces c (p.drop bsize)

/-- The body of the loop over the files: a new inode, an entry in the root directory, and the contents. -/
def addFile (m : Image) (file : Name × List Byte) : Option Image := do
  let (inum, m) := m.ialloc .file
  let m ← m.iappend rootino (dirent inum file.1)
  (pieces file.2.length file.2).foldlM (fun m p => m.iappend inum p) m

/-- The empty image, in which all sectors are zero. -/
def empty : Image where
  inode := fun _ => ⟨.free, 0, 0, 0, 0, fun _ => 0⟩
  block := fun _ _ => 0
  freeinode := 1
  freeblock := nmeta

/-- The image with the root directory and the files. -/
def build (files : List (Name × List Byte)) : Option Image := do
  let (_, m) := empty.ialloc .dir
  let m ← m.iappend rootino (dirent rootino dot)
  let m ← m.iappend rootino (dirent rootino dotdot)
  files.foldlM addFile m

/-- The size of the root directory is made a multiple of the block size. -/
def fixRoot (m : Image) : Image :=
  let din := m.inode rootino
  { m with inode := Function.update m.inode rootino { din with size := (din.size / bsize + 1) * bsize } }

/-- The image as a disk on which the blocks before `freeblock` are in use. -/
def disk (m : Image) : Disk where
  sb := mkfsSuperblock
  inode := m.inode
  bitmap := fun b => b < m.freeblock
  block := m.block

end Image

/-- The bit of block `b` in a block of the bitmap. -/
def bitmapBit (buf : Block) (b : Nat) : Bool := (buf (b / 8)).getLsbD (b % 8)

/-- `balloc`: the block of the bitmap that it writes; `none` is the failed assertion. -/
def balloc (used : Nat) : Option Block :=
  if ¬used < bsize * 8 then none
  else some ((List.range used).foldl (fun buf i => Function.update buf (i / 8) (buf (i / 8) ||| 1#8 <<< (i % 8)))
    fun _ => 0)

/-- An argument of `mkfs`: the name of a file, which is a C string, and the contents of the file. -/
structure Input where
  arg : List Byte
  string : 0 ∉ arg
  contents : List Byte

/-- The name in the image, without a leading `_`. -/
def Input.name (f : Input) : Name :=
  match f.arg with
  | 0x5F :: rest => rest
  | arg => arg

/-- `main`, if it exits with status 0. An assertion stops it at a name with `/` and at a file with too many blocks.
    Each block is read as soon as it is allocated, and `rsect` exits with status 1 behind the last block of the
    image. Inode numbers are not compared with `NINODES`. -/
def mkfsMain (inputs : List Input) : Option Disk :=
  if inputs.any fun f => 0x2F ∈ f.arg then none
  else (Image.build (inputs.map fun f => (f.name, f.contents))).bind fun m =>
    if m.freeblock ≤ fssize then
      (balloc m.freeblock).map fun buf => { m.fixRoot.disk with bitmap := bitmapBit buf }
    else none

/-- Where the inodes begin, and behind them the bitmap. -/
abbrev inodestart : Nat := 2 + logsize
abbrev bmapstart : Nat := inodestart + (ninodes / 8 + 1)

def iblock (i : Nat) : Nat := i / 8 + inodestart

/-! ### The boot -/

/-- The state after the boot: the first process has the root directory as its current directory. -/
def boot (d : Disk) : State where
  disk := d
  icache := fun k => ⟨if k = 0 then rootino else 0, if k = 0 then 1 else 0, none, false, d.inode 0⟩
  ftable := fun _ => ⟨.none, 0, false, false, 0, 0⟩
  proc := fun p => if p = 0 then ⟨.live, fun _ => none, some 0⟩ else ⟨.unused, fun _ => none, none⟩
  outstanding := 0

/-! ### Runs of atomic calls -/

/-- A system call of a process. -/
structure Syscall where
  proc : Pid
  call : Call

/-- What a system call does when it runs alone. -/
def Syscall.run (c : Syscall) (s : State) : Outcome Panic State Int := (c.call.prog c.proc).run (act c.proc) s

/-- A system call that returns; only live processes make calls. -/
def State.syscall (s : State) (c : Syscall) : Option State :=
  if (s.proc c.proc).state = .live then
    match c.run s with
    | .done _ s => some s
    | .panic _ | .blocked => none
  else none

end Xv6.Fs
