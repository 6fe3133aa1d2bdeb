import Mathlib.Data.List.FinRange
import Xv6.Fs.Disk
import Xv6.Lib.Prog

/-! The state of the file system in memory (`fs.c`, `file.c`, `proc.c`) and its operations. An operation is the
    code of one section under a lock: under `icache.lock` or `ftable.lock`, under the sleep-lock of an inode, or
    under the lock of a buffer. The system calls are programs of these operations. -/

namespace Xv6.Fs
open Lib

abbrev Pid := Fin nproc

/-- A pointer to an entry of the inode cache. -/
abbrev Slot := Fin ninode

/-- A pointer to an entry of the file table. -/
abbrev FileIx := Fin nfile

/-! ### file.h and proc.h -/

/-- `struct inode`, with the process that holds its sleep-lock; `din` is the copy of the inode on the disk, which
    is valid if `I_VALID` is set. -/
structure Inode where
  inum : Nat
  ref : Int
  lock : Option Pid
  valid : Bool
  din : Dinode

/-- `FD_NONE`, `FD_PIPE` and `FD_INODE`. -/
inductive FdType
  | none
  | pipe
  | inode
  deriving DecidableEq

/-- `struct file`, without the pipe. -/
structure File where
  type : FdType
  ref : Int
  readable : Bool
  writable : Bool
  ip : Slot
  off : Nat

inductive ProcState
  | unused
  | live
  | zombie
  deriving DecidableEq

/-- The fields of `struct proc` that the file system uses. -/
structure Proc where
  state : ProcState
  ofile : Fin nofile → Option FileIx
  cwd : Option Slot

namespace Proc

def argfd (x : Proc) (fd : Int) : Option (Fin nofile × FileIx) :=
  if h : 0 ≤ fd ∧ fd < nofile then
    let i : Fin nofile := ⟨fd.toNat, by omega⟩
    (x.ofile i).map fun f => (i, f)
  else none

/-- The descriptor that `fdalloc` finds. -/
def freeFd (x : Proc) : Option (Fin nofile) := (List.finRange nofile).find? fun fd => x.ofile fd = none

def setFd (x : Proc) (fd : Fin nofile) (f : Option FileIx) : Proc := { x with ofile := Function.update x.ofile fd f }

end Proc

structure State where
  disk : Disk
  icache : Slot → Inode
  ftable : FileIx → File
  proc : Pid → Proc
  outstanding : Int

namespace State

def setInode (s : State) (k : Slot) (x : Inode) : State := { s with icache := Function.update s.icache k x }

def setFile (s : State) (f : FileIx) (x : File) : State := { s with ftable := Function.update s.ftable f x }

def setProc (s : State) (p : Pid) (x : Proc) : State := { s with proc := Function.update s.proc p x }

end State

/-! ### Operations -/

/-- The operations. -/
inductive Op
  | panic (e : Panic)
  -- log.c and the superblock
  | beginOp
  | endOp
  | sb
  -- the inode cache
  | iget (inum : Nat)
  /-- `idup(proc->cwd)`. -/
  | idupCwd
  | acquiresleep (k : Slot)
  /-- The rest of `ilock`, with the lock. -/
  | load (k : Slot)
  | iunlock (k : Slot)
  /-- The first section of `iput`: the inode is to be freed, or the reference is dropped. -/
  | iputTest (k : Slot)
  | itrunc (k : Slot)
  /-- `ip->type = 0` and `iupdate`. -/
  | ifree (k : Slot)
  /-- The last section of `iput`, after the inode has been freed. -/
  | iputDrop (k : Slot)
  /-- A round of the loop of `ialloc`. -/
  | tryAlloc (inum : Nat) (kind : Kind)
  -- an inode with its lock
  | peek (k : Slot)
  | inum (k : Slot)
  /-- `ip->nlink += n` and `iupdate`. -/
  | addNlink (k : Slot) (n : BitVec 16)
  /-- `create` fills in the new inode, and `iupdate`. -/
  | initInode (k : Slot) (major minor : BitVec 16)
  | readi (k : Slot) (off n : Nat)
  | writei (k : Slot) (src : List Byte) (off : Nat)
  | dirlookup (k : Slot) (name : Name)
  | dirlinkScan (k : Slot)
  | isdirempty (k : Slot)
  | dirlinkWrite (k : Slot) (off inum : Nat) (name : Name)
  | unlinkWrite (k : Slot) (off : Nat)
  -- files and the process
  | filealloc
  | filedup (f : FileIx)
  /-- The first section of `fileclose`; the result is the file if that was its last reference. -/
  | filecloseTest (f : FileIx)
  | file (f : FileIx)
  | setFile (f : FileIx) (type : FdType) (readable writable : Bool) (ip : Slot)
  /-- The value of `f->off`. -/
  | fileOff (f : FileIx)
  /-- `f->off += n`. -/
  | addOff (f : FileIx) (n : Nat)
  | ofile (fd : Int)
  | fdalloc (f : FileIx)
  | fdclear (fd : Fin nofile)
  | cwd
  | setCwd (k : Slot)
  /-- `fork`, with whether memory for the new process can be had. -/
  | fork (mem : Bool)
  /-- The end of `exit`. -/
  | zombie
  /-- `wait`, for one process. -/
  | wait (q : Pid)

/-- The result of an operation. -/
def Res : Op → Type
  | .panic _ => Empty
  | .beginOp | .endOp => Unit
  | .sb => Superblock
  | .iget _ | .idupCwd => Slot
  | .acquiresleep _ | .load _ | .iunlock _ => Unit
  | .iputTest _ => Bool
  | .itrunc _ | .ifree _ | .iputDrop _ => Unit
  | .tryAlloc _ _ => Bool
  | .peek _ => Dinode
  | .inum _ => Nat
  | .addNlink _ _ | .initInode _ _ _ => Unit
  | .readi _ _ _ => Option (List Byte)
  | .writei _ _ _ => Option Nat
  | .dirlookup _ _ => Option (Nat × Nat)
  | .dirlinkScan _ => Nat
  | .isdirempty _ => Bool
  | .dirlinkWrite _ _ _ _ | .unlinkWrite _ _ => Unit
  | .filealloc => Option FileIx
  | .filedup _ => Unit
  | .filecloseTest _ => Option File
  | .file _ => File
  | .setFile _ _ _ _ _ | .addOff _ _ => Unit
  | .fileOff _ => Nat
  | .ofile _ => Option (Fin nofile × FileIx)
  | .fdalloc _ => Option (Fin nofile)
  | .fdclear _ => Unit
  | .cwd => Option Slot
  | .setCwd _ => Unit
  | .fork _ => Option Pid
  | .zombie => Unit
  | .wait _ => Bool

namespace State

/-- The entry that `iget` finds or recycles. -/
def igetSlot (s : State) (inum : Nat) : Option Slot :=
  match (List.finRange ninode).find? fun k => (s.icache k).ref > 0 ∧ (s.icache k).inum = inum with
  | some k => some k
  | none => (List.finRange ninode).find? fun k => (s.icache k).ref = 0

def iget (s : State) (inum : Nat) : Outcome Panic State Slot :=
  match s.igetSlot inum with
  | none => .panic .igetNoInodes
  | some k =>
    let x := s.icache k
    if x.ref > 0 then .done k (s.setInode k { x with ref := x.ref + 1 })
    else .done k (s.setInode k { x with inum, ref := 1, valid := false })

def idup (s : State) (k : Slot) : State := s.setInode k { s.icache k with ref := (s.icache k).ref + 1 }

/-- The test of `ilock`, and `acquiresleep`. -/
def acquiresleep (s : State) (p : Pid) (k : Slot) : Outcome Panic State Unit :=
  let x := s.icache k
  if x.ref < 1 then .panic .ilock
  else if x.lock = none then .done () (s.setInode k { x with lock := some p })
  else .blocked

/-- The rest of `ilock`. -/
def load (s : State) (k : Slot) : Outcome Panic State Unit :=
  let x := s.icache k
  if x.valid then .done () s
  else if (s.disk.inode x.inum).kind = .free then .panic .ilockNoType
  else .done () (s.setInode k { x with valid := true, din := s.disk.inode x.inum })

def iunlock (s : State) (k : Slot) : Outcome Panic State Unit :=
  let x := s.icache k
  if x.lock = none ∨ x.ref < 1 then .panic .iunlock else .done () (s.setInode k { x with lock := none })

/-- The first section of `iput`. -/
def iputTest (s : State) (k : Slot) : Outcome Panic State Bool :=
  let x := s.icache k
  if x.ref = 1 ∧ x.valid = true ∧ x.din.nlink = 0 then .done true s
  else .done false (s.setInode k { x with ref := x.ref - 1 })

/-- Work on an inode and its copy. -/
def withInode {α : Type} (s : State) (k : Slot) (work : Except Panic (α × Disk × Dinode)) : Outcome Panic State α :=
  match work with
  | .ok (a, disk, din) => .done a { s.setInode k { s.icache k with din } with disk }
  | .error e => .panic e

/-- A round of the loop of `ialloc`. -/
def tryAlloc (s : State) (inum : Nat) (kind : Kind) : Outcome Panic State Bool :=
  if (s.disk.inode inum).kind = .free then
    .done true { s with disk := s.disk.iupdate inum ⟨kind, 0, 0, 0, 0, fun _ => 0⟩ }
  else .done false s

def filealloc (s : State) : Outcome Panic State (Option FileIx) :=
  match (List.finRange nfile).find? fun f => (s.ftable f).ref = 0 with
  | some f => .done (some f) (s.setFile f { s.ftable f with ref := 1 })
  | none => .done none s

def filedup (s : State) (f : FileIx) : Outcome Panic State Unit :=
  if (s.ftable f).ref < 1 then .panic .filedup
  else .done () (s.setFile f { s.ftable f with ref := (s.ftable f).ref + 1 })

/-- The first section of `fileclose`. -/
def filecloseTest (s : State) (f : FileIx) : Outcome Panic State (Option File) :=
  let x := s.ftable f
  if x.ref < 1 then .panic .fileclose
  else if x.ref - 1 > 0 then .done none (s.setFile f { x with ref := x.ref - 1 })
  else .done (some x) (s.setFile f { x with ref := 0, type := .none })

def fdalloc (s : State) (p : Pid) (f : FileIx) : Outcome Panic State (Option (Fin nofile)) :=
  match (s.proc p).freeFd with
  | some fd => .done (some fd) (s.setProc p ((s.proc p).setFd fd (some f)))
  | none => .done none s

/-- `fork`. The new process has the descriptors and the current directory of the old one. -/
def fork (s : State) (p : Pid) (mem : Bool) : Outcome Panic State (Option Pid) :=
  match (List.finRange nproc).find? fun q => (s.proc q).state = .unused with
  | some q =>
    if mem = false then .done none s
    else if (List.finRange nofile).any fun fd => ((s.proc p).ofile fd).any fun f => (s.ftable f).ref < 1 then
      .panic .filedup
    else
      let ftable := fun f =>
        let n := (List.finRange nofile).countP fun fd => (s.proc p).ofile fd = some f
        { s.ftable f with ref := (s.ftable f).ref + n }
      let s' := { s with ftable }.setProc q { s.proc p with state := .live }
      match (s.proc p).cwd with
      | some k => .done (some q) (s'.idup k)
      | none => .done (some q) s'
  | none => .done none s

end State

/-- What an operation of process `p` does. -/
def act (p : Pid) : (o : Op) → State → Outcome Panic State (Res o)
  | .panic e, _ => .panic e
  | .beginOp, s => .done () { s with outstanding := s.outstanding + 1 }
  | .endOp, s => .done () { s with outstanding := s.outstanding - 1 }
  | .sb, s => .done s.disk.sb s
  | .iget inum, s => s.iget inum
  | .idupCwd, s =>
    match (s.proc p).cwd with
    | some k => .done k (s.idup k)
    | none => .blocked
  | .acquiresleep k, s => s.acquiresleep p k
  | .load k, s => s.load k
  | .iunlock k, s => s.iunlock k
  | .iputTest k, s => s.iputTest k
  | .itrunc k, s =>
    s.withInode k ((s.disk.itrunc (s.icache k).inum (s.icache k).din).map fun (d, ip) => ((), d, ip))
  | .ifree k, s =>
    let ip := { (s.icache k).din with kind := .free }
    s.withInode k (.ok ((), s.disk.iupdate (s.icache k).inum ip, ip))
  | .iputDrop k, s =>
    .done () (s.setInode k { s.icache k with valid := false, ref := (s.icache k).ref - 1 })
  | .tryAlloc inum kind, s => s.tryAlloc inum kind
  | .peek k, s => .done (s.icache k).din s
  | .inum k, s => .done (s.icache k).inum s
  | .addNlink k n, s =>
    let ip := { (s.icache k).din with nlink := (s.icache k).din.nlink + n }
    s.withInode k (.ok ((), s.disk.iupdate (s.icache k).inum ip, ip))
  | .initInode k major minor, s =>
    let ip := { (s.icache k).din with major, minor, nlink := 1 }
    s.withInode k (.ok ((), s.disk.iupdate (s.icache k).inum ip, ip))
  | .readi k off n, s => s.withInode k (s.disk.readi (s.icache k).din off n)
  | .writei k src off, s => s.withInode k (s.disk.writei (s.icache k).inum (s.icache k).din src off)
  | .dirlookup k name, s => s.withInode k (s.disk.dirlookup (s.icache k).din name)
  | .dirlinkScan k, s => s.withInode k (s.disk.dirlinkScan (s.icache k).din)
  | .isdirempty k, s => s.withInode k (s.disk.isdirempty (s.icache k).din)
  | .dirlinkWrite k off inum name, s =>
    s.withInode k ((s.disk.writeDirent .dirlink (s.icache k).inum (s.icache k).din off (dirent inum name)).map
      fun (d, ip) => ((), d, ip))
  | .unlinkWrite k off, s =>
    s.withInode k ((s.disk.writeDirent .unlinkWritei (s.icache k).inum (s.icache k).din off
      (List.replicate direntSize 0)).map fun (d, ip) => ((), d, ip))
  | .filealloc, s => s.filealloc
  | .filedup f, s => s.filedup f
  | .filecloseTest f, s => s.filecloseTest f
  | .file f, s => .done (s.ftable f) s
  | .setFile f type readable writable ip, s =>
    .done () (s.setFile f { s.ftable f with type, readable, writable, ip, off := 0 })
  | .fileOff f, s => .done (s.ftable f).off s
  | .addOff f n, s => .done () (s.setFile f { s.ftable f with off := (s.ftable f).off + n })
  | .ofile fd, s => .done ((s.proc p).argfd fd) s
  | .fdalloc f, s => s.fdalloc p f
  | .fdclear fd, s => .done () (s.setProc p ((s.proc p).setFd fd none))
  | .cwd, s => .done (s.proc p).cwd s
  | .setCwd k, s => .done () (s.setProc p { s.proc p with cwd := some k })
  | .fork mem, s => s.fork p mem
  | .zombie, s => .done () (s.setProc p { s.proc p with state := .zombie, cwd := none })
  | .wait q, s =>
    if (s.proc q).state = .zombie then .done true (s.setProc q { s.proc q with state := .unused })
    else .done false s

end Xv6.Fs
