import Xv6.Fs.State

/-! The system calls (`sysfile.c`, with the parts of `fs.c`, `file.c`, `exec.c`, `pipe.c` and `proc.c` that they
    use), as programs. What a call gets from elsewhere is part of the call: the console, pipes and the memory
    of processes. An argument that `argint`, `argptr` or `argstr` cannot fetch is `none`. -/

namespace Xv6.Fs
open Lib

abbrev P := Prog Op Res

/-! ### Single operations -/

def panic {α : Type} (e : Panic) : P α := .call (.panic e) fun r => nomatch r

def beginOp : P Unit := .call .beginOp .ret
def endOp : P Unit := .call .endOp .ret
def superblock : P Superblock := .call .sb .ret
def iget (inum : Nat) : P Slot := .call (.iget inum) .ret
def idupCwd : P Slot := .call .idupCwd .ret
def acquiresleep (k : Slot) : P Unit := .call (.acquiresleep k) .ret
def load (k : Slot) : P Unit := .call (.load k) .ret
def iunlock (k : Slot) : P Unit := .call (.iunlock k) .ret
def iputTest (k : Slot) : P Bool := .call (.iputTest k) .ret
def itrunc (k : Slot) : P Unit := .call (.itrunc k) .ret
def ifree (k : Slot) : P Unit := .call (.ifree k) .ret
def iputDrop (k : Slot) : P Unit := .call (.iputDrop k) .ret
def tryAlloc (inum : Nat) (kind : Kind) : P Bool := .call (.tryAlloc inum kind) .ret
def peek (k : Slot) : P Dinode := .call (.peek k) .ret
def inumOf (k : Slot) : P Nat := .call (.inum k) .ret
def addNlink (k : Slot) (n : BitVec 16) : P Unit := .call (.addNlink k n) .ret
def initInode (k : Slot) (major minor : BitVec 16) : P Unit := .call (.initInode k major minor) .ret
def dirlookupScan (k : Slot) (name : Name) : P (Option (Nat × Nat)) := .call (.dirlookup k name) .ret
def dirlinkScan (k : Slot) : P Nat := .call (.dirlinkScan k) .ret
def dirlinkWrite (k : Slot) (off inum : Nat) (name : Name) : P Unit := .call (.dirlinkWrite k off inum name) .ret
def unlinkWrite (k : Slot) (off : Nat) : P Unit := .call (.unlinkWrite k off) .ret
def isdirempty (k : Slot) : P Bool := .call (.isdirempty k) .ret
def filealloc : P (Option FileIx) := .call .filealloc .ret
def filedup (f : FileIx) : P Unit := .call (.filedup f) .ret
def filecloseTest (f : FileIx) : P (Option File) := .call (.filecloseTest f) .ret
def file (f : FileIx) : P File := .call (.file f) .ret
def setFile (f : FileIx) (type : FdType) (readable writable : Bool) (ip : Slot) : P Unit :=
  .call (.setFile f type readable writable ip) .ret
def fileOff (f : FileIx) : P Nat := .call (.fileOff f) .ret
def addOff (f : FileIx) (n : Nat) : P Unit := .call (.addOff f n) .ret
def ofile (fd : Int) : P (Option (Fin nofile × FileIx)) := .call (.ofile fd) .ret
def fdalloc (f : FileIx) : P (Option (Fin nofile)) := .call (.fdalloc f) .ret
def fdclear (fd : Fin nofile) : P Unit := .call (.fdclear fd) .ret
def cwd : P (Option Slot) := .call .cwd .ret
def setCwd (k : Slot) : P Unit := .call (.setCwd k) .ret
def fork (mem : Bool) : P (Option Pid) := .call (.fork mem) .ret
def zombie : P Unit := .call .zombie .ret
def wait (q : Pid) : P Bool := .call (.wait q) .ret

/-! ### Inodes -/

def ilock (k : Slot) : P Unit := do
  acquiresleep k
  load k

def iput (k : Slot) : P Unit := do
  let last ← iputTest k
  if last then
    itrunc k
    ifree k
    iputDrop k
  else pure ()

def iunlockput (k : Slot) : P Unit := do
  iunlock k
  iput k

/-- The loop of `ialloc`. -/
def iallocLoop (kind : Kind) : List Nat → P Slot
  | [] => panic .iallocNoInodes
  | inum :: rest => do
    let found ← tryAlloc inum kind
    if found then iget inum else iallocLoop kind rest

def ialloc (kind : Kind) : P Slot := do
  let sb ← superblock
  iallocLoop kind (List.range' 1 (sb.ninodes - 1))

/-! ### Devices -/

/-- The major number of the console, the only device with entries in `devsw`. -/
def console : BitVec 16 := 1

/-- `readi`; for the console, `dev` is what `consoleread` gives. -/
def readi (k : Slot) (off n : Nat) (dev : Option (List Byte)) : P (Option (List Byte)) := do
  let ip ← peek k
  if ip.kind = .dev then
    if ip.major = console then
      iunlock k
      ilock k
      pure dev
    else pure none
  else .call (.readi k off n) .ret

def writei (k : Slot) (src : List Byte) (off : Nat) : P (Option Nat) := do
  let ip ← peek k
  if ip.kind = .dev then
    if ip.major = console then
      iunlock k
      ilock k
      pure (some src.length)
    else pure none
  else .call (.writei k src off) .ret

/-! ### Directories -/

/-- `dirlookup`, with the place of the entry. -/
def dirlookup (dp : Slot) (name : Name) : P (Option (Nat × Slot)) := do
  let r ← dirlookupScan dp name
  match r with
  | some (off, inum) =>
    let ip ← iget inum
    pure (some (off, ip))
  | none => pure none

/-- `dirlink`; `false` is -1. -/
def dirlink (dp : Slot) (name : Name) (inum : Nat) : P Bool := do
  let r ← dirlookup dp name
  match r with
  | some (_, ip) =>
    iput ip
    pure false
  | none =>
    let off ← dirlinkScan dp
    dirlinkWrite dp off inum name
    pure true

/-! ### Paths -/

abbrev Path := List Byte

def slash : Byte := 0x2F

/-- `skipelem`: the rest of the path and the element, which is cut to `DIRSIZ` bytes. -/
def skipelem (path : Path) : Option (Path × Name) :=
  let path := path.dropWhile (· = slash)
  if path = [] then none
  else
    let s := path.takeWhile (· ≠ slash)
    some ((path.drop s.length).dropWhile (· = slash), s.take dirsiz)

/-- The elements that `skipelem` takes from the path one after the other. -/
def elements : Nat → Path → List Name
  | 0, _ => []
  | c + 1, path =>
    match skipelem path with
    | some (rest, name) => name :: elements c rest
    | none => []

/-- The loop of `namex`. With `parent`, the result has the last element of the path. -/
def namexLoop (parent : Bool) : List Name → Slot → P (Option (Slot × Name))
  | [], ip =>
    if parent then do
      iput ip
      pure none
    else pure (some (ip, []))
  | name :: rest, ip => do
    ilock ip
    let x ← peek ip
    if x.kind ≠ .dir then
      iunlockput ip
      pure none
    else if parent = true ∧ rest = [] then
      -- Stop one level early.
      iunlock ip
      pure (some (ip, name))
    else
      let next ← dirlookup ip name
      match next with
      | none =>
        iunlockput ip
        pure none
      | some (_, next) =>
        iunlockput ip
        namexLoop parent rest next

/-- A string ends at its first zero byte. -/
def cstring (path : Path) : Path := path.takeWhile (· ≠ 0)

/-- The directory that the lookup of a path starts from. -/
def namexStart (path : Path) : P Slot := if path.head? = some slash then iget rootino else idupCwd

def namex (path : Path) (parent : Bool) : P (Option (Slot × Name)) := do
  let path := cstring path
  let ip ← namexStart path
  namexLoop parent (elements path.length path) ip

def namei (path : Path) : P (Option Slot) := do
  let r ← namex path false
  pure (r.map Prod.fst)

def nameiparent (path : Path) : P (Option (Slot × Name)) := namex path true

/-! ### file.c -/

/-- `fileclose`. What `pipeclose` does is in the model of pipes. -/
def fileclose (f : FileIx) : P Unit := do
  let last ← filecloseTest f
  match last with
  | some ff =>
    if ff.type = .inode then
      beginOp
      iput ff.ip
      endOp
    else pure ()
  | none => pure ()

/-- `fileread`; `env` is what a pipe or the console gives. -/
def fileread (f : FileIx) (n : Nat) (env : Option (List Byte)) : P Int := do
  let x ← file f
  if x.readable = false then pure (-1)
  else
    match x.type with
    | .pipe => pure (env.elim (-1) fun bytes => bytes.length)
    | .inode =>
      ilock x.ip
      let off ← fileOff f
      let r ← readi x.ip off n env
      match r with
      | some bytes =>
        if bytes.length > 0 then
          addOff f bytes.length
          iunlock x.ip
          pure bytes.length
        else
          iunlock x.ip
          pure bytes.length
      | none =>
        iunlock x.ip
        pure (-1)
    | .none => panic .fileread

/-- The number of bytes that `filewrite` writes in one transaction. -/
def filewriteMax : Nat := ((logsize - 1 - 1 - 2) / 2) * 512

/-- The loop of `filewrite`, which takes at most `c` rounds; `true` if all has been written. -/
def filewriteLoop (f : FileIx) : Nat → List Byte → P Bool
  | 0, _ => pure true
  | c + 1, addr =>
    if addr = [] then pure true
    else do
      let src := addr.take filewriteMax
      beginOp
      let x ← file f
      ilock x.ip
      let off ← fileOff f
      let r ← writei x.ip src off
      match r with
      | some n =>
        if n > 0 then
          addOff f n
          iunlock x.ip
          endOp
          if n ≠ src.length then panic .shortFilewrite else filewriteLoop f c (addr.drop n)
        else
          iunlock x.ip
          endOp
          if n ≠ src.length then panic .shortFilewrite else filewriteLoop f c (addr.drop n)
      | none =>
        iunlock x.ip
        endOp
        pure false

/-- `filewrite`; `env` is what a pipe gives. -/
def filewrite (f : FileIx) (addr : List Byte) (env : Int) : P Int := do
  let x ← file f
  if x.writable = false then pure (-1)
  else
    match x.type with
    | .pipe => pure env
    | .inode =>
      let ok ← filewriteLoop f addr.length addr
      pure (if ok then addr.length else -1)
    | .none => panic .filewrite

def filestat (f : FileIx) : P Int := do
  let x ← file f
  if x.type = .inode then
    ilock x.ip
    let _ ← peek x.ip
    iunlock x.ip
    pure 0
  else pure (-1)

/-! ### sysfile.c -/

def sysDup (fd : Int) : P Int := do
  let r ← ofile fd
  match r with
  | none => pure (-1)
  | some (_, f) =>
    let fd ← fdalloc f
    match fd with
    | none => pure (-1)
    | some fd =>
      filedup f
      pure fd.val

def sysRead (fd : Int) (n : Option Nat) (env : Option (List Byte)) : P Int := do
  let r ← ofile fd
  match r, n with
  | some (_, f), some n => fileread f n env
  | _, _ => pure (-1)

def sysWrite (fd : Int) (addr : Option (List Byte)) (env : Int) : P Int := do
  let r ← ofile fd
  match r, addr with
  | some (_, f), some addr => filewrite f addr env
  | _, _ => pure (-1)

def sysClose (fd : Int) : P Int := do
  let r ← ofile fd
  match r with
  | none => pure (-1)
  | some (fd, f) =>
    fdclear fd
    fileclose f
    pure 0

/-- `sys_fstat`; `ok` is whether `argptr` succeeds. -/
def sysFstat (fd : Int) (ok : Bool) : P Int := do
  let r ← ofile fd
  match r, ok with
  | some (_, f), true => filestat f
  | _, _ => pure (-1)

/-- The label `bad` of `sys_link`. -/
def sysLinkBad (ip : Slot) : P Int := do
  ilock ip
  addNlink ip (-1)
  iunlockput ip
  endOp
  pure (-1)

/-- `sys_link`, after the link count of the inode has been raised. -/
def sysLinkTo (ip : Slot) (new : Path) : P Int := do
  let r ← nameiparent new
  match r with
  | none => sysLinkBad ip
  | some (dp, name) =>
    ilock dp
    let inum ← inumOf ip
    let ok ← dirlink dp name inum
    iunlockput dp
    if ok then
      iput ip
      endOp
      pure 0
    else sysLinkBad ip

def sysLink (old new : Option Path) : P Int :=
  match old, new with
  | some old, some new => do
    beginOp
    let r ← namei old
    match r with
    | none =>
      endOp
      pure (-1)
    | some ip =>
      ilock ip
      let x ← peek ip
      if x.kind = .dir then
        iunlockput ip
        endOp
        pure (-1)
      else
        addNlink ip 1
        iunlock ip
        sysLinkTo ip new
  | _, _ => pure (-1)

/-- The label `bad` of `sys_unlink`. -/
def sysUnlinkBad (dp : Slot) : P Int := do
  iunlockput dp
  endOp
  pure (-1)

/-- The test whether an inode that is to be unlinked is in use as a directory. -/
def unlinkTest (ip : Slot) (x : Dinode) : P Bool := if x.kind = .dir then isdirempty ip else pure true

/-- The directory loses the link from the ".." of `x`. -/
def unlinkParent (dp : Slot) (x : Dinode) : P Unit := if x.kind = .dir then addNlink dp (-1) else pure ()

/-- The end of `sys_unlink`, with both locks: the entry is cleared and the link counts are lowered. -/
def sysUnlinkDo (dp ip : Slot) (off : Nat) (x : Dinode) : P Int := do
  unlinkWrite dp off
  unlinkParent dp x
  iunlockput dp
  addNlink ip (-1)
  iunlockput ip
  endOp
  pure 0

def sysUnlink (path : Option Path) : P Int :=
  match path with
  | none => pure (-1)
  | some path => do
    beginOp
    let r ← nameiparent path
    match r with
    | none =>
      endOp
      pure (-1)
    | some (dp, name) =>
      ilock dp
      -- Cannot unlink "." or "..".
      if name = dot ∨ name = dotdot then sysUnlinkBad dp
      else
        let r ← dirlookup dp name
        match r with
        | none => sysUnlinkBad dp
        | some (off, ip) =>
          ilock ip
          let x ← peek ip
          if x.nlink.toInt < 1 then panic .unlinkNlink
          else
            let empty ← unlinkTest ip x
            if empty = false then
              iunlockput ip
              sysUnlinkBad dp
            else
              sysUnlinkDo dp ip off x

/-- The new inode gets the entries "." and "..", if it is a directory. -/
def createDots (dp ip : Slot) (kind : Kind) (inum : Nat) : P Unit :=
  if kind = .dir then do
    addNlink dp 1
    let up ← inumOf dp
    let ok ← dirlink ip dot inum
    if ok = false then panic .createDots
    else
      let ok ← dirlink ip dotdot up
      if ok = false then panic .createDots else pure ()
  else pure ()

/-- `create`, which returns a locked inode. -/
def create (path : Path) (kind : Kind) (major minor : BitVec 16) : P (Option Slot) := do
  let r ← nameiparent path
  match r with
  | none => pure none
  | some (dp, name) =>
    ilock dp
    let r ← dirlookup dp name
    match r with
    | some (_, ip) =>
      iunlockput dp
      ilock ip
      let x ← peek ip
      if kind = .file ∧ x.kind = .file then pure (some ip)
      else
        iunlockput ip
        pure none
    | none =>
      let ip ← ialloc kind
      ilock ip
      initInode ip major minor
      let inum ← inumOf ip
      createDots dp ip kind inum
      let ok ← dirlink dp name inum
      if ok = false then panic .createDirlink
      else
        iunlockput dp
        pure (some ip)

/-- The end of `sys_open`, with a locked inode. -/
def sysOpenFile (ip : Slot) (omode : BitVec 32) : P Int := do
  let r ← filealloc
  match r with
  | none =>
    iunlockput ip
    endOp
    pure (-1)
  | some f =>
    let fd ← fdalloc f
    match fd with
    | none =>
      fileclose f
      iunlockput ip
      endOp
      pure (-1)
    | some fd =>
      iunlock ip
      endOp
      setFile f .inode (omode &&& 1 == 0) (omode &&& 1 != 0 || omode &&& 2 != 0) ip
      pure fd.val

def sysOpen (path : Option Path) (omode : Option (BitVec 32)) : P Int :=
  match path, omode with
  | some path, some omode => do
    beginOp
    if omode &&& 0x200 ≠ 0 then
      let r ← create path .file 0 0
      match r with
      | none =>
        endOp
        pure (-1)
      | some ip => sysOpenFile ip omode
    else
      let r ← namei path
      match r with
      | none =>
        endOp
        pure (-1)
      | some ip =>
        ilock ip
        let x ← peek ip
        if x.kind = .dir ∧ omode ≠ 0 then
          iunlockput ip
          endOp
          pure (-1)
        else sysOpenFile ip omode
  | _, _ => pure (-1)

/-- The end of `sys_mkdir` and `sys_mknod`. -/
def sysMade (r : Option Slot) : P Int :=
  match r with
  | none => do
    endOp
    pure (-1)
  | some ip => do
    iunlockput ip
    endOp
    pure 0

def sysMkdir (path : Option Path) : P Int := do
  beginOp
  match path with
  | none => sysMade none
  | some path =>
    let r ← create path .dir 0 0
    sysMade r

def sysMknod (path : Option Path) (major minor : Option (BitVec 32)) : P Int := do
  beginOp
  match path, major, minor with
  | some path, some major, some minor =>
    let r ← create path .dev (major.truncate 16) (minor.truncate 16)
    sysMade r
  | _, _, _ => sysMade none

/-- `iput(proc->cwd)`. -/
def iputCwd : P Unit := do
  let old ← cwd
  match old with
  | some old => iput old
  | none => pure ()

/-- `sys_chdir`, after the path has been looked up. -/
def sysChdirTo (r : Option Slot) : P Int := do
  match r with
  | none =>
    endOp
    pure (-1)
  | some ip =>
    ilock ip
    let x ← peek ip
    if x.kind ≠ .dir then
      iunlockput ip
      endOp
      pure (-1)
    else
      iunlock ip
      iputCwd
      endOp
      setCwd ip
      pure 0

def sysChdir (path : Option Path) : P Int := do
  beginOp
  match path with
  | none => sysChdirTo none
  | some path =>
    let r ← namei path
    sysChdirTo r

/-- `sys_pipe`; `mem` is whether `kalloc` gives a page, and `ok` whether `argptr` succeeds. -/
def sysPipe (ok mem : Bool) : P Int :=
  if ok = false then pure (-1)
  else do
    let rf ← filealloc
    match rf with
    | none => pure (-1)
    | some rf =>
      let wf ← filealloc
      match wf with
      | none =>
        fileclose rf
        pure (-1)
      | some wf =>
        if mem = false then
          fileclose rf
          fileclose wf
          pure (-1)
        else
          setFile rf .pipe true false 0
          setFile wf .pipe false true 0
          let fd0 ← fdalloc rf
          match fd0 with
          | none =>
            fileclose rf
            fileclose wf
            pure (-1)
          | some fd0 =>
            let fd1 ← fdalloc wf
            match fd1 with
            | none =>
              fdclear fd0
              fileclose rf
              fileclose wf
              pure (-1)
            | some _ => pure 0

/-! ### exec.c -/

/-- A little-endian number of two or four bytes. -/
def le16 (bytes : List Byte) (pos : Nat) : Nat := (bytes.getD pos 0).toNat + 256 * (bytes.getD (pos + 1) 0).toNat

def le32 (bytes : List Byte) (pos : Nat) : Nat := le16 bytes pos + 65536 * le16 bytes (pos + 2)

/-- What `exec` depends on besides the inode: what the console gives, what is on the stack where `elf` is to
    be read, and whether memory can be had, for the page directory, for each segment and at the end. -/
structure ExecEnv where
  dev : Nat → Option (List Byte)
  page : Nat → Nat → Option (List Byte)
  stack : List Byte
  setupkvm : Bool
  allocuvm : Nat → Bool
  present : Nat → Nat → Bool
  rest : Bool

/-- The loop of `loaduvm`, for the segment `i`, with `n` pages left to load; `false` is -1. -/
def loaduvm (env : ExecEnv) (ip : Slot) (i offset sz : Nat) : Nat → Nat → P Bool
  | 0, _ => pure true
  | c + 1, page =>
    if page * pgsize < sz then
      if env.present i page = false then panic .loaduvm
      else do
        let n := min (sz - page * pgsize) pgsize
        let r ← readi ip ((offset + page * pgsize) % 2 ^ 32) n (env.page i page)
        match r with
        | some bytes => if bytes.length = n then loaduvm env ip i offset sz c (page + 1) else pure false
        | none => pure false
    else pure true

/-- The loop over the program headers, with `c` headers left; `false` is `goto bad`. -/
def loadSegments (env : ExecEnv) (ip : Slot) (phoff : Nat) : Nat → Nat → P Bool
  | 0, _ => pure true
  | c + 1, i => do
    let r ← readi ip ((phoff + 32 * i) % 2 ^ 32) 32 (env.dev (i + 1))
    match r with
    | some ph =>
      let off := le32 ph 4
      let vaddr := le32 ph 8
      let filesz := le32 ph 16
      let memsz := le32 ph 20
      if ph.length ≠ 32 then pure false
      else if le32 ph 0 ≠ 1 then loadSegments env ip phoff c (i + 1)
      else if memsz < filesz ∨ vaddr + memsz ≥ 2 ^ 32 ∨ env.allocuvm i = false ∨ vaddr % pgsize ≠ 0 then pure false
      else
        let ok ← loaduvm env ip i off filesz (filesz / pgsize + 1) 0
        if ok then loadSegments env ip phoff c (i + 1) else pure false
    | none => pure false

/-- The test of the ELF header and the loading of the segments. A result of -1 from `readi` is compared as an
    unsigned number, so that it passes. -/
def loadElf (env : ExecEnv) (ip : Slot) (r : Option (List Byte)) : P Bool :=
  let elf := r.getD env.stack
  if (r.map List.length).getD 52 < 52 ∨ le32 elf 0 ≠ 0x464C457F ∨ env.setupkvm = false then pure false
  else loadSegments env ip (le32 elf 28) (le16 elf 44) 0

/-- `exec`, up to the point where it is done with the file; the rest of it does not touch the file system. -/
def execve (path : Path) (env : ExecEnv) : P Int := do
  beginOp
  let r ← namei path
  match r with
  | none =>
    endOp
    pure (-1)
  | some ip =>
    ilock ip
    let r ← readi ip 0 52 (env.dev 0)
    let ok ← loadElf env ip r
    iunlockput ip
    endOp
    pure (if ok ∧ env.rest then 0 else -1)

/-- `sys_exec`; without `argv` its strings cannot be fetched. -/
def sysExec (path : Option Path) (argv : Bool) (env : ExecEnv) : P Int :=
  match path, argv with
  | some path, true => execve path env
  | _, _ => pure (-1)

/-! ### proc.c -/

def sysFork (mem : Bool) : P Int := do
  let r ← fork mem
  pure (r.elim (-1) fun q => q.val)

/-- The loop of `exit` over the descriptors. -/
def exitLoop : List (Fin nofile) → P Unit
  | [] => pure ()
  | fd :: rest => do
    let r ← ofile fd.val
    match r with
    | some (_, f) =>
      fileclose f
      fdclear fd
      exitLoop rest
    | none => exitLoop rest

/-- `exit`, by a process that is `initproc` or not. -/
def sysExit (init : Bool) : P Int :=
  if init then panic .initExiting
  else do
    exitLoop (List.finRange nofile)
    beginOp
    iputCwd
    endOp
    zombie
    pure 0

def sysWait (q : Pid) : P Int := do
  let r ← wait q
  pure (if r then 0 else -1)

/-! ### The calls -/

/-- A system call with its arguments, and what it gets from outside the file system. -/
inductive Call
  | dup (fd : Int)
  | read (fd : Int) (n : Option Nat) (env : Option (List Byte))
  | write (fd : Int) (addr : Option (List Byte)) (env : Int)
  | close (fd : Int)
  | fstat (fd : Int) (ok : Bool)
  | link (old new : Option Path)
  | unlink (path : Option Path)
  | open (path : Option Path) (omode : Option (BitVec 32))
  | mkdir (path : Option Path)
  | mknod (path : Option Path) (major minor : Option (BitVec 32))
  | chdir (path : Option Path)
  | exec (path : Option Path) (argv : Bool) (env : ExecEnv)
  | pipe (ok mem : Bool)
  | fork (mem : Bool)
  | exit
  | wait (q : Pid)

/-- The program of a call by process `p`. -/
def Call.prog (p : Pid) : Call → P Int
  | .dup fd => sysDup fd
  | .read fd n env => sysRead fd n env
  | .write fd addr env => sysWrite fd addr env
  | .close fd => sysClose fd
  | .fstat fd ok => sysFstat fd ok
  | .link old new => sysLink old new
  | .unlink path => sysUnlink path
  | .open path omode => sysOpen path omode
  | .mkdir path => sysMkdir path
  | .mknod path major minor => sysMknod path major minor
  | .chdir path => sysChdir path
  | .exec path argv env => sysExec path argv env
  | .pipe ok mem => sysPipe ok mem
  | .fork mem => sysFork mem
  | .exit => sysExit (p = 0)
  | .wait q => sysWait q

end Xv6.Fs
