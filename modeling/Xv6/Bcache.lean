import Mathlib.Data.List.FinRange
import Xv6.Log

/-! The buffer cache (`bio.c`), shared by processes that read blocks and change them through the log
    (`log.c`). A step is the code under one lock: a search of the cache under `bcache.lock`, the change of a
    sleep-lock, the work on a buffer under its lock, or the work on the log under `log.lock`. So a `bread` is
    three steps and a `brelse` two, and the steps of different processes interleave in any way. -/

namespace Xv6.Bcache
open Lib Log

abbrev nbuf : Nat := maxopblocks * 3
abbrev rootdev : Nat := 1

/-! ### Buffers -/

/-- `struct buf`, with the process that holds its sleep-lock. -/
structure Buf (ι : Type) where
  valid : Bool
  dirty : Bool
  dev : Nat
  blockno : Nat
  refcnt : Nat
  lock : Option ι
  data : Block

/-- How far a process is with a buffer that `bget` has given it: it waits for the lock, it has the lock, `bread`
    has returned, or `brelse` has released the lock. -/
inductive Hold
  | waiting
  | locked
  | filled
  | released
  deriving DecidableEq

/-- A buffer in the hands of a process, with the block for which it was asked. -/
structure Ref where
  blockno : Nat
  buf : Fin nbuf
  hold : Hold

/-- New contents of a buffer: any, those of another buffer of the process, or the header of the log. -/
inductive Source
  | value (v : Block)
  | copy (blockno : Nat)
  | head

/-- What follows a change of a buffer. -/
inductive After
  | logWrite
  | bwrite

/-- The steps of `bread` and `brelse`, and a change of a buffer. The buffers of a process are named by their
    blocks. -/
inductive Micro
  | bget (b : Nat)
  | acquiresleep (b : Nat)
  | iderw (b : Nat)
  | modify (b : Nat) (src : Source) (after : After)
  | releasesleep (b : Nat)
  | unref (b : Nat)

/-- The steps that follow a change: `log_write`, which tests the space before it takes the lock, or `bwrite`. -/
inductive Finish
  | logWriteTest (i : Fin nbuf)
  | logWriteRecord (i : Fin nbuf)
  | bwrite (i : Fin nbuf)

def Finish.buf : Finish → Fin nbuf
  | .logWriteTest i | .logWriteRecord i | .bwrite i => i

def bread (b : Nat) : List Micro := [.bget b, .acquiresleep b, .iderw b]

def brelse (b : Nat) : List Micro := [.releasesleep b, .unref b]

/-! ### Commit -/

/-- Where `commit` is: at the test of a loop, or at its end. -/
inductive Stage
  | writeLog (tail : Nat)
  | installTrans (tail : Nat)
  | committed

def writeHead (A : Area) : List Micro := bread A.start ++ .modify A.start .head .bwrite :: brelse A.start

/-- The body of `write_log` for the block `b`. -/
def writeLogBody (A : Area) (tail b : Nat) : List Micro :=
  let toBlock := A.start + tail + 1
  bread toBlock ++ bread b ++ .modify toBlock (.copy b) .bwrite :: (brelse b ++ brelse toBlock)

/-- The body of `install_trans` for the block `b`. -/
def installTransBody (A : Area) (tail b : Nat) : List Micro :=
  let lbuf := A.start + tail + 1
  bread lbuf ++ bread b ++ .modify b (.copy lbuf) .bwrite :: (brelse lbuf ++ brelse b)

/-! ### The system -/

/-- A process: its buffers, the rest of the call it is in, the step that must follow a change, and the place
    in `commit`. -/
structure Process where
  refs : List Ref
  todo : List Micro
  finish : Option Finish
  stage : Option Stage

/-- The calls of `panic`. -/
inductive Panic
  | bgetNoBuffers
  | bwrite
  | brelse
  | log (p : Log.Panic)
  deriving DecidableEq

/-- The cache with its list from the most recently used buffer on, the disk, the log and the processes. -/
structure System (ι : Type) where
  buf : Fin nbuf → Buf ι
  order : List (Fin nbuf)
  disk : Disk
  lh : List Nat
  outstanding : Int
  committing : Bool
  proc : ι → Process
  panic : Option Panic

/-- The calls that a process makes. -/
inductive Call
  | bread (b : Nat)
  /-- A change of the contents, and `log_write`. -/
  | write (b : Nat) (v : Block)
  | brelse (b : Nat)
  | beginOp
  | endOp

inductive Event (ι : Type)
  | call (p : ι) (c : Call)
  | run (p : ι)

namespace System
variable {ι : Type} [DecidableEq ι]

def setBuf (s : System ι) (i : Fin nbuf) (b : Buf ι) : System ι := { s with buf := Function.update s.buf i b }

def setProc (s : System ι) (p : ι) (x : Process) : System ι := { s with proc := Function.update s.proc p x }

def setRefs (s : System ι) (p : ι) (refs : List Ref) : System ι := s.setProc p { s.proc p with refs }

/-- The buffer that a process has for the block `b`. -/
def ref (s : System ι) (p : ι) (b : Nat) : Option Ref := (s.proc p).refs.find? (·.blockno = b)

/-- A process gets on with its buffer for the block `b`. -/
def setHold (s : System ι) (p : ι) (b : Nat) (hold : Hold) : System ι :=
  s.setRefs p ((s.proc p).refs.map fun r => if r.blockno = b then { r with hold } else r)

/-- The first loop of `bget`. -/
def find (s : System ι) (b : Nat) : Option (Fin nbuf) :=
  s.order.find? fun i => (s.buf i).dev = rootdev ∧ (s.buf i).blockno = b

/-- The second loop of `bget`, which goes from the least recently used buffer on. -/
def victim (s : System ι) : Option (Fin nbuf) :=
  s.order.reverse.find? fun i => (s.buf i).refcnt = 0 ∧ (s.buf i).dirty = false

/-- `bget`, up to its `acquiresleep`. -/
def bget (s : System ι) (p : ι) (b : Nat) : System ι :=
  match s.find b with
  | some i =>
    (s.setBuf i { s.buf i with refcnt := (s.buf i).refcnt + 1 }).setRefs p (⟨b, i, .waiting⟩ :: (s.proc p).refs)
  | none =>
    match s.victim with
    | some i =>
      (s.setBuf i { s.buf i with
        dev := rootdev, blockno := b, valid := false, dirty := false, refcnt := 1 }).setRefs p
          (⟨b, i, .waiting⟩ :: (s.proc p).refs)
    | none => { s with panic := some .bgetNoBuffers }

/-- The rest of `bread`, with the lock: the contents are read from the disk, if the buffer does not have them. -/
def iderw (s : System ι) (p : ι) (r : Ref) : System ι :=
  let x := s.buf r.buf
  (if x.valid then s else s.setBuf r.buf { x with valid := true, data := s.disk x.blockno }).setHold p r.blockno .filled

/-- The contents that a change gives to the buffer `i`. -/
def source (s : System ι) (p : ι) (i : Fin nbuf) : Source → Option Block
  | .value v => some v
  | .copy b => (s.ref p b).map fun r => (s.buf r.buf).data
  | .head => some (encodeHead s.lh (s.buf i).data)

/-- The end of `brelse`, with `bcache.lock`. A buffer that no process has becomes the most recently used. -/
def unref (s : System ι) (p : ι) (r : Ref) : System ι :=
  let x := { s.buf r.buf with refcnt := (s.buf r.buf).refcnt - 1 }
  let s := s.setRefs p ((s.proc p).refs.eraseP (·.blockno = r.blockno))
  let s := s.setBuf r.buf x
  if x.refcnt = 0 then { s with order := r.buf :: s.order.erase r.buf } else s

/-- A step of a call. A process works on the contents of a buffer only while it has the lock. -/
def micro (s : System ι) (p : ι) : Micro → Option (System ι)
  | .bget b => some (s.bget p b)
  | .acquiresleep b =>
    (s.ref p b).bind fun r =>
      if (s.buf r.buf).lock = none then
        some ((s.setBuf r.buf { s.buf r.buf with lock := some p }).setHold p b .locked)
      else none
  | .iderw b => (s.ref p b).bind fun r => if r.hold = .locked then some (s.iderw p r) else none
  | .modify b src after =>
    (s.ref p b).bind fun r =>
      if r.hold = .filled then
        (s.source p r.buf src).map fun v =>
          let finish := match after with
            | .logWrite => Finish.logWriteTest r.buf
            | .bwrite => Finish.bwrite r.buf
          (s.setBuf r.buf { s.buf r.buf with data := v }).setProc p { s.proc p with finish := some finish }
      else none
  | .releasesleep b =>
    (s.ref p b).bind fun r =>
      if r.hold = .filled then
        if (s.buf r.buf).lock = none then some { s with panic := some .brelse }
        else some ((s.setBuf r.buf { s.buf r.buf with lock := none }).setHold p b .released)
      else none
  | .unref b => (s.ref p b).bind fun r => if r.hold = .released then some (s.unref p r) else none

/-- A step of `log_write` or `bwrite`. -/
def finish (A : Area) (s : System ι) (p : ι) : Finish → System ι
  | .logWriteTest i =>
    if s.lh.length ≥ logsize ∨ s.lh.length ≥ A.size - 1 then { s with panic := some (.log .tooBigATransaction) }
    else if s.outstanding < 1 then { s with panic := some (.log .logWriteOutsideOfTrans) }
    else s.setProc p { s.proc p with finish := some (.logWriteRecord i) }
  | .logWriteRecord i =>
    let b := (s.buf i).blockno
    { (s.setBuf i { s.buf i with dirty := true }).setProc p { s.proc p with finish := none } with
      lh := if b ∈ s.lh then s.lh else s.lh ++ [b] }
  | .bwrite i =>
    if (s.buf i).lock = none then { s with panic := some .bwrite }
    else
      { (s.setBuf i { s.buf i with valid := true, dirty := false }).setProc p { s.proc p with finish := none } with
        disk := Function.update s.disk (s.buf i).blockno (s.buf i).data }

/-- `commit` between the bodies of its loops. -/
def commit (A : Area) (s : System ι) (p : ι) : Stage → System ι
  | .writeLog tail =>
    match s.lh[tail]? with
    | some b => s.setProc p { s.proc p with todo := writeLogBody A tail b, stage := some (.writeLog (tail + 1)) }
    | none => s.setProc p { s.proc p with todo := writeHead A, stage := some (.installTrans 0) }
  | .installTrans tail =>
    match s.lh[tail]? with
    | some b =>
      s.setProc p { s.proc p with todo := installTransBody A tail b, stage := some (.installTrans (tail + 1)) }
    | none => { s.setProc p { s.proc p with todo := writeHead A, stage := some .committed } with lh := [] }
  | .committed => { s.setProc p { s.proc p with stage := none } with committing := false }

/-- A process goes on with the call it is in. -/
def run (A : Area) (s : System ι) (p : ι) : Option (System ι) :=
  match (s.proc p).finish, (s.proc p).todo, (s.proc p).stage with
  | some f, _, _ => some (s.finish A p f)
  | none, m :: todo, _ => (s.setProc p { s.proc p with todo }).micro p m
  | none, [], some stage => some (s.commit A p stage)
  | none, [], none => none

/-- A process starts a call. A `begin_op` that has to wait is not started. -/
def call (s : System ι) (p : ι) : Call → Option (System ι)
  | .bread b => some (s.setProc p { s.proc p with todo := Bcache.bread b })
  | .write b v => some (s.setProc p { s.proc p with todo := [.modify b (.value v) .logWrite] })
  | .brelse b => some (s.setProc p { s.proc p with todo := Bcache.brelse b })
  | .beginOp =>
    if s.committing then none
    else if s.lh.length + (s.outstanding + 1) * maxopblocks > logsize then none
    else some { s with outstanding := s.outstanding + 1 }
  | .endOp =>
    let s := { s with outstanding := s.outstanding - 1 }
    if s.committing then some { s with panic := some (.log .logCommitting) }
    else if s.outstanding = 0 then
      let stage := if s.lh.length > 0 then Stage.writeLog 0 else .committed
      some { s.setProc p { s.proc p with stage := some stage } with committing := true }
    else some s

/-- The step function. -/
def step (A : Area) (s : System ι) (e : Event ι) : Option (System ι) :=
  if s.panic ≠ none then none
  else
    match e with
    | .run p => s.run A p
    | .call p c =>
      match s.proc p with
      | ⟨_, [], none, none⟩ => s.call p c
      | _ => none

/-- The cache after `binit`. -/
def binit (d : Disk) : System ι where
  buf := fun _ => ⟨false, false, 0, 0, 0, none, fun _ => 0⟩
  order := (List.finRange nbuf).reverse
  disk := d
  lh := []
  outstanding := 0
  committing := false
  proc := fun _ => ⟨[], [], none, none⟩
  panic := none

end System

/-! ### What is written and returned -/

/-- The system with the writes by `log_write` and `bwrite`, in order, and the block that the last step has
    returned from a `bread`, if it has. -/
structure History (ι : Type) where
  sys : System ι
  writes : List (Nat × Block)
  returned : Option (Nat × Block)

namespace History
variable {ι : Type} [DecidableEq ι]

/-- The write that a step makes. -/
def written (s : System ι) : Event ι → Option (Nat × Block)
  | .call _ _ => none
  | .run p =>
    match (s.proc p).finish with
    | some (.logWriteRecord i) | some (.bwrite i) => some ((s.buf i).blockno, (s.buf i).data)
    | _ => none

/-- The block that a step from `s` to `s'` returns. -/
def bread (s s' : System ι) : Event ι → Option (Nat × Block)
  | .call _ _ => none
  | .run p =>
    match (s.proc p).finish, (s.proc p).todo with
    | none, .iderw b :: _ => (s'.ref p b).map fun r => (b, (s'.buf r.buf).data)
    | _, _ => none

def step (A : Area) (h : History ι) (e : Event ι) : Option (History ι) :=
  (h.sys.step A e).map fun s => ⟨s, h.writes ++ (written h.sys e).toList, bread h.sys s e⟩

def binit (d : Disk) : History ι := ⟨.binit d, [], none⟩

end History

end Xv6.Bcache
