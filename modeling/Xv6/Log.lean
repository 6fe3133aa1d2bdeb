import Xv6.Lib.Run
import Xv6.Params

/-! The log (`log.c`) over a disk that writes whole blocks in order. The blocks a file-system operation
    changes stay in the buffer cache until `commit`, which copies them to the log, writes the header, copies
    the log to the home blocks and clears the header. The device may stop between any two block writes; then
    the contents of the cache are lost, and the next boot runs `recover_from_log`. -/

namespace Xv6.Log
open Lib

/-! ### Blocks -/

/-- A block of 512 bytes, as words. -/
abbrev Block := Fin 128 → Word

/-- The contents of the device, by block number. -/
abbrev Disk := Nat → Block

/-- Where the log lies: the header at block `start`, and the copies behind it. -/
structure Area where
  start : Nat
  size : Nat
  pos : 0 < size

/-- The log as `mkfs` lays it out. -/
def Area.mkfs : Area := ⟨2, logsize, by decide⟩

/-- The block is not in the log. -/
def Area.Home (A : Area) (b : Nat) : Prop := b < A.start ∨ A.start + A.size ≤ b

/-- The number of a block outside the log, which fits into a header entry. -/
structure Area.HomeBlock (A : Area) where
  no : Nat
  home : A.Home no
  fits : no < 2 ^ 32

/-- What `write_head` leaves in the header block `hb`, of which it writes the first entries only. -/
def encodeHead (lh : List Nat) (hb : Block) : Block := fun i =>
  if i = 0 then BitVec.ofNat 32 lh.length
  else (lh[i.val - 1]?.map (BitVec.ofNat 32)).getD (hb i)

/-- What `read_head` takes from a header block that lists at most `LOGSIZE` blocks. -/
def decodeHead (hb : Block) : List Nat :=
  (List.range (hb 0).toInt.toNat).map fun i => if h : i + 1 < 128 then (hb ⟨i + 1, h⟩).toNat else 0

/-! ### The log and the device -/

/-- The next block write of `commit` or `recover_from_log`: the copy of entry `tail`, the header, the home
    block of entry `tail`, or after the last entry the cleared header. In `idle` no write is due, and in
    `down` the machine is to boot. -/
inductive Pc
  | idle | writeLog (tail : Nat) | writeHead | installTrans (tail : Nat) | down
  deriving DecidableEq

/-- The device, the blocks that the cache holds modified, `log.lh`, and the progress of `commit`. -/
structure Machine where
  disk : Disk
  cache : Nat → Option Block
  lh : List Nat
  pc : Pc

namespace Machine

def bread (m : Machine) (b : Nat) : Block := (m.cache b).getD (m.disk b)

/-- `bwrite` of the contents `v`. -/
def bwrite (m : Machine) (b : Nat) (v : Block) : Machine :=
  { m with disk := Function.update m.disk b v, cache := Function.update m.cache b none }

/-- `log_write` of block `b` with the new contents `v`; `none` is `panic("too big a transaction")`. -/
def logWrite (A : Area) (m : Machine) (b : Nat) (v : Block) : Option Machine :=
  if m.lh.length ≥ logsize ∨ m.lh.length ≥ A.size - 1 then none
  else some { m with
    cache := Function.update m.cache b (some v)
    -- A block that the log has already is absorbed.
    lh := if b ∈ m.lh then m.lh else m.lh ++ [b] }

/-- `commit`, up to its first block write. -/
def commit (m : Machine) : Machine := if m.lh = [] then m else { m with pc := .writeLog 0 }

/-- The next block write. -/
def write (A : Area) (m : Machine) : Option Machine :=
  match m.pc with
  | .idle | .down => none
  | .writeLog tail =>
    match m.lh[tail]? with
    | none => none
    | some b =>
      let m := m.bwrite (A.start + tail + 1) (m.bread b)
      some { m with pc := if tail + 1 < m.lh.length then .writeLog (tail + 1) else .writeHead }
  | .writeHead =>
    let m := m.bwrite A.start (encodeHead m.lh (m.bread A.start))
    some { m with pc := .installTrans 0 }
  | .installTrans tail =>
    match m.lh[tail]? with
    | some b =>
      let m := m.bwrite b (m.bread (A.start + tail + 1))
      some { m with pc := .installTrans (tail + 1) }
    | none =>
      let m := m.bwrite A.start (encodeHead [] (m.bread A.start))
      some { m with lh := [], pc := .idle }

/-- The machine stops, and what is in memory is lost. -/
def crash (m : Machine) : Machine := { m with cache := fun _ => none, lh := [], pc := .down }

/-- The boot, up to the first block write of `recover_from_log`. -/
def recover (A : Area) (m : Machine) : Machine := { m with lh := decodeHead (m.bread A.start), pc := .installTrans 0 }

end Machine

/-- The steps: a `log_write` by an operation, the call of `commit` when the last operation ends, a block
    write, and a stop and the boot after it. -/
inductive Event (A : Area)
  | logWrite (b : A.HomeBlock) (v : Block)
  | commit
  | write
  | crash
  | recover

/-- The step function. With a header that lists more than `LOGSIZE` blocks, `read_head` would write behind `lh.block`. -/
def Machine.step (A : Area) (m : Machine) : Event A → Option Machine
  | .logWrite b v => if m.pc = .idle then m.logWrite A b.no v else none
  | .commit => if m.pc = .idle then some m.commit else none
  | .write => m.write A
  | .crash => some m.crash
  | .recover => if m.pc = .down ∧ (m.bread A.start 0).toInt ≤ logsize then some (m.recover A) else none

/-! ### Operations -/

/-- The calls of `panic` in `log_write` and `end_op`. -/
inductive Panic
  | tooBigATransaction | logWriteOutsideOfTrans | logCommitting
  deriving DecidableEq

/-- An operation between `begin_op` and `end_op`: the blocks it has logged, and the block of a `log_write`
    that has passed the tests and has not taken the lock. -/
structure Op where
  logged : List Nat
  checked : Option Nat

/-- `log.lh`, `log.outstanding` and `log.committing`, and the operations under way. -/
structure Ops where
  lh : List Nat
  outstanding : Nat
  committing : Bool
  ops : Nat → Option Op
  panic : Option Panic

/-- The steps. A `log_write` tests the space before it takes the lock. -/
inductive OpEvent
  | beginOp (i : Nat)
  | logWriteTest (i b : Nat)
  | logWriteRecord (i : Nat)
  | endOp (i : Nat)
  /-- `commit` returns, and `end_op` clears `log.committing`. -/
  | committed
  deriving DecidableEq

namespace Ops

/-- One pass of `begin_op`; a call that has to wait changes nothing. -/
def beginOp (s : Ops) (i : Nat) : Ops :=
  if s.committing then s
  else if s.lh.length + (s.outstanding + 1) * maxopblocks > logsize then s
  else { s with outstanding := s.outstanding + 1, ops := Function.update s.ops i (some ⟨[], none⟩) }

/-- The tests of `log_write`. -/
def logWriteTest (A : Area) (s : Ops) (i : Nat) (o : Op) (b : Nat) : Ops :=
  if s.lh.length ≥ logsize ∨ s.lh.length ≥ A.size - 1 then { s with panic := some .tooBigATransaction }
  else if s.outstanding < 1 then { s with panic := some .logWriteOutsideOfTrans }
  else { s with ops := Function.update s.ops i (some { o with checked := some b }) }

/-- The rest of `log_write`, with the lock. -/
def logWriteRecord (s : Ops) (i : Nat) (o : Op) (b : Nat) : Ops :=
  { s with
    lh := if b ∈ s.lh then s.lh else s.lh ++ [b]
    ops := Function.update s.ops i (some ⟨if b ∈ o.logged then o.logged else o.logged ++ [b], none⟩) }

/-- `end_op`, up to the call of `commit`. -/
def endOp (s : Ops) (i : Nat) : Ops :=
  let s := { s with outstanding := s.outstanding - 1, ops := Function.update s.ops i none }
  if s.committing then { s with panic := some .logCommitting }
  else if s.outstanding = 0 then { s with committing := true }
  else s

/-- The step function. An operation logs at most `MAXOPBLOCKS` different blocks. -/
def step (A : Area) (s : Ops) (e : OpEvent) : Option Ops :=
  if s.panic ≠ none then none
  else
    match e with
    | .beginOp i => if (s.ops i).isSome then none else some (s.beginOp i)
    | .logWriteTest i b =>
      match s.ops i with
      | some ⟨logged, none⟩ =>
        if b ∈ logged ∨ logged.length < maxopblocks then some (s.logWriteTest A i ⟨logged, none⟩ b) else none
      | _ => none
    | .logWriteRecord i =>
      match s.ops i with
      | some ⟨logged, some b⟩ => some (s.logWriteRecord i ⟨logged, some b⟩ b)
      | _ => none
    | .endOp i =>
      match s.ops i with
      | some ⟨_, none⟩ => some (s.endOp i)
      | _ => none
    | .committed => if s.committing then some { s with lh := [], committing := false } else none

/-- No operation is under way. -/
def idle : Ops := ⟨[], 0, false, fun _ => none, none⟩

end Ops

end Xv6.Log
