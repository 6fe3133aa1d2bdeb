import Xv6.Lib.Ring
import Xv6.Params

/-! The console input (`console.c`): `consoleintr` edits a line in a ring buffer and commits it, and `consoleread` takes
    what has been committed. A step is the code that runs with `cons.lock`. What is echoed is left out. -/

namespace Xv6.Console
open Lib

abbrev inputBuf : Nat := 128

scoped instance : NeZero inputBuf := ⟨by decide⟩

/-- `C(x)`. -/
def ctrl (c : Char) : Byte := BitVec.ofNat 8 (c.toNat - '@'.toNat)

def newline : Byte := 0x0A
def return_ : Byte := 0x0D
def delete : Byte := 0x7F

structure Input where
  buf : Fin inputBuf → Byte
  r : BitVec 32
  w : BitVec 32
  e : BitVec 32

namespace Input

/-- `input.buf[i % INPUT_BUF]`. -/
def get (x : Input) (i : BitVec 32) : Byte := x.buf (Ring.index inputBuf i)

/-! ### consoleintr -/

/-- The loop that kills the line, which takes at most `c` rounds. -/
def killLine : Nat → Input → Input
  | 0, x => x
  | c + 1, x => if x.e ≠ x.w ∧ x.get (x.e - 1) ≠ newline then killLine c { x with e := x.e - 1 } else x

/-- A character is stored, and the line is committed. -/
def store (x : Input) (c : Byte) : Input :=
  let c := if c = return_ then newline else c
  let x := { x with buf := Function.update x.buf (Ring.index inputBuf x.e) c, e := x.e + 1 }
  if c = newline ∨ c = ctrl 'D' ∨ x.e = x.r + BitVec.ofNat 32 inputBuf then { x with w := x.e } else x

/-- The body of the loop of `consoleintr` for one character. -/
def type (x : Input) (c : Byte) : Input :=
  if c = ctrl 'P' then x
  else if c = ctrl 'U' then x.killLine (x.e - x.w).toNat
  else if c = ctrl 'H' ∨ c = delete then if x.e ≠ x.w then { x with e := x.e - 1 } else x
  else if c ≠ 0 ∧ (x.e - x.r).toNat < inputBuf then x.store c
  else x

/-- `consoleintr`, for the characters that `getc` gives. -/
def consoleintr (x : Input) (cs : List Byte) : Input := cs.foldl type x

end Input

/-! ### consoleread -/

/-- A call of `consoleread`: `n` bytes of `target` are left to read, and `got` has been stored. -/
structure Call where
  target : Nat
  n : Nat
  got : List Byte

/-- How `consoleread` gives up the lock: it sleeps, or it returns what it has stored. -/
inductive Gives
  | sleep (call : Call)
  | ret (got : List Byte)

/-- The loop of `consoleread`, with `n` bytes left. -/
def consolereadLoop (target : Nat) : Nat → List Byte → Input → Gives × Input
  | 0, got, x => (.ret got, x)
  | n + 1, got, x =>
    if x.r = x.w then (.sleep ⟨target, n + 1, got⟩, x)
    else
      let c := x.get x.r
      let x := { x with r := x.r + 1 }
      if c = ctrl 'D' then (.ret got, if n + 1 < target then { x with r := x.r - 1 } else x)
      else if c = newline then (.ret (got ++ [c]), x)
      else consolereadLoop target n (got ++ [c]) x

/-! ### The system -/

/-- The console, the calls of the processes, the bytes that they have stored, and the reads that have returned, both in
    order. -/
structure System (ι κ : Type) where
  input : κ
  calls : ι → Option Call
  received : List Byte
  reads : List (ι × List Byte)

inductive Event (ι : Type)
  | intr (cs : List Byte)
  /-- A process calls `consoleread` for `n` bytes. -/
  | call (p : ι) (n : Nat)
  /-- A process gets `cons.lock` and goes on, at the start or after it has slept. -/
  | run (p : ι)

namespace System
variable {ι κ : Type} [DecidableEq ι]

/-- A step, over what the input does with characters and how it is read. -/
def stepWith (intr : κ → List Byte → κ) (read : Call → κ → Gives × κ) (s : System ι κ) : Event ι → Option (System ι κ)
  | .intr cs => some { s with input := intr s.input cs }
  | .call p n => if s.calls p = none ∧ 0 < n then some { s with calls := Function.update s.calls p (some ⟨n, n, []⟩) }
    else none
  | .run p =>
    (s.calls p).map fun call =>
      match read call s.input with
      | (.sleep call', input) =>
        { s with
          input
          calls := Function.update s.calls p (some call')
          received := s.received ++ call'.got.drop call.got.length }
      | (.ret got, input) =>
        ⟨input, Function.update s.calls p none, s.received ++ got.drop call.got.length, s.reads ++ [(p, got)]⟩

/-- The step function. -/
def step : System ι Input → Event ι → Option (System ι Input) :=
  stepWith Input.consoleintr fun call => consolereadLoop call.target call.n call.got

/-- The console after the boot; the indices start anywhere, so that they may be about to wrap around. -/
def start (buf : Fin inputBuf → Byte) (i : BitVec 32) : System ι Input := ⟨⟨buf, i, i, i⟩, fun _ => none, [], []⟩

end System

end Xv6.Console
