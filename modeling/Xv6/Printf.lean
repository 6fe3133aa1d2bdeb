import Mathlib.Logic.Function.Basic
import Xv6.Params

/-! The printing of numbers: `printint` and `cprintf` of the kernel (`console.c`), `printint` and `printf` of the user
    library (`printf.c`), and its `atoi` (`ulib.c`). What is printed is the list of the characters; `none` is a write
    behind the end of the buffer of `printint`. -/

namespace Xv6.Printf
open Lib

def minus : Byte := ascii '-'
def percent : Byte := ascii '%'

/-- `digits[d]` of `console.c`. -/
def lowerDigit (d : Nat) : Byte :=
    (['0', '1', '2', '3', '4', '5', '6', '7', '8', '9', 'a', 'b', 'c', 'd', 'e', 'f'].map ascii).getD d 0

/-- `digits[d]` of `printf.c`. -/
def upperDigit (d : Nat) : Byte :=
    (['0', '1', '2', '3', '4', '5', '6', '7', '8', '9', 'A', 'B', 'C', 'D', 'E', 'F'].map ascii).getD d 0

/-- The size of `buf`. -/
abbrev bufSize : Nat := 16

/-- `buf[i++] = c;`, where `buf` holds the first `i` characters. -/
def push (buf : List Byte) (c : Byte) : Option (List Byte) := if buf.length < bufSize then some (buf ++ [c]) else none

/-- The loop that writes the digits to the buffer, for at most `n` rounds. -/
def digitLoop (digit : Nat → Byte) (base : Word) : Nat → Word → List Byte → Option (List Byte)
  | 0, _, _ => none
  | n + 1, x, buf =>
    (push buf (digit (x % base).toNat)).bind fun buf => if x / base ≠ 0 then digitLoop digit base n (x / base) buf
      else some buf

/-- `printint` with the magnitude `x`. A round of the loop that finds the buffer full writes behind it, so that more rounds
    need not be counted. The characters are printed in reverse. -/
def printDigits (digit : Nat → Byte) (base x : Word) (neg : Bool) : Option (List Byte) :=
  (digitLoop digit base (bufSize + 1) x []).bind fun buf => (if neg then push buf minus else some buf).map List.reverse

/-- `"(null)"`. -/
def nullText : List Byte := ['(', 'n', 'u', 'l', 'l', ')'].map ascii

end Xv6.Printf

namespace Xv6
open Lib Printf

namespace Kernel

/-- `printint`; the test overwrites `sign`, and the negation is one of 32 bits. -/
def printint (xx base : Word) (sign : Bool) : Option (List Byte) :=
  let sign := sign && xx.slt 0
  printDigits lowerDigit base (if sign then -xx else xx) sign

/-- What `cprintf` prints for the character `c` behind a `%`, and whether it takes an argument; `str` are the strings in
    memory. -/
def directive (str : Word → List Byte) (c : Byte) (arg : Word) : Option (List Byte × Bool) :=
  if c = ascii 'd' then (printint arg 10 true).map fun out => (out, true)
  else if c = ascii 'x' ∨ c = ascii 'p' then (printint arg 16 false).map fun out => (out, true)
  else if c = ascii 's' then some (if arg = 0 then nullText else str arg, true)
  else if c = percent then some ([percent], false)
  else some ([percent, c], false)

/-- `cprintf` of a format, with the words behind it on the stack. -/
def cprintf (str : Word → List Byte) : List Byte → (Nat → Word) → Option (List Byte)
  | [], _ => some []
  | c :: fmt, argp =>
    if c ≠ percent then (cprintf str fmt argp).map (c :: ·)
    else
      match fmt with
      | [] => some []
      | c :: fmt =>
        (directive str c (argp 0)).bind fun (out, takes) =>
          (cprintf str fmt (if takes then fun i => argp (i + 1) else argp)).map (out ++ ·)

end Kernel

namespace User

def printint (xx base : Word) (sgn : Bool) : Option (List Byte) :=
  if sgn && xx.slt 0 then printDigits upperDigit base (-xx) true else printDigits upperDigit base xx false

/-- What `printf` prints for the character `c` behind a `%`, and whether it takes an argument. -/
def directive (str : Word → List Byte) (c : Byte) (arg : Word) : Option (List Byte × Bool) :=
  if c = ascii 'd' then (printint arg 10 true).map fun out => (out, true)
  else if c = ascii 'x' ∨ c = ascii 'p' then (printint arg 16 false).map fun out => (out, true)
  else if c = ascii 's' then some (if arg = 0 then nullText else str arg, true)
  else if c = ascii 'c' then some ([arg.setWidth 8], true)
  else if c = percent then some ([c], false)
  else some ([percent, c], false)

/-- The loop of `printf`, one character at a time; `state` is whether the last one was a `%`. -/
def printfLoop (str : Word → List Byte) : Bool → List Byte → (Nat → Word) → Option (List Byte)
  | _, [], _ => some []
  | false, c :: fmt, ap =>
    if c = percent then printfLoop str true fmt ap else (printfLoop str false fmt ap).map (c :: ·)
  | true, c :: fmt, ap =>
    (directive str c (ap 0)).bind fun (out, takes) =>
      (printfLoop str false fmt (if takes then fun i => ap (i + 1) else ap)).map (out ++ ·)

def printf (str : Word → List Byte) (fmt : List Byte) (ap : Nat → Word) : Option (List Byte) := printfLoop str false fmt ap

end User

end Xv6
