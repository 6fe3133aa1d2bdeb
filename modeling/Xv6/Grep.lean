import Mathlib.Data.List.Basic
import Xv6.Params

/-! `grep` (`grep.c`). A pointer into a string is kept as what is left of the string from there on, without its NUL, so
    that `*s` at the end is the NUL. -/

namespace Xv6.Grep

def caret : Byte := ascii '^'
def dot : Byte := ascii '.'
def star : Byte := ascii '*'
def dollar : Byte := ascii '$'
def newline : Byte := ascii '\n'

/-! ### The matcher -/

mutual

def matchhere (re text : List Byte) : Bool :=
  match re with
  | [] => true
  | c :: re =>
    if re.head? = some star then matchstar c re.tail text
    else if c = dollar ∧ re = [] then text = []
    else
      match text with
      | [] => false
      | t :: text => if c = dot ∨ c = t then matchhere re text else false
termination_by (re.length, 0)
decreasing_by
  · exact Prod.Lex.left _ _ (by simp only [List.length_tail, List.length_cons]; omega)
  · exact Prod.Lex.left _ _ (Nat.lt_succ_self _)

def matchstar (c : Byte) (re text : List Byte) : Bool :=
  if matchhere re text then true
  else
    match text with
    | [] => false
    | t :: text => if t = c ∨ c = dot then matchstar c re text else false
termination_by (re.length, text.length + 1)
decreasing_by
  · exact Prod.Lex.right _ (Nat.succ_pos _)
  · exact Prod.Lex.right _ (Nat.lt_succ_self _)

end

/-- The loop of `match`. -/
def matchLoop (re : List Byte) : List Byte → Bool
  | [] => matchhere re []
  | t :: text => if matchhere re (t :: text) then true else matchLoop re text

/-- `match`. -/
def matchText (re text : List Byte) : Bool :=
  match re with
  | [] => matchLoop [] text
  | c :: re' => if c = caret then matchhere re' text else matchLoop re text

/-! ### The lines -/

/-- `sizeof(buf)`. -/
abbrev bufsize : Nat := 1024

/-- A string ends at its first zero byte. -/
def cstring (s : List Byte) : List Byte := s.takeWhile (· ≠ 0)

/-- `strchr`, with the offset of the character. -/
def strchr (s : List Byte) (c : Byte) : Option Nat := (cstring s).findIdx? (· = c)

theorem strchr_lt {s : List Byte} {c : Byte} {q : Nat} (h : strchr s c = some q) : q < s.length :=
  Nat.lt_of_lt_of_le (List.findIdx?_eq_some_iff_findIdx_eq.mp h).1 (List.takeWhile_sublist _).length_le

/-- The loop over the lines in the buffer: what it writes, and what is left from `p` on. -/
def scan (pattern p : List Byte) : List Byte × List Byte :=
  match _h : strchr p newline with
  | none => ([], p)
  | some q =>
    let line := if matchText pattern (cstring (p.take q)) then p.take (q + 1) else []
    let (out, rest) := scan pattern (p.drop (q + 1))
    (line ++ out, rest)
termination_by p.length
decreasing_by
  have := strchr_lt _h
  rw [List.length_drop]
  omega

/-- What stays in the buffer for the next round, if `p` is left of the bytes `buf`. -/
def carry (buf p : List Byte) : List Byte := if p.length = buf.length then [] else p

/-- `grep`, with `m` bytes in the buffer and with the pieces that `read` returns, one after the other. -/
def grep (pattern : List Byte) : List Byte → List (List Byte) → List Byte
  | _, [] => []
  | held, piece :: pieces =>
    let buf := held ++ piece
    let (out, p) := scan pattern buf
    out ++ grep pattern (carry buf p) pieces

/-- Every piece is one that `read` may return for the number of bytes that it is asked for. -/
def Served (pattern : List Byte) : List Byte → List (List Byte) → Prop
  | _, [] => True
  | held, piece :: pieces =>
    let buf := held ++ piece
    0 < piece.length ∧ piece.length ≤ bufsize - held.length - 1 ∧ Served pattern (carry buf (scan pattern buf).2) pieces

end Xv6.Grep
