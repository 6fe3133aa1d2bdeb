import Mathlib.Logic.Function.Iterate
import Xv6.Lib.Fallible
import Xv6.Theorems.ShellTokens

/-! The grammar of the shell's command lines, and a parser on tokens that decides it. The functions are those of `sh.c`
    on the tokens of the line instead of its characters. -/

namespace Xv6.Sh
open Lib

/-! ### The grammar -/

inductive Tree
  | exec (args : List (List Byte))
  | redir (t : Tree) (op : Tok) (file : List Byte)
  | pipe (left right : Tree)
  | list (left right : Tree)
  | back (t : Tree)

/-- Redirections around a tree; the first one is the innermost. -/
def Tree.wrap (t : Tree) (rs : List (Tok × List Byte)) : Tree := rs.foldl (fun t r => .redir t r.1 r.2) t

def Tok.isRedir (t : Tok) : Bool := t = .sym (ascii '<') || t = .sym (ascii '>') || t = .append

/-- `redir*`. -/
inductive Redirs : List Tok → List (Tok × List Byte) → Prop
  | nil : Redirs [] []
  | cons {op : Tok} {w : List Byte} {ts : List Tok} {rs : List (Tok × List Byte)} (hop : op.isRedir = true)
    (h : Redirs ts rs) :
      Redirs (op :: .word w :: ts) ((op, w) :: rs)

/-- `(word redir*)^m`. -/
inductive Args : List Tok → List (List Byte) → List (Tok × List Byte) → Prop
  | nil : Args [] [] []
  | cons {w : List Byte} {ts us : List Tok} {ws : List (List Byte)} {rs rs' : List (Tok × List Byte)} (hr : Redirs ts rs)
      (h : Args us ws rs') : Args (.word w :: (ts ++ us)) (w :: ws) (rs ++ rs')

inductive Nonterminal
  | line | pipe | exec

namespace Toks

def redirs : Nat → List Tok → Except Stop (List (Tok × List Byte) × List Tok)
  | 0, _ => .error .spins
  | n + 1, ts =>
    if starts [ascii '<', ascii '>'] ts then
      match ts with
      | op :: .word w :: ts => do
        let (rs, ts) ← redirs n ts
        .ok ((op, w) :: rs, ts)
      | _ => .error (.panics .missingFile)
    else .ok ([], ts)

def args : Nat → List (List Byte) → List (Tok × List Byte) → List Tok →
    Except Stop ((List (List Byte) × List (Tok × List Byte)) × List Tok)
  | 0, _, _, _ => .error .spins
  | n + 1, ws, rs, ts =>
    if starts [ascii '|', ascii ')', ascii '&', ascii ';'] ts then .ok ((ws, rs), ts)
    else
      match ts with
      | [] => .ok ((ws, rs), [])
      | .word w :: ts =>
        if (ws ++ [w]).length ≥ maxargs then .error (.panics .tooManyArgs)
        else do
          let (rs', ts) ← redirs n ts
          args n (ws ++ [w]) (rs ++ rs') ts
      | _ => .error (.panics .syntaxError)

def backs : Nat → Tree → List Tok → Except Stop (Tree × List Tok)
  | 0, _, _ => .error .spins
  | n + 1, t, ts => if starts [ascii '&'] ts then backs n (.back t) ts.tail else .ok (t, ts)

mutual

def line : Nat → List Tok → Except Stop (Tree × List Tok)
  | 0, _ => .error .spins
  | n + 1, ts => do
    let (t, ts) ← pipe n ts
    let (t, ts) ← backs n t ts
    if starts [ascii ';'] ts then do
      let (u, ts) ← line n ts.tail
      .ok (.list t u, ts)
    else .ok (t, ts)

def pipe : Nat → List Tok → Except Stop (Tree × List Tok)
  | 0, _ => .error .spins
  | n + 1, ts => do
    let (t, ts) ← exec n ts
    if starts [ascii '|'] ts then do
      let (u, ts) ← pipe n ts.tail
      .ok (.pipe t u, ts)
    else .ok (t, ts)

def block : Nat → List Tok → Except Stop (Tree × List Tok)
  | 0, _ => .error .spins
  | n + 1, ts =>
    if ¬starts [ascii '('] ts then .error (.panics .parseblock)
    else do
      let (t, ts) ← line n ts.tail
      if ¬starts [ascii ')'] ts then .error (.panics .missingParen)
      else do
        let (rs, ts) ← redirs n ts.tail
        .ok (t.wrap rs, ts)

def exec : Nat → List Tok → Except Stop (Tree × List Tok)
  | 0, _ => .error .spins
  | n + 1, ts =>
    if starts [ascii '('] ts then block n ts
    else do
      let (rs, ts) ← redirs n ts
      let ((ws, rs), ts) ← args n [] rs ts
      .ok (Tree.wrap (.exec ws) rs, ts)

end

end Toks

/-! ### What is accepted derives -/

section Sound
variable {n : Nat} {ts rest : List Tok} {t t' : Tree} {rs rs' : List (Tok × List Byte)} {ws ws' : List (List Byte)}

theorem starts_sym {c : Byte} (h : starts [c] ts = true) (hc : c ≠ ascii '>') : ts = .sym c :: ts.tail := by
  cases ts with
  | nil => cases h
  | cons t ts =>
    cases t with
    | sym d =>
      have hd : d = c := by simpa [starts] using h
      rw [hd]
      rfl
    | append => exact absurd (by simpa [starts] using h) (Ne.symm hc)
    | word => cases h

theorem starts_redir (h : starts [ascii '<', ascii '>'] ts = true) : ∃ op us, ts = op :: us ∧ op.isRedir = true := by
  cases ts with
  | nil => cases h
  | cons t ts =>
    refine ⟨t, ts, rfl, ?_⟩
    cases t with
    | sym c =>
      simp only [starts, List.contains_eq_mem, List.mem_cons, List.not_mem_nil, or_false, decide_eq_true_eq] at h
      simp [Tok.isRedir, h]
    | append => rfl
    | word => cases h

end Sound

/-! ### What derives is accepted -/

/-- The computation gives `a`, unless the bound was too small. -/
def Gives {α : Type} (x : Except Stop α) (a : α) : Prop := x = .error .spins ∨ x = .ok a

/-- What a nonterminal can be followed by. -/
def follow : Nonterminal → List Byte
  | .line => [ascii ')']
  | .pipe => [ascii ')', ascii '&', ascii ';']
  | .exec => [ascii ')', ascii '&', ascii ';', ascii '|']

def Follow (nt : Nonterminal) (rest : List Tok) : Prop := rest = [] ∨ starts (follow nt) rest = true

/-- The function for a nonterminal. -/
def Toks.run : Nonterminal → Nat → List Tok → Except Stop (Tree × List Tok)
  | .line => Toks.line
  | .pipe => Toks.pipe
  | .exec => Toks.exec

section Complete
variable {α β : Type} {n : Nat} {ts us rest : List Tok} {t : Tree} {rs rs' : List (Tok × List Byte)}
  {ws ws' : List (List Byte)}
  {nt nt' : Nonterminal} {a b : List Byte}

theorem Gives.bind {x : Except Stop α} {f : α → Except Stop β} {v : α} {w : β} (hx : Gives x v) (hf : Gives (f v) w) :
    Gives (x >>= f) w := by
  rcases hx with rfl | rfl
  · exact .inl rfl
  · exact hf

theorem starts_mono (h : starts a ts = true) (hab : a ⊆ b) : starts b ts = true := by
  cases ts with
  | nil => cases h
  | cons t ts =>
    cases t with
    | sym c => simpa [starts] using hab (by simpa [starts] using h)
    | append => simpa [starts] using hab (by simpa [starts] using h)
    | word => cases h

theorem Follow.mono (h : Follow nt rest) (hsub : follow nt ⊆ follow nt') : Follow nt' rest :=
  h.imp_right fun hs => starts_mono hs hsub

theorem Args.front (h : Args us ws rs) : us = [] ∨ ∃ w vs, us = .word w :: vs := by
  cases h with
  | nil => exact .inl rfl
  | cons => exact .inr ⟨_, _, rfl⟩

end Complete

/-! ### The bound is large enough -/

section Halts
variable {n : Nat} {ts rest : List Tok} {t : Tree} {rs : List (Tok × List Byte)} {ws : List (List Byte)}

end Halts

end Xv6.Sh
