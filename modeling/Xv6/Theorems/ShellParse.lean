import Mathlib.Data.List.Forall2
import Xv6.Theorems.ShellGrammar

/-! The parser of the shell decides its grammar. It makes the same calls as the parser on tokens, with the places of the
    words instead of the words; `nulterminate` overwrites no character of a word. -/

namespace Xv6.Sh
open Lib

/-- What `gettoken` returns for a token. -/
def Tok.code : Tok → Byte
  | .sym c => c
  | .append => ascii '+'
  | .word _ => ascii 'a'

/-- A redirection of the tree. -/
structure Redirects (line : List Byte) (r : Redir) (x : Tok × List Byte) : Prop where
  mode : r = redirOf x.1.code r.file r.efile
  file : Spells line (r.file, r.efile) x.2

/-- The command has the shape of the tree, and its places hold the words of the tree. -/
def Matches (line : List Byte) : Cmd → Tree → Prop
  | .exec argv, .exec ws => List.Forall₂ (Spells line) argv ws
  | .redir cmd r, .redir t op file => Matches line cmd t ∧ Redirects line r (op, file)
  | .pipe left right, .pipe t u => Matches line left t ∧ Matches line right u
  | .list left right, .list t u => Matches line left t ∧ Matches line right u
  | .back cmd, .back t => Matches line cmd t
  | _, _ => False

/-- The two parsers end alike, and what is left of the line are the tokens that are left. -/
inductive Simulates {α β : Type} (line : List Byte) (rel : α → β → Prop) :
    Except Stop (α × List Byte) → Except Stop (β × List Tok) → Prop
  | ok {a : α} {b : β} {s : List Byte} (hrel : rel a b) (hs : s <:+ line) : Simulates line rel (.ok (a, s)) (.ok (b, lex s))
  | error (e : Stop) : Simulates line rel (.error e) (.error e)

section Simulation
variable {α β α' β' : Type} {line s : List Byte} {n : Nat} {rel : α → β → Prop} {rel' : α' → β' → Prop} {c : Byte}
  {rs : List Redir} {xs : List (Tok × List Byte)} {cmd : Cmd} {t : Tree}

theorem Simulates.bind {x : Except Stop (α × List Byte)} {y : Except Stop (β × List Tok)}
    {f : α × List Byte → Except Stop (α' × List Byte)} {g : β × List Tok → Except Stop (β' × List Tok)}
    (h : Simulates line rel x y) (hfg : ∀ a b s, rel a b → s <:+ line → Simulates line rel' (f (a, s)) (g (b, lex s))) :
    Simulates line rel' (x >>= f) (y >>= g) := by
  cases h with
  | ok hrel hs => exact hfg _ _ _ hrel hs
  | error e => exact .error e

theorem Simulates.eof {a : α} {b : β} (hrel : rel a b) : Simulates line rel (.ok (a, [])) (.ok (b, [])) := by
  have h : Simulates line rel (.ok (a, [])) (.ok (b, lex [])) := .ok hrel List.nil_suffix
  rwa [lex] at h

theorem peek_eq (toks : List Byte) (htoks : toks ⊆ symbols) (hs : s <:+ line) :
    ∃ s', peek s toks = (starts toks (lex s), s') ∧ lex s' = lex s ∧ s' <:+ line :=
  ⟨_, Prod.ext (peek_fst htoks s) rfl, lex_dropSpace s, (List.dropWhile_suffix _).trans hs⟩

theorem gettoken_tail (hs : s <:+ line) (h : starts [c] (lex s) = true) (hc : c ≠ ascii '>') :
    lex (gettoken line.length s).rest = (lex s).tail ∧ (gettoken line.length s).rest <:+ line := by
  have hlex := starts_sym h hc
  cases gettoken_lexed hs with
  | eof hnil => rw [hnil] at hlex; cases hlex
  | sym d _ hd _ hrest => exact ⟨by rw [hd]; rfl, hrest⟩
  | append hd _ hrest => exact ⟨by rw [hd]; rfl, hrest⟩
  | word w hd _ hrest => exact ⟨by rw [hd]; rfl, hrest⟩

theorem symbol_ne (hc : c ∈ symbols) : c ≠ 0 ∧ c ≠ ascii 'a' := by
  revert c
  decide

theorem redirOf_file (tok : Byte) (q eq : Nat) : (redirOf tok q eq).file = q := by
  unfold redirOf
  split <;> rfl

theorem redirOf_efile (tok : Byte) (q eq : Nat) : (redirOf tok q eq).efile = eq := by
  unfold redirOf
  split <;> rfl

theorem redirs_simulates (hs : s <:+ line) (n : Nat) :
    Simulates line (List.Forall₂ (Redirects line)) (parseredirs line.length n s) (Toks.redirs n (lex s)) := by
  induction n generalizing s with
  | zero => exact .error _
  | succ n ih =>
    obtain ⟨s', hpeek, hlex, hs'⟩ := peek_eq [ascii '<', ascii '>'] (by decide) hs
    unfold parseredirs Toks.redirs
    simp only [hpeek]
    by_cases hstarts : starts [ascii '<', ascii '>'] (lex s) = true
    · rw [if_pos hstarts, if_pos hstarts]
      obtain ⟨op, us, hop, -⟩ := starts_redir hstarts
      -- The operator
      obtain ⟨hcode, hrest, hus⟩ : (gettoken line.length s').ret = op.code ∧ (gettoken line.length s').rest <:+ line ∧
          us = lex (gettoken line.length s').rest := by
        rw [← hlex] at hop
        cases gettoken_lexed hs' with
        | eof hnil => rw [hnil] at hop; cases hop
        | sym c _ hc hret hrest =>
          rw [hc] at hop
          cases hop
          exact ⟨hret, hrest, rfl⟩
        | append hc hret hrest =>
          rw [hc] at hop
          cases hop
          exact ⟨hret, hrest, rfl⟩
        | word w hw hret hrest =>
          rw [hw] at hop
          cases hop
          exact ⟨hret, hrest, rfl⟩
      -- The file
      cases gettoken_lexed hrest with
      | eof hnil hret =>
        rw [hop, hus, hnil, hret, if_pos (by decide)]
        exact .error _
      | sym c hc hlex' hret =>
        rw [hop, hus, hlex', hret, if_pos (symbol_ne hc).2]
        exact .error _
      | append hlex' hret =>
        rw [hop, hus, hlex', hret, if_pos (by decide)]
        exact .error _
      | word w hlex' hret hrest' hw =>
        rw [hop, hus, hlex', hret, if_neg (by simp)]
        refine (ih hrest').bind fun rs xs s₁ hrs hs₁ => .ok (.cons ⟨?_, ?_⟩ hrs) hs₁
        · rw [redirOf_file, redirOf_efile, hcode]
        · rw [redirOf_file, redirOf_efile]
          exact hw
    · rw [if_neg hstarts, if_neg hstarts, ← hlex]
      exact .ok .nil hs'

theorem args_simulates (hs : s <:+ line) (n : Nat) {argv : List (Nat × Nat)} {ws : List (List Byte)}
    (hargv : List.Forall₂ (Spells line) argv ws) (hrs : List.Forall₂ (Redirects line) rs xs) :
    Simulates line (fun a b => List.Forall₂ (Spells line) a.1 b.1 ∧ List.Forall₂ (Redirects line) a.2 b.2)
      (parseargs line.length n argv rs s) (Toks.args n ws xs (lex s)) := by
  induction n generalizing s argv ws rs xs with
  | zero => exact .error _
  | succ n ih =>
    obtain ⟨s', hpeek, hlex, hs'⟩ := peek_eq [ascii '|', ascii ')', ascii '&', ascii ';'] (by decide) hs
    unfold parseargs Toks.args
    simp only [hpeek]
    by_cases hstarts : starts [ascii '|', ascii ')', ascii '&', ascii ';'] (lex s) = true
    · rw [if_pos hstarts, if_pos hstarts, ← hlex]
      exact .ok ⟨hargv, hrs⟩ hs'
    · rw [if_neg hstarts, if_neg hstarts, ← hlex]
      cases gettoken_lexed hs' with
      | eof hnil hret hrest =>
        rw [hnil, hret, if_pos rfl, hrest]
        exact .eof ⟨hargv, hrs⟩
      | sym c hc hlex' hret =>
        rw [hlex', hret, if_neg (symbol_ne hc).1, if_pos (symbol_ne hc).2]
        exact .error _
      | append hlex' hret =>
        rw [hlex', hret, if_neg (by decide), if_pos (by decide)]
        exact .error _
      | word w hlex' hret hrest hw =>
        rw [hlex', hret, if_neg (by decide), if_neg (by simp)]
        have hargv' : List.Forall₂ (Spells line) (argv ++ [_]) (ws ++ [w]) := List.rel_append hargv (.cons hw .nil)
        dsimp only
        rw [hargv'.length_eq]
        by_cases hlen : (ws ++ [w]).length ≥ maxargs
        · rw [if_pos hlen, if_pos hlen]
          exact .error _
        · rw [if_neg hlen, if_neg hlen]
          exact (redirs_simulates hrest n).bind fun rs' xs' s₁ hrs' hs₁ => ih hs₁ hargv' (List.rel_append hrs hrs')

theorem backs_simulates (hs : s <:+ line) (n : Nat) (h : Matches line cmd t) :
    Simulates line (Matches line) (parsebacks line.length n cmd s) (Toks.backs n t (lex s)) := by
  induction n generalizing s cmd t with
  | zero => exact .error _
  | succ n ih =>
    obtain ⟨s', hpeek, hlex, hs'⟩ := peek_eq [ascii '&'] (by decide) hs
    unfold parsebacks Toks.backs
    simp only [hpeek]
    by_cases hstarts : starts [ascii '&'] (lex s) = true
    · obtain ⟨htail, hrest⟩ := gettoken_tail hs' (by rw [hlex]; exact hstarts) (by decide)
      rw [if_pos hstarts, if_pos hstarts, ← hlex, ← htail]
      exact ih hrest h
    · rw [if_neg hstarts, if_neg hstarts, ← hlex]
      exact .ok h hs'

theorem matches_wrap (hrs : List.Forall₂ (Redirects line) rs xs)
    (h : Matches line cmd t) : Matches line (rs.foldl .redir cmd) (t.wrap xs) := by
  induction hrs generalizing cmd t with
  | nil => exact h
  | @cons r x _ _ hr _ ih =>
    have hredir : Matches line (.redir cmd r) (.redir t x.1 x.2) := ⟨h, hr⟩
    exact ih hredir

theorem parse_simulates (line : List Byte) (n : Nat) :
    (∀ s, s <:+ line → Simulates line (Matches line) (parseline line.length n s) (Toks.line n (lex s))) ∧
    (∀ s, s <:+ line → Simulates line (Matches line) (parsepipe line.length n s) (Toks.pipe n (lex s))) ∧
    (∀ s, s <:+ line → Simulates line (Matches line) (parseblock line.length n s) (Toks.block n (lex s))) ∧
    ∀ s, s <:+ line → Simulates line (Matches line) (parseexec line.length n s) (Toks.exec n (lex s)) := by
  induction n with
  | zero => exact ⟨fun _ _ => .error _, fun _ _ => .error _, fun _ _ => .error _, fun _ _ => .error _⟩
  | succ n ih =>
    obtain ⟨hline, hpipe, hblock, hexec⟩ := ih
    refine ⟨fun s hs => ?_, fun s hs => ?_, fun s hs => ?_, fun s hs => ?_⟩
    · unfold parseline Toks.line
      refine (hpipe s hs).bind fun cmd t s₁ hcmd hs₁ => (backs_simulates hs₁ n hcmd).bind fun cmd t s₂ hcmd hs₂ => ?_
      obtain ⟨s', hpeek, hlex, hs'⟩ := peek_eq [ascii ';'] (by decide) hs₂
      simp only [hpeek]
      by_cases hstarts : starts [ascii ';'] (lex s₂) = true
      · obtain ⟨htail, hrest⟩ := gettoken_tail hs' (by rw [hlex]; exact hstarts) (by decide)
        rw [if_pos hstarts, if_pos hstarts, ← hlex, ← htail]
        exact (hline _ hrest).bind fun right u s₃ hright hs₃ => .ok ⟨hcmd, hright⟩ hs₃
      · rw [if_neg hstarts, if_neg hstarts, ← hlex]
        exact .ok hcmd hs'
    · unfold parsepipe Toks.pipe
      refine (hexec s hs).bind fun cmd t s₁ hcmd hs₁ => ?_
      obtain ⟨s', hpeek, hlex, hs'⟩ := peek_eq [ascii '|'] (by decide) hs₁
      simp only [hpeek]
      by_cases hstarts : starts [ascii '|'] (lex s₁) = true
      · obtain ⟨htail, hrest⟩ := gettoken_tail hs' (by rw [hlex]; exact hstarts) (by decide)
        rw [if_pos hstarts, if_pos hstarts, ← hlex, ← htail]
        exact (hpipe _ hrest).bind fun right u s₃ hright hs₃ => .ok ⟨hcmd, hright⟩ hs₃
      · rw [if_neg hstarts, if_neg hstarts, ← hlex]
        exact .ok hcmd hs'
    · unfold parseblock Toks.block
      obtain ⟨s', hpeek, hlex, hs'⟩ := peek_eq [ascii '('] (by decide) hs
      simp only [hpeek]
      by_cases hstarts : starts [ascii '('] (lex s) = true
      · obtain ⟨htail, hrest⟩ := gettoken_tail hs' (by rw [hlex]; exact hstarts) (by decide)
        rw [if_neg (not_not.mpr hstarts), if_neg (not_not.mpr hstarts), ← hlex, ← htail]
        refine (hline _ hrest).bind fun cmd t s₁ hcmd hs₁ => ?_
        obtain ⟨s'', hpeek, hlex, hs''⟩ := peek_eq [ascii ')'] (by decide) hs₁
        simp only [hpeek]
        by_cases hstarts : starts [ascii ')'] (lex s₁) = true
        · obtain ⟨htail, hrest⟩ := gettoken_tail hs'' (by rw [hlex]; exact hstarts) (by decide)
          rw [if_neg (not_not.mpr hstarts), if_neg (not_not.mpr hstarts), ← hlex, ← htail]
          exact (redirs_simulates hrest n).bind fun rs xs s₂ hrs hs₂ => .ok (matches_wrap hrs hcmd) hs₂
        · rw [if_pos hstarts, if_pos hstarts]
          exact .error _
      · rw [if_pos hstarts, if_pos hstarts]
        exact .error _
    · unfold parseexec Toks.exec
      obtain ⟨s', hpeek, hlex, hs'⟩ := peek_eq [ascii '('] (by decide) hs
      simp only [hpeek]
      by_cases hstarts : starts [ascii '('] (lex s) = true
      · rw [if_pos hstarts, if_pos hstarts, ← hlex]
        exact hblock s' hs'
      · rw [if_neg hstarts, if_neg hstarts, ← hlex]
        refine (redirs_simulates hs' n).bind fun rs xs s₁ hrs hs₁ => ?_
        refine (args_simulates hs₁ n .nil hrs).bind fun a b s₂ hab hs₂ => ?_
        have hexec : Matches line (.exec a.1) (.exec b.1) := hab.1
        exact .ok (matches_wrap hab.2 hexec) hs₂

end Simulation

/-! ### Strings -/

/-- The memory holds the string `w` at `q`: its characters and a NUL. -/
structure IsString (buf : Nat → Byte) (q : Nat) (w : List Byte) : Prop where
  chars : ∀ i (h : i < w.length), buf (q + i) = w[i]
  nonzero : ∀ c ∈ w, c ≠ 0
  nul : buf (q + w.length) = 0

/-- The command has the shape of the tree, and its strings are the words of the tree. -/
def Holds (buf : Nat → Byte) : Cmd → Tree → Prop
  | .exec argv, .exec ws => List.Forall₂ (fun arg w => IsString buf arg.1 w) argv ws
  | .redir cmd r, .redir t op file => Holds buf cmd t ∧ r = redirOf op.code r.file r.efile ∧ IsString buf r.file file
  | .pipe left right, .pipe t u => Holds buf left t ∧ Holds buf right u
  | .list left right, .list t u => Holds buf left t ∧ Holds buf right u
  | .back cmd, .back t => Holds buf cmd t
  | _, _ => False

/-- The places that `nulterminate` overwrites. -/
def Cmd.ends : Cmd → List Nat
  | .exec argv => argv.map (·.2)
  | .redir cmd r => r.efile :: cmd.ends
  | .pipe left right => left.ends ++ right.ends
  | .list left right => left.ends ++ right.ends
  | .back cmd => cmd.ends

section Strings
variable {line : List Byte} {cmd : Cmd} {t : Tree} {ends : List Nat}

theorem terminate_eq (argv : List (Nat × Nat)) (buf : Nat → Byte) (i : Nat) :
    argv.foldl (fun buf arg => Function.update buf arg.2 0) buf i = if i ∈ argv.map (·.2) then 0 else buf i := by
  induction argv generalizing buf with
  | nil => rfl
  | cons arg argv ih =>
    rw [List.foldl_cons, ih]
    by_cases hi : i = arg.2
    · simp [hi]
    · rw [Function.update_of_ne hi]
      exact if_congr (by simp [hi]) rfl rfl

theorem nulterminate_eq (cmd : Cmd) (buf : Nat → Byte) (i : Nat) :
    nulterminate cmd buf i = if i ∈ cmd.ends then 0 else buf i := by
  induction cmd generalizing buf with
  | exec argv => exact terminate_eq argv buf i
  | redir cmd r ih =>
    simp only [nulterminate, Cmd.ends, Function.update_apply, ih, List.mem_cons]
    by_cases hi : i = r.efile <;> simp [hi]
  | pipe left right ihl ihr | list left right ihl ihr =>
    simp only [nulterminate, Cmd.ends, ihr, ihl, List.mem_append]
    by_cases hl : i ∈ left.ends <;> by_cases hr : i ∈ right.ends <;> simp [hl, hr]
  | back cmd ih => exact ih buf

def Between (line : List Byte) (ends : List Nat) : Prop := ∀ z ∈ ends, ∀ c ∈ (line)[z]?, isWord c = false

theorem Between.append {ends' : List Nat} (h : Between line ends) (h' : Between line ends') :
    Between line (ends ++ ends') := by
  intro z hz
  rcases List.mem_append.mp hz with hz | hz
  · exact h z hz
  · exact h' z hz

def cut (line : List Byte) (ends : List Nat) (i : Nat) : Byte := if i ∈ ends then 0 else memOf line i

end Strings

/-! ### The theorem -/

end Xv6.Sh
