import Xv6.Sh.Parse

/-! The tokens of a line, and what `gettoken` and `peek` have to do with them: both only depend on the tokens of what is
    left of the line, and a word is stored as the place in the line where it stands. -/

namespace Xv6.Sh

inductive Tok
  | sym (c : Byte)
  /-- `>>` -/
  | append
  | word (w : List Byte)
  deriving DecidableEq

/-- The tokens of a line. -/
def lex : List Byte → List Tok
  | [] => []
  | c :: s =>
    if isSpace c then lex s
    else if isWord c then .word (c :: s.takeWhile isWord) :: lex (s.dropWhile isWord)
    else if c = ascii '>' ∧ s.head? = some (ascii '>') then .append :: lex s.tail
    else .sym c :: lex s
termination_by s => s.length
decreasing_by
  · simp
  · exact Nat.lt_succ_of_le (List.dropWhile_sublist _).length_le
  · simp only [List.length_tail, List.length_cons]; omega
  · simp

/-- The first token is a symbol that starts with one of the characters. -/
def starts (toks : List Byte) : List Tok → Bool
  | .sym c :: _ => toks.contains c
  | .append :: _ => toks.contains (ascii '>')
  | _ => false

/-- The place `arg` of the line holds the word `w`, and no longer one. -/
structure Spells (line : List Byte) (arg : Nat × Nat) (w : List Byte) : Prop where
  here : line.drop arg.1 = w ++ line.drop arg.2
  length : arg.2 = arg.1 + w.length
  word : ∀ c ∈ w, isWord c = true
  last : ∀ c ∈ (line)[arg.2]?, isWord c = false

/-- What a call of `gettoken` finds. -/
inductive Lexed (line s : List Byte) (tok : Token) : Prop
  | eof (hlex : lex s = []) (hret : tok.ret = 0) (hrest : tok.rest = [])
  | sym (c : Byte) (hc : c ∈ symbols) (hlex : lex s = .sym c :: lex tok.rest) (hret : tok.ret = c)
    (hrest : tok.rest <:+ line)
  | append (hlex : lex s = .append :: lex tok.rest) (hret : tok.ret = ascii '+') (hrest : tok.rest <:+ line)
  | word (w : List Byte) (hlex : lex s = .word w :: lex tok.rest) (hret : tok.ret = ascii 'a') (hrest : tok.rest <:+ line)
      (hw : Spells line (tok.q, tok.eq) w)

section Tokens
variable {line s : List Byte} {c : Byte}

theorem lex_space (h : isSpace c = true) : lex (c :: s) = lex s := by
  rw [lex, if_pos h]

theorem lex_dropSpace (s : List Byte) : lex (s.dropWhile isSpace) = lex s := by
  induction s with
  | nil => rfl
  | cons c s ih =>
    by_cases h : isSpace c = true
    · rw [List.dropWhile_cons_of_pos h, ih, lex_space h]
    · rw [List.dropWhile_cons_of_neg h]

theorem dropSpace_cons (h : s.dropWhile isSpace = c :: line) : isSpace c = false := by
  have hhead := List.head_dropWhile_not (p := isSpace) (l := s) (by rw [h]; simp)
  simpa [h] using hhead

theorem isWord_iff : isWord c = true ↔ isSpace c = false ∧ c ∉ symbols := by
  simp [isWord, isSpace]

theorem peek_fst {toks : List Byte} (htoks : toks ⊆ symbols) (s : List Byte) : (peek s toks).1 = starts toks (lex s) := by
  rw [← lex_dropSpace s]
  unfold peek
  cases h : s.dropWhile isSpace with
  | nil => simp [lex, starts]
  | cons c t =>
    have hc := dropSpace_cons h
    have hspace : ¬isSpace c = true := by simp [hc]
    rw [lex, if_neg hspace]
    dsimp only
    split_ifs with hw hgt
    · -- A word does not start with a symbol.
      have hnot : c ∉ toks := fun hmem => (isWord_iff.mp hw).2 (htoks hmem)
      simp [starts, hnot]
    · rw [hgt.1]
      rfl
    · rfl

theorem single_of_symbol (hc : c ∈ symbols) (hgt : c ≠ ascii '>') :
    [ascii '|', ascii '(', ascii ')', ascii ';', ascii '&', ascii '<'].contains c = true := by
  simp only [symbols, List.mem_cons, List.not_mem_nil, or_false] at hc
  simp only [List.contains_eq_mem, List.mem_cons, List.not_mem_nil, or_false, decide_eq_true_eq]
  grind

theorem not_single_of_word (hc : isWord c = true) :
    [ascii '|', ascii '(', ascii ')', ascii ';', ascii '&', ascii '<'].contains c = false ∧ c ≠ ascii '>' := by
  have hsym := (isWord_iff.mp hc).2
  simp only [symbols, List.mem_cons, List.not_mem_nil, or_false] at hsym
  simp only [List.contains_eq_mem, List.mem_cons, List.not_mem_nil, or_false, decide_eq_false_iff_not]
  grind

theorem not_single_gt : [ascii '|', ascii '(', ascii ')', ascii ';', ascii '&', ascii '<'].contains (ascii '>') =
    false := by
  decide

theorem spells_front {t : List Byte} (ht : c :: t <:+ line) (hc : isWord c = true) :
    Spells line (line.length - (c :: t).length, line.length - (t.dropWhile isWord).length) (c :: t.takeWhile isWord) := by
  have hrest : t.dropWhile isWord <:+ line := (List.dropWhile_suffix _).trans ((List.suffix_cons c t).trans ht)
  have hdrop := List.suffix_iff_eq_drop.mp ht
  have hdrop' := List.suffix_iff_eq_drop.mp hrest
  have hsplit : c :: t = (c :: t.takeWhile isWord) ++ t.dropWhile isWord := by
    rw [List.cons_append, List.takeWhile_append_dropWhile]
  refine ⟨?_, ?_, ?_, ?_⟩
  · dsimp only
    rw [← hdrop, ← hdrop', ← hsplit]
  · have hlen := congrArg List.length hsplit
    have hle := ht.length_le
    rw [List.length_append] at hlen
    dsimp only
    omega
  · intro x hx
    rcases List.mem_cons.mp hx with rfl | hx
    · exact hc
    · exact List.all_eq_true.mp List.all_takeWhile x hx
  · intro x hx
    dsimp only at hx
    rw [← List.head?_drop, ← hdrop'] at hx
    have hne : t.dropWhile isWord ≠ [] := by
      intro hnil
      rw [hnil] at hx
      cases hx
    have hhead := List.head_dropWhile_not (p := isWord) (l := t) hne
    rw [List.head?_eq_some_head hne] at hx
    rw [← Option.some.inj hx]
    exact hhead

theorem gettoken_lexed (hs : s <:+ line) : Lexed line s (gettoken line.length s) := by
  have hsuffix : s.dropWhile isSpace <:+ line := (List.dropWhile_suffix _).trans hs
  have hrest {u : List Byte} (hu : u <:+ line) : u.dropWhile isSpace <:+ line := (List.dropWhile_suffix _).trans hu
  have hlex := lex_dropSpace s
  cases h : s.dropWhile isSpace with
  | nil =>
    simp only [gettoken, h]
    rw [h, lex] at hlex
    exact .eof hlex.symm rfl rfl
  | cons c t =>
    rw [h] at hlex hsuffix
    have hspace : ¬isSpace c = true := by simp [dropSpace_cons h]
    have ht : t <:+ line := (List.suffix_cons c t).trans hsuffix
    rw [lex, if_neg hspace] at hlex
    by_cases hword : isWord c = true
    · obtain ⟨hsingle, hgt⟩ := not_single_of_word hword
      simp only [gettoken, h, hsingle, Bool.false_eq_true, if_false, if_neg hgt, List.dropWhile_cons_of_pos hword]
      rw [if_pos hword] at hlex
      exact .word _ (by rw [← hlex, lex_dropSpace]) rfl (hrest ((List.dropWhile_suffix _).trans ht))
        (spells_front hsuffix hword)
    · rw [if_neg hword] at hlex
      have hsym : c ∈ symbols := by
        by_contra hc
        exact hword (isWord_iff.mpr ⟨by simpa using hspace, hc⟩)
      by_cases hgt : c = ascii '>'
      · subst hgt
        simp only [gettoken, h, not_single_gt, Bool.false_eq_true, if_false, if_true]
        cases t with
        | nil =>
          rw [if_neg (by simp)] at hlex
          exact .sym _ hsym (by rw [← hlex, lex_dropSpace]) rfl (hrest ht)
        | cons d u =>
          have hu : u <:+ line := (List.suffix_cons d u).trans ht
          dsimp only
          by_cases hd : d = ascii '>'
          · rw [if_pos (by simp [hd])] at hlex
            simp only [if_pos hd]
            exact .append (by rw [← hlex, lex_dropSpace]; rfl) rfl (hrest hu)
          · rw [if_neg (by simp [hd])] at hlex
            simp only [if_neg hd]
            exact .sym _ hsym (by rw [← hlex, lex_dropSpace]) rfl (hrest ht)
      · simp only [gettoken, h, single_of_symbol hsym hgt, if_true]
        rw [if_neg (by simp [hgt])] at hlex
        exact .sym c hsym (by rw [← hlex, lex_dropSpace]) rfl (hrest ht)

end Tokens

end Xv6.Sh
