import Mathlib.Computability.Language
import Mathlib.Data.List.TakeWhile
import Xv6.Grep

/-! What `grep` matches and what it writes. The matcher decides the language of its pattern. Of the input, what stays in
    the buffer after a read is the line that has begun, but only if there was the end of another line before it. -/

namespace Xv6.Grep
open Computability

/-! ### The language of a pattern -/

def atom (c : Byte) : Language Byte := {w | ∃ t, w = [t] ∧ (c = dot ∨ c = t)}

/-- The language of a pattern without its anchors. -/
def language : List Byte → Language Byte
  | [] => 1
  | [c] => atom c * 1
  | c :: d :: re => if d = star then (atom c)∗ * language re else atom c * language (d :: re)

def anchoredStart (re : List Byte) : Prop := re.head? = some caret

def anchoredEnd (re : List Byte) : Prop := re.getLast? = some dollar

instance (re : List Byte) : Decidable (anchoredEnd re) := inferInstanceAs (Decidable (_ = _))

def body (re : List Byte) : List Byte := if anchoredEnd re then re.dropLast else re

/-- The text begins with a word of the language, which is all of it if the pattern is anchored at the end. -/
def Here (re text : List Byte) : Prop :=
  ∃ word post, text = word ++ post ∧ word ∈ language (body re) ∧ (anchoredEnd re → post = [])

/-- Some part of the text is in the language of the pattern. -/
def Matches (re text : List Byte) : Prop :=
  ∃ pre word post, text = pre ++ word ++ post ∧
    (anchoredStart re → pre = []) ∧
    word ∈ language (body (if re.head? = some caret then re.tail else re)) ∧
    (anchoredEnd (if re.head? = some caret then re.tail else re) → post = [])

section
variable {c d : Byte} {re text w : List Byte}

theorem language_star : language (c :: star :: re) = (atom c)∗ * language re := by rw [language, if_pos rfl]

theorem language_cons (h : re.head? ≠ some star) : language (c :: re) = atom c * language re := by
  cases re with
  | nil => rfl
  | cons d re => rw [language, if_neg fun hd => h (by rw [hd, List.head?_cons])]

theorem anchoredEnd_cons (h : re ≠ []) : anchoredEnd (c :: re) ↔ anchoredEnd re := by
  obtain ⟨d, re, rfl⟩ := List.exists_cons_of_ne_nil h
  rw [anchoredEnd, List.getLast?_cons_cons, anchoredEnd]

theorem body_cons (h : re ≠ []) : body (c :: re) = c :: body re := by
  by_cases hend : anchoredEnd re
  · rw [body, if_pos ((anchoredEnd_cons h).mpr hend), body, if_pos hend, List.dropLast_cons_of_ne_nil h]
  · rw [body, if_neg (fun hc => hend ((anchoredEnd_cons h).mp hc)), body, if_neg hend]

theorem not_anchoredEnd_star : ¬anchoredEnd [star] := by decide

theorem anchoredEnd_star : anchoredEnd (c :: star :: re) ↔ anchoredEnd re := by
  rw [anchoredEnd_cons (List.cons_ne_nil _ _)]
  cases re with
  | nil => exact iff_of_false not_anchoredEnd_star (by simp [anchoredEnd])
  | cons d re => exact anchoredEnd_cons (List.cons_ne_nil _ _)

theorem body_star : body (c :: star :: re) = c :: star :: body re := by
  rw [body_cons (List.cons_ne_nil _ _)]
  cases re with
  | nil => rfl
  | cons d re => rw [body_cons (List.cons_ne_nil _ _)]

theorem body_head (h : re.head? ≠ some star) : (body re).head? ≠ some star := by
  rw [body]
  split
  · cases re with
    | nil => exact h
    | cons d re =>
      cases re with
      | nil => simp
      | cons e re => simpa using h
  · exact h

theorem mem_atom {t : Byte} : [t] ∈ atom c ↔ c = dot ∨ c = t := by
  constructor
  · rintro ⟨t', ht, h⟩
    cases ht
    exact h
  · exact fun h => ⟨t, rfl, h⟩

theorem nil_mem_kstar_atom : [] ∈ (atom c)∗ := Language.nil_mem_kstar _

theorem cons_mem_kstar_atom {t : Byte} : t :: w ∈ (atom c)∗ ↔ (c = dot ∨ c = t) ∧ w ∈ (atom c)∗ := by
  constructor
  · intro h
    obtain ⟨L, hL, hmem⟩ := Language.mem_kstar_iff_exists_nonempty.mp h
    cases L with
    | nil => cases hL
    | cons x L =>
      obtain ⟨t', rfl, hc⟩ := (hmem x List.mem_cons_self).1
      rw [List.flatten_cons, List.singleton_append] at hL
      cases hL
      exact ⟨hc, Language.join_mem_kstar fun y hy => (hmem y (List.mem_cons_of_mem _ hy)).1⟩
  · rintro ⟨hc, hw⟩
    obtain ⟨L, rfl, hmem⟩ := Language.mem_kstar.mp hw
    refine Language.mem_kstar.mpr ⟨[t] :: L, rfl, fun y hy => ?_⟩
    rcases List.mem_cons.mp hy with rfl | hy
    · exact mem_atom.mpr hc
    · exact hmem y hy

/-! ### The matcher -/

theorem matchstar_iff :
    matchstar c re text = true ↔ ∃ w rest, text = w ++ rest ∧ w ∈ (atom c)∗ ∧ matchhere re rest = true := by
  induction text with
  | nil =>
    rw [matchstar]
    constructor
    · intro h
      split at h
      · rename_i hm
        exact ⟨[], [], rfl, nil_mem_kstar_atom, hm⟩
      · cases h
    · rintro ⟨w, rest, h, -, hm⟩
      obtain ⟨rfl, rfl⟩ := List.append_eq_nil_iff.mp h.symm
      rw [if_pos hm]
  | cons t text ih =>
    rw [matchstar]
    constructor
    · intro h
      split at h
      · rename_i hm
        exact ⟨[], t :: text, rfl, nil_mem_kstar_atom, hm⟩
      · split at h
        · rename_i hc
          obtain ⟨w, rest, rfl, hw, hm⟩ := ih.mp h
          exact ⟨t :: w, rest, rfl, cons_mem_kstar_atom.mpr ⟨hc.symm.imp id Eq.symm, hw⟩, hm⟩
        · cases h
    · rintro ⟨w, rest, h, hw, hm⟩
      split
      · rfl
      · rename_i hno
        cases w with
        | nil =>
          rw [List.nil_append] at h
          exact absurd (h ▸ hm) hno
        | cons t' w =>
          cases h
          obtain ⟨hc, hw⟩ := cons_mem_kstar_atom.mp hw
          rw [if_pos (hc.symm.imp Eq.symm id)]
          exact ih.mpr ⟨w, rest, rfl, hw, hm⟩

theorem here_star : Here (c :: star :: re) text ↔ ∃ w rest, text = w ++ rest ∧ w ∈ (atom c)∗ ∧ Here re rest := by
  simp only [Here, body_star, language_star, anchoredEnd_star]
  constructor
  · rintro ⟨word, post, rfl, hword, hend⟩
    obtain ⟨a, ha, b, hb, rfl⟩ := Language.mem_mul.mp hword
    exact ⟨a, b ++ post, List.append_assoc .., ha, b, post, rfl, hb, hend⟩
  · rintro ⟨a, rest, rfl, ha, b, post, rfl, hb, hend⟩
    exact ⟨a ++ b, post, (List.append_assoc ..).symm, Language.append_mem_mul ha hb, hend⟩

theorem here_dollar : Here [dollar] text ↔ text = [] := by
  have hend : anchoredEnd [dollar] := rfl
  have hbody : body [dollar] = [] := rfl
  simp only [Here, hbody, language, hend, forall_const]
  constructor
  · rintro ⟨word, post, rfl, hword, rfl⟩
    rw [(Language.mem_one _).mp hword, List.append_nil]
  · rintro rfl
    exact ⟨[], [], rfl, (Language.mem_one _).mpr rfl, rfl⟩

theorem here_cons (hstar : re.head? ≠ some star) (hdollar : ¬(c = dollar ∧ re = [])) :
    Here (c :: re) text ↔ ∃ t rest, text = t :: rest ∧ (c = dot ∨ c = t) ∧ Here re rest := by
  have hbody : body (c :: re) = c :: body re := by
    cases re with
    | nil =>
      have hc : c ≠ dollar := fun h => hdollar ⟨h, rfl⟩
      rw [body, if_neg (by simpa [anchoredEnd] using hc)]
      rfl
    | cons d re => exact body_cons (List.cons_ne_nil _ _)
  have hend : anchoredEnd (c :: re) ↔ anchoredEnd re := by
    cases re with
    | nil => simpa [anchoredEnd] using hdollar
    | cons d re => exact anchoredEnd_cons (List.cons_ne_nil _ _)
  simp only [Here, hbody, language_cons (body_head hstar), hend]
  constructor
  · rintro ⟨word, post, rfl, hword, hpost⟩
    obtain ⟨a, ⟨t, rfl, hc⟩, b, hb, rfl⟩ := Language.mem_mul.mp hword
    exact ⟨t, b ++ post, rfl, hc, b, post, rfl, hb, hpost⟩
  · rintro ⟨t, rest, rfl, hc, b, post, rfl, hb, hpost⟩
    exact ⟨[t] ++ b, post, rfl, Language.append_mem_mul (mem_atom.mpr hc) hb, hpost⟩

theorem matchhere_iff (re text : List Byte) : matchhere re text = true ↔ Here re text := by
  match re with
  | [] =>
    rw [matchhere]
    exact iff_of_true rfl ⟨[], text, rfl, (Language.mem_one _).mpr rfl, fun h => by cases h⟩
  | c :: re =>
    rw [matchhere.eq_def]
    dsimp only
    by_cases hstar : re.head? = some star
    · obtain ⟨re, rfl⟩ := List.head?_eq_some_iff.mp hstar
      rw [if_pos hstar, List.tail_cons, matchstar_iff, here_star]
      simp only [matchhere_iff re]
    · rw [if_neg hstar]
      by_cases hdollar : c = dollar ∧ re = []
      · obtain ⟨rfl, rfl⟩ := hdollar
        rw [if_pos ⟨rfl, rfl⟩, here_dollar, decide_eq_true_iff]
      · rw [if_neg hdollar, here_cons hstar hdollar]
        cases text with
        | nil => simp
        | cons t text => simp [matchhere_iff re text]
termination_by re.length

theorem matchLoop_iff : matchLoop re text = true ↔ ∃ pre rest, text = pre ++ rest ∧ Here re rest := by
  induction text with
  | nil =>
    rw [matchLoop, matchhere_iff]
    constructor
    · exact fun h => ⟨[], [], rfl, h⟩
    · rintro ⟨pre, rest, h, hr⟩
      obtain ⟨rfl, rfl⟩ := List.append_eq_nil_iff.mp h.symm
      exact hr
  | cons t text ih =>
    rw [matchLoop]
    constructor
    · intro h
      split at h
      · rename_i hm
        exact ⟨[], t :: text, rfl, (matchhere_iff ..).mp hm⟩
      · obtain ⟨pre, rest, rfl, hr⟩ := ih.mp h
        exact ⟨t :: pre, rest, rfl, hr⟩
    · rintro ⟨pre, rest, h, hr⟩
      cases pre with
      | nil =>
        rw [List.nil_append] at h
        rw [if_pos ((matchhere_iff ..).mpr (h ▸ hr))]
      | cons t' pre =>
        cases h
        rw [ih.mpr ⟨pre, rest, rfl, hr⟩, ite_self]

/-- The matcher decides the language of the pattern. -/
theorem matchText_decides (re text : List Byte) : matchText re text = true ↔ Matches re text := by
  have hsome (h : re.head? ≠ some caret) : matchText re text = matchLoop re text := by
    cases re with
    | nil => rfl
    | cons c re => exact if_neg fun hc => h (by rw [hc, List.head?_cons])
  by_cases hstart : re.head? = some caret
  · obtain ⟨re, rfl⟩ := List.head?_eq_some_iff.mp hstart
    rw [matchText, if_pos rfl, matchhere_iff, Matches, if_pos hstart]
    constructor
    · rintro ⟨word, post, rfl, hword, hend⟩
      exact ⟨[], word, post, rfl, fun _ => rfl, hword, hend⟩
    · rintro ⟨pre, word, post, rfl, hpre, hword, hend⟩
      rw [hpre hstart]
      exact ⟨word, post, rfl, hword, hend⟩
  · rw [hsome hstart, matchLoop_iff, Matches, if_neg hstart]
    constructor
    · rintro ⟨pre, rest, rfl, word, post, rfl, hword, hend⟩
      exact ⟨pre, word, post, (List.append_assoc ..).symm, fun h => absurd h hstart, hword, hend⟩
    · rintro ⟨pre, word, post, rfl, -, hword, hend⟩
      exact ⟨pre, word ++ post, List.append_assoc .., word, post, rfl, hword, hend⟩

end

/-! ### The lines -/

/-- The lines of the input that end with a newline, without it. -/
def lines (input : List Byte) : List (List Byte) := (input.splitOn newline).dropLast

def lastLine (input : List Byte) : List Byte := (input.splitOn newline).getLast?.getD []

/-- The lines that match, with their newlines. -/
def selected (pattern : List Byte) (ls : List (List Byte)) : List Byte :=
  (ls.filter (matchText pattern)).flatMap (· ++ [newline])

/-- Every piece that a newline comes behind has a newline itself. -/
def Whole : List (List Byte) → Prop
  | [] => True
  | piece :: pieces => (newline ∈ pieces.flatten → newline ∈ piece) ∧ Whole pieces

instance : (pieces : List (List Byte)) → Decidable (Whole pieces)
  | [] => .isTrue trivial
  | _ :: pieces => @instDecidableAnd _ _ _ (instDecidableWhole pieces)

section
variable {pattern a b : List Byte}

theorem beq_newline (ha : newline ∉ a) : ∀ x ∈ a, (x == newline) = false := by
  intro x hx
  rw [beq_eq_false_iff_ne]
  rintro rfl
  exact ha hx

theorem splitOn_cut (b : List Byte) (ha : newline ∉ a) : (a ++ newline :: b).splitOn newline = a :: b.splitOn newline :=
  List.splitOnP_append_cons_of_forall_mem (beq_newline ha) newline (beq_self_eq_true _) b

theorem splitOn_of_notMem (ha : newline ∉ a) : a.splitOn newline = [a] := List.splitOnP_eq_singleton (beq_newline ha)

theorem lines_cut (b : List Byte) (ha : newline ∉ a) : lines (a ++ newline :: b) = a :: lines b := by
  rw [lines, splitOn_cut b ha, lines]
  exact List.dropLast_cons_of_ne_nil (List.splitOnP_ne_nil _ _)

theorem lastLine_cut (b : List Byte) (ha : newline ∉ a) : lastLine (a ++ newline :: b) = lastLine b := by
  obtain ⟨x, xs, hx⟩ := List.exists_cons_of_ne_nil (List.splitOnP_ne_nil (· == newline) b)
  rw [lastLine, splitOn_cut b ha, lastLine, List.splitOn, hx, List.getLast?_cons_cons]

theorem lines_of_notMem (ha : newline ∉ a) : lines a = [] := by rw [lines, splitOn_of_notMem ha]; rfl

theorem lastLine_of_notMem (ha : newline ∉ a) : lastLine a = a := by rw [lastLine, splitOn_of_notMem ha]; rfl

theorem exists_cut (h : newline ∈ a) : ∃ x y, newline ∉ x ∧ a = x ++ newline :: y := by
  obtain ⟨x, y, rfl, hx⟩ := List.eq_append_cons_of_mem h
  exact ⟨x, y, hx, rfl⟩

@[elab_as_elim]
theorem line_induction {P : List Byte → Prop} (last : ∀ a, newline ∉ a → P a)
    (line : ∀ a b, newline ∉ a → P b → P (a ++ newline :: b)) (a : List Byte) : P a := by
  by_cases h : newline ∈ a
  · obtain ⟨x, y, hx, rfl⟩ := exists_cut h
    exact line x y hx (line_induction last line y)
  · exact last a h
termination_by a.length
decreasing_by
  subst a
  simp only [List.length_append, List.length_cons]
  omega

theorem newline_notMem_lastLine (a : List Byte) : newline ∉ lastLine a := by
  induction a using line_induction with
  | last a h => rwa [lastLine_of_notMem h]
  | line a b h ih => rwa [lastLine_cut b h]

theorem lines_append (a b : List Byte) : lines (a ++ b) = lines a ++ lines (lastLine a ++ b) := by
  induction a using line_induction with
  | last a h => rw [lines_of_notMem h, lastLine_of_notMem h, List.nil_append]
  | line a a' h ih =>
    rw [List.append_assoc, List.cons_append, lines_cut _ h, ih, lines_cut _ h, lastLine_cut _ h, List.cons_append]

theorem lastLine_suffix (a : List Byte) : lastLine a <:+ a := by
  induction a using line_induction with
  | last a h => rw [lastLine_of_notMem h]
  | line a b h ih =>
    rw [lastLine_cut b h]
    exact (ih.trans (List.suffix_cons ..)).trans (List.suffix_append ..)

theorem lastLine_length_lt (h : newline ∈ a) : (lastLine a).length < a.length := by
  obtain ⟨x, y, hx, rfl⟩ := exists_cut h
  rw [lastLine_cut y hx]
  have hle := (lastLine_suffix y).length_le
  simp only [List.length_append, List.length_cons]
  omega

theorem cstring_eq (h : (0 : Byte) ∉ a) : cstring a = a := by
  refine List.takeWhile_eq_self_iff.mpr fun x hx => ?_
  rw [decide_eq_true_iff]
  rintro rfl
  exact h hx

theorem strchr_none (h : (0 : Byte) ∉ a) (hq : strchr a newline = none) : newline ∉ a := by
  intro hmem
  rw [strchr, cstring_eq h, List.findIdx?_eq_none_iff] at hq
  simpa using hq newline hmem

theorem strchr_some {q : Nat} (h : (0 : Byte) ∉ a) (hq : strchr a newline = some q) :
    newline ∉ a.take q ∧ a = a.take q ++ newline :: a.drop (q + 1) := by
  rw [strchr, cstring_eq h, List.findIdx?_eq_some_iff_getElem] at hq
  obtain ⟨hlt, hat, hbefore⟩ := hq
  have hnl : a[q] = newline := by simpa using hat
  constructor
  · intro hmem
    obtain ⟨j, hj, hj'⟩ := List.mem_take_iff_getElem.mp hmem
    exact absurd (decide_eq_true hj') (hbefore j (by omega))
  · rw [← hnl, ← List.drop_eq_getElem_cons hlt, List.take_append_drop]

theorem selected_cons (l : List Byte) (ls : List (List Byte)) :
    selected pattern (l :: ls) = (if matchText pattern l then l ++ [newline] else []) ++ selected pattern ls := by
  by_cases hm : matchText pattern l = true
  · rw [if_pos hm, selected, List.filter_cons_of_pos hm, List.flatMap_cons, selected]
  · rw [if_neg hm, selected, List.filter_cons_of_neg hm, selected, List.nil_append]

theorem scan_eq (p : List Byte) (h : (0 : Byte) ∉ p) : scan pattern p = (selected pattern (lines p), lastLine p) := by
  induction hn : p.length using Nat.strong_induction_on generalizing p with | h n ih =>
  subst hn
  rw [scan]
  split
  · rename_i hq
    have hno := strchr_none h hq
    rw [lines_of_notMem hno, lastLine_of_notMem hno]
    rfl
  · rename_i q hq
    obtain ⟨hno, hp⟩ := strchr_some h hq
    have hrest : (0 : Byte) ∉ p.drop (q + 1) := fun hx => h (List.mem_of_mem_drop hx)
    have hline : (0 : Byte) ∉ p.take q := fun hx => h (List.mem_of_mem_take hx)
    have hlen := strchr_lt hq
    have htake : p.take (q + 1) = p.take q ++ [newline] := by
      conv_lhs => rw [hp]
      rw [List.take_append, List.take_of_length_le (by rw [List.length_take]; omega), List.length_take,
        Nat.min_eq_left (by omega), Nat.add_sub_cancel_left]
      rfl
    have hlines : lines p = p.take q :: lines (p.drop (q + 1)) := by
      conv_lhs => rw [hp]
      exact lines_cut _ hno
    have hlast : lastLine p = lastLine (p.drop (q + 1)) := by
      conv_lhs => rw [hp]
      exact lastLine_cut _ hno
    dsimp only
    rw [ih _ (by rw [List.length_drop]; omega) _ hrest rfl, hlines, hlast, cstring_eq hline, htake, selected_cons]

theorem carry_lastLine (buf : List Byte) : carry buf (lastLine buf) = if newline ∈ buf then lastLine buf else [] := by
  rw [carry]
  by_cases h : newline ∈ buf
  · rw [if_pos h, if_neg (Nat.ne_of_lt (lastLine_length_lt h))]
  · rw [if_neg h, if_pos (by rw [lastLine_of_notMem h])]

theorem selected_append (ls ls' : List (List Byte)) :
    selected pattern (ls ++ ls') = selected pattern ls ++ selected pattern ls' := by
  rw [selected, List.filter_append, List.flatMap_append, selected, selected]

theorem grep_cons {held piece : List Byte} (pieces : List (List Byte)) (hnul : (0 : Byte) ∉ held ++ piece) :
    grep pattern held (piece :: pieces) = selected pattern (lines (held ++ piece)) ++
      grep pattern (if newline ∈ held ++ piece then lastLine (held ++ piece) else []) pieces := by
  rw [grep, scan_eq _ hnul]
  dsimp only
  rw [carry_lastLine]

section Pieces
variable {held piece : List Byte} {pieces : List (List Byte)}

theorem notMem_flatten_cons (h : (0 : Byte) ∉ held ++ (piece :: pieces).flatten) :
    (0 : Byte) ∉ held ++ piece ∧ (0 : Byte) ∉ pieces.flatten ∧ (0 : Byte) ∉ lastLine (held ++ piece) ++ pieces.flatten := by
  rw [List.flatten_cons, ← List.append_assoc] at h
  have hbuf : (0 : Byte) ∉ held ++ piece := fun h' => h (List.mem_append_left _ h')
  have hrest : (0 : Byte) ∉ pieces.flatten := fun h' => h (List.mem_append_right _ h')
  exact ⟨hbuf, hrest, List.not_mem_append (fun h' => hbuf ((lastLine_suffix _).mem h')) hrest⟩

theorem grep_eq (hheld : newline ∉ held) (hnul : (0 : Byte) ∉ held ++ pieces.flatten) (hwhole : Whole pieces) :
    grep pattern held pieces = selected pattern (lines (held ++ pieces.flatten)) := by
  induction pieces generalizing held with
  | nil =>
    rw [List.flatten_nil, List.append_nil, lines_of_notMem hheld]
    rfl
  | cons piece pieces ih =>
    obtain ⟨hbuf, hrest, hlast⟩ := notMem_flatten_cons hnul
    rw [grep_cons _ hbuf, List.flatten_cons, ← List.append_assoc]
    by_cases hnl : newline ∈ held ++ piece
    · rw [if_pos hnl, ih (newline_notMem_lastLine _) hlast hwhole.2, lines_append (held ++ piece), selected_append]
    · -- No newline comes any more, so what is given up is no line.
      have hno : newline ∉ pieces.flatten := fun h => hnl (List.mem_append_right _ (hwhole.1 h))
      rw [if_neg hnl, ih (List.not_mem_nil) hrest hwhole.2, List.nil_append, lines_of_notMem hnl, lines_of_notMem hno,
        lines_of_notMem (List.not_mem_append hnl hno)]
      rfl

/-! ### The empty pattern -/

theorem selected_nil (ls : List (List Byte)) : selected [] ls = ls.flatMap (· ++ [newline]) := by
  have hall (l : List Byte) : matchText [] l = true := by
    rw [matchText]
    cases l with
    | nil => rw [matchLoop, matchhere]
    | cons t l => rw [matchLoop, if_pos (by rw [matchhere])]
  rw [selected, List.filter_eq_self.mpr fun l _ => hall l]

theorem length_selected_append (ha : newline ∉ a) (hb : newline ∈ b) :
    (selected [] (lines (a ++ b))).length = a.length + (selected [] (lines b)).length := by
  obtain ⟨x, y, hx, rfl⟩ := exists_cut hb
  rw [← List.append_assoc, lines_cut _ (List.not_mem_append ha hx), lines_cut _ hx, selected_nil, selected_nil]
  simp only [List.flatMap_cons, List.length_append]
  omega

theorem grep_length_le (hheld : newline ∉ held) (hnul : (0 : Byte) ∉ held ++ pieces.flatten) :
    (grep [] held pieces).length ≤ (selected [] (lines (held ++ pieces.flatten))).length := by
  induction pieces generalizing held with
  | nil => exact Nat.zero_le _
  | cons piece pieces ih =>
    obtain ⟨hbuf, hrest, hlast⟩ := notMem_flatten_cons hnul
    rw [grep_cons _ hbuf, List.flatten_cons, ← List.append_assoc]
    by_cases hnl : newline ∈ held ++ piece
    · rw [if_pos hnl, lines_append (held ++ piece), selected_append, List.length_append, List.length_append]
      exact Nat.add_le_add_left (ih (newline_notMem_lastLine _) hlast) _
    · have hle := ih List.not_mem_nil hrest
      rw [if_neg hnl, lines_of_notMem hnl]
      by_cases hno : newline ∈ pieces.flatten
      · rw [length_selected_append hnl hno]
        exact hle.trans (Nat.le_add_left ..)
      · rw [List.nil_append, lines_of_notMem hno] at hle
        exact hle.trans (Nat.zero_le _)

theorem whole_of_notMem (h : newline ∉ pieces.flatten) : Whole pieces := by
  induction pieces with
  | nil => trivial
  | cons piece pieces ih =>
    have hrest : newline ∉ pieces.flatten := fun h' => h (by rw [List.flatten_cons]; exact List.mem_append_right _ h')
    exact ⟨fun h' => absurd h' hrest, ih hrest⟩

theorem whole_of_grep (hheld : newline ∉ held) (hne : [] ∉ pieces) (hnul : (0 : Byte) ∉ held ++ pieces.flatten)
    (h : grep [] held pieces = selected [] (lines (held ++ pieces.flatten))) : Whole pieces := by
  induction pieces generalizing held with
  | nil => trivial
  | cons piece pieces ih =>
    obtain ⟨hbuf, hrest, hlast⟩ := notMem_flatten_cons hnul
    rw [List.mem_cons, not_or] at hne
    rw [grep_cons _ hbuf, List.flatten_cons, ← List.append_assoc] at h
    by_cases hnl : newline ∈ held ++ piece
    · rw [if_pos hnl, lines_append (held ++ piece), selected_append, List.append_cancel_left_eq] at h
      exact ⟨fun _ => (List.mem_append.mp hnl).resolve_left hheld, ih (newline_notMem_lastLine _) hne.2 hlast h⟩
    · by_cases hno : newline ∈ pieces.flatten
      · -- The bytes that are given up are missing in what is written.
        have hle := grep_length_le List.not_mem_nil hrest
        have hpos := List.length_pos_iff.mpr (Ne.symm hne.1)
        have hlen := congrArg List.length h
        rw [if_neg hnl, lines_of_notMem hnl, length_selected_append hnl hno, List.length_append] at hlen
        rw [List.nil_append] at hle
        simp only [selected_nil, List.flatMap_nil, List.length_nil, List.length_append] at hlen hle
        omega
      · exact ⟨fun h' => absurd h' hno, whole_of_notMem hno⟩

/-- For every pattern exactly the lines that match are written, once and in order, if and only if every piece that a
    newline comes behind has one. -/
theorem grep_chunks (hne : [] ∉ pieces) (hnul : (0 : Byte) ∉ pieces.flatten) :
    (∀ pattern, grep pattern [] pieces = selected pattern (lines pieces.flatten)) ↔ Whole pieces :=
  ⟨fun h => whole_of_grep List.not_mem_nil hne hnul (h []), fun h _ => grep_eq List.not_mem_nil hnul h⟩

end Pieces

end

/-- Two lines in two pieces; and a line in two pieces, of which the first has no newline. -/
theorem grep_chunks_two :
    (∀ pattern, grep pattern [] [[ascii 'a', newline, ascii 'b'], [ascii 'b', newline]] =
      selected pattern [[ascii 'a'], [ascii 'b', ascii 'b']]) ∧
    ¬∀ pattern, grep pattern [] [[ascii 'a'], [ascii 'b', newline]] =
      selected pattern (lines [ascii 'a', ascii 'b', newline]) :=
  ⟨(grep_chunks (by decide) (by decide)).mpr (by decide), mt (grep_chunks (by decide) (by decide)).mp (by decide)⟩

/-- A line in two pieces, of which the first has no newline, is written without its first part. -/
theorem grep_loses_begin :
    Served [] [] [[ascii 'a'], [ascii 'b', newline]] ∧ Served [] [] [[ascii 'a', ascii 'b', newline]] ∧
      grep [] [] [[ascii 'a'], [ascii 'b', newline]] = [ascii 'b', newline] ∧
      grep [] [] [[ascii 'a', ascii 'b', newline]] = [ascii 'a', ascii 'b', newline] := by
  have hscan {p : List Byte} (h : (0 : Byte) ∉ p) : scan [] p = ((lines p).flatMap (· ++ [newline]), lastLine p) := by
    rw [scan_eq p h, selected_nil]
  have h1 : scan [] ([] ++ [ascii 'a']) = ([], [ascii 'a']) := (hscan (by decide)).trans (by decide)
  have h2 : scan [] ([] ++ [ascii 'b', newline]) = ([ascii 'b', newline], []) := (hscan (by decide)).trans (by decide)
  have h3 : scan [] ([] ++ [ascii 'a', ascii 'b', newline]) = ([ascii 'a', ascii 'b', newline], []) :=
    (hscan (by decide)).trans (by decide)
  have hcarry : carry ([] ++ [ascii 'a']) [ascii 'a'] = [] := rfl
  simp only [Served, grep, h1, h2, h3, hcarry]
  decide

end Xv6.Grep
