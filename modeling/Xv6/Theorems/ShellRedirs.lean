import Mathlib.Data.List.Induction
import Xv6.Theorems.ShellPipes

/-! Which redirection of a command counts. The parser puts each one around those before it, and `runcmd` opens the outer
    ones first, so that the first one in the line is the last one to be opened. -/

namespace Xv6.Sh
open Lib

/-! ### The order in the line -/

/-- The files of the redirections are between `lo` and `hi`, each behind those that its redirection is put around. -/
def Cmd.Placed : Nat → Nat → Cmd → Prop
  | _, _, .exec _ => True
  | lo, hi, .redir cmd r => cmd.Placed lo r.file ∧ lo ≤ r.file ∧ r.file < hi
  | lo, hi, .pipe left right => left.Placed lo hi ∧ right.Placed lo hi
  | lo, hi, .list left right => left.Placed lo hi ∧ right.Placed lo hi
  | lo, hi, .back cmd => cmd.Placed lo hi

/-- The redirections come one after the other between `lo` and `hi`. -/
structure InLine (lo hi : Nat) (rs : List Redir) : Prop where
  sorted : rs.Pairwise (·.file < ·.file)
  range : ∀ r ∈ rs, lo ≤ r.file ∧ r.file < hi

/-- `c` is a part of the command. -/
inductive Cmd.Within (c : Cmd) : Cmd → Prop
  | refl : c.Within c
  | redir {cmd : Cmd} {r : Redir} (h : c.Within cmd) : c.Within (.redir cmd r)
  | pipeLeft {left right : Cmd} (h : c.Within left) : c.Within (.pipe left right)
  | pipeRight {left right : Cmd} (h : c.Within right) : c.Within (.pipe left right)
  | listLeft {left right : Cmd} (h : c.Within left) : c.Within (.list left right)
  | listRight {left right : Cmd} (h : c.Within right) : c.Within (.list left right)
  | back {cmd : Cmd} (h : c.Within cmd) : c.Within (.back cmd)

section Placed
variable {lo hi mid es n : Nat} {cmd cmd' c : Cmd} {rs rs' : List Redir} {s s' : List Byte} {argv argv' : List (Nat × Nat)}

theorem Cmd.Placed.mono (h : cmd.Placed lo hi) {lo' hi' : Nat} (hlo : lo' ≤ lo) (hhi : hi ≤ hi') : cmd.Placed lo' hi' := by
  induction cmd generalizing hi hi' with
  | exec => trivial
  | redir cmd r ih => exact ⟨ih h.1 (Nat.le_refl _), Nat.le_trans hlo h.2.1, Nat.lt_of_lt_of_le h.2.2 hhi⟩
  | pipe left right ihl ihr | list left right ihl ihr => exact ⟨ihl h.1 hhi, ihr h.2 hhi⟩
  | back cmd ih => exact ih h hhi

theorem Cmd.Placed.within (h : cmd.Placed lo hi) (hc : c.Within cmd) : ∃ lo hi, c.Placed lo hi := by
  induction hc generalizing lo hi with
  | refl => exact ⟨lo, hi, h⟩
  | redir _ ih | pipeLeft _ ih | listLeft _ ih => exact ih h.1
  | pipeRight _ ih | listRight _ ih => exact ih h.2
  | back _ ih => exact ih h

theorem Cmd.Built.within (h : cmd.Built) (hc : c.Within cmd) : c.Built := by
  induction hc with
  | refl => exact h
  | pipeLeft _ ih | listLeft _ ih => exact ih h.1
  | redir _ ih | pipeRight _ ih | listRight _ ih => exact ih h.2
  | back _ ih => exact ih h

theorem InLine.append (h : InLine lo mid rs) (h' : InLine mid hi rs') (hlo : lo ≤ mid) (hhi : mid ≤ hi) :
    InLine lo hi (rs ++ rs') := by
  refine ⟨List.pairwise_append.mpr ⟨h.sorted, h'.sorted, fun r hr r' hr' => ?_⟩, fun r hr => ?_⟩
  · exact Nat.lt_of_lt_of_le (h.range r hr).2 (h'.range r' hr').1
  · rcases List.mem_append.mp hr with hr | hr
    · exact ⟨(h.range r hr).1, Nat.lt_of_lt_of_le (h.range r hr).2 hhi⟩
    · exact ⟨Nat.le_trans hlo (h'.range r hr).1, (h'.range r hr).2⟩

theorem Cmd.Placed.redirs (h : cmd.Placed lo mid) (hrs : InLine mid hi rs) (hlo : lo ≤ mid) (hhi : mid ≤ hi) :
    (rs.foldl .redir cmd).Placed lo hi := by
  induction rs generalizing cmd mid with
  | nil => exact h.mono (Nat.le_refl _) hhi
  | cons r rs ih =>
    obtain ⟨hmid, hr⟩ := hrs.range r List.mem_cons_self
    obtain ⟨hfirst, hsorted⟩ := List.pairwise_cons.mp hrs.sorted
    have hput : (Cmd.redir cmd r).Placed lo (r.file + 1) :=
      ⟨h.mono (Nat.le_refl _) hmid, Nat.le_trans hlo hmid, Nat.lt_succ_self _⟩
    refine ih hput ⟨hsorted, fun r' hr' => ⟨hfirst r' hr', ?_⟩⟩ (by omega) hr
    exact (hrs.range r' (List.mem_cons_of_mem _ hr')).2

theorem Cmd.Placed.sorted (h : (rs.foldl .redir cmd).Placed lo hi) :
    rs.Pairwise (·.file < ·.file) ∧ ∀ r ∈ rs, r.file < hi := by
  induction rs using List.reverseRecOn generalizing hi with
  | nil => exact ⟨.nil, nofun⟩
  | append_singleton rs r ih =>
    rw [List.foldl_append] at h
    obtain ⟨hsorted, hlast⟩ := ih h.1
    refine ⟨List.pairwise_append.mpr ⟨hsorted, List.pairwise_singleton .., fun x hx y hy => ?_⟩, fun x hx => ?_⟩
    · rw [List.mem_singleton.mp hy]
      exact hlast x hx
    · rcases List.mem_append.mp hx with hx | hx
      · exact Nat.lt_trans (hlast x hx) h.2.2
      · rw [List.mem_singleton.mp hx]
        exact h.2.2

theorem Cmd.Built.redirs_fd (h : (rs.foldl .redir cmd).Built) : ∀ r ∈ rs, r.fd < 2 := by
  induction rs using List.reverseRecOn with
  | nil => exact nofun
  | append_singleton rs r ih =>
    rw [List.foldl_append] at h
    intro x hx
    rcases List.mem_append.mp hx with hx | hx
    · exact ih h.2 x hx
    · rw [List.mem_singleton.mp hx]
      exact h.1

/-! ### The parser goes along the line -/

theorem peek_length (s toks : List Byte) : (peek s toks).2.length ≤ s.length := (List.dropWhile_sublist _).length_le

theorem gettoken_consumes (es : Nat) {c : Byte} {t : List Byte} (h : s.dropWhile isSpace = c :: t) :
    (gettoken es s).rest.length ≤ t.length := by
  have hdrop (p : Byte → Bool) (l : List Byte) : (l.dropWhile p).length ≤ l.length := (List.dropWhile_sublist _).length_le
  simp only [gettoken, h]
  refine Nat.le_trans (hdrop isSpace _) ?_
  split_ifs with hc hgt
  · exact Nat.le_refl _
  · cases t with
    | nil => exact Nat.le_refl _
    | cons d u =>
      dsimp only
      split_ifs
      · exact Nat.le_succ _
      · exact Nat.le_refl _
  · have hword : isWord c = true := by
      rw [isWord_iff]
      exact ⟨dropSpace_cons h, fun hsym => hc (single_of_symbol hsym hgt)⟩
    rw [List.dropWhile_cons_of_pos hword]
    exact hdrop isWord t

theorem gettoken_length (es : Nat) (s : List Byte) : (gettoken es s).rest.length ≤ s.length := by
  have hspace : (s.dropWhile isSpace).length ≤ s.length := (List.dropWhile_sublist _).length_le
  cases h : s.dropWhile isSpace with
  | nil => simp [gettoken, h]
  | cons c t =>
    rw [h] at hspace
    exact Nat.le_trans (gettoken_consumes es h) (Nat.le_of_succ_le hspace)

theorem gettoken_word (hs : s.length ≤ es) (h : (gettoken es s).ret = ascii 'a') :
    es - s.length ≤ (gettoken es s).q ∧ (gettoken es s).q < es - (gettoken es s).rest.length := by
  have hspace : (s.dropWhile isSpace).length ≤ s.length := (List.dropWhile_sublist _).length_le
  have hq : (gettoken es s).q = es - (s.dropWhile isSpace).length := rfl
  cases hu : s.dropWhile isSpace with
  | nil =>
    simp only [gettoken, hu] at h
    exact absurd h (by decide)
  | cons c t =>
    have hrest := gettoken_consumes es hu
    rw [hu, List.length_cons] at hspace hq
    omega

theorem parseredirs_inLine (hs : s.length ≤ es) (h : parseredirs es n s = .ok (rs, s')) :
    s'.length ≤ s.length ∧ InLine (es - s.length) (es - s'.length) rs := by
  induction n generalizing s rs with
  | zero => cases h
  | succ n ih =>
    have hpeek := peek_length s [ascii '<', ascii '>']
    unfold parseredirs at h
    generalize peek s [ascii '<', ascii '>'] = p at h hpeek
    obtain ⟨found, s₀⟩ := p
    dsimp only at h hpeek
    split at h
    · have htok := gettoken_length es s₀
      have hfile := gettoken_length es (gettoken es s₀).rest
      split at h
      · cases h
      · rename_i hword
        rw [not_not] at hword
        obtain ⟨hlow, hhigh⟩ := gettoken_word (by omega) hword
        obtain ⟨⟨rs₁, s₁⟩, hrs, h⟩ := bind_eq_ok.mp h
        cases h
        obtain ⟨hle, hin⟩ := ih (by omega) hrs
        refine ⟨by omega, ⟨List.pairwise_cons.mpr ⟨fun r hr => ?_, hin.sorted⟩, fun r hr => ?_⟩⟩
        · have := (hin.range r hr).1
          rw [redirOf_file]
          omega
        · rcases List.mem_cons.mp hr with rfl | hr
          · rw [redirOf_file]
            omega
          · have := hin.range r hr
            omega
    · cases h
      exact ⟨hpeek, .nil, fun r hr => absurd hr List.not_mem_nil⟩

theorem parseargs_inLine (hs : s.length ≤ es) (h : parseargs es n argv rs s = .ok ((argv', rs'), s'))
    (hrs : InLine lo (es - s.length) rs) (hlo : lo ≤ es - s.length) :
    s'.length ≤ s.length ∧ InLine lo (es - s'.length) rs' := by
  have hwider {rs : List Redir} {hi hi' : Nat} (h : InLine lo hi rs) (hhi : hi ≤ hi') : InLine lo hi' rs :=
    ⟨h.sorted, fun r hr => ⟨(h.range r hr).1, Nat.lt_of_lt_of_le (h.range r hr).2 hhi⟩⟩
  induction n generalizing s rs argv with
  | zero => cases h
  | succ n ih =>
    have hpeek := peek_length s [ascii '|', ascii ')', ascii '&', ascii ';']
    unfold parseargs at h
    generalize peek s [ascii '|', ascii ')', ascii '&', ascii ';'] = p at h hpeek
    obtain ⟨found, s₀⟩ := p
    dsimp only at h hpeek
    have htok := gettoken_length es s₀
    split at h
    · cases h
      exact ⟨hpeek, hwider hrs (by omega)⟩
    · split at h
      · cases h
        exact ⟨Nat.le_trans htok hpeek, hwider hrs (by omega)⟩
      · split at h
        · cases h
        · split at h
          · cases h
          · obtain ⟨⟨rs₁, s₁⟩, hrs₁, h⟩ := bind_eq_ok.mp h
            dsimp only at h
            obtain ⟨hle, hin⟩ := parseredirs_inLine (by omega) hrs₁
            obtain ⟨hle', hin'⟩ := ih (by omega) h ((hwider hrs (by omega)).append hin (by omega) (by omega)) (by omega)
            exact ⟨by omega, hin'⟩

theorem parsebacks_placed (h : parsebacks es n cmd s = .ok (cmd', s')) :
    s'.length ≤ s.length ∧ ∀ lo hi, cmd.Placed lo hi → cmd'.Placed lo hi := by
  induction n generalizing s cmd with
  | zero => cases h
  | succ n ih =>
    have hpeek := peek_length s [ascii '&']
    unfold parsebacks at h
    generalize peek s [ascii '&'] = p at h hpeek
    obtain ⟨found, s₀⟩ := p
    dsimp only at h hpeek
    split at h
    · obtain ⟨hle, hp⟩ := ih h
      exact ⟨Nat.le_trans hle (Nat.le_trans (gettoken_length ..) hpeek), hp⟩
    · cases h
      exact ⟨hpeek, fun _ _ => id⟩

/-- What a parse function makes of `s`, of which `s'` is left. -/
def Parsed (es : Nat) (s : List Byte) (cmd : Cmd) (s' : List Byte) : Prop :=
  s'.length ≤ s.length ∧ cmd.Placed (es - s.length) (es - s'.length)

/-- A parse function makes what it should of every part of the line. -/
def Places (es : Nat) (parse : List Byte → Except Stop (Cmd × List Byte)) : Prop :=
  ∀ s cmd s', s.length ≤ es → parse s = .ok (cmd, s') → Parsed es s cmd s'

theorem parseline_places {es n : Nat} (hpipe : Places es (parsepipe es n)) (hline : Places es (parseline es n)) :
    Places es (parseline es (n + 1)) := by
  intro s cmd s' hs h
  unfold parseline at h
  obtain ⟨⟨cmd₁, s₁⟩, h₁, h⟩ := bind_eq_ok.mp h
  obtain ⟨⟨cmd₂, s₂⟩, h₂, h⟩ := bind_eq_ok.mp h
  obtain ⟨hle₁, hp₁⟩ := hpipe _ _ _ hs h₁
  obtain ⟨hle₂, hp₂⟩ := parsebacks_placed h₂
  have hpeek := peek_length s₂ [ascii ';']
  dsimp only at h
  generalize peek s₂ [ascii ';'] = p at h hpeek
  obtain ⟨found, s₃⟩ := p
  dsimp only at h hpeek
  have htok := gettoken_length es s₃
  split at h
  · obtain ⟨⟨right, s₄⟩, h₄, h⟩ := bind_eq_ok.mp h
    dsimp only at h
    cases h
    obtain ⟨hle₄, hp₄⟩ := hline _ _ _ (by omega) h₄
    exact ⟨by omega, (hp₂ _ _ hp₁).mono (Nat.le_refl _) (by omega), hp₄.mono (by omega) (Nat.le_refl _)⟩
  · cases h
    exact ⟨by omega, (hp₂ _ _ hp₁).mono (Nat.le_refl _) (by omega)⟩

theorem parsepipe_places {es n : Nat} (hexec : Places es (parseexec es n)) (hpipe : Places es (parsepipe es n)) :
    Places es (parsepipe es (n + 1)) := by
  intro s cmd s' hs h
  unfold parsepipe at h
  obtain ⟨⟨cmd₁, s₁⟩, h₁, h⟩ := bind_eq_ok.mp h
  obtain ⟨hle₁, hp₁⟩ := hexec _ _ _ hs h₁
  have hpeek := peek_length s₁ [ascii '|']
  dsimp only at h
  generalize peek s₁ [ascii '|'] = p at h hpeek
  obtain ⟨found, s₃⟩ := p
  dsimp only at h hpeek
  have htok := gettoken_length es s₃
  split at h
  · obtain ⟨⟨right, s₄⟩, h₄, h⟩ := bind_eq_ok.mp h
    dsimp only at h
    cases h
    obtain ⟨hle₄, hp₄⟩ := hpipe _ _ _ (by omega) h₄
    exact ⟨by omega, hp₁.mono (Nat.le_refl _) (by omega), hp₄.mono (by omega) (Nat.le_refl _)⟩
  · cases h
    exact ⟨by omega, hp₁.mono (Nat.le_refl _) (by omega)⟩

theorem parseblock_places {es n : Nat} (hline : Places es (parseline es n)) : Places es (parseblock es (n + 1)) := by
  intro s cmd s' hs h
  unfold parseblock at h
  have hpeek := peek_length s [ascii '(']
  generalize peek s [ascii '('] = p at h hpeek
  obtain ⟨found, s₀⟩ := p
  dsimp only at h hpeek
  have htok := gettoken_length es s₀
  split at h
  · cases h
  · obtain ⟨⟨cmd₁, s₁⟩, h₁, h⟩ := bind_eq_ok.mp h
    obtain ⟨hle₁, hp₁⟩ := hline _ _ _ (by omega) h₁
    have hpeek' := peek_length s₁ [ascii ')']
    dsimp only at h
    generalize peek s₁ [ascii ')'] = p at h hpeek'
    obtain ⟨found', s₂⟩ := p
    dsimp only at h hpeek'
    have htok' := gettoken_length es s₂
    split at h
    · cases h
    · obtain ⟨⟨rs, s₃⟩, h₃, h⟩ := bind_eq_ok.mp h
      dsimp only at h
      cases h
      obtain ⟨hle₃, hin⟩ := parseredirs_inLine (by omega) h₃
      refine ⟨by omega, (hp₁.mono (by omega) ?_).redirs hin (by omega) (by omega)⟩
      omega

theorem parseexec_places {es n : Nat} (hblock : Places es (parseblock es n)) : Places es (parseexec es (n + 1)) := by
  intro s cmd s' hs h
  unfold parseexec at h
  have hpeek := peek_length s [ascii '(']
  generalize peek s [ascii '('] = p at h hpeek
  obtain ⟨found, s₀⟩ := p
  dsimp only at h hpeek
  split at h
  · obtain ⟨hle, hp⟩ := hblock _ _ _ (by omega) h
    exact ⟨by omega, hp.mono (by omega) (Nat.le_refl _)⟩
  · obtain ⟨⟨rs, s₁⟩, h₁, h⟩ := bind_eq_ok.mp h
    obtain ⟨⟨⟨argv, rs'⟩, s₂⟩, h₂, h⟩ := bind_eq_ok.mp h
    dsimp only at h
    cases h
    dsimp only at h₂
    obtain ⟨hle₁, hin₁⟩ := parseredirs_inLine (by omega) h₁
    obtain ⟨hle₂, hin₂⟩ := parseargs_inLine (by omega) h₂ hin₁ (by omega)
    have hargv : (Cmd.exec argv).Placed (es - s.length) (es - s₀.length) := trivial
    exact ⟨by omega, hargv.redirs hin₂ (by omega) (by omega)⟩

theorem parse_places (es n : Nat) :
    Places es (parseline es n) ∧ Places es (parsepipe es n) ∧ Places es (parseblock es n) ∧ Places es (parseexec es n) := by
  induction n with
  | zero => exact ⟨nofun, nofun, nofun, nofun⟩
  | succ n ih =>
    obtain ⟨hline, hpipe, hblock, hexec⟩ := ih
    exact ⟨parseline_places hpipe hline, parsepipe_places hexec hpipe, parseblock_places hline, parseexec_places hblock⟩

theorem parsecmd_placed {line : List Byte} {buf : Nat → Byte} (h : parsecmd line = .ok (cmd, buf)) :
    ∃ lo hi, cmd.Placed lo hi := by
  unfold parsecmd at h
  obtain ⟨⟨cmd₁, s₁⟩, h₁, h⟩ := bind_eq_ok.mp h
  dsimp only at h
  split at h
  · cases h
  · cases h
    exact ⟨_, _, ((parse_places _ _).1 _ _ _ (Nat.le_refl _) h₁).2⟩

end Placed

/-! ### runcmd -/

/-- Process `q` makes `n` steps. -/
def State.steps (s : State) (q : Pid) : Nat → Option State
  | 0 => some s
  | n + 1 => (s.step q).bind fun s => s.steps q n

/-- The descriptors after the redirections, of which the outer ones, at the end of the list, are opened first. -/
def redirected (ofile : Ofile) (rs : List Redir) : Ofile :=
  rs.foldr (fun r ofile => Function.update ofile r.fd (some (.opened r))) ofile

section Runs
variable {s : State} {q : Pid} {ofile : Ofile} {rs : List Redir} {inner : Cmd} {kids : Nat}

theorem steps_add (s : State) (q : Pid) (m n : Nat) : s.steps q (m + n) = (s.steps q m).bind fun s => s.steps q n := by
  induction m generalizing s with
  | zero => rw [Nat.zero_add, State.steps, Option.bind_some]
  | succ m ih =>
    rw [Nat.succ_add, State.steps, State.steps, Option.bind_assoc]
    simp only [ih]

theorem steps_redir {r : Redir} {role : Role} (hq : s.proc q = some ⟨.runcmd (.redir inner r) role, ofile, kids⟩)
    (hopen : ∀ fd < 3, (ofile fd).isSome) (hr : r.fd < 2) :
    ∃ s', s.steps q 3 = some s' ∧
      s'.proc q = some ⟨.runcmd inner .plain, Function.update ofile r.fd (some (.opened r)), kids⟩ := by
  have hset (s : State) (p : Proc) : (s.set q (some p)).proc q = some p := Function.update_self ..
  have halloc : fdalloc (Function.update ofile r.fd none) (.opened r) =
      some (r.fd, Function.update ofile r.fd (some (.opened r))) := by
    rw [fdalloc_eq r.fd (Nat.lt_trans hr (by decide)), Function.update_idem]
    · intro n hn
      rw [Function.update_of_ne (Nat.ne_of_lt hn)]
      exact hopen n (by omega)
    · exact Function.update_self ..
  have h₁ : s.step q = some (s.set q (some ⟨.close r.fd (.openFile r (.runcmd inner .plain)), ofile, kids⟩)) := by
    rw [State.step, hq]
    rfl
  have h₂ (t : State) (ht : t.proc q = some ⟨.close r.fd (.openFile r (.runcmd inner .plain)), ofile, kids⟩) :
      t.step q = some (t.set q (some ⟨.openFile r (.runcmd inner .plain), Function.update ofile r.fd none, kids⟩)) := by
    rw [State.step, ht]
    rfl
  have h₃ (t : State) (ht : t.proc q = some ⟨.openFile r (.runcmd inner .plain), Function.update ofile r.fd none, kids⟩) :
      t.step q = some (t.set q (some ⟨.runcmd inner .plain, Function.update ofile r.fd (some (.opened r)), kids⟩)) := by
    rw [State.step, ht, Option.bind_some]
    dsimp only
    rw [halloc]
    rfl
  rw [State.steps, h₁, Option.bind_some, State.steps, h₂ _ (hset _ _), Option.bind_some, State.steps, h₃ _ (hset _ _),
    Option.bind_some, State.steps]
  exact ⟨_, rfl, hset _ _⟩

theorem redirected_open (hopen : ∀ fd < 3, (ofile fd).isSome) (rs : List Redir) :
    ∀ fd < 3, (redirected ofile rs fd).isSome := by
  induction rs with
  | nil => exact hopen
  | cons r rs ih =>
    intro fd hfd
    rw [redirected, List.foldr_cons, Function.update_apply]
    split
    · rfl
    · exact ih fd hfd

theorem steps_redirs {role : Role} (hq : s.proc q = some ⟨.runcmd (rs.foldl .redir inner) role, ofile, kids⟩)
    (hopen : ∀ fd < 3, (ofile fd).isSome) (hfd : ∀ r ∈ rs, r.fd < 2) :
    ∃ s' role', s.steps q (3 * rs.length) = some s' ∧
      s'.proc q = some ⟨.runcmd inner role', redirected ofile rs, kids⟩ := by
  induction rs using List.reverseRecOn generalizing s ofile role with
  | nil => exact ⟨s, role, rfl, hq⟩
  | append_singleton rs r ih =>
    rw [List.foldl_append] at hq
    obtain ⟨t, ht, hproc⟩ := steps_redir hq hopen (hfd r (by simp))
    have hopen' : ∀ fd < 3, (Function.update ofile r.fd (some (.opened r)) fd).isSome := redirected_open hopen [r]
    obtain ⟨s', role', hs', hproc'⟩ := ih hproc hopen' fun x hx => hfd x (List.mem_append_left _ hx)
    refine ⟨s', role', ?_, ?_⟩
    · rw [List.length_append, List.length_singleton, Nat.mul_add, Nat.add_comm, Nat.mul_one, steps_add, ht,
        Option.bind_some, hs']
    · rw [redirected, List.foldr_append]
      exact hproc'

theorem redirected_eq (ofile : Ofile) (rs : List Redir) (d : Nat) :
    redirected ofile rs d = ((rs.filter (·.fd = d)).head?.map .opened).or (ofile d) := by
  induction rs with
  | nil => rfl
  | cons r rs ih =>
    rw [redirected, List.foldr_cons, Function.update_apply]
    by_cases hd : d = r.fd
    · rw [if_pos hd, List.filter_cons_of_pos (by simp [hd])]
      rfl
    · rw [if_neg hd, List.filter_cons_of_neg (by simpa using fun h => hd h.symm)]
      exact ih

end Runs

/-! ### The redirection that counts -/

def SameFile (buf : Nat → Byte) (r r' : Redir) : Prop := ∀ w, IsString buf r.file w ↔ IsString buf r'.file w

/-- Each of the descriptors 0 and 1 is for the file of the last redirection that is for it, if there is one. -/
def LastWins (buf : Nat → Byte) (rs : List Redir) (ofile ofile' : Ofile) : Prop :=
  ∀ d < 2, match (rs.filter (·.fd = d)).getLast? with
    | none => ofile' d = ofile d
    | some r => ∃ r', ofile' d = some (.opened r') ∧ SameFile buf r' r

/-- A part of a parsed command that is put into redirections, which are in the order of the line: when it is reached, the
    last redirection for each descriptor has won exactly if it has the same file as the first. -/
theorem last_wins_iff {line : List Byte} {cmd c inner : Cmd} {buf : Nat → Byte} {rs : List Redir} {s : State} {q : Pid}
    {role : Role} {ofile : Ofile} {kids : Nat} (hparse : parsecmd line = .ok (cmd, buf)) (hwithin : c.Within cmd)
    (hc : c = rs.foldl .redir inner) (hq : s.proc q = some ⟨.runcmd c role, ofile, kids⟩)
    (hopen : ∀ fd < 3, (ofile fd).isSome) :
    rs.Pairwise (·.file < ·.file) ∧
      ∃ s' role' ofile', s.steps q (3 * rs.length) = some s' ∧ s'.proc q = some ⟨.runcmd inner role', ofile', kids⟩ ∧
        (LastWins buf rs ofile ofile' ↔ ∀ d < 2, ∀ r r', (rs.filter (·.fd = d)).head? = some r →
          (rs.filter (·.fd = d)).getLast? = some r' → SameFile buf r r') := by
  subst hc
  obtain ⟨lo, hi, hplaced⟩ := parsecmd_placed hparse
  obtain ⟨lo, hi, hplaced⟩ := hplaced.within hwithin
  have hbuilt := (parsecmd_built hparse).within hwithin
  have hfd := hbuilt.redirs_fd
  obtain ⟨s', role', hs', hproc⟩ := steps_redirs hq hopen hfd
  refine ⟨hplaced.sorted.1, s', role', _, hs', hproc, forall₂_congr fun d hd => ?_⟩
  rw [redirected_eq]
  cases hhead : (rs.filter (·.fd = d)).head? with
  | none =>
    rw [List.head?_eq_none_iff.mp hhead]
    simp
  | some r =>
    obtain ⟨l, hl⟩ := List.head?_eq_some_iff.mp hhead
    rw [hl, List.getLast?_cons]
    constructor
    · rintro ⟨x, hx, hsame⟩ _ _ hfirst hlast
      cases hx
      cases hfirst
      cases hlast
      exact hsame
    · exact fun h => ⟨r, rfl, h r _ rfl rfl⟩

def stdOfile : Ofile := fun fd => if fd < 3 then some (.std fd) else none

theorem stdOfile_open : ∀ fd < 3, (stdOfile fd).isSome := by decide

/-- One redirection of each kind. -/
theorem last_wins_both : ∃ cmd buf s' role' ofile',
    parsecmd [ascii 'a', ascii '<', ascii 'b', ascii '>', ascii 'c'] = .ok (cmd, buf) ∧
      (State.start cmd).steps [] 6 = some s' ∧ s'.proc [] = some ⟨.runcmd (.exec [(0, 1)]) role', ofile', 0⟩ ∧
      LastWins buf [⟨2, 3, 0, 0⟩, ⟨4, 5, 0x201, 1⟩] stdOfile ofile' := by
  obtain ⟨buf, hparse⟩ : ∃ buf, parsecmd [ascii 'a', ascii '<', ascii 'b', ascii '>', ascii 'c'] =
      .ok (.redir (.redir (.exec [(0, 1)]) ⟨2, 3, 0, 0⟩) ⟨4, 5, 0x201, 1⟩, buf) := ⟨_, rfl⟩
  have hproc : (State.start (.redir (.redir (.exec [(0, 1)]) ⟨2, 3, 0, 0⟩) ⟨4, 5, 0x201, 1⟩)).proc [] =
      some ⟨.runcmd (.redir (.redir (.exec [(0, 1)]) ⟨2, 3, 0, 0⟩) ⟨4, 5, 0x201, 1⟩) .plain, stdOfile, 0⟩ := rfl
  have hredirs : Cmd.redir (.redir (.exec [(0, 1)]) ⟨2, 3, 0, 0⟩) ⟨4, 5, 0x201, 1⟩ =
      [⟨2, 3, 0, 0⟩, ⟨4, 5, 0x201, 1⟩].foldl .redir (.exec [(0, 1)]) := rfl
  obtain ⟨-, s', role', ofile', hs', hproc', hiff⟩ := last_wins_iff hparse .refl hredirs hproc stdOfile_open
  refine ⟨_, buf, s', role', ofile', hparse, hs', hproc', hiff.mpr fun d hd r r' hr hr' => ?_⟩
  obtain rfl | rfl : d = 0 ∨ d = 1 := by omega
  all_goals
    cases hr
    cases hr'
    exact fun _ => Iff.rfl

/-- The line `a>b>c` writes to `b`. -/
theorem first_wins : ∃ cmd buf s' role' ofile',
    parsecmd [ascii 'a', ascii '>', ascii 'b', ascii '>', ascii 'c'] = .ok (cmd, buf) ∧
      (State.start cmd).steps [] 6 = some s' ∧ s'.proc [] = some ⟨.runcmd (.exec [(0, 1)]) role', ofile', 0⟩ ∧
      ofile' 1 = some (.opened ⟨2, 3, 0x201, 1⟩) ∧ IsString buf 2 [ascii 'b'] ∧ IsString buf 4 [ascii 'c'] ∧
      ¬LastWins buf [⟨2, 3, 0x201, 1⟩, ⟨4, 5, 0x201, 1⟩] stdOfile ofile' := by
  have hparse : parsecmd [ascii 'a', ascii '>', ascii 'b', ascii '>', ascii 'c'] =
      .ok (.redir (.redir (.exec [(0, 1)]) ⟨2, 3, 0x201, 1⟩) ⟨4, 5, 0x201, 1⟩,
        cut [ascii 'a', ascii '>', ascii 'b', ascii '>', ascii 'c'] [5, 3, 1]) := by
    have hbuf : nulterminate (.redir (.redir (.exec [(0, 1)]) ⟨2, 3, 0x201, 1⟩) ⟨4, 5, 0x201, 1⟩)
        (memOf [ascii 'a', ascii '>', ascii 'b', ascii '>', ascii 'c']) =
          cut [ascii 'a', ascii '>', ascii 'b', ascii '>', ascii 'c'] [5, 3, 1] := funext fun i => nulterminate_eq _ _ i
    rw [← hbuf]
    rfl
  have hproc : (State.start (.redir (.redir (.exec [(0, 1)]) ⟨2, 3, 0x201, 1⟩) ⟨4, 5, 0x201, 1⟩)).proc [] =
      some ⟨.runcmd ([⟨2, 3, 0x201, 1⟩, ⟨4, 5, 0x201, 1⟩].foldl .redir (.exec [(0, 1)])) .plain, stdOfile, 0⟩ := rfl
  obtain ⟨s', role', hs', hproc'⟩ := steps_redirs hproc stdOfile_open (by decide)
  have hb : IsString (cut [ascii 'a', ascii '>', ascii 'b', ascii '>', ascii 'c'] [5, 3, 1]) 2 [ascii 'b'] :=
    ⟨by decide, by decide, by decide⟩
  have hc : IsString (cut [ascii 'a', ascii '>', ascii 'b', ascii '>', ascii 'c'] [5, 3, 1]) 4 [ascii 'c'] :=
    ⟨by decide, by decide, by decide⟩
  refine ⟨_, _, s', role', _, hparse, hs', hproc', rfl, hb, hc, fun h => ?_⟩
  obtain ⟨r, hr, hsame⟩ := h 1 (by decide)
  cases hr
  have hchar := ((hsame _).mp hb).chars 0 (by decide)
  exact absurd hchar (by decide)

end Xv6.Sh
