import Xv6.Sh.Run
import Xv6.Theorems.ShellParse

/-! The descriptors of the processes that run a command. What a process has still to do is checked against its
    descriptors by a weakest precondition, which every step keeps; only the calls of `runcmd` have to be looked at. -/

namespace Xv6.Sh
open Lib

def Std (ofile : Ofile) : Prop := ∀ fd, (ofile fd).isSome ↔ fd < 3

/-- The redirections of a command are for descriptor 0 or 1. -/
def Cmd.Built : Cmd → Prop
  | .exec _ => True
  | .redir cmd r => r.fd < 2 ∧ cmd.Built
  | .pipe left right => left.Built ∧ right.Built
  | .list left right => left.Built ∧ right.Built
  | .back cmd => cmd.Built

/-- The descriptor that a command of a pipeline gets instead of the shell's. -/
def Role.Wired (role : Role) (ofile : Ofile) : Prop :=
  match role with
  | .plain => True
  | .left pipe => ofile 1 = some (.pipeEnd pipe true)
  | .right pipe => ofile 0 = some (.pipeEnd pipe false)

def Without (pipe : Nat) (ofile : Ofile) : Prop := ∀ fd w, ofile fd ≠ some (.pipeEnd pipe w)

/-- What has to hold before a process runs its code. `own` is the pipe that it has made, with the number of children it
    had then. -/
def Safe : Option (Nat × Nat) → Nat → Code → Ofile → Prop
  | own, _, .runcmd cmd role, ofile => own = none ∧ Std ofile ∧ cmd.Built ∧ role.Wired ofile
  | own, kids, .close fd next, ofile => Safe own kids next (Function.update ofile fd none)
  | own, kids, .dup fd next, ofile => own = none ∧ Safe own kids next (dup ofile fd)
  | own, kids, .openFile r next, ofile =>
    own = none ∧ ∀ fd ofile', fdalloc ofile (.opened r) = some (fd, ofile') → Safe own kids next ofile'
  | own, kids, .pipe next, ofile => own = none ∧ ∀ pipe p0 ofile₀ p1 ofile₁, Without pipe ofile →
    fdalloc ofile (.pipeEnd pipe false) = some (p0, ofile₀) → fdalloc ofile₀ (.pipeEnd pipe true) = some (p1, ofile₁) →
    Safe (some (pipe, kids)) kids (next p0 p1 pipe) ofile₁
  | own, kids, .fork child parent, ofile =>
    (∀ pipe k, own = some (pipe, k) → kids = k ∨ kids = k + 1) ∧ Safe none 0 child ofile ∧ Safe own (kids + 1) parent ofile
  | own, kids, .wait next, ofile => (∀ pipe k, own = some (pipe, k) → Without pipe ofile) ∧ Safe own kids next ofile
  | own, _, .exec _, ofile => own = none ∧ Std ofile
  | own, _, .exit, ofile => ∀ pipe k, own = some (pipe, k) → Without pipe ofile

section Calls
variable {ofile : Ofile} {fd : Nat} {f : File}

/-! ### System calls -/

theorem fdalloc_eq (fd : Nat) (hfd : fd < nofile) (hlow : ∀ n < fd, (ofile n).isSome) (hfree : ofile fd = none) :
    fdalloc ofile f = some (fd, Function.update ofile fd (some f)) := by
  have hfind : ((List.range nofile).find? fun fd => (ofile fd).isNone) = some fd := by
    rw [List.find?_range_eq_some]
    refine ⟨by simp [hfree], List.mem_range.mpr hfd, fun n hn => ?_⟩
    have := hlow n hn
    simp only [Bool.not_eq_true', Option.isNone_eq_false_iff]
    exact this
  rw [fdalloc, hfind]
  rfl

theorem Std.reopen {k : Nat} (h : Std ofile) (hk : k < 3) (f : File) :
    fdalloc (Function.update ofile k none) f = some (k, Function.update ofile k (some f)) := by
  rw [fdalloc_eq k (by simp only [nofile]; omega), Function.update_idem]
  · intro n hn
    rw [Function.update_of_ne (by omega)]
    exact (h n).mpr (by omega)
  · exact Function.update_self ..

theorem Std.update {k : Nat} (h : Std ofile) (hk : k < 3) (f : File) : Std (Function.update ofile k (some f)) := by
  intro n
  by_cases hn : n = k
  · rw [hn, Function.update_self]
    simp [hk]
  · rw [Function.update_of_ne hn]
    exact h n

theorem Std.closed (h : Std ofile) (hfd : 3 ≤ fd) : ofile fd = none := by
  have := mt (h fd).mp (by omega)
  simpa using this

/-- The descriptors with the two ends of a pipe. -/
def withPipe (ofile : Ofile) (pipe : Nat) : Ofile :=
  Function.update (Function.update ofile 3 (some (.pipeEnd pipe false))) 4 (some (.pipeEnd pipe true))

theorem Std.pipe {p0 p1 pipe : Nat} {ofile₀ ofile₁ : Ofile} (h : Std ofile)
    (h0 : fdalloc ofile (.pipeEnd pipe false) = some (p0, ofile₀))
    (h1 : fdalloc ofile₀ (.pipeEnd pipe true) = some (p1, ofile₁)) : p0 = 3 ∧ p1 = 4 ∧ ofile₁ = withPipe ofile pipe := by
  rw [fdalloc_eq 3 (by decide) (fun n hn => (h n).mpr hn) (h.closed (Nat.le_refl _))] at h0
  obtain ⟨rfl, rfl⟩ := Prod.mk.inj (Option.some.inj h0)
  rw [fdalloc_eq 4 (by decide)] at h1
  · obtain ⟨rfl, rfl⟩ := Prod.mk.inj (Option.some.inj h1)
    exact ⟨rfl, rfl, rfl⟩
  · intro n hn
    by_cases h3 : n = 3
    · rw [h3, Function.update_self]
      rfl
    · rw [Function.update_of_ne h3]
      exact (h n).mpr (by omega)
  · rw [Function.update_of_ne (by decide)]
    exact h.closed (by decide)

def closePipe (ofile : Ofile) : Ofile := Function.update (Function.update ofile 3 none) 4 none

theorem Std.closePipe_eq {g : Ofile} (h : Std ofile) (hg : ∀ fd, fd ≠ 3 → fd ≠ 4 → g fd = ofile fd) :
    closePipe g = ofile := by
  funext n
  unfold closePipe
  by_cases h4 : n = 4
  · rw [h4, Function.update_self, h.closed (by decide)]
  · rw [Function.update_of_ne h4]
    by_cases h3 : n = 3
    · rw [h3, Function.update_self, h.closed (by decide)]
    · rw [Function.update_of_ne h3, hg n h3 h4]

theorem Std.wire {k p pipe : Nat} (h : Std ofile) (hk : k < 2) (hp : p = 3 ∨ p = 4) (hf : withPipe ofile pipe p = some f) :
    closePipe (dup (Function.update (withPipe ofile pipe) k none) p) = Function.update ofile k (some f) := by
  have hpk : p ≠ k := by omega
  have hlow : ∀ n < k, (Function.update (withPipe ofile pipe) k none n).isSome := by
    intro n hn
    rw [Function.update_of_ne (by omega), withPipe, Function.update_of_ne (by omega), Function.update_of_ne (by omega)]
    exact (h n).mpr (by omega)
  have hdup : dup (Function.update (withPipe ofile pipe) k none) p = Function.update (withPipe ofile pipe) k (some f) := by
    unfold dup
    rw [Function.update_of_ne hpk, hf]
    dsimp only
    rw [fdalloc_eq k (by simp only [nofile]; omega) hlow (Function.update_self ..), Function.update_idem]
  rw [hdup]
  refine (h.update (k := k) (by omega) f).closePipe_eq fun n h3 h4 => ?_
  by_cases hn : n = k
  · rw [hn, Function.update_self, Function.update_self]
  · rw [Function.update_of_ne hn, Function.update_of_ne hn, withPipe, Function.update_of_ne h4, Function.update_of_ne h3]

end Calls

/-! ### The body of `runcmd` -/

theorem runcmd_safe {cmd : Cmd} {ofile : Ofile} (hstd : Std ofile) (hb : cmd.Built) (kids : Nat) :
    Safe none kids (runcmd cmd) ofile := by
  cases cmd with
  | exec argv => exact ⟨rfl, hstd⟩
  | redir cmd r =>
    refine ⟨rfl, fun fd ofile' halloc => ?_⟩
    have hfd : r.fd < 3 := Nat.lt_succ_of_lt hb.1
    rw [hstd.reopen hfd] at halloc
    obtain ⟨-, rfl⟩ := Prod.mk.inj (Option.some.inj halloc)
    exact ⟨rfl, hstd.update hfd _, hb.2, trivial⟩
  | list left right =>
    exact ⟨nofun, ⟨rfl, hstd, hb.1, trivial⟩, nofun, rfl, hstd, hb.2, trivial⟩
  | back cmd => exact ⟨nofun, ⟨rfl, hstd, hb, trivial⟩, nofun⟩
  | pipe left right =>
    refine ⟨rfl, fun pipe p0 ofile₀ p1 ofile₁ hfresh h0 h1 => ?_⟩
    obtain ⟨rfl, rfl, rfl⟩ := hstd.pipe h0 h1
    have hleft : closePipe (dup (Function.update (withPipe ofile pipe) 1 none) 4) = _ :=
      hstd.wire (by decide) (.inr rfl) (Function.update_self ..)
    have hread : withPipe ofile pipe 3 = some (.pipeEnd pipe false) := by
      rw [withPipe, Function.update_of_ne (by decide), Function.update_self]
    have hright : closePipe (dup (Function.update (withPipe ofile pipe) 0 none) 3) = _ :=
      hstd.wire (by decide) (.inl rfl) hread
    have hparent : closePipe (withPipe ofile pipe) = ofile := hstd.closePipe_eq fun n h3 h4 => by
      rw [withPipe, Function.update_of_ne h4, Function.update_of_ne h3]
    refine ⟨?_, ⟨rfl, rfl, ?_⟩, ?_, ⟨rfl, rfl, ?_⟩, ?_⟩
    · rintro _ _ ⟨⟩
      exact .inl rfl
    · change Std (closePipe _) ∧ _ ∧ Role.Wired _ (closePipe _)
      rw [hleft]
      exact ⟨hstd.update (by decide) _, hb.1, Function.update_self ..⟩
    · rintro _ _ ⟨⟩
      exact .inr rfl
    · change Std (closePipe _) ∧ _ ∧ Role.Wired _ (closePipe _)
      rw [hright]
      exact ⟨hstd.update (by decide) _, hb.2, Function.update_self ..⟩
    · change (∀ _ _, _ → Without _ (closePipe _)) ∧ (∀ _ _, _ → Without _ (closePipe _)) ∧ ∀ _ _, _ →
        Without _ (closePipe _)
      rw [hparent]
      have hclosed : ∀ x k, some (pipe, kids) = some (x, k) → Without x ofile := by
        rintro _ _ ⟨⟩
        exact hfresh
      exact ⟨hclosed, hclosed, hclosed⟩

/-! ### All processes -/

/-- Process `q` is the child of the maker of the pipe for one of the two commands, or a descendant of it. -/
def Belongs (s : State) (pipe : Nat) (q : Pid) : Prop :=
  ∃ m k, s.maker pipe = some (m, k) ∧ (k :: m <:+ q ∨ (k + 1) :: m <:+ q)

/-- A process can go on, and it holds only ends of its own pipe and of those that it belongs to. -/
structure Fine (s : State) (q : Pid) (p : Proc) (own : Option (Nat × Nat)) : Prop where
  safe : Safe own p.kids p.code p.ofile
  made : ∀ pipe k, own = some (pipe, k) → s.maker pipe = some (q, k)
  holds : ∀ fd pipe w, p.ofile fd = some (.pipeEnd pipe w) → pipe < s.pipes ∧
    ((∃ k, own = some (pipe, k)) ∨ Belongs s pipe q)

structure Wiring (s : State) : Prop where
  fine : ∀ q p, s.proc q = some p → ∃ own, Fine s q p own
  makers : ∀ pipe, s.pipes ≤ pipe → s.maker pipe = none

section Wiring
variable {s s' : State} {q r : Pid} {p p' : Proc} {own : Option (Nat × Nat)} {n fd : Nat} {ofile : Ofile} {g : File}

theorem Belongs.child {pipe : Nat} (h : Belongs s pipe q) : Belongs s pipe (n :: q) := by
  obtain ⟨m, k, hm, hq⟩ := h
  exact ⟨m, k, hm, hq.imp (List.suffix_cons_iff.mpr <| .inr ·) (List.suffix_cons_iff.mpr <| .inr ·)⟩

theorem Fine.go (h : Fine s q p own) (hsafe : Safe own p'.kids p'.code p'.ofile)
    (hsub : ∀ fd pipe w, p'.ofile fd = some (.pipeEnd pipe w) → ∃ fd', p.ofile fd' = some (.pipeEnd pipe w)) :
    Fine s q p' own := by
  refine ⟨hsafe, h.made, fun fd pipe w hfd => ?_⟩
  obtain ⟨fd', hfd'⟩ := hsub fd pipe w hfd
  exact h.holds fd' pipe w hfd'

theorem Wiring.set {o : Option (Nat × Nat)} (h : Wiring s) (hp : Fine s q p o) : Wiring (s.set q (some p)) := by
  refine ⟨fun r p' hr => ?_, h.makers⟩
  by_cases hq : r = q
  · subst hq
    have hp' : p' = p := by simpa [State.set] using hr.symm
    rw [hp']
    exact ⟨o, hp.safe, hp.made, hp.holds⟩
  · have hold : s.proc r = some p' := by simpa [State.set, hq] using hr
    obtain ⟨own', hfine⟩ := h.fine r p' hold
    exact ⟨own', hfine.safe, hfine.made, hfine.holds⟩

theorem fdalloc_holds {ofile' : Ofile} {f : File} (h : fdalloc ofile f = some (n, ofile'))
    (hg : ofile' fd = some g) : ofile fd = some g ∨ g = f := by
  obtain ⟨m, -, hm⟩ := Option.map_eq_some_iff.mp h
  obtain ⟨rfl, rfl⟩ := Prod.mk.inj hm
  by_cases hfd : fd = m
  · rw [hfd, Function.update_self] at hg
    exact .inr (Option.some.inj hg).symm
  · rw [Function.update_of_ne hfd] at hg
    exact .inl hg

theorem dup_holds (hg : dup ofile n fd = some g) : ∃ fd', ofile fd' = some g := by
  unfold dup at hg
  cases hf : ofile n with
  | none =>
    rw [hf] at hg
    exact ⟨fd, hg⟩
  | some f =>
    simp only [hf] at hg
    cases halloc : fdalloc ofile f with
    | none =>
      rw [halloc] at hg
      exact ⟨fd, hg⟩
    | some a =>
      rw [halloc] at hg
      rcases fdalloc_holds halloc hg with hg | rfl
      · exact ⟨fd, hg⟩
      · exact ⟨n, hf⟩

theorem Wiring.pipe (h : Wiring s) (hp : Fine s q p own) {next : Nat → Nat → Nat → Code} (hcode : p.code = .pipe next)
    {a b : Nat × Ofile} (ha : fdalloc p.ofile (.pipeEnd s.pipes false) = some a)
    (hb : fdalloc a.2 (.pipeEnd s.pipes true) = some b) :
    Wiring { s.set q (some { p with code := next a.1 b.1 s.pipes, ofile := b.2 }) with
      pipes := s.pipes + 1, maker := Function.update s.maker s.pipes (some (q, p.kids)) } := by
  have hsafe := hp.safe
  rw [hcode] at hsafe
  obtain ⟨rfl, hsafe⟩ := hsafe
  have hfresh : Without s.pipes p.ofile := fun fd w hfd => Nat.lt_irrefl _ (hp.holds fd s.pipes w hfd).1
  have hmaker {pipe : Nat} {x : Pid × Nat} (hx : s.maker pipe = some x) :
      Function.update s.maker s.pipes (some (q, p.kids)) pipe = some x := by
    rw [Function.update_of_ne, hx]
    rintro rfl
    rw [h.makers s.pipes (Nat.le_refl _)] at hx
    cases hx
  have hbelongs {pipe : Nat} {r : Pid} (hb : Belongs s pipe r) {proc : Pid → Option Proc} :
      Belongs ⟨proc, s.pipes + 1, Function.update s.maker s.pipes (some (q, p.kids))⟩ pipe r := by
    obtain ⟨m, k, hm, hr⟩ := hb
    exact ⟨m, k, hmaker hm, hr⟩
  refine ⟨fun r p' hr => ?_, fun pipe hpipe => ?_⟩
  · by_cases hq : r = q
    · subst hq
      obtain rfl : _ = p' := by simpa [State.set] using hr
      refine ⟨some (s.pipes, p.kids), hsafe s.pipes a.1 a.2 b.1 b.2 hfresh ha hb, ?_, fun fd pipe w hfd => ?_⟩
      · rintro _ _ ⟨⟩
        exact Function.update_self ..
      · -- The two ends are new, and the other descriptors are old.
        have hcases : p.ofile fd = some (.pipeEnd pipe w) ∨ pipe = s.pipes := by
          rcases fdalloc_holds hb hfd with hfd | heq
          · rcases fdalloc_holds ha hfd with hfd | heq
            · exact .inl hfd
            · cases heq
              exact .inr rfl
          · cases heq
            exact .inr rfl
        rcases hcases with hfd | rfl
        · obtain ⟨hlt, hown | hbel⟩ := hp.holds fd pipe w hfd
          · obtain ⟨k, hk⟩ := hown
            cases hk
          · exact ⟨Nat.lt_succ_of_lt hlt, .inr (hbelongs hbel)⟩
        · exact ⟨Nat.lt_succ_self _, .inl ⟨p.kids, rfl⟩⟩
    · have hold : s.proc r = some p' := by simpa [State.set, hq] using hr
      obtain ⟨own', hfine⟩ := h.fine r p' hold
      refine ⟨own', hfine.safe, fun pipe k hk => hmaker (hfine.made pipe k hk), fun fd pipe w hfd => ?_⟩
      obtain ⟨hlt, hown⟩ := hfine.holds fd pipe w hfd
      exact ⟨Nat.lt_succ_of_lt hlt, hown.imp_right fun hb => hbelongs hb⟩
  · dsimp only at hpipe ⊢
    rw [Function.update_of_ne (by omega), h.makers pipe (by omega)]

theorem Wiring.step (h : Wiring s) (hs : s.step q = some s') : Wiring s' := by
  obtain ⟨p, hq, hs⟩ := Option.bind_eq_some_iff.mp hs
  obtain ⟨own, hp⟩ := h.fine q p hq
  have hsafe := hp.safe
  cases hcode : p.code with
  | runcmd cmd role =>
    rw [hcode] at hs hsafe
    obtain rfl := Option.some.inj hs
    obtain ⟨rfl, hstd, hb, -⟩ := hsafe
    exact h.set (hp.go (runcmd_safe hstd hb _) fun fd pipe w hfd => ⟨fd, hfd⟩)
  | close n next =>
    rw [hcode] at hs hsafe
    obtain rfl := Option.some.inj hs
    refine h.set (hp.go hsafe fun fd pipe w hfd => ⟨fd, ?_⟩)
    by_cases hn : fd = n
    · simp [hn] at hfd
    · simpa [hn] using hfd
  | dup n next =>
    rw [hcode] at hs hsafe
    obtain rfl := Option.some.inj hs
    exact h.set (hp.go hsafe.2 fun fd pipe w hfd => dup_holds hfd)
  | openFile r next =>
    rw [hcode] at hs hsafe
    obtain ⟨a, ha, rfl⟩ := Option.map_eq_some_iff.mp hs
    refine h.set (hp.go (hsafe.2 a.1 a.2 ha) fun fd pipe w hfd => ⟨fd, ?_⟩)
    rcases fdalloc_holds ha hfd with hfd | heq
    · exact hfd
    · cases heq
  | pipe next =>
    rw [hcode] at hs
    obtain ⟨a, ha, hs⟩ := Option.bind_eq_some_iff.mp hs
    obtain ⟨b, hb, rfl⟩ := Option.map_eq_some_iff.mp hs
    exact h.pipe hp hcode ha hb
  | fork child parent =>
    rw [hcode] at hs hsafe
    obtain rfl := Option.some.inj hs
    obtain ⟨hkids, hchild, hparent⟩ := hsafe
    have hgo : Fine s q { p with code := parent, kids := p.kids + 1 } own := hp.go hparent fun fd pipe w hfd => ⟨fd, hfd⟩
    refine (h.set hgo).set (o := none) ⟨hchild, nofun, fun fd pipe w hfd => ?_⟩
    obtain ⟨hlt, hown | hbel⟩ := hp.holds fd pipe w hfd
    · -- An end of the parent's pipe: the child is one of the two.
      obtain ⟨k, hk⟩ := hown
      refine ⟨hlt, .inr ⟨q, k, hp.made pipe k hk, ?_⟩⟩
      rcases hkids pipe k hk with hkid | hkid
      · exact .inl (hkid ▸ List.suffix_refl _)
      · exact .inr (hkid ▸ List.suffix_refl _)
    · obtain ⟨m, k, hm, hr⟩ := hbel.child (n := p.kids)
      exact ⟨hlt, .inr ⟨m, k, hm, hr⟩⟩
  | wait next =>
    rw [hcode] at hs hsafe
    obtain rfl := Option.some.inj hs
    exact h.set (hp.go hsafe.2 fun fd pipe w hfd => ⟨fd, hfd⟩)
  | exec argv =>
    rw [hcode] at hs hsafe
    obtain rfl := Option.some.inj hs
    obtain ⟨rfl, -⟩ := hsafe
    have hexit : Fine s q { p with code := .exit } none :=
      hp.go (nofun : Safe none _ .exit _) fun fd pipe w hfd => ⟨fd, hfd⟩
    exact h.set hexit
  | exit =>
    rw [hcode] at hs
    obtain rfl := Option.some.inj hs
    refine ⟨fun r p' hr => ?_, h.makers⟩
    by_cases hrq : r = q
    · simp [State.set, hrq] at hr
    · have hold : s.proc r = some p' := by simpa [State.set, hrq] using hr
      obtain ⟨own', hfine⟩ := h.fine r p' hold
      exact ⟨own', hfine.safe, hfine.made, hfine.holds⟩

end Wiring

/-! ### Parsed commands -/

section Built
variable {line : List Byte} {cmd : Cmd} {t : Tree}

theorem redirOf_fd (tok : Byte) (q eq : Nat) : (redirOf tok q eq).fd < 2 := by
  unfold redirOf
  split
  · exact Nat.zero_lt_two
  · exact Nat.one_lt_two

theorem matches_built (h : Matches line cmd t) : cmd.Built := by
  induction cmd generalizing t with
  | exec => trivial
  | redir cmd r ih =>
    cases t with
    | redir =>
      refine ⟨?_, ih h.1⟩
      rw [h.2.mode]
      exact redirOf_fd ..
    | _ => cases h
  | pipe left right ihl ihr =>
    cases t with
    | pipe => exact ⟨ihl h.1, ihr h.2⟩
    | _ => cases h
  | list left right ihl ihr =>
    cases t with
    | list => exact ⟨ihl h.1, ihr h.2⟩
    | _ => cases h
  | back cmd ih =>
    cases t with
    | back => exact ih h
    | _ => cases h

theorem parsecmd_built {buf : Nat → Byte} (h : parsecmd line = .ok (cmd, buf)) : cmd.Built := by
  unfold parsecmd at h
  obtain ⟨⟨cmd₁, s₁⟩, h₁, h⟩ := bind_eq_ok.mp h
  have hsim := (parse_simulates line (4 * line.length + 4)).1 line (List.suffix_refl _)
  rw [h₁] at hsim
  generalize Toks.line (4 * line.length + 4) (lex line) = y at hsim
  dsimp only at h
  split at h
  · cases h
  · cases h
    cases hsim with
    | ok hmatches => exact matches_built hmatches

end Built

end Xv6.Sh
