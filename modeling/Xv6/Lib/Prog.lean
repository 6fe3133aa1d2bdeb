import Mathlib.Logic.Function.Basic

/-! Programs over a set of operations. A program is a tree of calls of operations, so that one text of a
    program has two meanings: it runs alone on a state, or it interleaves with other programs, one operation
    a step. A logic says what an operation needs of and does to a ledger, which is what a thread knows and
    owns whatever the other threads do. -/

namespace Lib

/-- A program that calls operations of `Op`, an operation `o` giving a result in `Res o`. -/
inductive Prog (Op : Type) (Res : Op → Type) (α : Type) : Type
  | ret (a : α)
  | call (o : Op) (k : Res o → Prog Op Res α)

/-- How an operation, or a program, ends: with a result and a new state, with an error that stops the
    machine, or not yet, because it has to wait. -/
inductive Outcome (ε σ α : Type) : Type
  | done (a : α) (s : σ)
  | panic (e : ε)
  | blocked

/-- What comes after, if there is a result. -/
def Outcome.bind {ε σ α β : Type} : Outcome ε σ α → (α → σ → Outcome ε σ β) → Outcome ε σ β
  | .done a s, f => f a s
  | .panic e, _ => .panic e
  | .blocked, _ => .blocked

@[simp] theorem Outcome.bind_done {ε σ α β : Type} (a : α) (s : σ) (f : α → σ → Outcome ε σ β) :
    (Outcome.done a s : Outcome ε σ α).bind f = f a s := rfl

@[simp] theorem Outcome.bind_panic {ε σ α β : Type} (e : ε) (f : α → σ → Outcome ε σ β) :
    (Outcome.panic e : Outcome ε σ α).bind f = .panic e := rfl

namespace Prog
variable {Op : Type} {Res : Op → Type} {α β : Type}

def bind : Prog Op Res α → (α → Prog Op Res β) → Prog Op Res β
  | ret a, f => f a
  | call o k, f => call o fun r => (k r).bind f

instance : Monad (Prog Op Res) where
  pure := ret
  bind := bind

/-! ### Running alone -/

section Run
variable {ε σ : Type} (h : (o : Op) → σ → Outcome ε σ (Res o))

/-- The program runs alone. -/
def run : Prog Op Res α → σ → Outcome ε σ α
  | ret a, s => .done a s
  | call o k, s =>
    match h o s with
    | .done r s => (k r).run s
    | .panic e => .panic e
    | .blocked => .blocked

variable {h}

@[simp] theorem run_pure (a : α) (s : σ) : (pure a : Prog Op Res α).run h s = .done a s := rfl

@[simp] theorem run_bind (p : Prog Op Res α) (f : α → Prog Op Res β) (s : σ) :
    (p >>= f).run h s = (p.run h s).bind fun a s => (f a).run h s := by
  change (p.bind f).run h s = _
  induction p generalizing s with
  | ret a => rfl
  | call o k ih =>
    rw [bind, run, run]
    cases h o s with
    | done r s => exact ih r s
    | panic e => rfl
    | blocked => rfl

/-- A program of one operation. -/
@[simp] theorem run_op (o : Op) (s : σ) : (call o ret : Prog Op Res (Res o)).run h s = h o s := by
  rw [run]
  cases h o s <;> rfl

variable (h)

/-- The program runs alone up to the first operation at which it may `stop`, and the rest of it is left. -/
def runUntil (stop : Op → Bool) : Prog Op Res α → σ → Outcome ε σ (Prog Op Res α)
  | ret a, s => .done (ret a) s
  | call o k, s =>
    match h o s with
    | .done r s => if stop o then .done (k r) s else (k r).runUntil stop s
    | .panic e => .panic e
    | .blocked => .blocked

variable {h} in
/-- One operation of a program that goes on. -/
theorem runUntil_call {stop : Op → Bool} {o : Op} {k : Res o → Prog Op Res α} {q : Prog Op Res α} {s s' : σ}
    (hstop : stop o = false) (hr : (call o k).runUntil h stop s = .done q s') :
    ∃ r t, h o s = .done r t ∧ (k r).runUntil h stop t = .done q s' := by
  rw [runUntil] at hr
  split at hr
  · rename_i r t ho
    rw [hstop] at hr
    exact ⟨r, t, ho, hr⟩
  all_goals cases hr

variable {h} in
/-- The operation at which the program stops. -/
theorem runUntil_stop {stop : Op → Bool} {o : Op} {k : Res o → Prog Op Res α} {q : Prog Op Res α} {s s' : σ}
    (hstop : stop o = true) (hr : (call o k).runUntil h stop s = .done q s') : ∃ r, h o s = .done r s' ∧ q = k r := by
  rw [runUntil] at hr
  split at hr
  · rename_i r t ho
    rw [hstop] at hr
    cases hr
    exact ⟨r, ho, rfl⟩
  all_goals cases hr

/-- Every operation that the program calls when it runs alone meets `G` in the state it is called in. -/
def During (G : σ → Op → Prop) : Prog Op Res α → σ → Prop
  | ret _, _ => True
  | call o k, s =>
    G s o ∧
      match h o s with
      | .done r s => (k r).During G s
      | .panic _ | .blocked => True

end Run

/-! ### Ledgers -/

end Prog

/-- What each operation needs of the ledger of its thread, and what it may make of it. -/
structure Logic (Op : Type) (Res : Op → Type) (Λ : Type) where
  pre : Op → Λ → Prop
  post : (o : Op) → Λ → Res o → Λ → Prop

namespace Prog
variable {Op : Type} {Res : Op → Type} {α β Λ : Type} {T : Logic Op Res Λ} {p : Prog Op Res α}
  {Q Q' : α → Λ → Prop} {L : Λ}

/-- From the ledger `L` every operation of the program has what it needs, and the program ends with `Q`. -/
def wp (T : Logic Op Res Λ) : Prog Op Res α → (α → Λ → Prop) → Λ → Prop
  | ret a, Q, L => Q a L
  | call o k, Q, L => T.pre o L ∧ ∀ r L', T.post o L r L' → (k r).wp T Q L'

theorem wp_pure {a : α} : (pure a : Prog Op Res α).wp T Q L ↔ Q a L := Iff.rfl

theorem wp_bind {f : α → Prog Op Res β} {Q : β → Λ → Prop} (hp : p.wp T (fun a L' => (f a).wp T Q L') L) :
    (p >>= f).wp T Q L := by
  induction p generalizing L with
  | ret a => exact hp
  | call o k ih => exact ⟨hp.1, fun r L' hr => ih r (hp.2 r L' hr)⟩

section Sound
variable {ε σ : Type} {h : (o : Op) → σ → Outcome ε σ (Res o)} {G : σ → Op → Prop} {I : σ → Λ → Prop} {s s' : σ} {a : α}

/-- The rule for a program that runs alone: what every operation keeps holds at the end. -/
theorem run_sound (hp : p.wp T Q L) (hI : I s L) (hG : p.During h G s) (hr : p.run h s = .done a s')
    (sound : ∀ {o s L r s'}, I s L → T.pre o L → G s o → h o s = .done r s' → ∃ L', T.post o L r L' ∧ I s' L') :
    ∃ L', Q a L' ∧ I s' L' := by
  induction p generalizing s L with
  | ret a =>
    cases hr
    exact ⟨L, hp, hI⟩
  | call o k ih =>
    obtain ⟨hpre, hpost⟩ := hp
    rw [During] at hG
    obtain ⟨hg, hG⟩ := hG
    rw [run] at hr
    split at hr
    · rename_i r t hstep
      rw [hstep] at hG
      obtain ⟨L', hL', hI'⟩ := sound hI hpre hg hstep
      exact ih r (hpost r L' hL') hI' hG hr
    all_goals cases hr

theorem during_true (p : Prog Op Res α) (s : σ) : p.During h (fun _ _ => True) s := by
  induction p generalizing s with
  | ret a => trivial
  | call o k ih =>
    rw [During]
    refine ⟨trivial, ?_⟩
    split
    · exact ih ..
    all_goals trivial

end Sound

end Prog

end Lib
