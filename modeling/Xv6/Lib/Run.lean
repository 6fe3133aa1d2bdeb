import Mathlib.Data.List.Basic

/-! Runs of a labelled transition relation. A run lists its steps, each as the state it starts from and
    its label, so that conditions on the steps of a run and properties of the states it visits are both
    statements about one list. -/

namespace Lib

section Run
variable {σ α : Type} {step : σ → α → σ → Prop} {s t u : σ} {a : α} {tr : List (σ × α)}

/-- A run from `s` to its last state, with the list of its steps. -/
inductive Run (step : σ → α → σ → Prop) (s : σ) : List (σ × α) → σ → Prop
  | nil : Run step s [] s
  | snoc {tr : List (σ × α)} {t u : σ} {a : α} :
      Run step s tr t → step t a u → Run step s (tr ++ [(t, a)]) u

/-- Every step of the run meets the condition `G` on the state before it and its label. -/
def Meets (G : σ → α → Prop) (tr : List (σ × α)) : Prop := ∀ x ∈ tr, G x.1 x.2

/-- `P` holds in every state the run visits: before each of its steps, and at its end. -/
def Always (P : σ → Prop) (tr : List (σ × α)) (t : σ) : Prop := (∀ x ∈ tr, P x.1) ∧ P t

@[simp] theorem meets_nil {G : σ → α → Prop} : Meets G [] := by simp [Meets]

@[simp] theorem meets_snoc {G : σ → α → Prop} : Meets G (tr ++ [(s, a)]) ↔ Meets G tr ∧ G s a := by
  simp [Meets, or_imp, forall_and]

@[simp] theorem always_nil {P : σ → Prop} : Always P ([] : List (σ × α)) t ↔ P t := by simp [Always]

@[simp] theorem always_snoc {P : σ → Prop} : Always P (tr ++ [(s, a)]) t ↔ Always P tr s ∧ P t := by
  simp [Always, or_imp, forall_and]

theorem Always.mono {P Q : σ → Prop} (h : Always P tr t) (hPQ : ∀ s, P s → Q s) : Always Q tr t :=
  ⟨fun x hx => hPQ x.1 (h.1 x hx), hPQ t h.2⟩

/-- A step in front of a run. -/
theorem Run.cons (hs : step s a t) (hr : Run step t tr u) : Run step s ((s, a) :: tr) u := by
  induction hr with
  | nil => exact Run.snoc .nil hs
  | snoc _ hstep ih => exact Run.snoc ih hstep

/-- A run whose steps all meet `H` is a run of the steps that meet `H`. -/
theorem Run.restrict {H : σ → α → Prop} (hr : Run step s tr t) (hH : Meets H tr) :
    Run (fun s a t => H s a ∧ step s a t) s tr t := by
  induction hr with
  | nil => exact .nil
  | snoc _ hs ih =>
    obtain ⟨hH, h⟩ := meets_snoc.mp hH
    exact .snoc (ih hH) ⟨h, hs⟩

/-- The invariant rule: what every step that meets `G` keeps holds in every state of a run whose steps
    all meet `G`. -/
theorem Run.always {G : σ → α → Prop} {I : σ → Prop} (hr : Run step s tr t) (h0 : I s) (hG : Meets G tr)
    (keep : ∀ {s a t}, I s → G s a → step s a t → I t) : Always I tr t := by
  induction hr with
  | nil => exact always_nil.mpr h0
  | snoc _ hs ih =>
    obtain ⟨hG, hg⟩ := meets_snoc.mp hG
    have ih := ih hG
    exact always_snoc.mpr ⟨ih, keep ih.2 hg hs⟩

/-- What every step keeps holds at the end of a run. -/
theorem Run.invariant {I : σ → Prop} (hr : Run step s tr t) (h0 : I s) (keep : ∀ {s a t}, I s → step s a t → I t) :
    I t := by
  induction hr with
  | nil => exact h0
  | snoc _ hs ih => exact keep ih hs

/-- The simulation rule: when a step from related states can be followed by one with the same label, to
    related states, a run can be followed by one with the same labels. -/
theorem Run.simulates {τ : Type} {step' : τ → α → τ → Prop} {R : σ → τ → Prop} {s' : τ} (hr : Run step s tr t)
    (h0 : R s s') (sim : ∀ {s a t s'}, R s s' → step s a t → ∃ t', step' s' a t' ∧ R t t') :
    ∃ tr' t', Run step' s' tr' t' ∧ tr'.map (·.2) = tr.map (·.2) ∧ R t t' := by
  induction hr with
  | nil => exact ⟨[], s', .nil, rfl, h0⟩
  | snoc _ hs ih =>
    obtain ⟨tr', t', hr', hlabels, h⟩ := ih
    obtain ⟨u', hs', h'⟩ := sim h hs
    exact ⟨_, u', .snoc hr' hs', by rw [List.map_append, List.map_append, hlabels]; rfl, h'⟩

/-- The exact-condition rule: when steps that meet `G` keep `I`, and a step that does not meet `G` from
    an `I` state breaks `P`, a run visits only `P` states exactly if all its steps meet `G`. -/
theorem Run.always_iff_meets {G : σ → α → Prop} {I P : σ → Prop} (hr : Run step s tr t) (h0 : I s)
    (hIP : ∀ s, I s → P s) (keep : ∀ {s a t}, I s → G s a → step s a t → I t)
    (breaks : ∀ {s a t}, I s → ¬G s a → step s a t → ¬P t) : Always P tr t ↔ Meets G tr := by
  refine ⟨fun hP => ?_, fun hG => (hr.always h0 hG keep).mono hIP⟩
  induction hr with
  | nil => exact meets_nil
  | snoc hr hs ih =>
    obtain ⟨hP, hp⟩ := always_snoc.mp hP
    have hG := ih hP
    refine meets_snoc.mpr ⟨hG, ?_⟩
    by_contra hg
    exact breaks (hr.always h0 hG keep).2 hg hs hp

/-! ### Runs by computation -/

instance {G : σ → α → Prop} [∀ s a, Decidable (G s a)] (tr : List (σ × α)) : Decidable (Meets G tr) :=
  inferInstanceAs (Decidable (∀ x ∈ tr, G x.1 x.2))

/-- The step relation of a partial step function. -/
def OfStep (f : σ → α → Option σ) (s : σ) (a : α) (t : σ) : Prop := f s a = some t

/-- The run of a partial step function on a list of labels, if it goes through. -/
def traceOf (f : σ → α → Option σ) : σ → List α → Option (List (σ × α) × σ)
  | s, [] => some ([], s)
  | s, a :: as => (f s a).bind fun t => (traceOf f t as).map fun r => ((s, a) :: r.1, r.2)

theorem Run.of_traceOf {f : σ → α → Option σ} :
    ∀ {as : List α} {s t : σ} {tr : List (σ × α)}, traceOf f s as = some (tr, t) →
      Run (OfStep f) s tr t ∧ tr.map (·.2) = as
  | [], s, t, tr, h => by
    simp only [traceOf, Option.some.injEq, Prod.mk.injEq] at h
    obtain ⟨rfl, rfl⟩ := h
    exact ⟨.nil, rfl⟩
  | a :: as, s, t, tr, h => by
    simp only [traceOf, Option.bind_eq_some_iff, Option.map_eq_some_iff, Prod.mk.injEq, Prod.exists] at h
    obtain ⟨u, hu, tr', t', h, rfl, rfl⟩ := h
    obtain ⟨hr, hl⟩ := of_traceOf h
    exact ⟨.cons hu hr, by rw [List.map_cons, hl]⟩

/-- A computed run that goes through and passes a check is a run with that property. -/
theorem Run.exists_of_traceOf {f : σ → α → Option σ} (s : σ) (as : List α) (P : List (σ × α) → σ → Prop)
    [∀ tr t, Decidable (P tr t)] (h : (traceOf f s as).any (fun r => decide (P r.1 r.2)) = true) :
    ∃ tr t, Run (OfStep f) s tr t ∧ tr.map (·.2) = as ∧ P tr t := by
  obtain ⟨r, hr, hP⟩ : ∃ r, traceOf f s as = some r ∧ P r.1 r.2 := by simpa [Option.any_eq_true] using h
  obtain ⟨hrun, hl⟩ := Run.of_traceOf hr
  exact ⟨r.1, r.2, hrun, hl, hP⟩

end Run

end Lib
