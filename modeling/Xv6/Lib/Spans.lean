import Mathlib.Data.List.Basic

/-! Blocks of memory: what lists of them cover, and how neighbours are joined. -/

namespace Lib

structure Span where
  start : Nat
  len : Nat
  deriving DecidableEq

namespace Span

def Has (s : Span) (x : Nat) : Prop := s.start ≤ x ∧ x < s.start + s.len

/-- Neither reaches into the other. -/
def Apart (s t : Span) : Prop := s.start + s.len ≤ t.start ∨ t.start + t.len ≤ s.start

theorem Apart.symm {s t : Span} (h : s.Apart t) : t.Apart s := Or.symm h

/-- What is apart from a span is apart from every part of it. -/
theorem Apart.part {r s t : Span} (h : r.Apart s) (hlo : s.start ≤ t.start) (hhi : t.start + t.len ≤ s.start + s.len) :
    r.Apart t := by
  rcases h with h | h
  · exact .inl (Nat.le_trans h hlo)
  · exact .inr (Nat.le_trans hhi h)

theorem not_apart_self {s : Span} (hpos : 0 < s.len) : ¬s.Apart s := by
  rintro (h | h) <;> omega

/-- What is apart from two blocks that touch is apart from both together. -/
theorem Apart.join {s t r : Span} (hs : r.Apart s) (ht : r.Apart t) (hr : 0 < r.len) (heq : s.start + s.len = t.start) :
    r.Apart ⟨s.start, s.len + t.len⟩ := by
  unfold Apart at *
  simp only
  omega

end Span

section Covers
variable {l l' : List Span} {s : Span} {x : Nat}

def Covers (l : List Span) (x : Nat) : Prop := ∃ s ∈ l, s.Has x

@[simp] theorem covers_nil : ¬Covers [] x := by simp [Covers]

@[simp] theorem covers_cons : Covers (s :: l) x ↔ s.Has x ∨ Covers l x := by simp [Covers]

@[simp] theorem covers_append : Covers (l ++ l') x ↔ Covers l x ∨ Covers l' x := by
  simp only [Covers, List.mem_append, or_and_right, exists_or]

end Covers

/-- Sorted, with a gap between any two. -/
def Separated (l : List Span) : Prop := l.Pairwise fun s t => s.start + s.len < t.start

/-- A block in front of others, joined with the next one if they touch. -/
def joinNext (s : Span) : List Span → List Span
  | [] => [s]
  | t :: l => if s.start + s.len = t.start then ⟨s.start, s.len + t.len⟩ :: l else s :: t :: l

section Join
variable {l : List Span} {s t : Span} {x : Nat}

theorem joinNext_covers : Covers (joinNext s l) x ↔ s.Has x ∨ Covers l x := by
  cases l with
  | nil => simp [joinNext]
  | cons t l =>
    rw [joinNext]
    split
    · simp only [covers_cons, Span.Has, ← or_assoc]
      refine or_congr_left ?_
      omega
    · simp only [covers_cons]

theorem joinNext_separated (hsep : Separated l) (hs : ∀ t ∈ l, s.start + s.len ≤ t.start) : Separated (joinNext s l) := by
  cases l with
  | nil => exact List.pairwise_singleton ..
  | cons t l =>
    obtain ⟨ht, hl⟩ := List.pairwise_cons.mp hsep
    have hst := hs t (List.mem_cons_self ..)
    rw [joinNext]
    split
    · refine List.pairwise_cons.mpr ⟨fun a ha => ?_, hl⟩
      have := ht a ha
      simp only
      omega
    · refine List.pairwise_cons.mpr ⟨fun a ha => ?_, hsep⟩
      rcases List.mem_cons.mp ha with rfl | ha
      · omega
      · have := ht a ha
        omega

/-- What holds of all blocks and is kept by joining holds afterwards. -/
theorem forall_joinNext {P : Span → Prop} (hs : P s) (hl : ∀ t ∈ l, P t)
    (hjoin : ∀ t ∈ l, s.start + s.len = t.start → P ⟨s.start, s.len + t.len⟩) : ∀ t ∈ joinNext s l, P t := by
  cases l with
  | nil =>
    intro t ht
    rw [List.mem_singleton.mp ht]
    exact hs
  | cons t l =>
    rw [joinNext]
    split
    · rename_i heq
      intro a ha
      rcases List.mem_cons.mp ha with rfl | ha
      · exact hjoin t (List.mem_cons_self ..) heq
      · exact hl a (List.mem_cons_of_mem _ ha)
    · intro a ha
      rcases List.mem_cons.mp ha with rfl | ha
      · exact hs
      · exact hl a ha

theorem joinNext_len (ht : t ∈ l) : ∃ t' ∈ joinNext s l, t.len ≤ t'.len := by
  cases l with
  | nil => cases ht
  | cons r l =>
    rw [joinNext]
    split
    · rcases List.mem_cons.mp ht with rfl | ht
      · exact ⟨_, List.mem_cons_self .., Nat.le_add_left _ _⟩
      · exact ⟨t, List.mem_cons_of_mem _ ht, Nat.le_refl _⟩
    · exact ⟨t, List.mem_cons_of_mem _ ht, Nat.le_refl _⟩

theorem joinNext_head (s : Span) (l : List Span) : ∃ t ∈ joinNext s l, t.start = s.start ∧ s.len ≤ t.len := by
  cases l with
  | nil => exact ⟨s, List.mem_singleton.mpr rfl, rfl, Nat.le_refl _⟩
  | cons t l =>
    rw [joinNext]
    split
    · exact ⟨_, List.mem_cons_self .., rfl, Nat.le_add_right _ _⟩
    · exact ⟨s, List.mem_cons_self .., rfl, Nat.le_refl _⟩

end Join

/-- A block between the blocks in front of it and those behind it, joined with its neighbours. -/
def insertSpan (u : List Span) (b : Span) (v : List Span) : List Span :=
  match u.getLast? with
  | none => joinNext b v
  | some s => u.dropLast ++ joinNext s (joinNext b v)

section Insert
variable {u v : List Span} {b s : Span} {x : Nat}

@[simp] theorem insertSpan_nil : insertSpan [] b v = joinNext b v := rfl

@[simp] theorem insertSpan_snoc : insertSpan (u ++ [s]) b v = u ++ joinNext s (joinNext b v) := by simp [insertSpan]

theorem insertSpan_covers : Covers (insertSpan u b v) x ↔ b.Has x ∨ Covers (u ++ v) x := by
  rcases List.eq_nil_or_concat u with rfl | ⟨u, s, rfl⟩
  · simp [joinNext_covers]
  · rw [List.concat_eq_append, insertSpan_snoc]
    simp only [covers_append, joinNext_covers, covers_cons, covers_nil, or_false]
    constructor
    · rintro (hu | hs | hb | hv)
      · exact .inr (.inl (.inl hu))
      · exact .inr (.inl (.inr hs))
      · exact .inl hb
      · exact .inr (.inr hv)
    · rintro (hb | (hu | hs) | hv)
      · exact .inr (.inr (.inl hb))
      · exact .inl hu
      · exact .inr (.inl hs)
      · exact .inr (.inr (.inr hv))

theorem forall_insertSpan {P : Span → Prop} (h : ∀ t ∈ u ++ v, P t) (hb : P b)
    (hjoin : ∀ s t, P s → P t → s.start + s.len = t.start → P ⟨s.start, s.len + t.len⟩) : ∀ t ∈ insertSpan u b v, P t := by
  have hmid : ∀ t ∈ joinNext b v, P t := forall_joinNext hb (fun t ht => h t (List.mem_append_right _ ht))
    fun t ht => hjoin b t hb (h t (List.mem_append_right _ ht))
  rcases List.eq_nil_or_concat u with rfl | ⟨u, s, rfl⟩
  · exact hmid
  · rw [List.concat_eq_append] at h ⊢
    rw [insertSpan_snoc]
    have hs : P s := h s (by simp)
    intro t ht
    rcases List.mem_append.mp ht with ht | ht
    · exact h t (by simp [ht])
    · exact forall_joinNext hs hmid (fun t ht => hjoin s t hs (hmid t ht)) t ht

theorem insertSpan_separated (h : Separated (u ++ v)) (hu : ∀ t ∈ u, t.start + t.len ≤ b.start)
    (hv : ∀ t ∈ v, b.start + b.len ≤ t.start) : Separated (insertSpan u b v) := by
  obtain ⟨hsu, hsv, -⟩ := List.pairwise_append.mp h
  have hmid : Separated (joinNext b v) := joinNext_separated hsv hv
  rcases List.eq_nil_or_concat u with rfl | ⟨u, s, rfl⟩
  · exact hmid
  · rw [List.concat_eq_append] at hsu hu ⊢
    rw [insertSpan_snoc]
    obtain ⟨hsu, -, hus⟩ := List.pairwise_append.mp hsu
    have hfirst : ∀ t ∈ joinNext b v, b.start ≤ t.start :=
      forall_joinNext (Nat.le_refl _) (fun t ht => Nat.le_trans (Nat.le_add_right _ _) (hv t ht)) fun _ _ _ => Nat.le_refl _
    have hs : s.start + s.len ≤ b.start := hu s (by simp)
    refine List.pairwise_append.mpr ⟨hsu, joinNext_separated hmid fun t ht => Nat.le_trans hs (hfirst t ht),
      fun a ha t ht => ?_⟩
    have hstart : s.start ≤ t.start := forall_joinNext (P := fun t => s.start ≤ t.start) (Nat.le_refl _)
      (fun t ht => Nat.le_trans (Nat.le_trans (Nat.le_add_right _ _) hs) (hfirst t ht)) (fun _ _ _ => Nat.le_refl _) t ht
    exact Nat.lt_of_lt_of_le (hus a ha s (by simp)) hstart

theorem length_joinNext (s : Span) (l : List Span) : (joinNext s l).length ≤ l.length + 1 := by
  cases l with
  | nil => exact Nat.le_refl _
  | cons t l =>
    rw [joinNext]
    split
    · exact Nat.le_succ _
    · exact Nat.le_refl _

theorem length_insertSpan : (insertSpan u b v).length ≤ (u ++ v).length + 1 := by
  have hmid := length_joinNext b v
  rcases List.eq_nil_or_concat u with rfl | ⟨u, s, rfl⟩
  · exact hmid
  · have hend := length_joinNext s (joinNext b v)
    rw [List.concat_eq_append, insertSpan_snoc]
    simp only [List.length_append, List.length_singleton]
    omega

/-- A free block is at least as large as what went into it. -/
theorem insertSpan_len : ∃ t ∈ insertSpan u b v, b.len ≤ t.len := by
  obtain ⟨t, ht, -, hlen⟩ := joinNext_head b v
  rcases List.eq_nil_or_concat u with rfl | ⟨u, s, rfl⟩
  · exact ⟨t, ht, hlen⟩
  · rw [List.concat_eq_append, insertSpan_snoc]
    obtain ⟨t', ht', hlen'⟩ := joinNext_len (s := s) ht
    exact ⟨t', List.mem_append_right _ ht', Nat.le_trans hlen hlen'⟩

end Insert

end Lib
