import Mathlib.Data.List.Nodup
import Xv6.Lib.Circle

/-! Circular lists with links in both directions and a head that is no element. A node is an element, or the head. -/

namespace Lib

structure Links (α : Type) where
  next : Option α → Option α
  prev : Option α → Option α

namespace Links
variable {α : Type}

/-- The same list in the other direction. -/
def swap (l : Links α) : Links α := ⟨l.prev, l.next⟩

section
variable [DecidableEq α]

/-- The element `b` is linked in behind the head. -/
def push (l : Links α) (b : α) : Links α :=
  let l := { l with next := Function.update l.next (some b) (l.next none) }
  let l := { l with prev := Function.update l.prev (some b) none }
  let l := { l with prev := Function.update l.prev (l.next none) (some b) }
  { l with next := Function.update l.next none (some b) }

/-- The neighbours of `b` are linked to each other. -/
def unlink (l : Links α) (b : α) : Links α :=
  let l := { l with prev := Function.update l.prev (l.next (some b)) (l.prev (some b)) }
  { l with next := Function.update l.next (l.prev (some b)) (l.next (some b)) }

end

/-- The loop over the list from the head on, up to the first element with `P`; the head, if there is none. -/
def search (l : Links α) (P : α → Bool) (fuel : Nat) : Option (Option α) :=
  walk l.next (fun n => n.all P) fuel (l.next none)

/-- The nodes from `a` to `z`, with the elements between them. -/
def Seg (l : Links α) : Option α → List α → Option α → Prop
  | a, [], z => l.next a = z ∧ l.prev z = a
  | a, b :: bs, z => (l.next a = some b ∧ l.prev (some b) = a) ∧ Seg l (some b) bs z

variable {l l' : Links α} {a z : Option α} {b c : α} {bs cs : List α}

theorem seg_append : l.Seg a (bs ++ c :: cs) z ↔ l.Seg a bs (some c) ∧ l.Seg (some c) cs z := by
  induction bs generalizing a with
  | nil => exact Iff.rfl
  | cons b bs ih =>
    simp only [List.cons_append, Seg, ih]
    exact and_assoc.symm

/-- Links that are not on the way may change. -/
theorem Seg.congr (h : l.Seg a bs z) (hnext : ∀ n, n = a ∨ n ∈ bs.map some → l'.next n = l.next n)
    (hprev : ∀ n, n = z ∨ n ∈ bs.map some → l'.prev n = l.prev n) : l'.Seg a bs z := by
  induction bs generalizing a with
  | nil => exact ⟨(hnext a (.inl rfl)).trans h.1, (hprev z (.inl rfl)).trans h.2⟩
  | cons b bs ih =>
    refine ⟨⟨(hnext a (.inl rfl)).trans h.1.1, (hprev _ (.inr (by simp))).trans h.1.2⟩, ih h.2 ?_ ?_⟩
    · rintro n (rfl | hn)
      · exact hnext _ (.inr (by simp))
      · exact hnext n (.inr (List.mem_cons_of_mem _ hn))
    · rintro n (rfl | hn)
      · exact hprev _ (.inl rfl)
      · exact hprev n (.inr (List.mem_cons_of_mem _ hn))

/-- The last node before the end. -/
theorem Seg.last (h : l.Seg a bs z) : l.next ((bs.getLast?.map some).getD a) = z ∧
    l.prev z = (bs.getLast?.map some).getD a := by
  induction bs generalizing a with
  | nil => exact h
  | cons b bs ih =>
    have hlast := ih h.2
    cases bs with
    | nil => exact hlast
    | cons c cs => rwa [List.getLast?_cons_cons]

theorem Seg.swap (h : l.Seg a bs z) : l.swap.Seg z bs.reverse a := by
  induction bs generalizing a with
  | nil => exact ⟨h.2, h.1⟩
  | cons b bs ih =>
    rw [List.reverse_cons, seg_append]
    exact ⟨ih h.2, h.1.2, h.1.1⟩

/-- The loop finds the first element. -/
theorem search_eq {P : α → Bool} {fuel : Nat} (h : l.Seg none bs none) (hfuel : bs.length < fuel) :
    l.search P fuel = some (bs.find? P) := by
  suffices hwalk : ∀ {a : Option α} {fuel : Nat}, l.Seg a bs none → bs.length < fuel →
      walk l.next (fun n => n.all P) fuel (l.next a) = some (bs.find? P) from hwalk h hfuel
  clear h hfuel
  intro a fuel h hfuel
  induction bs generalizing a fuel with
  | nil =>
    obtain ⟨fuel, rfl⟩ := Nat.exists_eq_succ_of_ne_zero (Nat.ne_of_gt hfuel)
    rw [h.1]
    rfl
  | cons b bs ih =>
    obtain ⟨fuel, rfl⟩ := Nat.exists_eq_succ_of_ne_zero (Nat.ne_of_gt (Nat.zero_lt_of_lt hfuel))
    rw [h.1.1, walk]
    by_cases hb : P b = true
    · rw [Option.all_some, if_pos hb, List.find?_cons_of_pos hb]
    · rw [Option.all_some, if_neg hb, List.find?_cons_of_neg hb]
      exact ih h.2 (Nat.lt_of_succ_lt_succ hfuel)

/-- Each node comes up once on the way around. -/
theorem Seg.iterate (h : l.Seg a bs z) (k : Nat) (hk : k ≤ bs.length) :
    l.next^[k + 1] a = ((bs.map some)[k]?).getD z := by
  induction k generalizing a bs with
  | zero =>
    cases bs with
    | nil => exact h.1
    | cons b bs => exact h.1.1
  | succ k ih =>
    cases bs with
    | nil => simp at hk
    | cons b bs =>
      rw [Function.iterate_succ_apply, h.1.1]
      simpa using ih h.2 (by simpa using hk)

/-- The two directions are inverse to each other. -/
theorem Seg.prev_next (h : l.Seg a bs z) {n : Option α} (hn : n = a ∨ n ∈ bs.map some) : l.prev (l.next n) = n := by
  induction bs generalizing a with
  | nil =>
    obtain rfl : n = a := by simpa using hn
    rw [h.1, h.2]
  | cons b bs ih =>
    rcases hn with rfl | hn
    · rw [h.1.1, h.1.2]
    · exact ih h.2 (by simpa using hn)

/-! ### Changes -/

theorem next_head (h : l.Seg none bs none) : l.next none = bs.head? := by
  cases bs with
  | nil => exact h.1
  | cons b bs => exact h.1.1

/-- The way leads to another end. -/
theorem Seg.retarget {y : Option α} (h : l.Seg a bs y) (hnodup : (a :: bs.map some).Nodup)
    (hlast : l'.next ((bs.getLast?.map some).getD a) = z) (hz : l'.prev z = (bs.getLast?.map some).getD a)
    (hnext : ∀ n, n ≠ (bs.getLast?.map some).getD a → l'.next n = l.next n)
    (hprev : ∀ n ∈ bs.map some, l'.prev n = l.prev n) : l'.Seg a bs z := by
  induction bs generalizing a with
  | nil => exact ⟨hlast, hz⟩
  | cons b bs ih =>
    rw [List.map_cons, List.nodup_cons] at hnodup
    have hsome : ((b :: bs).getLast?.map some).getD a = (bs.getLast?.map some).getD (some b) := by
      cases bs with
      | nil => rfl
      | cons c cs =>
        rw [List.getLast?_cons_cons]
        simp [List.getLast?_cons]
    have hne : a ≠ (bs.getLast?.map some).getD (some b) := by
      rintro rfl
      refine hnodup.1 ?_
      cases hl : bs.getLast? with
      | none => simp
      | some c => simp [List.mem_of_getLast? hl]
    rw [hsome] at hlast hz hnext
    refine ⟨⟨(hnext a hne).trans h.1.1, (hprev _ List.mem_cons_self).trans h.1.2⟩, ih h.2 hnodup.2 hlast hz hnext ?_⟩
    exact fun n hn => hprev n (List.mem_cons_of_mem _ hn)

variable [DecidableEq α]

theorem seg_push (h : l.Seg none bs none) (hb : b ∉ bs) (hnodup : bs.Nodup) : (l.push b).Seg none (b :: bs) none := by
  have hhead : l.next none = bs.head? := next_head h
  have hnext (n : Option α) (h0 : n ≠ none) (h1 : n ≠ some b) : (l.push b).next n = l.next n := by
    simp only [push]
    rw [Function.update_of_ne h0, Function.update_of_ne h1]
  have hprev (n : Option α) (h0 : n ≠ bs.head?) (h1 : n ≠ some b) : (l.push b).prev n = l.prev n := by
    simp only [push]
    rw [Function.update_of_ne (Option.some_ne_none b).symm, hhead, Function.update_of_ne h0, Function.update_of_ne h1]
  have hfirst : (l.push b).next none = some b := by simp [push]
  have hsecond : (l.push b).next (some b) = bs.head? := by simp [push, hhead]
  have hback : (l.push b).prev bs.head? = some b := by simp [push, hhead]
  cases bs with
  | nil =>
    refine ⟨⟨hfirst, ?_⟩, hsecond, hback⟩
    simp [push, hhead]
  | cons c cs =>
    rw [List.mem_cons, not_or] at hb
    rw [List.nodup_cons] at hnodup
    refine ⟨⟨hfirst, ?_⟩, ⟨hsecond, hback⟩, h.2.congr (fun n hn => ?_) fun n hn => ?_⟩
    · simp [push, hhead, hb.1]
    · have hn' : n ∈ (c :: cs).map some := by simpa using hn
      obtain ⟨x, hx, rfl⟩ := List.mem_map.mp hn'
      refine hnext _ (by simp) fun hxb => ?_
      cases hxb
      exact (List.mem_cons.mp hx).elim hb.1 hb.2
    · rcases hn with rfl | hn
      · exact hprev _ (by simp) (by simp)
      · obtain ⟨x, hx, rfl⟩ := List.mem_map.mp hn
        refine hprev _ (fun hxc => ?_) fun hxb => ?_
        · cases hxc
          exact hnodup.1 hx
        · cases hxb
          exact hb.2 hx

section
variable {x : Option α} (hz : l.next (some b) = z) (hx : l.prev (some b) = x) (hb : some b ≠ z) {n : Option α}
include hz

theorem unlink_prev (hn : n ≠ z) : (l.unlink b).prev n = l.prev n := by
  simp only [unlink]
  rw [hz, Function.update_of_ne hn]

include hx

theorem unlink_prev_self : (l.unlink b).prev z = x := by
  simp only [unlink]
  rw [hz, Function.update_self, hx]

include hb

theorem unlink_next (hn : n ≠ x) : (l.unlink b).next n = l.next n := by
  simp only [unlink]
  rw [hz, Function.update_of_ne hb, hx, Function.update_of_ne hn]

theorem unlink_next_self : (l.unlink b).next x = z := by
  simp only [unlink]
  rw [hz, Function.update_of_ne hb, hx, Function.update_self]

end

theorem seg_unlink (h : l.Seg none (bs ++ b :: cs) none) (hnodup : (bs ++ b :: cs).Nodup) :
    (l.unlink b).Seg none (bs ++ cs) none := by
  obtain ⟨hfront, hrear⟩ := seg_append.mp h
  obtain ⟨-, hlast⟩ := hfront.last
  obtain ⟨hbs, hbcs, hdisj⟩ := List.nodup_append.mp hnodup
  rw [List.nodup_cons] at hbcs
  have hz : l.next (some b) = cs.head? := by
    cases cs with
    | nil => exact hrear.1
    | cons c cs => exact hrear.1.1
  have hb : some b ≠ cs.head? := fun hbc => hbcs.1 (List.mem_of_mem_head? (by rw [← hbc]; rfl))
  have hnew : (l.unlink b).Seg none bs cs.head? := by
    have hnd : (none :: bs.map some).Nodup := by
      rw [List.nodup_cons]
      exact ⟨by simp, hbs.map (Option.some_injective _)⟩
    refine hfront.retarget hnd (unlink_next_self hz hlast hb) (unlink_prev_self hz hlast) (fun n => unlink_next hz hlast hb)
      fun n hn => ?_
    obtain ⟨y, hy, rfl⟩ := List.mem_map.mp hn
    refine unlink_prev hz fun hyc => ?_
    have hmem : y ∈ cs := List.mem_of_mem_head? (by rw [← hyc]; rfl)
    exact hdisj y hy y (List.mem_cons_of_mem _ hmem) rfl
  cases cs with
  | nil => rwa [List.append_nil]
  | cons c cs =>
    rw [List.nodup_cons] at hbcs
    refine seg_append.mpr ⟨hnew, hrear.2.congr (fun n hn => unlink_next hz hlast hb ?_) fun n hn => unlink_prev hz ?_⟩
    · have hn' : n ∈ (c :: cs).map some := by simpa using hn
      obtain ⟨y, hy, rfl⟩ := List.mem_map.mp hn'
      cases hl : bs.getLast? with
      | none => simp
      | some d =>
        intro heq
        cases heq
        exact hdisj y (List.mem_of_getLast? hl) y (List.mem_cons_of_mem _ hy) rfl
    · rcases hn with rfl | hn
      · simp
      · obtain ⟨y, hy, rfl⟩ := List.mem_map.mp hn
        intro hyc
        cases hyc
        exact hbcs.2.1 hy

/-- An element is moved to the front. -/
theorem seg_move (h : l.Seg none bs none) (hnodup : bs.Nodup) (hb : b ∈ bs) :
    ((l.unlink b).push b).Seg none (b :: bs.erase b) none := by
  obtain ⟨front, rear, hno, hbs, herase⟩ := List.exists_erase_eq hb
  rw [hbs] at h hnodup
  rw [herase]
  have hnodup' := hnodup
  rw [List.nodup_middle, List.nodup_cons] at hnodup'
  exact seg_push (seg_unlink h hnodup) hnodup'.1 hnodup'.2

end Links

end Lib
