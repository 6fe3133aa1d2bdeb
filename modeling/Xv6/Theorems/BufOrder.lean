import Mathlib.Data.Fintype.Card
import Xv6.BufList
import Xv6.Lib.Run

/-! The list of the buffer cache is in the order in which the buffers were last given up. Only `brelse` changes the
    links, and it moves the buffer that has been given up to the front. -/

namespace Xv6.Bcache
open Lib

/-- The pointers from the head form two inverse circular orders, with each buffer once. -/
def Circular (l : Links (Fin nbuf)) : Prop :=
  (∀ n, l.prev (l.next n) = n ∧ l.next (l.prev n) = n) ∧
    ∃ order : List (Fin nbuf), order.Nodup ∧ (∀ i, i ∈ order) ∧
      ∀ k ≤ nbuf, l.next^[k + 1] none = order[k]? ∧ l.prev^[k + 1] none = order.reverse[k]?

/-- The `refcnt` of `i` dropped to 0 before that of `j` did, or none of them ever has. -/
def Ages.Older (h : Ages) (i j : Fin nbuf) : Prop := h.dropped i < h.dropped j ∨ h.dropped i = 0 ∧ h.dropped j = 0

/-- The links are those of the list, and the list is in the order of the ages. -/
structure InOrder (h : Ages) (order : List (Fin nbuf)) : Prop where
  seg : h.cache.links.Seg none order none
  nodup : order.Nodup
  all : ∀ i, i ∈ order
  ages : order.Pairwise fun i j => h.Older j i
  past : ∀ i, h.dropped i ≤ h.clock

section
variable {h h' : Ages} {order : List (Fin nbuf)} {links : Links (Fin nbuf)}

theorem InOrder.length (ho : InOrder h order) : order.length = nbuf := by
  rw [← List.toFinset_card_of_nodup ho.nodup, Finset.eq_univ_of_forall fun i => List.mem_toFinset.mpr (ho.all i),
    Finset.card_univ, Fintype.card_fin]

theorem InOrder.circular (ho : InOrder h order) : Circular h.cache.links := by
  have hnode (l : List (Fin nbuf)) (hl : ∀ i, i ∈ l) (n : Option (Fin nbuf)) : n = none ∨ n ∈ l.map some := by
    cases n with
    | none => exact .inl rfl
    | some i => exact .inr (List.mem_map_of_mem (hl i))
  have hrev (i : Fin nbuf) : i ∈ order.reverse := List.mem_reverse.mpr (ho.all i)
  have hget (l : List (Fin nbuf)) (k : Nat) : ((l.map some)[k]?).getD none = l[k]? := by
    rw [List.getElem?_map]
    cases l[k]? <;> rfl
  refine ⟨fun n => ⟨ho.seg.prev_next (hnode order ho.all n), ho.seg.swap.prev_next (hnode order.reverse hrev n)⟩,
    order, ho.nodup, ho.all, fun k hk => ⟨?_, ?_⟩⟩
  · rw [ho.seg.iterate k (by rw [ho.length]; exact hk), hget]
  · have hback := ho.seg.swap.iterate k (by rw [List.length_reverse, ho.length]; exact hk)
    rw [hget] at hback
    exact hback

/-! ### binit -/

theorem foldl_push {l : Links (Fin nbuf)} {bs : List (Fin nbuf)} (as : List (Fin nbuf)) (hl : l.Seg none bs none)
    (hnodup : (as.reverse ++ bs).Nodup) : (as.foldl Links.push l).Seg none (as.reverse ++ bs) none := by
  induction as generalizing l bs with
  | nil => exact hl
  | cons a as ih =>
    rw [List.reverse_cons, List.append_assoc, List.singleton_append] at hnodup ⊢
    have hrest := (List.nodup_append.mp hnodup).2.1
    rw [List.nodup_cons] at hrest
    exact ih (Links.seg_push hl hrest.1 hrest.2) hnodup

theorem binit_inOrder (links : Links (Fin nbuf)) : InOrder (.binit links) (List.finRange nbuf).reverse := by
  have hnodup : (List.finRange nbuf).reverse.Nodup := List.nodup_reverse.mpr (List.nodup_finRange nbuf)
  refine ⟨?_, hnodup, fun i => List.mem_reverse.mpr (List.mem_finRange i), ?_, fun _ => Nat.le_refl 0⟩
  · have hempty : Links.Seg ⟨Function.update links.next none none, Function.update links.prev none none⟩ none
        ([] : List (Fin nbuf)) none := ⟨by simp, by simp⟩
    have hseg := foldl_push (List.finRange nbuf) hempty (by rwa [List.append_nil])
    rwa [List.append_nil] at hseg
  · exact List.pairwise_of_forall fun _ _ => .inr ⟨rfl, rfl⟩

/-! ### Steps -/

theorem InOrder.still (ho : InOrder h order) (hlinks : h'.cache.links = h.cache.links) (hdropped : h'.dropped = h.dropped)
    (hclock : h.clock ≤ h'.clock) : InOrder h' order := by
  refine ⟨hlinks ▸ ho.seg, ho.nodup, ho.all, ?_, fun i => hdropped ▸ Nat.le_trans (ho.past i) hclock⟩
  simp only [Ages.Older, hdropped]
  exact ho.ages

theorem InOrder.move (ho : InOrder h order) (i : Fin nbuf) (hlinks : h'.cache.links = (h.cache.links.unlink i).push i)
    (hdropped : h'.dropped = Function.update h.dropped i (h.clock + 1)) (hclock : h'.clock = h.clock + 1) :
    InOrder h' (i :: order.erase i) := by
  have hother (j : Fin nbuf) (hj : j ≠ i) : h'.dropped j = h.dropped j := by rw [hdropped, Function.update_of_ne hj]
  have hself : h'.dropped i = h.clock + 1 := by rw [hdropped, Function.update_self]
  refine ⟨hlinks ▸ Links.seg_move ho.seg ho.nodup (ho.all i), ?_, fun j => ?_, ?_, fun j => ?_⟩
  · exact List.nodup_cons.mpr ⟨ho.nodup.not_mem_erase, ho.nodup.erase i⟩
  · rw [List.mem_cons, List.Nodup.mem_erase_iff ho.nodup]
    exact (eq_or_ne j i).imp id fun hne => ⟨hne, ho.all j⟩
  · rw [List.pairwise_cons]
    constructor
    · intro j hj
      have hne := (List.Nodup.mem_erase_iff ho.nodup).mp hj
      refine .inl ?_
      rw [hself, hother j hne.1]
      exact Nat.lt_succ_of_le (ho.past j)
    · refine (ho.ages.sublist List.erase_sublist).imp_of_mem fun {j k} hj hk hold => ?_
      have hj' := (List.Nodup.mem_erase_iff ho.nodup).mp hj
      have hk' := (List.Nodup.mem_erase_iff ho.nodup).mp hk
      rw [Ages.Older, hother j hj'.1, hother k hk'.1]
      exact hold
  · rw [hclock]
    by_cases hj : j = i
    · rw [hj, hself]
    · rw [hother j hj]
      exact Nat.le_succ_of_le (ho.past j)

theorem bget_links {c c' : Cache} {dev blockno : Nat} {got : Got} (hget : c.bget dev blockno = some (got, c')) :
    c'.links = c.links := by
  obtain ⟨r, -, hr⟩ := Option.bind_eq_some_iff.mp hget
  cases r with
  | some i =>
    cases hr
    rfl
  | none =>
    obtain ⟨r, -, hr⟩ := Option.map_eq_some_iff.mp hr
    cases r <;> cases hr <;> rfl

theorem InOrder.step {e : ListEvent} (ho : InOrder h order) (hs : h.step e = some h') : ∃ order', InOrder h' order' := by
  cases e with
  | bget dev blockno =>
    obtain ⟨⟨got, c⟩, hget, hs⟩ := Option.bind_eq_some_iff.mp hs
    dsimp only at hs
    split at hs
    · cases hs
    · cases hs
      exact ⟨order, ho.still (bget_links hget) rfl (Nat.le_succ _)⟩
  | brelse i =>
    rw [Ages.step] at hs
    split at hs
    · cases hs
    · dsimp only at hs
      by_cases hzero : ((h.cache.brelse i).buf i).refcnt = 0
      · rw [if_pos hzero] at hs
        cases hs
        refine ⟨_, ho.move i ?_ rfl rfl⟩
        have hz : ((h.cache.set i { h.cache.buf i with refcnt := (h.cache.buf i).refcnt - 1 }).buf i).refcnt = 0 := by
          rw [Cache.brelse] at hzero
          split at hzero <;> exact hzero
        rw [Cache.brelse, if_pos hz]
        rfl
      · rw [if_neg hzero] at hs
        cases hs
        refine ⟨order, ho.still ?_ rfl (Nat.le_succ _)⟩
        have hz : ((h.cache.set i { h.cache.buf i with refcnt := (h.cache.buf i).refcnt - 1 }).buf i).refcnt ≠ 0 := by
          rw [Cache.brelse] at hzero
          split at hzero <;> exact hzero
        rw [Cache.brelse, if_neg hz]
        rfl
  | setDirty i dirty =>
    cases hs
    exact ⟨order, ho.still rfl rfl (Nat.le_succ _)⟩

/-! ### bget -/

theorem InOrder.oldest (ho : InOrder h order) {i : Fin nbuf} (hi : order.reverse.find? h.cache.isFree = some i) :
    h.cache.isFree i = true ∧ ∀ j, h.cache.isFree j = true → j ≠ i → h.Older i j := by
  obtain ⟨hfree, front, rear, hsplit, hbefore⟩ := List.find?_eq_some_iff_append.mp hi
  refine ⟨hfree, fun j hj hne => ?_⟩
  have hages : order.reverse.Pairwise h.Older := List.pairwise_reverse.mpr ho.ages
  have hmem : j ∈ order.reverse := List.mem_reverse.mpr (ho.all j)
  rw [hsplit] at hages hmem
  rcases List.mem_append.mp hmem with hmem | hmem
  · exact absurd hj (by simpa using hbefore j hmem)
  · rcases List.mem_cons.mp hmem with rfl | hmem
    · exact absurd rfl hne
    · exact (List.pairwise_cons.mp (List.pairwise_append.mp hages).2.1).1 j hmem

theorem InOrder.bget (ho : InOrder h order) (dev blockno : Nat) :
    ∃ got c, h.cache.bget dev blockno = some (got, c) ∧
      (∀ i, got = .recycled i → h.cache.isFree i = true ∧ ∀ j, h.cache.isFree j = true → j ≠ i → h.Older i j) ∧
      (got = .noBuffers → ∀ j, h.cache.isFree j = false) := by
  have hlen : order.length < nbuf + 1 := by rw [ho.length]; exact Nat.lt_succ_self _
  rw [Cache.bget, Links.search_eq ho.seg hlen, Option.bind_some]
  cases hfind : order.find? (h.cache.isFor dev blockno) with
  | some i => exact ⟨_, _, rfl, nofun, nofun⟩
  | none =>
    dsimp only
    rw [Links.search_eq ho.seg.swap (by rwa [List.length_reverse]), Option.map_some]
    cases hvictim : order.reverse.find? h.cache.isFree with
    | some i =>
      refine ⟨_, _, rfl, fun j hj => ?_, nofun⟩
      cases hj
      exact ho.oldest hvictim
    | none =>
      refine ⟨_, _, rfl, nofun, fun _ j => ?_⟩
      rw [List.find?_eq_none] at hvictim
      simpa using hvictim j (List.mem_reverse.mpr (ho.all j))

end

/-- After any sequence of `bget` and `brelse` the list has each buffer once in both directions, and `bget` recycles the
    buffer that was given up longest ago. -/
theorem list_lru {links : Links (Fin nbuf)} {tr : List (Ages × ListEvent)} {h : Ages}
    (hrun : Run (OfStep Ages.step) (.binit links) tr h) :
    Circular h.cache.links ∧ ∀ dev blockno, ∃ got c, h.cache.bget dev blockno = some (got, c) ∧
      (∀ i, got = .recycled i → h.cache.isFree i = true ∧ ∀ j, h.cache.isFree j = true → j ≠ i → h.Older i j) ∧
      (got = .noBuffers → ∀ j, h.cache.isFree j = false) := by
  obtain ⟨order, ho⟩ : ∃ order, InOrder h order := by
    refine hrun.invariant (I := fun h => ∃ order, InOrder h order) ⟨_, binit_inOrder links⟩ ?_
    rintro h e h' ⟨order, ho⟩ hs
    exact ho.step hs
  exact ⟨ho.circular, ho.bget⟩

/-- When all buffers have been in use and 3 and then 1 has been given up, `bget` recycles 3. -/
theorem list_lru_recycles : ∃ tr h c, Run (OfStep Ages.step) (.binit ⟨fun _ => none, fun _ => none⟩) tr h ∧
    tr.map (·.2) = (List.range nbuf).map (.bget 1) ++ [.brelse 3, .brelse 1] ∧ Circular h.cache.links ∧
    h.cache.bget 1 99 = some (.recycled 3, c) ∧ h.cache.isFree 1 = true ∧ h.Older 3 1 := by
  obtain ⟨tr, h, hrun, htr, hgot, hfree⟩ := Run.exists_of_traceOf (f := Ages.step) (.binit ⟨fun _ => none, fun _ => none⟩)
    ((List.range nbuf).map (.bget 1) ++ [.brelse 3, .brelse 1])
    (fun _ h => (h.cache.bget 1 99).map Prod.fst = some (.recycled 3) ∧ h.cache.isFree 1 = true) (by decide +kernel)
  obtain ⟨hcirc, hbget⟩ := list_lru hrun
  obtain ⟨got, c, hget, hold, -⟩ := hbget 1 99
  rw [hget] at hgot
  obtain rfl := Option.some.inj hgot
  exact ⟨tr, h, c, hrun, htr, hcirc, hget, hfree, (hold 3 rfl).2 1 hfree (by decide)⟩

/-! ### The cache of the system -/

/-- The list of the system that shares the cache is what these pointers hold. -/
theorem system_order {ι : Type} [DecidableEq ι] {s : System ι} {l : Links (Fin nbuf)} (hseg : l.Seg none s.order none)
    (hnodup : s.order.Nodup) {fuel : Nat} (hfuel : s.order.length < fuel) (b : Nat) :
    l.search (fun i => (s.buf i).dev = rootdev ∧ (s.buf i).blockno = b) fuel = some (s.find b) ∧
      l.swap.search (fun i => (s.buf i).refcnt = 0 ∧ (s.buf i).dirty = false) fuel = some s.victim ∧
      ∀ i ∈ s.order, ((l.unlink i).push i).Seg none (i :: s.order.erase i) none :=
  ⟨Links.search_eq hseg hfuel, Links.search_eq hseg.swap (by rwa [List.length_reverse]),
    fun _ hi => Links.seg_move hseg hnodup hi⟩

end Xv6.Bcache
