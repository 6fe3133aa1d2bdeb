import Xv6.Lib.Run
import Xv6.Umalloc

/-! The heap of a user program: the free list is a circle through `base` in the order of the addresses, no two free
    blocks touch, and the free blocks and the ones in use are exactly the memory that `sbrk` returned. -/

namespace Xv6.Umalloc
open Lib

/-- From the pointer `n` the list leads through the blocks `l` to `z`, and the headers have their sizes. -/
def Links (h : Heap) : Nat → List Span → Nat → Prop
  | n, [], z => n = z
  | n, s :: l, z => n = s.start ∧ s.len = headerSize * h.size s.start ∧ Links h (h.ptr s.start) l z

section Links
variable {h h' : Heap} {n m z a : Nat} {l l' : List Span} {s : Span}

theorem Links.congr (hl : Links h n l z) (hsame : ∀ s ∈ l, h'.ptr s.start = h.ptr s.start ∧
    h'.size s.start = h.size s.start) :
    Links h' n l z := by
  induction l generalizing n with
  | nil => exact hl
  | cons s l ih =>
    obtain ⟨hn, hlen, hrest⟩ := hl
    obtain ⟨hptr, hsize⟩ := hsame s (List.mem_cons_self ..)
    refine ⟨hn, hsize ▸ hlen, ?_⟩
    rw [hptr]
    exact ih hrest fun t ht => hsame t (List.mem_cons_of_mem _ ht)

theorem links_append : Links h n (l ++ l') z ↔ ∃ m, Links h n l m ∧ Links h m l' z := by
  induction l generalizing n with
  | nil =>
    refine ⟨fun hl => ⟨n, rfl, hl⟩, ?_⟩
    rintro ⟨_, rfl, hl⟩
    exact hl
  | cons s l ih =>
    simp only [List.cons_append, Links, ih]
    constructor
    · rintro ⟨hn, hlen, m, hl, hl'⟩
      exact ⟨m, ⟨hn, hlen, hl⟩, hl'⟩
    · rintro ⟨m, ⟨hn, hlen, hl⟩, hl'⟩
      exact ⟨hn, hlen, m, hl, hl'⟩

theorem Links.size (hl : Links h n l z) (hs : s ∈ l) : s.len = headerSize * h.size s.start := by
  induction l generalizing n with
  | nil => cases hs
  | cons t l ih =>
    rcases List.mem_cons.mp hs with rfl | hs
    · exact hl.2.1
    · exact ih hl.2.2 hs

theorem Links.iterate (hl : Links h n l z) : h.ptr^[l.length] n = z := by
  induction l generalizing n with
  | nil => exact hl
  | cons s l ih =>
    obtain ⟨rfl, -, hrest⟩ := hl
    exact ih hrest

theorem Links.reaches (hl : Links h n l z) (hs : s ∈ l) : ∃ k ≤ l.length, h.ptr^[k] n = s.start := by
  induction l generalizing n with
  | nil => cases hs
  | cons t l ih =>
    obtain ⟨rfl, -, hrest⟩ := hl
    rcases List.mem_cons.mp hs with rfl | hs
    · exact ⟨0, Nat.zero_le _, rfl⟩
    · obtain ⟨k, hk, heq⟩ := ih hrest hs
      exact ⟨k + 1, Nat.succ_le_succ hk, heq⟩

theorem link_brk : (h.link a n).brk = h.brk := by
  unfold Heap.link
  split <;> rfl

theorem Links.link (hl : Links h n l z) (ha : ∀ s ∈ l, s.start ≠ a) (hz : h.stop a ≠ z) :
    Links (h.link a n) a (joinNext ⟨a, headerSize * h.size a⟩ l) z ∧
      ∀ x, x ≠ a → (h.link a n).ptr x = h.ptr x ∧ (h.link a n).size x = h.size x := by
  cases l with
  | nil =>
    obtain rfl : n = z := hl
    rw [Heap.link, if_neg hz]
    refine ⟨⟨rfl, rfl, ?_⟩, fun x hx => ⟨Function.update_of_ne hx .., rfl⟩⟩
    exact Function.update_self ..
  | cons s l =>
    obtain ⟨rfl, hlen, hrest⟩ := hl
    have hsa : s.start ≠ a := ha s (List.mem_cons_self ..)
    rw [Heap.link, joinNext]
    by_cases heq : h.stop a = s.start
    · have hmeets : (⟨a, headerSize * h.size a⟩ : Span).start + (⟨a, headerSize * h.size a⟩ : Span).len = s.start := heq
      rw [if_pos heq, if_pos hmeets]
      refine ⟨⟨rfl, ?_, ?_⟩, fun x hx => ⟨Function.update_of_ne hx .., Function.update_of_ne hx ..⟩⟩
      · simp only [Function.update_self, hlen]
        rw [Nat.mul_add]
      · simp only [Function.update_self]
        refine hrest.congr fun t ht => ?_
        have hta : t.start ≠ a := ha t (List.mem_cons_of_mem _ ht)
        exact ⟨Function.update_of_ne hta .., Function.update_of_ne hta ..⟩
    · have hmeets : ¬(⟨a, headerSize * h.size a⟩ : Span).start + (⟨a, headerSize * h.size a⟩ : Span).len = s.start := heq
      rw [if_neg heq, if_neg hmeets]
      refine ⟨⟨rfl, rfl, ?_⟩, fun x hx => ⟨Function.update_of_ne hx .., rfl⟩⟩
      simp only [Function.update_self]
      refine ⟨rfl, hlen, ?_⟩
      simp only [Function.update_of_ne hsa]
      refine hrest.congr fun t ht => ?_
      have hta : t.start ≠ a := ha t (List.mem_cons_of_mem _ ht)
      exact ⟨Function.update_of_ne hta .., rfl⟩

end Links

/-! ### The invariant -/

def Node (base : Nat) (fs : List Span) (a : Nat) : Prop := a = base ∨ ∃ s ∈ fs, s.start = a

/-- The free list with the blocks `fs`, next to the blocks `live` in use. -/
structure Sound (base : Nat) (h : Heap) (fs live : List Span) : Prop where
  ring : Links h (h.ptr base) fs base
  empty : h.size base = 0
  freep : Node base fs h.freep
  separated : Separated fs
  pos : ∀ s ∈ fs, 0 < s.len
  sizes : ∀ s ∈ live, s.len = headerSize * h.size s.start ∧ headerSize ≤ s.len
  apart : live.Pairwise Span.Apart
  clear : ∀ s ∈ live, ∀ f ∈ fs, s.Apart f
  above : ∀ s ∈ fs ++ live, base < s.start ∧ s.start + s.len ≤ h.brk
  base_lt : base < h.brk

section Sound
variable {base : Nat} {h h' : Heap} {fs live : List Span} {a p bp : Nat} {s t : Span} {u v : List Span} {n : Nat}

theorem Sound.split (hS : Sound base h fs live) (ha : Node base fs a) :
    ∃ u v, fs = u ++ v ∧ Links h (h.ptr a) v base ∧ ((u = [] ∧ a = base) ∨ ∃ u' s, u = u' ++ [s] ∧ s.start = a) := by
  rcases ha with rfl | ⟨s, hs, rfl⟩
  · exact ⟨[], fs, rfl, hS.ring, .inl ⟨rfl, rfl⟩⟩
  · obtain ⟨u, v, rfl⟩ := List.append_of_mem hs
    obtain ⟨m, -, -, -, hv⟩ := links_append.mp hS.ring
    exact ⟨u ++ [s], v, by simp, hv, .inr ⟨u, s, rfl, rfl⟩⟩

theorem Sound.node_ptr (hS : Sound base h fs live) (ha : Node base fs a) : Node base fs (h.ptr a) := by
  obtain ⟨u, v, rfl, hv, -⟩ := hS.split ha
  cases v with
  | nil => exact .inl hv
  | cons s v => exact .inr ⟨s, by simp, hv.1.symm⟩

theorem Sound.node_iterate (hS : Sound base h fs live) (ha : Node base fs a) (k : Nat) : Node base fs (h.ptr^[k] a) := by
  induction k generalizing a with
  | zero => exact ha
  | succ k ih => exact ih (hS.node_ptr ha)

theorem Sound.length_lt (hS : Sound base h fs live) : fs.length < h.brk := by
  have hnodup : (fs.map Span.start).Nodup := by
    refine List.Pairwise.map _ (fun s t hst => ?_) hS.separated
    omega
  have hsub : fs.map Span.start ⊆ (List.range h.brk).erase base := by
    intro x hx
    obtain ⟨s, hs, rfl⟩ := List.mem_map.mp hx
    obtain ⟨hlt, hle⟩ := hS.above s (List.mem_append_left _ hs)
    have := hS.pos s hs
    exact (List.mem_erase_of_ne (by omega)).mpr (List.mem_range.mpr (by omega))
  have hle := (List.subperm_of_subset hnodup hsub).length_le
  have hbase := List.length_erase_of_mem (List.mem_range.mpr hS.base_lt)
  have := hS.base_lt
  rw [List.length_map] at hle
  rw [List.length_range] at hbase
  omega

theorem Sound.reaches (hS : Sound base h fs live) (ha : Node base fs a) (hp : Node base fs p) :
    ∃ k ≤ 2 * fs.length + 2, h.ptr^[k] a = p := by
  obtain ⟨u, v, hfs, hv, -⟩ := hS.split ha
  have hback : h.ptr^[v.length + 1] a = base := hv.iterate
  have hvle : v.length ≤ fs.length := by rw [hfs, List.length_append]; omega
  rcases hp with rfl | ⟨s, hs, rfl⟩
  · exact ⟨v.length + 1, by omega, hback⟩
  · obtain ⟨k, hk, heq⟩ := hS.ring.reaches hs
    refine ⟨k + 1 + (v.length + 1), by omega, ?_⟩
    rw [Function.iterate_add_apply, hback]
    exact heq

/-! ### free -/

/-- The node behind which a block at `bp` belongs. -/
structure Place (base : Nat) (h : Heap) (fs : List Span) (bp p : Nat) (u v : List Span) : Prop where
  split : fs = u ++ v
  node : (u = [] ∧ p = base) ∨ ∃ u' s, u = u' ++ [s] ∧ s.start = p
  links : Links h (h.ptr p) v base
  lt : p < bp
  behind : ∀ s ∈ v, bp < s.start

theorem Sound.lt_of_node (hS : Sound base h (u ++ v) live)
    (hp : (u = [] ∧ p = base) ∨ ∃ u' s, u = u' ++ [s] ∧ s.start = p) (hs : s ∈ v) : p < s.start := by
  rcases hp with ⟨-, rfl⟩ | ⟨u', t, rfl, rfl⟩
  · exact (hS.above s (by simp [hs])).1
  · have := (List.pairwise_append.mp hS.separated).2.2 t (by simp) s hs
    omega

theorem isPlace_iff : h.isPlace bp p = true ↔ (p < bp ∧ bp < h.ptr p) ∨ (h.ptr p ≤ p ∧ (p < bp ∨ bp < h.ptr p)) :=
  decide_eq_true_iff

theorem Sound.place_of_stop (hS : Sound base h fs live) (hbase : base < bp) (hp : Node base fs p)
    (hstop : h.isPlace bp p = true) : ∃ u v, Place base h fs bp p u v := by
  rw [isPlace_iff] at hstop
  obtain ⟨u, v, rfl, hv, hnode⟩ := hS.split hp
  have hlast : p < bp ∧ ∀ s ∈ v, bp < s.start := by
    cases v with
    | nil =>
      have hptr : h.ptr p = base := hv
      exact ⟨by omega, fun s hs => by cases hs⟩
    | cons t v =>
      have hptr : h.ptr p = t.start := hv.1
      have hlt := hS.lt_of_node hnode (List.mem_cons_self ..)
      refine ⟨by omega, fun s hs => ?_⟩
      rcases List.mem_cons.mp hs with rfl | hs
      · omega
      · have hsep := (List.pairwise_append.mp hS.separated).2.1
        have := (List.pairwise_cons.mp hsep).1 s hs
        omega
  exact ⟨u, v, rfl, hnode, hv, hlast.1, hlast.2⟩

theorem Sound.exists_stop (hS : Sound base h fs live) (hbase : base < bp) (hne : ∀ s ∈ fs, s.start ≠ bp) :
    ∃ p, Node base fs p ∧ h.isPlace bp p = true := by
  -- The last node before the block.
  have hfs : fs = fs.takeWhile (fun s => s.start < bp) ++ fs.dropWhile fun s => s.start < bp :=
    List.takeWhile_append_dropWhile.symm
  have hlow : ∀ s ∈ fs.takeWhile (fun s => s.start < bp), s.start < bp := fun s hs => by
    simpa using List.all_eq_true.mp List.all_takeWhile s hs
  have hhigh : ∀ s ∈ (fs.dropWhile fun s => s.start < bp).head?, bp < s.start := fun s hs => by
    have hnot := List.head?_dropWhile_not (fun s : Span => decide (s.start < bp)) fs
    rw [Option.mem_def.mp hs] at hnot
    have hmem : s ∈ fs := (List.dropWhile_sublist _).mem (List.mem_of_mem_head? hs)
    have := hne s hmem
    simp at hnot
    omega
  generalize fs.takeWhile (fun s => s.start < bp) = u at hfs hlow
  generalize (fs.dropWhile fun s => s.start < bp) = v at hfs hhigh
  subst hfs
  have hstop (p : Nat) (hp : p < bp) (hle : base ≤ p) (hv : Links h (h.ptr p) v base) : h.isPlace bp p = true := by
    rw [isPlace_iff]
    cases v with
    | nil =>
      have hptr : h.ptr p = base := hv
      exact .inr ⟨by omega, .inl hp⟩
    | cons t v =>
      have hptr : h.ptr p = t.start := hv.1
      exact .inl ⟨hp, by rw [hptr]; exact hhigh t rfl⟩
  rcases List.eq_nil_or_concat u with rfl | ⟨u', s, rfl⟩
  · exact ⟨base, .inl rfl, hstop base hbase (Nat.le_refl _) hS.ring⟩
  · obtain ⟨m, hm, hv⟩ := links_append.mp hS.ring
    rw [List.concat_eq_append] at hm hlow hS ⊢
    obtain ⟨m', -, -, -, hm'⟩ := links_append.mp hm
    have habove := (hS.above s (by simp)).1
    obtain rfl : h.ptr s.start = m := hm'
    exact ⟨s.start, .inr ⟨s, by simp, rfl⟩, hstop _ (hlow s (by simp)) (Nat.le_of_lt habove) hv⟩

theorem Sound.findPlace (hS : Sound base h fs live) (hbase : base < bp) (hlen : headerSize ≤ n)
    (hfs : ∀ f ∈ fs, Span.Apart ⟨bp, n⟩ f) : ∃ p u v, h.findPlace bp = some p ∧ Place base h fs bp p u v := by
  have hne : ∀ f ∈ fs, f.start ≠ bp := by
    intro f hf heq
    have hpos := hS.pos f hf
    simp only [headerSize] at hlen
    rcases hfs f hf with hle | hle <;> simp only [heq] at hle <;> omega
  obtain ⟨p, hp, hstop⟩ := hS.exists_stop hbase hne
  obtain ⟨k, hk, rfl⟩ := hS.reaches hS.freep hp
  have hlen := hS.length_lt
  have hfuel : k < 2 * h.brk + 2 := by omega
  obtain ⟨j, hj, hstopj⟩ := walk_some h.ptr (h.isPlace bp) hstop hfuel
  obtain ⟨u, v, hplace⟩ := hS.place_of_stop hbase (hS.node_iterate hS.freep j) hstopj
  exact ⟨_, u, v, hj, hplace⟩

theorem Sound.links_inserted (hS : Sound base h fs live) (hplace : Place base h fs bp p u v) (hbase : base < bp) :
    let h' := (h.link bp (h.ptr p)).link p bp
    (∀ x, x ≠ bp → x ≠ p → h'.ptr x = h.ptr x ∧ h'.size x = h.size x) ∧ h'.size base = 0 ∧
      Links h' (h'.ptr base) (insertSpan u ⟨bp, headerSize * h.size bp⟩ v) base := by
  intro h'
  set mid := joinNext ⟨bp, headerSize * h.size bp⟩ v
  have hstop : h.stop bp ≠ base := Nat.ne_of_gt (Nat.lt_of_lt_of_le hbase (Nat.le_add_right _ _))
  have hpb : p ≠ bp := Nat.ne_of_lt hplace.lt
  obtain ⟨hlink, hframe⟩ := hplace.links.link (fun s hs => Nat.ne_of_gt (hplace.behind s hs)) hstop
  have hmid : ∀ t ∈ mid, bp ≤ t.start :=
    forall_joinNext (Nat.le_refl _) (fun t ht => Nat.le_of_lt (hplace.behind t ht)) fun _ _ _ => Nat.le_refl _
  have hne : ∀ t ∈ mid, t.start ≠ p := fun t ht => Nat.ne_of_gt (Nat.lt_of_lt_of_le hplace.lt (hmid t ht))
  have hsize : (h.link bp (h.ptr p)).size p = h.size p := (hframe p hpb).2
  rcases hplace.node with ⟨rfl, rfl⟩ | ⟨u', s, hu, rfl⟩
  · -- The block follows `base`, which has no size.
    have hnot : (h.link bp (h.ptr p)).stop p ≠ bp := by
      rw [Heap.stop, hsize, hS.empty]
      exact hpb
    have hh' : h' = { h.link bp (h.ptr p) with ptr := Function.update (h.link bp (h.ptr p)).ptr p bp } := if_neg hnot
    have hothers : ∀ x, x ≠ p → h'.ptr x = (h.link bp (h.ptr p)).ptr x ∧ h'.size x = (h.link bp (h.ptr p)).size x := by
      intro x hx
      rw [hh']
      exact ⟨Function.update_of_ne hx .., rfl⟩
    refine ⟨fun x hx hxp => ?_, ?_, ?_⟩
    · exact ⟨(hothers x hxp).1.trans (hframe x hx).1, (hothers x hxp).2.trans (hframe x hx).2⟩
    · rw [hh']
      exact hsize.trans hS.empty
    · have hptr : h'.ptr p = bp := by
        rw [hh']
        exact Function.update_self ..
      rw [hptr, insertSpan_nil]
      exact hlink.congr fun t ht => hothers t.start (hne t ht)
  · have habove := (hS.above s (by simp [hplace.split, hu])).1
    have hstop' : (h.link bp (h.ptr s.start)).stop s.start ≠ base :=
      Nat.ne_of_gt (Nat.lt_of_lt_of_le habove (Nat.le_add_right _ _))
    obtain ⟨hlink', hframe'⟩ := hlink.link hne hstop'
    have hs : (⟨s.start, headerSize * (h.link bp (h.ptr s.start)).size s.start⟩ : Span) = s := by
      rw [hsize, ← hS.ring.size (s := s) (by simp [hplace.split, hu])]
    rw [hs] at hlink'
    have hboth : ∀ x, x ≠ bp → x ≠ s.start → h'.ptr x = h.ptr x ∧ h'.size x = h.size x := fun x hx hxp =>
      ⟨(hframe' x hxp).1.trans (hframe x hx).1, (hframe' x hxp).2.trans (hframe x hx).2⟩
    have hbase' := hboth base (Nat.ne_of_lt hbase) (Nat.ne_of_lt habove)
    refine ⟨hboth, hbase'.2.trans hS.empty, ?_⟩
    have hring := hS.ring
    rw [hplace.split, hu, List.append_assoc] at hring
    obtain ⟨m, hm, hrest⟩ := links_append.mp hring
    obtain rfl : m = s.start := hrest.1
    rw [hu, insertSpan_snoc]
    refine links_append.mpr ⟨s.start, ?_, hlink'⟩
    rw [hbase'.1]
    refine hm.congr fun t ht => hboth _ ?_ ?_
    · have hsep := hS.separated
      rw [hplace.split, hu, List.append_assoc] at hsep
      have := (List.pairwise_append.mp hsep).2.2 t ht s (by simp)
      have := hplace.lt
      omega
    · have hsep := hS.separated
      rw [hplace.split, hu, List.append_assoc] at hsep
      have := (List.pairwise_append.mp hsep).2.2 t ht s (by simp)
      omega

/-- A block that is clear of the free ones lies behind those in front of its place and before the others. -/
theorem Sound.sides (hS : Sound base h (u ++ v) live) (hplace : Place base h (u ++ v) bp p u v)
    (hfs : ∀ f ∈ u ++ v, Span.Apart ⟨bp, n⟩ f) : (∀ t ∈ u, t.start + t.len ≤ bp) ∧ ∀ t ∈ v, bp + n ≤ t.start := by
  have hlt := hplace.lt
  constructor
  · intro t ht
    -- Everything in front begins at or before the place.
    have hle : t.start ≤ p := by
      rcases hplace.node with ⟨rfl, -⟩ | ⟨u', s, rfl, rfl⟩
      · cases ht
      · rcases List.mem_append.mp ht with ht | ht
        · have hsep := (List.pairwise_append.mp hS.separated).1
          have := (List.pairwise_append.mp hsep).2.2 t ht s (by simp)
          omega
        · rw [List.mem_singleton.mp ht]
    rcases hfs t (by simp [ht]) with hap | hap
    · simp only at hap
      omega
    · exact hap
  · intro t ht
    have hgt := hplace.behind t ht
    rcases hfs t (by simp [ht]) with hap | hap
    · exact hap
    · simp only at hap
      omega

theorem Sound.clear_of_place (hS : Sound base h (u ++ v) live) (hplace : Place base h (u ++ v) bp p u v)
    (hs : s ∈ live) (hn : headerSize ≤ n) (hap : s.Apart ⟨bp, n⟩) : s.start ≠ bp ∧ s.start ≠ p := by
  have hge := (hS.sizes s hs).2
  simp only [headerSize] at hge hn
  constructor
  · intro heq
    rcases hap with hap | hap <;> simp only [heq] at hap <;> omega
  · rcases hplace.node with ⟨-, rfl⟩ | ⟨u', t, rfl, rfl⟩
    · exact Nat.ne_of_gt (hS.above s (by simp [hs])).1
    · have hpos := hS.pos t (by simp)
      intro heq
      rcases hS.clear s hs t (by simp) with hap | hap <;> omega

theorem Sound.free (hS : Sound base h fs live) (hbase : base < bp) (hlen : headerSize ≤ headerSize * h.size bp)
    (hbrk : h.stop bp ≤ h.brk) (hfs : ∀ f ∈ fs, Span.Apart ⟨bp, headerSize * h.size bp⟩ f)
    (hlive : ∀ s ∈ live, s.Apart ⟨bp, headerSize * h.size bp⟩) :
    ∃ h' fs', h.free (bp + headerSize) = some h' ∧ Sound base h' fs' live ∧ h'.brk = h.brk ∧
      (∀ x, Covers fs' x ↔ (⟨bp, headerSize * h.size bp⟩ : Span).Has x ∨ Covers fs x) ∧ fs'.length ≤ fs.length + 1 ∧
      ∃ f ∈ fs', headerSize * h.size bp ≤ f.len := by
  obtain ⟨p, u, v, hfind, hplace⟩ := hS.findPlace hbase hlen hfs
  obtain ⟨hframe, hempty, hring⟩ := hS.links_inserted hplace hbase
  have hsplit := hplace.split
  subst hsplit
  obtain ⟨hu, hv⟩ := hS.sides hplace hfs
  have hfree : h.free (bp + headerSize) = some { (h.link bp (h.ptr p)).link p bp with freep := p } := by
    simp only [Heap.free, Nat.add_sub_cancel, hfind, Option.map_some]
  have hbrk' : ((h.link bp (h.ptr p)).link p bp).brk = h.brk := by rw [link_brk, link_brk]
  refine ⟨_, insertSpan u ⟨bp, headerSize * h.size bp⟩ v, hfree, ⟨hring.congr fun _ _ => ⟨rfl, rfl⟩, hempty, ?_,
    insertSpan_separated hS.separated hu hv, ?_, fun s hs => ?_, hS.apart, fun s hs => ?_, fun s hs => ?_, ?_⟩, hbrk',
    fun x => insertSpan_covers, length_insertSpan, insertSpan_len⟩
  · rcases hplace.node with ⟨-, rfl⟩ | ⟨u', s, rfl, rfl⟩
    · exact .inl rfl
    · obtain ⟨t, ht, hstart, -⟩ := joinNext_head s (joinNext ⟨bp, headerSize * h.size bp⟩ v)
      exact .inr ⟨t, by rw [insertSpan_snoc]; exact List.mem_append_right _ ht, hstart⟩
  · exact forall_insertSpan hS.pos (by simp only [headerSize] at hlen ⊢; omega) fun s t hs _ _ => by simp only; omega
  · obtain ⟨hsize, hge⟩ := hS.sizes s hs
    obtain ⟨hsbp, hsp⟩ := hS.clear_of_place hplace hs hlen (hlive s hs)
    refine ⟨?_, hge⟩
    rw [hsize]
    exact congrArg _ (hframe s.start hsbp hsp).2.symm
  · have hpos : 0 < s.len := by
      have := (hS.sizes s hs).2
      simp only [headerSize] at this
      omega
    exact forall_insertSpan (hS.clear s hs) (hlive s hs) fun a b ha hb heq => ha.join hb hpos heq
  · have hboth : ∀ f ∈ insertSpan u ⟨bp, headerSize * h.size bp⟩ v, base < f.start ∧ f.start + f.len ≤ h.brk :=
      forall_insertSpan (fun t ht => hS.above t (List.mem_append_left _ ht)) ⟨hbase, hbrk⟩ fun a b ha hb heq => by
        simp only at ha hb ⊢
        omega
    simp only [hbrk']
    rcases List.mem_append.mp hs with hs | hs
    · exact hboth s hs
    · exact hS.above s (List.mem_append_right _ hs)
  · simp only [hbrk']
    exact hS.base_lt

/-! ### malloc -/

theorem sound_init (h : Heap) (hbase : base < h.brk) (h0 : h.freep = 0) : Sound base (h.init base) [] [] := by
  rw [Heap.init, if_pos h0]
  exact ⟨Function.update_self .., Function.update_self .., .inl rfl, List.Pairwise.nil, by simp, by simp, List.Pairwise.nil,
    by simp, by simp, hbase⟩

theorem Sound.relink {v' : List Span} {m : Nat} (hS : Sound base h (u ++ v) live)
    (hnode : (u = [] ∧ p = base) ∨ ∃ u' s, u = u' ++ [s] ∧ s.start = p) (hv : Links h m v' base) (hp : ∀ t ∈ v',
      t.start ≠ p) :
    Links { h with ptr := Function.update h.ptr p m } (Function.update h.ptr p m base) (u ++ v') base := by
  have hrest : Links { h with ptr := Function.update h.ptr p m } m v' base :=
    hv.congr fun t ht => ⟨Function.update_of_ne (hp t ht) .., rfl⟩
  rcases hnode with ⟨rfl, rfl⟩ | ⟨u', s, rfl, rfl⟩
  · rw [Function.update_self]
    exact hrest
  · have habove := (hS.above s (by simp)).1
    have hring := hS.ring
    rw [List.append_assoc] at hring
    obtain ⟨m', hu, hs⟩ := links_append.mp hring
    obtain rfl : m' = s.start := hs.1
    rw [Function.update_of_ne (Nat.ne_of_lt habove), List.append_assoc]
    refine links_append.mpr ⟨s.start, hu.congr fun t ht => ⟨Function.update_of_ne ?_ .., rfl⟩, rfl, hs.2.1, ?_⟩
    · have hsep := (List.pairwise_append.mp hS.separated).1
      have := (List.pairwise_append.mp hsep).2.2 t ht s (by simp)
      omega
    · simp only [Function.update_self]
      exact hrest

theorem Sound.neighbours (hS : Sound base h (u ++ s :: v) live) (ht : t ∈ u ++ v) : t.Apart s := by
  obtain ⟨-, hv, huv⟩ := List.pairwise_append.mp hS.separated
  rcases List.mem_append.mp ht with ht | ht
  · exact .inl (Nat.le_of_lt (huv t ht s (List.mem_cons_self ..)))
  · exact .inr (Nat.le_of_lt ((List.pairwise_cons.mp hv).1 t ht))

theorem mem_without (ht : t ∈ u ++ v) : t ∈ u ++ s :: v := by
  rcases List.mem_append.mp ht with ht | ht <;> simp [ht]

theorem node_of_last (hp : (u = [] ∧ p = base) ∨ ∃ u' s, u = u' ++ [s] ∧ s.start = p) : Node base (u ++ v) p := by
  rcases hp with ⟨-, rfl⟩ | ⟨u', s, rfl, rfl⟩
  · exact .inl rfl
  · exact .inr ⟨s, by simp, rfl⟩

theorem Sound.take_all (hS : Sound base h (u ++ s :: v) live)
    (hp : (u = [] ∧ p = base) ∨ ∃ u' t, u = u' ++ [t] ∧ t.start = p) :
    Sound base { h with ptr := Function.update h.ptr p (h.ptr s.start), freep := p } (u ++ v) (live ++ [s]) := by
  obtain ⟨m, -, hm⟩ := links_append.mp hS.ring
  obtain ⟨rfl, hlen, hrest⟩ := hm
  obtain ⟨hu, hv, huv⟩ := List.pairwise_append.mp hS.separated
  obtain ⟨hsv, hv⟩ := List.pairwise_cons.mp hv
  have hps : p < s.start := hS.lt_of_node hp (List.mem_cons_self ..)
  have hring := hS.relink hp hrest fun t ht => by
    have := hsv t ht
    omega
  refine ⟨hring.congr fun _ _ => ⟨rfl, rfl⟩, hS.empty, node_of_last hp, ?_, fun t ht => hS.pos t (mem_without ht),
    fun t ht => ?_, ?_,
    fun t ht f hf => ?_, fun t ht => ?_, hS.base_lt⟩
  · exact List.pairwise_append.mpr ⟨hu, hv, fun a ha b hb => huv a ha b (List.mem_cons_of_mem _ hb)⟩
  · rcases List.mem_append.mp ht with ht | ht
    · exact hS.sizes t ht
    · rw [List.mem_singleton.mp ht]
      have := hS.pos s (by simp)
      simp only [headerSize] at hlen ⊢
      exact ⟨hlen, by omega⟩
  · refine List.pairwise_append.mpr ⟨hS.apart, List.pairwise_singleton .., fun a ha b hb => ?_⟩
    rw [List.mem_singleton.mp hb]
    exact hS.clear a ha s (by simp)
  · rcases List.mem_append.mp ht with ht | ht
    · exact hS.clear t ht f (mem_without hf)
    · rw [List.mem_singleton.mp ht]
      exact (hS.neighbours hf).symm
  · refine hS.above t ?_
    simp only [List.mem_append, List.mem_cons, List.not_mem_nil, or_false] at ht ⊢
    rcases ht with (ht | ht) | ht | ht
    · exact .inl (.inl ht)
    · exact .inl (.inr (.inr ht))
    · exact .inr ht
    · exact .inl (.inr (.inl ht))

theorem Sound.take_end (hS : Sound base h (u ++ s :: v) live)
    (hp : (u = [] ∧ p = base) ∨ ∃ u' t, u = u' ++ [t] ∧ t.start = p) (hn : 0 < n) (hlt : n < h.size s.start) (q : Nat)
    (hq : q = s.start + headerSize * (h.size s.start - n)) :
    Sound base { h with size := Function.update (Function.update h.size s.start (h.size s.start - n)) q n, freep := p }
      (u ++ ⟨s.start, headerSize * (h.size s.start - n)⟩ :: v) (live ++ [⟨q, headerSize * n⟩]) := by
  obtain ⟨m, hum, hm⟩ := links_append.mp hS.ring
  obtain ⟨rfl, hlen, hrest⟩ := hm
  obtain ⟨hu, hv, huv⟩ := List.pairwise_append.mp hS.separated
  obtain ⟨hsv, hv⟩ := List.pairwise_cons.mp hv
  obtain ⟨hbase, hbrk⟩ := hS.above s (by simp)
  simp only [headerSize] at hlen hq ⊢
  have hfront : s.start + 8 * (h.size s.start - n) ≤ s.start + s.len := by omega
  have hback : s.start ≤ q ∧ q + 8 * n ≤ s.start + s.len := by omega
  -- The new header lies inside the block, so that it is the header of no other block.
  have hinside {t : Span} (ht : t.Apart s) (hpos : 0 < t.len) : t.start ≠ q ∧ t.start ≠ s.start := by
    rcases ht with ht | ht
    · exact ⟨by omega, by omega⟩
    · exact ⟨by omega, by omega⟩
  have hsame {t : Span} (ht : t.Apart s) (hpos : 0 < t.len) :
      Function.update (Function.update h.size s.start (h.size s.start - n)) q n t.start = h.size t.start := by
    obtain ⟨h1, h2⟩ := hinside ht hpos
    rw [Function.update_of_ne h1, Function.update_of_ne h2]
  have hkept (t : Span) (ht : t ∈ u ++ v) := hsame (hS.neighbours ht) (hS.pos t (mem_without ht))
  have hlive (t : Span) (ht : t ∈ live) : 0 < t.len ∧ t.Apart s := by
    have := (hS.sizes t ht).2
    simp only [headerSize] at this
    exact ⟨by omega, hS.clear t ht s (by simp)⟩
  refine ⟨?_, ?_, ?_, ?_, fun t ht => ?_, fun t ht => ?_, ?_, fun t ht f hf => ?_, fun t ht => ?_, hS.base_lt⟩
  · refine links_append.mpr ⟨s.start, hum.congr fun t ht => ⟨rfl, hkept t (List.mem_append_left _ ht)⟩, rfl, ?_, ?_⟩
    · simp only
      rw [Function.update_of_ne (by omega), Function.update_self]
    · exact hrest.congr fun t ht => ⟨rfl, hkept t (List.mem_append_right _ ht)⟩
  · simp only
    rw [Function.update_of_ne (by omega), Function.update_of_ne (by omega)]
    exact hS.empty
  · exact node_of_last hp
  · refine List.pairwise_append.mpr ⟨hu, List.pairwise_cons.mpr ⟨fun t ht => ?_, hv⟩, fun a ha b hb => ?_⟩
    · have := hsv t ht
      simp only
      omega
    · rcases List.mem_cons.mp hb with rfl | hb
      · exact huv a ha s (List.mem_cons_self ..)
      · exact huv a ha b (List.mem_cons_of_mem _ hb)
  · rcases List.mem_append.mp ht with hu | hv
    · exact hS.pos t (mem_without (List.mem_append_left _ hu))
    · rcases List.mem_cons.mp hv with rfl | hv
      · simp only
        omega
      · exact hS.pos t (mem_without (List.mem_append_right _ hv))
  · rcases List.mem_append.mp ht with ht | ht
    · obtain ⟨hpos, hap⟩ := hlive t ht
      simp only
      rw [hsame hap hpos]
      exact hS.sizes t ht
    · rw [List.mem_singleton.mp ht]
      exact ⟨by simp, by simp only [headerSize]; omega⟩
  · refine List.pairwise_append.mpr ⟨hS.apart, List.pairwise_singleton .., fun a ha b hb => ?_⟩
    rw [List.mem_singleton.mp hb]
    exact (hlive a ha).2.part hback.1 hback.2
  · have hf' : f ∈ u ++ v ∨ f = ⟨s.start, 8 * (h.size s.start - n)⟩ := by
      simp only [List.mem_append, List.mem_cons] at hf ⊢
      rcases hf with hf | hf | hf
      · exact .inl (.inl hf)
      · exact .inr hf
      · exact .inl (.inr hf)
    rcases List.mem_append.mp ht with ht | ht
    · rcases hf' with hf' | rfl
      · exact hS.clear t ht f (mem_without hf')
      · exact (hlive t ht).2.part (Nat.le_refl _) hfront
    · rw [List.mem_singleton.mp ht]
      rcases hf' with hf' | rfl
      · exact ((hS.neighbours hf').part hback.1 hback.2).symm
      · exact .inr (Nat.le_of_eq hq.symm)
  · simp only [List.mem_append, List.mem_cons, List.not_mem_nil, or_false] at ht
    rcases ht with (ht | rfl | ht) | ht | rfl
    · exact hS.above t (by simp [ht])
    · exact ⟨hbase, by simp only; omega⟩
    · exact hS.above t (by simp [ht])
    · exact hS.above t (by simp [ht])
    · exact ⟨by simp only; omega, by simp only; omega⟩

theorem Sound.take {nunits : Nat} (hS : Sound base h fs live) (hp : Node base fs p) (hpos : 0 < nunits)
    (hsize : nunits ≤ h.size (h.ptr p)) :
    ∃ h' fs' b, h.take p (h.ptr p) nunits = (b.start + headerSize, h') ∧ b.len = headerSize * nunits ∧
      Sound base h' fs' (live ++ [b]) ∧ h'.brk = h.brk ∧ ∀ x, Covers fs' x ∨ b.Has x ↔ Covers fs x := by
  obtain ⟨u, v, rfl, hv, hnode⟩ := hS.split hp
  cases v with
  | nil =>
    have hptr : h.ptr p = base := hv
    rw [hptr, hS.empty] at hsize
    omega
  | cons s v =>
    obtain ⟨hptr, hlen, -⟩ := hv
    rw [hptr] at hsize ⊢
    by_cases hexact : h.size s.start = nunits
    · refine ⟨_, u ++ v, s, if_pos hexact, by rw [hlen, hexact], hS.take_all hnode, rfl, fun x => ?_⟩
      simp only [covers_append, covers_cons]
      constructor
      · rintro ((hx | hx) | hx)
        · exact .inl hx
        · exact .inr (.inr hx)
        · exact .inr (.inl hx)
      · rintro (hx | hx | hx)
        · exact .inl (.inl hx)
        · exact .inr hx
        · exact .inl (.inr hx)
    · have hlt : nunits < h.size s.start := by omega
      have hstop : ({ h with size := Function.update h.size s.start (h.size s.start - nunits) } : Heap).stop s.start =
          s.start + headerSize * (h.size s.start - nunits) := by simp [Heap.stop]
      have htake : h.take p s.start nunits = _ := if_neg hexact
      simp only [hstop] at htake
      refine ⟨_, _, ⟨_, headerSize * nunits⟩, htake, rfl, hS.take_end hnode hpos hlt _ rfl, rfl, fun x => ?_⟩
      simp only [covers_append, covers_cons, Span.Has, headerSize] at hlen ⊢
      constructor
      · rintro ((hx | hx | hx) | hx)
        · exact .inl hx
        · exact .inr (.inl (by omega))
        · exact .inr (.inr hx)
        · exact .inr (.inl (by omega))
      · rintro (hx | hx | hx)
        · exact .inl (.inl hx)
        · by_cases hlow : x < s.start + 8 * (h.size s.start - nunits)
          · exact .inl (.inr (.inl (by omega)))
          · exact .inr (by omega)
        · exact .inl (.inr (.inr hx))

end Sound

end Xv6.Umalloc
