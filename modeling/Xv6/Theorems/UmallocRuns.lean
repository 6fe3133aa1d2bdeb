import Xv6.Theorems.UmallocHeap

/-! `malloc` and whole runs of a program: in every state the heap is well formed, and every call returns. -/

namespace Xv6.Umalloc
open Lib

section Malloc
variable {base : Nat} {h : Heap} {fs live : List Span} {nunits : Nat} {ok : Bool}

theorem Sound.extend (hS : Sound base h fs live) (brk : Nat) (hbrk : h.brk ≤ brk) (n : Nat) :
    Sound base { h with brk := brk, size := Function.update h.size h.brk n } fs live := by
  have hsame (s : Span) (hs : s ∈ fs ++ live) (hpos : 0 < s.len) :
      Function.update h.size h.brk n s.start = h.size s.start := by
    have := (hS.above s hs).2
    exact Function.update_of_ne (by omega) ..
  refine ⟨hS.ring.congr fun s hs => ⟨rfl, hsame s (by simp [hs]) (hS.pos s hs)⟩, ?_, hS.freep, hS.separated, hS.pos,
    fun s hs => ?_, hS.apart,
    hS.clear, fun s hs => ?_, Nat.lt_of_lt_of_le hS.base_lt hbrk⟩
  · exact (Function.update_of_ne (Nat.ne_of_lt hS.base_lt) ..).trans hS.empty
  · obtain ⟨hsize, hge⟩ := hS.sizes s hs
    simp only [headerSize] at hge
    simp only
    rw [hsame s (by simp [hs]) (by omega)]
    exact hS.sizes s hs
  · obtain ⟨h1, h2⟩ := hS.above s hs
    exact ⟨h1, Nat.le_trans h2 hbrk⟩

theorem Sound.morecore (hS : Sound base h fs live) (h0 : 0 < base) (ok : Bool) (nunits : Nat) :
    h.morecore ok nunits = some (0, h) ∨
      ∃ h' fs', h.morecore ok nunits = some (h'.freep, h') ∧ h'.freep ≠ 0 ∧ Sound base h' fs' live ∧ h.brk ≤ h'.brk ∧
        (∀ x, Covers fs' x ↔ (h.brk ≤ x ∧ x < h'.brk) ∨ Covers fs x) ∧ fs'.length ≤ fs.length + 1 ∧
        ∃ f ∈ fs', nunits ≤ h'.size f.start := by
  unfold Heap.morecore
  dsimp only
  split
  · refine .inr ?_
    have hS₁ := hS.extend (h.brk + headerSize * max nunits 4096) (Nat.le_add_right _ _) (max nunits 4096)
    have hsize : Function.update h.size h.brk (max nunits 4096) h.brk = max nunits 4096 := Function.update_self ..
    have hbelow (s : Span) (hs : s ∈ fs ++ live) : s.start + s.len ≤ h.brk := (hS.above s hs).2
    obtain ⟨h', fs', hfree, hS', hbrk, hcover, hlen, f, hf, hbig⟩ := hS₁.free hS.base_lt
      (by simp only [hsize, headerSize]; omega) (by simp only [Heap.stop, hsize, Nat.le_refl])
      (fun f hf => .inr (hbelow f (by simp [hf]))) fun s hs => .inl (hbelow s (by simp [hs]))
    simp only [hsize] at hcover hbig
    have hfreep : h'.freep ≠ 0 := by
      rcases hS'.freep with heq | ⟨t, ht, heq⟩
      · omega
      · have := (hS'.above t (by simp [ht])).1
        omega
    refine ⟨h', fs', by rw [hfree]; rfl, hfreep, hS', by rw [hbrk]; exact Nat.le_add_right _ _, fun x => ?_, hlen,
      f, hf, ?_⟩
    · rw [hcover x, hbrk]
      rfl
    · have := hS'.ring.size hf
      simp only [headerSize] at this hbig
      omega
  · exact .inl rfl

theorem mallocLoop_skip {q i : Nat} (fuel : Nat)
    (hskip : ∀ j < i, ¬nunits ≤ h.size (h.ptr^[j + 1] q) ∧ h.ptr^[j + 1] q ≠ h.freep) :
    Heap.mallocLoop ok nunits (fuel + i) h q (h.ptr q) =
      Heap.mallocLoop ok nunits fuel h (h.ptr^[i] q) (h.ptr (h.ptr^[i] q)) := by
  induction i generalizing fuel with
  | zero => rfl
  | succ i ih =>
    obtain ⟨hsmall, hne⟩ := hskip i (Nat.lt_succ_self _)
    rw [Function.iterate_succ_apply'] at hsmall hne
    rw [← Nat.succ_add_eq_add_succ, ih (fuel + 1) fun j hj => hskip j (Nat.lt_succ_of_lt hj), Heap.mallocLoop,
      if_neg hsmall, if_neg hne,
      Function.iterate_succ_apply']

theorem Sound.scan (hS : Sound base h fs live) (nunits : Nat) : ∃ i ≤ 2 * fs.length + 2,
    (∀ j < i, ¬nunits ≤ h.size (h.ptr^[j + 1] h.freep) ∧ h.ptr^[j + 1] h.freep ≠ h.freep) ∧
      (nunits ≤ h.size (h.ptr (h.ptr^[i] h.freep)) ∨
        h.ptr (h.ptr^[i] h.freep) = h.freep ∧ ¬nunits ≤ h.size h.freep ∧ ∀ f ∈ fs, ¬nunits ≤ h.size f.start) := by
  obtain ⟨k, hk, hback⟩ := hS.reaches (hS.node_ptr hS.freep) hS.freep
  obtain ⟨i, hi, hskip, hend⟩ := circle_first (P := fun a => nunits ≤ h.size a) (q := h.freep) (Nat.succ_pos k) hback
  refine ⟨i, by omega, hskip, ?_⟩
  rw [Function.iterate_succ_apply'] at hend
  rcases hend with hfound | ⟨heq, hall⟩
  · exact .inl hfound
  · refine .inr ⟨heq, hall 0, fun f hf => ?_⟩
    obtain ⟨j, -, hj⟩ := hS.reaches hS.freep (.inr ⟨f, hf, rfl⟩)
    rw [← hj]
    exact hall j

/-- `malloc` has returned: the memory behind the old break is new, and the block is in use. -/
def Gives (base : Nat) (h : Heap) (fs live : List Span) (nunits : Nat) (r : Nat × Heap) : Prop :=
  r = (0, h) ∨ ∃ fs' b, r.1 = b.start + headerSize ∧ b.len = headerSize * nunits ∧ Sound base r.2 fs' (live ++ [b]) ∧
    h.brk ≤ r.2.brk ∧
    ∀ x, Covers fs' x ∨ b.Has x ↔ (h.brk ≤ x ∧ x < r.2.brk) ∨ Covers fs x

theorem Sound.mallocLoop (hS : Sound base h fs live) (h0 : 0 < base) (hpos : 0 < nunits) (ok : Bool) (fuel : Nat)
    (hfuel : 4 * fs.length + 8 ≤ fuel) :
    ∃ r, Heap.mallocLoop ok nunits fuel h h.freep (h.ptr h.freep) = some r ∧ Gives base h fs live nunits r := by
  obtain ⟨i, hi, hskip, hend⟩ := hS.scan nunits
  obtain ⟨fuel, rfl⟩ := Nat.exists_eq_add_of_le' (Nat.le_trans (by omega : i + 1 ≤ 4 * fs.length + 8) hfuel)
  rw [Nat.add_comm i 1, ← Nat.add_assoc, mallocLoop_skip _ hskip, Heap.mallocLoop]
  rcases hend with hfound | ⟨hback, hsmall, hall⟩
  · obtain ⟨h', fs', b, htake, hlen, hS', hbrk, hcover⟩ := hS.take (hS.node_iterate hS.freep i) hpos hfound
    rw [if_pos hfound, htake]
    refine ⟨_, rfl, .inr ⟨fs', b, rfl, hlen, hS', Nat.le_of_eq hbrk.symm, fun x => ?_⟩⟩
    rw [hcover x]
    refine ⟨.inr, fun hx => hx.resolve_left fun hnew => ?_⟩
    simp only [hbrk] at hnew
    omega
  · rw [if_neg (by rwa [hback]), if_pos hback]
    rcases hS.morecore h0 ok nunits with hnone | ⟨h', fs', hmore, hfreep, hS', hbrk, hcover, hlen, f, hf, hbig⟩
    · rw [hnone]
      exact ⟨_, rfl, .inl rfl⟩
    · -- The second time round the new block is found.
      obtain ⟨i', hi', hskip', hend'⟩ := hS'.scan nunits
      obtain ⟨fuel, rfl⟩ := Nat.exists_eq_add_of_le' (by omega : i' + 1 ≤ fuel)
      have hfound := hend'.resolve_right fun hnot => hnot.2.2 f hf hbig
      obtain ⟨h'', fs'', b, htake, hlen', hS'', hbrk', hcover'⟩ := hS'.take (hS'.node_iterate hS'.freep i') hpos hfound
      rw [hmore, Option.bind_some]
      simp only [if_neg hfreep]
      rw [Nat.add_comm i' 1, ← Nat.add_assoc, mallocLoop_skip _ hskip', Heap.mallocLoop, if_pos hfound, htake]
      refine ⟨_, rfl, .inr ⟨fs'', b, rfl, hlen', hS'', by rw [hbrk']; exact hbrk, fun x => ?_⟩⟩
      rw [hcover' x, hcover x, hbrk']

end Malloc

/-! ### The break -/

variable {h : Heap} {ok : Bool} {r : Nat × Heap} {base : Nat}

theorem free_brk {h' : Heap} {ap : Nat} (hf : h.free ap = some h') : h'.brk = h.brk := by
  obtain ⟨p, -, rfl⟩ := Option.map_eq_some_iff.mp hf
  simp only [link_brk]

theorem take_brk (h : Heap) (prevp p nunits : Nat) : (h.take prevp p nunits).2.brk = h.brk := by
  unfold Heap.take
  split <;> rfl

theorem morecore_brk {nu : Nat} (hlt : h.brk < kernbase) (hr : h.morecore ok nu = some r) :
    r.2.brk < kernbase := by
  unfold Heap.morecore at hr
  dsimp only at hr
  split at hr
  · rename_i hroom
    obtain ⟨h', hfree, rfl⟩ := Option.map_eq_some_iff.mp hr
    rw [free_brk hfree]
    exact hroom.2
  · obtain rfl := Option.some.inj hr
    exact hlt

theorem mallocLoop_brk {nunits : Nat} : ∀ {fuel : Nat} {h : Heap} {prevp p : Nat}, h.brk < kernbase →
    Heap.mallocLoop ok nunits fuel h prevp p = some r → r.2.brk < kernbase
  | 0, _, _, _, _, hr => by cases hr
  | fuel + 1, h, prevp, p, hlt, hr => by
    rw [Heap.mallocLoop] at hr
    split at hr
    · obtain rfl := Option.some.inj hr
      rw [take_brk]
      exact hlt
    · split at hr
      · obtain ⟨⟨q, h'⟩, hmore, hr⟩ := Option.bind_eq_some_iff.mp hr
        have hlt' := morecore_brk hlt hmore
        dsimp only at hr
        split at hr
        · obtain rfl := Option.some.inj hr
          exact hlt'
        · exact mallocLoop_brk hlt' hr
      · exact mallocLoop_brk hlt hr

theorem init_brk : (h.init base).brk = h.brk := by
  unfold Heap.init
  split <;> rfl

theorem malloc_brk {nbytes : Nat} (hlt : h.brk < kernbase)
    (hr : h.malloc base ok nbytes = some r) : r.2.brk < kernbase :=
  mallocLoop_brk (by rw [init_brk]; exact hlt) hr

/-! ### Runs -/

/-- The block with its header that `malloc` returned as `ap`. -/
def Heap.block (h : Heap) (ap : Nat) : Span := ⟨ap - headerSize, headerSize * h.size (ap - headerSize)⟩

namespace State

def blocks (s : State) : List Span := s.live.map fun a => s.heap.block a.1

/-- The free list with the blocks `fs`, which do not touch; with the blocks in use they are the memory that `sbrk`
    returned. -/
structure WellFormed (base : Nat) (s : State) (fs : List Span) : Prop where
  circle : Links s.heap (s.heap.ptr base) fs base
  sorted : (base :: fs.map Span.start).Pairwise (· < ·)
  freep : Node base fs s.heap.freep
  separated : Separated fs
  clear : ∀ b ∈ s.blocks, ∀ f ∈ fs, b.Apart f
  apart : s.blocks.Pairwise Span.Apart
  tiles : ∀ x, Covers (fs ++ s.blocks) x ↔ Covers s.segments x
  usable : ∀ a ∈ s.live, a.2 + headerSize ≤ (s.heap.block a.1).len

/-- Nothing has been called, or the heap is well formed. -/
def Good (base : Nat) (s : State) : Prop :=
  (s.heap.freep = 0 ∧ s.live = [] ∧ s.segments = []) ∨ ∃ fs, s.WellFormed base fs

/-- The calls that may be made return. -/
def Returns (base : Nat) (s : State) : Prop :=
  (∀ nbytes ok, Fits nbytes → (s.heap.malloc base ok nbytes).isSome) ∧ ∀ ap ∈ s.live.map Prod.fst, (s.heap.free ap).isSome

/-- What every state satisfies once `malloc` has been called. -/
structure Inv (base : Nat) (s : State) (fs : List Span) : Prop where
  sound : Sound base s.heap fs s.blocks
  tiles : ∀ x, Covers (fs ++ s.blocks) x ↔ Covers s.segments x
  usable : ∀ a ∈ s.live, headerSize ≤ a.1 ∧ a.2 + headerSize ≤ (s.heap.block a.1).len

section
variable {base : Nat} {s s' : State} {fs : List Span} {nbytes ap : Nat} {r : Nat × Heap} {a : Nat × Nat} {e : Event}

theorem Inv.wellFormed (hI : Inv base s fs) : s.WellFormed base fs := by
  refine ⟨hI.sound.ring, List.pairwise_cons.mpr ⟨fun a ha => ?_, ?_⟩, hI.sound.freep, hI.sound.separated, hI.sound.clear,
    hI.sound.apart, hI.tiles, fun a ha => (hI.usable a ha).2⟩
  · obtain ⟨f, hf, rfl⟩ := List.mem_map.mp ha
    exact (hI.sound.above f (List.mem_append_left _ hf)).1
  · refine List.pairwise_map.mpr (hI.sound.separated.imp fun hab => ?_)
    omega

theorem blocks_eq {h' : Heap} {fs' extra : List Span} (hS : Sound base h' fs' (s.blocks ++ extra)) :
    s.live.map (fun a => h'.block a.1) = s.blocks := by
  refine List.map_congr_left fun a ha => ?_
  have hmem : s.heap.block a.1 ∈ s.blocks ++ extra := List.mem_append_left _ (List.mem_map.mpr ⟨a, ha, rfl⟩)
  have hsize := (hS.sizes _ hmem).1
  exact (congrArg (Span.mk (a.1 - headerSize)) hsize).symm

theorem Inv.allocated (hI : Inv base s fs)
    (hr : Gives base s.heap fs s.blocks (Heap.units nbytes) r) : ∃ fs', Inv base (s.allocated nbytes r) fs' := by
  rcases hr with rfl | ⟨fs', b, hr, hlen, hS, hbrk, hcover⟩
  · refine ⟨fs, ?_⟩
    have heq : s.allocated nbytes (0, s.heap) = s := by simp [State.allocated]
    rw [heq]
    exact hI
  · have hr0 : r.1 ≠ 0 := by
      rw [hr]
      simp [headerSize]
    have hlive : (s.allocated nbytes r).live = s.live ++ [(r.1, nbytes)] := if_neg hr0
    have hb : r.2.block r.1 = b := by
      have hstart : r.1 - headerSize = b.start := by rw [hr, Nat.add_sub_cancel]
      have hsize := (hS.sizes b (by simp)).1
      simp only [Heap.block, hstart, ← hsize]
    have hblocks : (s.allocated nbytes r).blocks = s.blocks ++ [b] := by
      rw [State.blocks, hlive, List.map_append, List.map_singleton]
      exact congrArg₂ _ (blocks_eq hS) (congrArg (fun b => [b]) hb)
    refine ⟨fs', by rw [hblocks]; exact hS, fun x => ?_, fun a ha => ?_⟩
    · have hold := hI.tiles x
      have hseg : Covers (s.allocated nbytes r).segments x ↔ (s.heap.brk ≤ x ∧ x < r.2.brk) ∨ Covers s.segments x := by
        simp only [State.allocated]
        split
        · rename_i heq
          rw [heq]
          exact ⟨.inr, fun hx => hx.resolve_left (by omega)⟩
        · simp only [covers_append, covers_cons, covers_nil, or_false, Span.Has]
          rw [Nat.add_sub_cancel' hbrk]
          exact or_comm
      rw [hblocks, hseg, ← hold]
      have hnew := hcover x
      simp only [covers_append, covers_cons, covers_nil, or_false] at hold hnew ⊢
      constructor
      · rintro (hx | hx | hx)
        · rcases hnew.mp (.inl hx) with hx | hx
          · exact .inl hx
          · exact .inr (.inl hx)
        · exact .inr (.inr hx)
        · rcases hnew.mp (.inr hx) with hx | hx
          · exact .inl hx
          · exact .inr (.inl hx)
      · rintro (hx | hx | hx)
        · rcases hnew.mpr (.inl hx) with hx | hx
          · exact .inl hx
          · exact .inr (.inr hx)
        · rcases hnew.mpr (.inr hx) with hx | hx
          · exact .inl hx
          · exact .inr (.inr hx)
        · exact .inr (.inl hx)
    · rw [hlive] at ha
      rcases List.mem_append.mp ha with ha | ha
      · have hsame : r.2.block a.1 = s.heap.block a.1 := List.map_inj_left.mp (blocks_eq hS) a ha
        obtain ⟨h1, h2⟩ := hI.usable a ha
        exact ⟨h1, by rw [← hsame] at h2; exact h2⟩
      · rw [List.mem_singleton.mp ha]
        have hblen : (r.2.block r.1).len = headerSize * Heap.units nbytes := by rw [hb, hlen]
        refine ⟨by rw [hr]; exact Nat.le_add_left _ _, ?_⟩
        refine Nat.le_trans ?_ (Nat.le_of_eq hblen.symm)
        simp only [Heap.units, headerSize]
        omega

theorem Inv.apart {c : Nat × Nat} (hI : Inv base s fs) (ha : a ∈ s.live) (hc : c ∈ s.live) (hne : a ≠ c) :
    (s.heap.block a.1).Apart (s.heap.block c.1) := by
  have hsymm : Std.Symm fun a b : Nat × Nat => (s.heap.block a.1).Apart (s.heap.block b.1) := ⟨fun _ _ hab => hab.symm⟩
  exact (List.pairwise_map.mp hI.sound.apart).forall ha hc hne

theorem Sound.sublist {h : Heap} {live live' : List Span} (hS : Sound base h fs live) (hsub : live'.Sublist live) :
    Sound base h fs live' := by
  refine ⟨hS.ring, hS.empty, hS.freep, hS.separated, hS.pos, fun t ht => hS.sizes t (hsub.mem ht), hS.apart.sublist hsub,
    fun t ht => hS.clear t (hsub.mem ht), fun t ht => hS.above t ?_, hS.base_lt⟩
  rcases List.mem_append.mp ht with ht | ht
  · exact List.mem_append_left _ ht
  · exact List.mem_append_right _ (hsub.mem ht)

theorem Inv.free (hI : Inv base s fs) (hap : ap ∈ s.live.map Prod.fst) :
    ∃ h' fs', s.heap.free ap = some h' ∧
      Inv base { s with heap := h', live := s.live.filter fun a => a.1 ≠ ap } fs' := by
  obtain ⟨c, hc, rfl⟩ := List.mem_map.mp hap
  obtain ⟨hge, huse⟩ := hI.usable c hc
  have hmem : s.heap.block c.1 ∈ s.blocks := List.mem_map.mpr ⟨c, hc, rfl⟩
  obtain ⟨hbase, hbrk⟩ := hI.sound.above _ (List.mem_append_right _ hmem)
  -- The other blocks in use.
  have hrest : (s.live.filter fun a => a.1 ≠ c.1).map (fun a => s.heap.block a.1) |>.Sublist s.blocks :=
    List.filter_sublist.map _
  have hclear : ∀ t ∈ (s.live.filter fun a => a.1 ≠ c.1).map (fun a => s.heap.block a.1), t.Apart (s.heap.block c.1) := by
    intro t ht
    obtain ⟨a, ha, rfl⟩ := List.mem_map.mp ht
    obtain ⟨ha, hne⟩ := List.mem_filter.mp ha
    exact hI.apart ha hc (by rintro rfl; simp at hne)
  obtain ⟨h', fs', hfree, hS, -, hcover, -⟩ := (Sound.sublist hI.sound hrest).free hbase (hI.sound.sizes _ hmem).2 hbrk
    (fun f hf => hI.sound.clear _ hmem f hf) hclear
  have hpoint : (s.heap.block c.1).start + headerSize = c.1 := Nat.sub_add_cancel hge
  rw [hpoint] at hfree
  have hblocks : (s.live.filter fun a => a.1 ≠ c.1).map (fun a => h'.block a.1) =
      (s.live.filter fun a => a.1 ≠ c.1).map fun a => s.heap.block a.1 := by
    refine List.map_congr_left fun a ha => ?_
    have hsize := (hS.sizes _ (List.mem_map.mpr ⟨a, ha, rfl⟩)).1
    exact (congrArg (Span.mk (a.1 - headerSize)) hsize).symm
  refine ⟨h', fs', hfree, by rw [State.blocks, hblocks]; exact hS, fun x => ?_, fun a ha => ?_⟩
  · have hall : Covers s.blocks x ↔ (s.heap.block c.1).Has x ∨
        Covers ((s.live.filter fun a => a.1 ≠ c.1).map fun a => s.heap.block a.1) x := by
      constructor
      · rintro ⟨t, ht, hx⟩
        obtain ⟨a, ha, rfl⟩ := List.mem_map.mp ht
        by_cases heq : a.1 = c.1
        · exact .inl (heq ▸ hx)
        · exact .inr ⟨_, List.mem_map.mpr ⟨a, List.mem_filter.mpr ⟨ha, by simpa using heq⟩, rfl⟩, hx⟩
      · rintro (hx | ⟨t, ht, hx⟩)
        · exact ⟨_, hmem, hx⟩
        · exact ⟨t, hrest.mem ht, hx⟩
    rw [State.blocks, hblocks, ← hI.tiles x, covers_append, covers_append, hcover x, hall]
    constructor
    · rintro ((hx | hx) | hx)
      · exact .inr (.inl hx)
      · exact .inl hx
      · exact .inr (.inr hx)
    · rintro (hx | hx | hx)
      · exact .inl (.inr hx)
      · exact .inl (.inl hx)
      · exact .inr hx
  · have hsame : h'.block a.1 = s.heap.block a.1 := List.map_inj_left.mp hblocks a ha
    obtain ⟨h1, h2⟩ := hI.usable a (List.mem_filter.mp ha).1
    exact ⟨h1, by rw [← hsame] at h2; exact h2⟩

theorem Inv.congr (hI : Inv base s fs) (h' : Heap) (hbrk : s.heap.brk ≤ h'.brk) (hfreep : h'.freep = s.heap.freep)
    (hsame : ∀ x, x = base ∨ (∃ f ∈ fs ++ s.blocks, f.start = x) → h'.ptr x = s.heap.ptr x ∧ h'.size x = s.heap.size x) :
    Inv base { s with heap := h' } fs := by
  have hblocks : s.live.map (fun a => h'.block a.1) = s.blocks := by
    refine List.map_congr_left fun a ha => ?_
    have hmem : s.heap.block a.1 ∈ fs ++ s.blocks := List.mem_append_right _ (List.mem_map.mpr ⟨a, ha, rfl⟩)
    have hsize := (hsame (a.1 - headerSize) (.inr ⟨_, hmem, rfl⟩)).2
    simp only [Heap.block, hsize]
  obtain ⟨hptr, hsize⟩ := hsame base (.inl rfl)
  have hS := hI.sound
  refine ⟨?_, fun x => by rw [State.blocks, hblocks]; exact hI.tiles x, fun a ha => ?_⟩
  · rw [State.blocks, hblocks]
    refine ⟨?_, hsize.trans hS.empty, hfreep ▸ hS.freep, hS.separated, hS.pos, fun t ht => ?_, hS.apart, hS.clear,
      fun t ht => ?_,
      Nat.lt_of_lt_of_le hS.base_lt hbrk⟩
    · rw [hptr]
      exact hS.ring.congr fun f hf => hsame _ (.inr ⟨f, by simp [hf], rfl⟩)
    · rw [(hsame t.start (.inr ⟨t, by simp [ht], rfl⟩)).2]
      exact hS.sizes t ht
    · obtain ⟨h1, h2⟩ := hS.above t ht
      exact ⟨h1, Nat.le_trans h2 hbrk⟩
  · have hsame' : h'.block a.1 = s.heap.block a.1 := List.map_inj_left.mp hblocks a ha
    obtain ⟨h1, h2⟩ := hI.usable a ha
    exact ⟨h1, by rw [← hsame'] at h2; exact h2⟩

theorem Inv.store (hI : Inv base s fs) (hap : ap ∈ s.live.map Prod.fst) (ptr size : Nat → Nat) :
    Inv base { s with
      heap.ptr := fun x => if s.inside ap x then ptr x else s.heap.ptr x
      heap.size := fun x => if s.inside ap x then size x else s.heap.size x } fs := by
  obtain ⟨c, hc, rfl⟩ := List.mem_map.mp hap
  have hmem : s.heap.block c.1 ∈ s.blocks := List.mem_map.mpr ⟨c, hc, rfl⟩
  have hout : ∀ x, x = base ∨ (∃ f ∈ fs ++ s.blocks, f.start = x) → s.inside c.1 x = false := by
    intro x hx
    have hnot : ¬(c.1 - headerSize < x ∧ x < s.heap.stop (c.1 - headerSize)) := by
      rintro ⟨hlow, hhigh⟩
      rcases hx with rfl | ⟨f, hf, rfl⟩
      · have := (hI.sound.above _ (List.mem_append_right _ hmem)).1
        simp only [Heap.block] at this
        omega
      · rcases List.mem_append.mp hf with hf | hf
        · have hpos := hI.sound.pos f hf
          rcases hI.sound.clear _ hmem f hf with hap | hap
          · simp only [Heap.block, Heap.stop] at hap hhigh
            omega
          · simp only [Heap.block] at hap
            omega
        · obtain ⟨a, ha, rfl⟩ := List.mem_map.mp hf
          by_cases hac : a = c
          · subst hac
            simp only [Heap.block] at hlow
            omega
          · have hge := (hI.sound.sizes _ hf).2
            rcases hI.apart ha hc hac with hap | hap
            · simp only [Heap.block, headerSize] at hap hge hlow
              omega
            · simp only [Heap.block, Heap.stop] at hap hhigh
              omega
    simpa [State.inside] using hnot
  exact hI.congr _ (Nat.le_refl _) rfl fun x hx => by simp [hout x hx]

/-- The states of a run. -/
def Reached (base : Nat) (s : State) : Prop :=
  base < s.heap.brk ∧ ((s.heap.freep = 0 ∧ s.live = [] ∧ s.segments = []) ∨ ∃ fs, Inv base s fs)

theorem Reached.init (h : Reached base s) (h0 : 0 < base) : ∃ fs, Inv base { s with heap := s.heap.init base } fs := by
  obtain ⟨hbrk, ⟨hnull, hlive, hseg⟩ | ⟨fs, hI⟩⟩ := h
  · refine ⟨[], ?_, fun x => ?_, fun a ha => ?_⟩
    · simp only [State.blocks, hlive, List.map_nil]
      exact sound_init s.heap hbrk hnull
    · simp [State.blocks, hlive, hseg]
    · simp [hlive] at ha
  · have hne : s.heap.freep ≠ 0 := by
      rcases hI.sound.freep with heq | ⟨f, hf, heq⟩
      · omega
      · have := (hI.sound.above f (List.mem_append_left _ hf)).1
        omega
    have heq : s.heap.init base = s.heap := if_neg hne
    exact ⟨fs, by rw [heq]; exact hI⟩

theorem Reached.malloc (h : Reached base s) (h0 : 0 < base) (ok : Bool) (nbytes : Nat) :
    ∃ r, s.heap.malloc base ok nbytes = some r ∧ Reached base (s.allocated nbytes r) := by
  obtain ⟨fs, hI⟩ := h.init h0
  have hlen : fs.length < (s.heap.init base).brk := hI.sound.length_lt
  obtain ⟨r, hr, hgives⟩ :=
    hI.sound.mallocLoop h0 (Nat.succ_pos _ : 0 < Heap.units nbytes) ok (4 * (s.heap.init base).brk + 8)
    (by omega)
  obtain ⟨fs', hI'⟩ := hI.allocated hgives
  have heq : { s with heap := s.heap.init base }.allocated nbytes r = s.allocated nbytes r := by
    simp only [State.allocated, init_brk]
  rw [heq] at hI'
  exact ⟨r, hr, hI'.sound.base_lt, .inr ⟨fs', hI'⟩⟩

/-- What a call that is made has done. -/
inductive Made (base : Nat) (s : State) : Event → State → Prop
  | malloc {nbytes : Nat} {ok : Bool} {r : Nat × Heap} (hr : s.heap.malloc base ok nbytes = some r) :
      Made base s (.malloc nbytes ok) (s.allocated nbytes r)
  | free {ap : Nat} {h : Heap} (hap : ap ∈ s.live.map Prod.fst) (hf : s.heap.free ap = some h) :
      Made base s (.free ap) { s with heap := h, live := s.live.filter fun a => a.1 ≠ ap }
  | sbrk {n : Nat} (hroom : s.heap.brk + n < kernbase) : Made base s (.sbrk n) { s with heap.brk := s.heap.brk + n }
  | store {ap : Nat} {ptr size : Nat → Nat} (hap : ap ∈ s.live.map Prod.fst) : Made base s (.store ap ptr size) { s with
      heap.ptr := fun x => if s.inside ap x then ptr x else s.heap.ptr x
      heap.size := fun x => if s.inside ap x then size x else s.heap.size x }

theorem step_made (hs : s.step base e = some s') : Made base s e s' := by
  cases e with
  | malloc nbytes ok =>
    obtain ⟨-, hs⟩ := Option.ite_none_right_eq_some.mp hs
    obtain ⟨r, hr, rfl⟩ := Option.map_eq_some_iff.mp hs
    exact .malloc hr
  | free ap =>
    obtain ⟨hap, hs⟩ := Option.ite_none_right_eq_some.mp hs
    obtain ⟨h, hf, rfl⟩ := Option.map_eq_some_iff.mp hs
    exact .free hap hf
  | sbrk n =>
    obtain ⟨hroom, hs⟩ := Option.ite_none_right_eq_some.mp hs
    obtain rfl := Option.some.inj hs
    exact .sbrk hroom
  | store ap ptr size =>
    obtain ⟨hap, hs⟩ := Option.ite_none_right_eq_some.mp hs
    obtain rfl := Option.some.inj hs
    exact .store hap

theorem Reached.used (h : Reached base s) (hap : ap ∈ s.live.map Prod.fst) : ∃ fs, Inv base s fs := by
  obtain ⟨-, ⟨-, hlive, -⟩ | hI⟩ := h
  · simp [hlive] at hap
  · exact hI

theorem Reached.step (h : Reached base s) (h0 : 0 < base) (hs : s.step base e = some s') : Reached base s' := by
  cases step_made hs with
  | @malloc nbytes ok r hr =>
    obtain ⟨r', hr', hreached⟩ := h.malloc h0 ok nbytes
    obtain rfl := Option.some.inj (hr.symm.trans hr')
    exact hreached
  | free hap hf =>
    obtain ⟨fs, hI⟩ := h.used hap
    obtain ⟨h', fs', hf', hI'⟩ := hI.free hap
    obtain rfl := Option.some.inj (hf.symm.trans hf')
    exact ⟨hI'.sound.base_lt, .inr ⟨fs', hI'⟩⟩
  | @sbrk n hroom =>
    obtain ⟨hbrk, hnew | ⟨fs, hI⟩⟩ := h
    · exact ⟨Nat.lt_of_lt_of_le hbrk (Nat.le_add_right _ _), .inl hnew⟩
    · have hI' := hI.congr { s.heap with brk := s.heap.brk + n } (Nat.le_add_right _ _) rfl fun _ _ => ⟨rfl, rfl⟩
      exact ⟨hI'.sound.base_lt, .inr ⟨fs, hI'⟩⟩
  | store hap =>
    obtain ⟨fs, hI⟩ := h.used hap
    exact ⟨h.1, .inr ⟨fs, hI.store hap _ _⟩⟩

theorem step_brk (hlt : s.heap.brk < kernbase) (hs : s.step base e = some s') : s'.heap.brk < kernbase := by
  cases step_made hs with
  | malloc hr => exact malloc_brk hlt hr
  | free hap hf => exact (free_brk hf).symm ▸ hlt
  | sbrk hroom => exact hroom
  | store hap => exact hlt

theorem Inv.le_brk (hI : Inv base s fs) (ha : a ∈ s.live) : a.1 + a.2 ≤ s.heap.brk := by
  obtain ⟨hge, huse⟩ := hI.usable a ha
  have hmem : s.heap.block a.1 ∈ s.blocks := List.mem_map.mpr ⟨a, ha, rfl⟩
  have habove := (hI.sound.above _ (List.mem_append_right _ hmem)).2
  simp only [Heap.block] at habove huse
  omega

theorem Reached.fresh (h : Reached base (s.allocated nbytes r)) (hr : r.1 ≠ 0) :
    (s.allocated nbytes r).live = s.live ++ [(r.1, nbytes)] ∧ r.1 ∉ s.live.map Prod.fst ∧ r.1 + nbytes ≤ r.2.brk := by
  have hlive : (s.allocated nbytes r).live = s.live ++ [(r.1, nbytes)] := if_neg hr
  obtain ⟨-, ⟨-, hnil, -⟩ | ⟨fs, hI⟩⟩ := h
  · simp [hlive] at hnil
  · have hnew : (r.1, nbytes) ∈ (s.allocated nbytes r).live := by simp [hlive]
    refine ⟨hlive, fun hold => ?_, hI.le_brk hnew⟩
    obtain ⟨a, ha, heq⟩ := List.mem_map.mp hold
    have hapart := hI.sound.apart
    rw [State.blocks, hlive, List.map_append, List.pairwise_append] at hapart
    have hself := hapart.2.2 _ (List.mem_map.mpr ⟨a, ha, rfl⟩) _ (List.mem_map.mpr ⟨_, List.mem_singleton.mpr rfl, rfl⟩)
    have huse := (hI.usable _ hnew).2
    rw [heq] at hself
    exact Span.not_apart_self (by simp only [headerSize] at huse; omega) hself

theorem Reached.good (h : Reached base s) : s.Good base :=
  h.2.imp id fun hex => hex.imp fun _ hI => hI.wellFormed

theorem Reached.returns (h : Reached base s) (h0 : 0 < base) : s.Returns base := by
  refine ⟨fun nbytes ok _ => ?_, fun ap hap => ?_⟩
  · obtain ⟨r, hr, -⟩ := h.malloc h0 ok nbytes
    rw [hr]
    rfl
  · obtain ⟨-, ⟨-, hlive, -⟩ | ⟨fs, hI⟩⟩ := h
    · simp [hlive] at hap
    · obtain ⟨h', -, hfree, -⟩ := hI.free hap
      rw [hfree]
      rfl

end

end State

/-- In every state of a run the heap is well formed, and `malloc` and `free` return. -/
theorem heap_wellFormed {base brk : Nat} {ptr size : Nat → Nat} {tr : List (State × Event)} {s : State} (h0 : 0 < base)
    (hbase : base < brk) (hr : Run (OfStep (State.step base)) (.start brk ptr size) tr s) :
    Always (fun s => s.Good base ∧ s.Returns base) tr s := by
  have hstart : State.Reached base (.start brk ptr size) := ⟨hbase, .inl ⟨rfl, rfl, rfl⟩⟩
  have hall := hr.always (G := fun _ _ => True) hstart (fun _ _ => trivial) fun hs _ hstep => hs.step h0 hstep
  exact hall.mono fun s hs => ⟨hs.good, hs.returns h0⟩

/-- Two blocks, of which the first is freed and the second is written. -/
theorem heap_wellFormed_two : ∃ tr s, Run (OfStep (State.step 0x800)) (.start 0x1000 (fun _ => 0) fun _ => 0) tr s ∧
    tr.map (·.2) = [.malloc 10 true, .malloc 20 true, .free 0x8FF0, .store 0x8FD0 (fun _ => 1) fun _ => 1] ∧
    s.live = [(0x8FD0, 20)] ∧ s.segments = [⟨0x1000, 0x8000⟩] ∧ Always (fun s => s.Good 0x800 ∧ s.Returns 0x800) tr s := by
  obtain ⟨tr, s, hr, hl, hlive, hseg⟩ :=
    Run.exists_of_traceOf (f := State.step 0x800) (.start 0x1000 (fun _ => 0) fun _ => 0)
    [.malloc 10 true, .malloc 20 true, .free 0x8FF0, .store 0x8FD0 (fun _ => 1) fun _ => 1]
    (fun _ s => s.live = [(0x8FD0, 20)] ∧ s.segments = [⟨0x1000, 0x8000⟩]) (by decide +kernel)
  exact ⟨tr, s, hr, hl, hlive, hseg, heap_wellFormed (by decide) (by decide) hr⟩

end Xv6.Umalloc
