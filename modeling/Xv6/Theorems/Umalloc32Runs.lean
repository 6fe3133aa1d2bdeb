import Xv6.Theorems.RamPages
import Xv6.Theorems.UmallocRuns
import Xv6.Umalloc32

/-! Where the rounded sizes fit in a positive `int`, no number of the allocator wraps around: all blocks lie below the
    kernel, and `sbrk` is asked for memory. Then the allocator on 32 bits is the one on numbers. -/

namespace Xv6.Umalloc
open Lib

theorem wrap_of_lt {x : Nat} (h : x < 0x100000000) : wrap x = x := Nat.mod_eq_of_lt h

section Agree
variable {base : Nat} {h : Heap} {fs live : List Span} {a p n bp nunits : Nat} {ok : Bool} {l : Vm.KernelLayout}
  {sz : Nat} {M M' : Vm.Machine}

/-! ### free -/

theorem Sound.node_stop (hS : Sound base h fs live) (ha : Node base fs a) : a + headerSize * h.size a ≤ h.brk := by
  rcases ha with rfl | ⟨s, hs, rfl⟩
  · rw [hS.empty]
    exact hS.base_lt.le
  · rw [← hS.ring.size hs]
    exact (hS.above s (List.mem_append_left _ hs)).2

theorem link32_eq (hstop : a + headerSize * h.size a < 0x100000000) (hsize : h.stop a = n →
    h.size a + h.size n < 0x100000000) :
    h.link32 a n = h.link a n := by
  have heq : h.stop32 a = h.stop a := wrap_of_lt hstop
  unfold Heap.link32 Heap.link
  rw [heq]
  split
  · rename_i hn
    rw [wrap_of_lt (hsize hn)]
  · rfl

theorem link_size (ha : p ≠ a) : (h.link a n).size p = h.size p := by
  unfold Heap.link
  split
  · exact Function.update_of_ne ha ..
  · rfl

theorem link_size_le : (h.link a n).size a ≤ h.size a + h.size n := by
  unfold Heap.link
  split
  · exact Nat.le_of_eq (Function.update_self ..)
  · exact Nat.le_add_right ..

theorem Sound.free32 (hS : Sound base h fs live) (hlow : h.brk < kernbase) (hbase : base < bp)
    (hlen : headerSize ≤ headerSize * h.size bp)
    (hbrk : h.stop bp ≤ h.brk) (hfs : ∀ f ∈ fs, Span.Apart ⟨bp, headerSize * h.size bp⟩ f) :
    h.free32 (bp + headerSize) = h.free (bp + headerSize) := by
  obtain ⟨p, u, v, hfind, hplace⟩ := hS.findPlace hbase hlen hfs
  have hp : Node base fs p := hplace.split ▸ node_of_last hplace.node
  have hn : Node base fs (h.ptr p) := hS.node_ptr hp
  have hpstop := hS.node_stop hp
  have hnstop := hS.node_stop hn
  have hpbp : p ≠ bp := Nat.ne_of_lt hplace.lt
  simp only [Heap.stop, headerSize, kernbase] at *
  have hback : wrap (bp + 8 + 0x100000000 - 8) = bp := by
    rw [wrap]
    omega
  have hfirst : h.link32 bp (h.ptr p) = h.link bp (h.ptr p) :=
    link32_eq (by simp only [headerSize]; omega) fun _ => by omega
  have hmiddle : (h.link bp (h.ptr p)).size p = h.size p := link_size hpbp
  have hjoined : (h.link bp (h.ptr p)).size bp ≤ h.size bp + h.size (h.ptr p) := link_size_le
  have hsecond : (h.link bp (h.ptr p)).link32 p bp = (h.link bp (h.ptr p)).link p bp :=
    link32_eq (by simp only [headerSize]; omega) fun _ => by omega
  simp only [Heap.free32, Heap.free, headerSize, hback, Nat.add_sub_cancel, hfind, Option.map_some, hfirst, hsecond]

/-! ### malloc -/

theorem Sound.take32 (hS : Sound base h fs live) (hlow : h.brk < kernbase) (hp : Node base fs p) (hsize : nunits ≤ h.size p)
    (q : Nat) :
    h.take32 q p nunits = h.take q p nunits := by
  have hstop := hS.node_stop hp
  simp only [headerSize, kernbase] at hstop hlow
  unfold Heap.take32 Heap.take
  split
  · rw [wrap_of_lt (by simp only [headerSize]; omega)]
  · have hend : ({ h with size := Function.update h.size p (h.size p - nunits) } : Heap).stop32 p =
        ({ h with size := Function.update h.size p (h.size p - nunits) } : Heap).stop p := by
      refine wrap_of_lt ?_
      simp only [Function.update_self, headerSize]
      omega
    have hle : ({ h with size := Function.update h.size p (h.size p - nunits) } : Heap).stop p ≤ h.brk := by
      simp only [Heap.stop, Function.update_self, headerSize]
      omega
    simp only [hend]
    rw [wrap_of_lt (by simp only [headerSize]; omega)]

theorem growproc_ram {sz' : Nat} {n r : Int} (h : Vm.growproc l M sz n = some (r, sz', M')) :
    ∃ ok, growproc sz n ok = if r = 0 then some sz' else none := by
  unfold Vm.growproc at h
  obtain ⟨⟨m, M₁⟩, hgrown, hres⟩ := Option.map_eq_some_iff.mp h
  obtain ⟨ok, hok⟩ : ∃ ok, resized sz n ok = m := by
    unfold resized
    dsimp only at hgrown ⊢
    split at hgrown
    · rename_i hpos
      obtain ⟨ok, -, hok⟩ := Vm.allocuvm_size (Vm.Machine.allocuvm_space.symm.trans (congrArg (Option.map _) hgrown))
      exact ⟨ok, (if_pos hpos).trans hok⟩
    · rename_i hpos
      refine ⟨true, ?_⟩
      rw [if_neg hpos]
      split at hgrown
      · rename_i hneg
        exact (if_pos hneg).trans
          (Vm.deallocuvm_size (Vm.Machine.deallocuvm_space.symm.trans (congrArg (Option.map _) hgrown)))
      · rename_i hneg
        cases hgrown
        exact if_neg hneg
  refine ⟨ok, ?_⟩
  rw [growproc, hok]
  dsimp only at hres
  split at hres
  · rename_i hzero
    cases hres
    rw [if_pos hzero, if_neg (by decide)]
  · rename_i hzero
    cases hres
    rw [if_neg hzero, if_pos rfl]

theorem growproc_of_fits (ok : Bool) {n : Nat} (hsz : sz < kernbase) (hpos : 0 < n) (hn : n < 0x80000000) :
    growproc sz (int32 n) ok = if ok ∧ sz + n < kernbase then some (sz + n) else none := by
  have hint : int32 n = n := by
    rw [int32, Int.bmod_def]
    omega
  have hnew : (((sz : Int) + (n : Int)) % 0x100000000).toNat = sz + n := by
    simp only [kernbase] at hsz
    omega
  have hresized : resized sz n ok = if sz + n ≥ kernbase then 0 else if ok then sz + n else 0 := by
    rw [resized, hnew, if_pos (by omega), if_neg (Nat.not_lt.mpr (Nat.le_add_right ..))]
  rw [hint, growproc, hresized]
  by_cases hroom : sz + n < kernbase
  · rw [if_neg (Nat.not_le.mpr hroom)]
    cases ok with
    | true => rw [if_pos rfl, if_neg (by omega), if_pos ⟨rfl, hroom⟩]
    | false =>
      simp only [Bool.false_eq_true, if_false, false_and]
      exact if_pos ⟨trivial, by omega⟩
  · rw [if_pos (Nat.not_lt.mp hroom), if_pos ⟨rfl, by omega⟩, if_neg (fun h => hroom h.2)]

theorem Sound.morecore32 (hS : Sound base h fs live) (hlow : h.brk < kernbase) (hfits : headerSize * nunits < 0x80000000) :
    h.morecore32 ok nunits = h.morecore ok nunits := by
  have hbytes : 0 < headerSize * max nunits 4096 ∧ headerSize * max nunits 4096 < 0x80000000 := by
    simp only [headerSize] at hfits ⊢
    omega
  have hgrow := growproc_of_fits ok hlow hbytes.1 hbytes.2
  rw [Heap.morecore32, Heap.morecore]
  dsimp only
  rw [hgrow]
  split
  · rename_i hroom
    have hS₁ := hS.extend (h.brk + headerSize * max nunits 4096) (Nat.le_add_right _ _) (max nunits 4096)
    have hsize : Function.update h.size h.brk (max nunits 4096) h.brk = max nunits 4096 := Function.update_self ..
    have hfree :=
      hS₁.free32 hroom.2 hS.base_lt (by simp only [hsize, headerSize]; omega) (by simp only [Heap.stop, hsize, Nat.le_refl])
      fun f hf => .inr (hS.above f (List.mem_append_left _ hf)).2
    simp only [Option.elim_some]
    rw [if_pos (by simp only [pgroundup, pgsize, headerSize]; omega),
      wrap_of_lt (by simp only [headerSize, kernbase] at hlow ⊢; omega), hfree]
  · rfl

theorem Sound.mallocLoop32 (hS : Sound base h fs live) (h0 : 0 < base) (hlow : h.brk < kernbase)
    (hfits : headerSize * nunits < 0x80000000)
    {q : Nat} (hp : Node base fs p) (fuel : Nat) :
    Heap.mallocLoop32 ok nunits fuel h q p = Heap.mallocLoop ok nunits fuel h q p := by
  induction fuel generalizing h fs q p with
  | zero => rfl
  | succ fuel ih =>
    rw [Heap.mallocLoop32, Heap.mallocLoop]
    split
    · rename_i hsize
      rw [hS.take32 hlow hp hsize]
    · split
      · rw [hS.morecore32 hlow hfits]
        rcases hS.morecore h0 ok nunits with hnone | ⟨h', fs', hmore, hfreep, hS', -⟩
        · rw [hnone]
          simp only [Option.bind_some, if_true]
        · rw [hmore]
          simp only [Option.bind_some, if_neg hfreep]
          exact ih hS' (morecore_brk hlow hmore) (hS'.node_ptr hS'.freep)
      · exact ih hS hlow (hS.node_ptr hp)

theorem units32_of_fits {nbytes : Nat} (hfits : Fits nbytes) : Heap.units32 nbytes = Heap.units nbytes := by
  simp only [Fits, Heap.units, headerSize] at hfits
  simp only [Heap.units32, Heap.units, wrap, headerSize]
  omega

end Agree

/-! ### Runs -/

namespace State

section
variable {base : Nat} {s s' : State} {fs : List Span}

theorem Reached.malloc32 (h : Reached base s) (h0 : 0 < base) (hlow : s.heap.brk < kernbase) (ok : Bool) {nbytes : Nat}
    (hfits : Fits nbytes) :
    s.heap.malloc32 base ok nbytes = s.heap.malloc base ok nbytes := by
  obtain ⟨fs, hI⟩ := h.init h0
  have hlow' : (s.heap.init base).brk < kernbase := by rwa [init_brk]
  rw [Heap.malloc32, Heap.malloc, units32_of_fits hfits]
  exact hI.sound.mallocLoop32 h0 hlow' hfits (hI.sound.node_ptr hI.sound.freep) _

theorem Reached.free32 {ap : Nat} (h : Reached base s) (hlow : s.heap.brk < kernbase) (hap : ap ∈ s.live.map Prod.fst) :
    s.heap.free32 ap = s.heap.free ap := by
  obtain ⟨fs, hI⟩ := h.used hap
  obtain ⟨c, hc, rfl⟩ := List.mem_map.mp hap
  have hge := (hI.usable c hc).1
  have hmem : s.heap.block c.1 ∈ s.blocks := List.mem_map.mpr ⟨c, hc, rfl⟩
  obtain ⟨hbase, hbrk⟩ := hI.sound.above _ (List.mem_append_right _ hmem)
  have hfree := hI.sound.free32 hlow hbase (hI.sound.sizes _ hmem).2 hbrk fun f hf => hI.sound.clear _ hmem f hf
  have hpoint : (s.heap.block c.1).start + headerSize = c.1 := Nat.sub_add_cancel hge
  rw [hpoint] at hfree
  exact hfree

theorem Reached.step32 (h : Reached base s) (h0 : 0 < base) (hlow : s.heap.brk < kernbase) {e : Event} (hfits : e.Fits)
    (hs : s.step32 base e = some s') : s.step base e = some s' := by
  cases e with
  | malloc nbytes ok =>
    have hfits : Umalloc.Fits nbytes := hfits
    obtain ⟨-, hs⟩ := Option.ite_none_right_eq_some.mp hs
    rw [h.malloc32 h0 hlow ok hfits] at hs
    rw [State.step, if_pos hfits]
    exact hs
  | free ap =>
    obtain ⟨hap, hs⟩ := Option.ite_none_right_eq_some.mp hs
    rw [h.free32 hlow hap] at hs
    rw [State.step, if_pos hap]
    exact hs
  | sbrk n => exact hs
  | store ap ptr size => exact hs

end

end State

/-- In a run whose sizes fit, the bytes that `malloc` is asked for lie below the break and in no other block. -/
theorem malloc_enough {base brk : Nat} {ptr size : Nat → Nat} {tr : List (State × Event)} {s : State} (h0 : 0 < base)
    (hbase : base < brk)
    (hbrk : brk < kernbase) (hrun : Run (OfStep (State.step32 base)) (.start brk ptr size) tr s)
      (hfits : Meets (fun _ e => e.Fits) tr)
    {nbytes p : Nat} {ok : Bool} {h : Heap} (hn : Fits nbytes) (hr : s.heap.malloc32 base ok nbytes = some (p, h))
      (hp : p ≠ 0) :
    p + nbytes ≤ h.brk ∧ ∀ a ∈ s.live, Span.Apart ⟨p, nbytes⟩ ⟨a.1, a.2⟩ := by
  have hstart : State.Reached base (.start brk ptr size) ∧ (State.start brk ptr size).heap.brk < kernbase :=
    ⟨⟨hbase, .inl ⟨rfl, rfl, rfl⟩⟩, hbrk⟩
  have hall :=
    (hrun.always (G := fun _ e => e.Fits) (I := fun s => State.Reached base s ∧ s.heap.brk < kernbase) hstart hfits
    fun hs hfit hstep => ⟨hs.1.step h0 (hs.1.step32 h0 hs.2 hfit hstep),
      State.step_brk hs.2 (hs.1.step32 h0 hs.2 hfit hstep)⟩).2
  obtain ⟨hreached, hlow⟩ := hall
  rw [hreached.malloc32 h0 hlow ok hn] at hr
  obtain ⟨r, hr', hafter⟩ := hreached.malloc h0 ok nbytes
  obtain rfl := Option.some.inj (hr'.symm.trans hr)
  obtain ⟨hlive, hnew, hle⟩ := hafter.fresh hp
  refine ⟨hle, fun a ha => ?_⟩
  have hmem : (p, nbytes) ∈ (s.allocated nbytes (p, h)).live := by simp [hlive]
  have hold : a ∈ (s.allocated nbytes (p, h)).live := by simp [hlive, ha]
  have hne : (p, nbytes) ≠ a := by
    rintro rfl
    exact hnew (List.mem_map.mpr ⟨_, ha, rfl⟩)
  obtain ⟨fs, hI⟩ := hafter.used (List.mem_map.mpr ⟨_, hmem, rfl⟩)
  obtain ⟨hp8, hpuse⟩ := hI.usable _ hmem
  obtain ⟨ha8, hause⟩ := hI.usable _ hold
  have hapart := hI.apart hmem hold hne
  simp only [Span.Apart, Heap.block, headerSize] at hapart hp8 hpuse ha8 hause ⊢
  omega

/-- A second block. -/
theorem malloc_enough_two : ∃ tr s p h, Run (OfStep (State.step32 0x800)) (.start 0x1000 (fun _ => 0) fun _ => 0) tr s ∧
    tr.map (·.2) = [.malloc 10 true] ∧ s.live ≠ [] ∧ s.heap.malloc32 0x800 true 20 = some (p, h) ∧ p ≠ 0 ∧ p + 20 ≤ h.brk ∧
    ∀ a ∈ s.live, Span.Apart ⟨p, 20⟩ ⟨a.1, a.2⟩ := by
  obtain ⟨tr, s, hrun, hl, hlive, hsome⟩ :=
    Run.exists_of_traceOf (f := State.step32 0x800) (.start 0x1000 (fun _ => 0) fun _ => 0)
    [.malloc 10 true] (fun _ s => s.live ≠ [] ∧ ((s.heap.malloc32 0x800 true 20).any fun r => r.1 ≠ 0) = true)
      (by decide +kernel)
  obtain ⟨⟨p, h⟩, hr, hp⟩ := (Option.any_eq_true ..).mp hsome
  have hfits : Meets (fun _ e => e.Fits) tr := by
    intro x hx
    have hmem : x.2 ∈ tr.map (·.2) := List.mem_map.mpr ⟨x, hx, rfl⟩
    rw [hl, List.mem_singleton] at hmem
    rw [hmem]
    decide
  have hne : p ≠ 0 := by simpa using hp
  obtain ⟨hle, hapart⟩ := malloc_enough (by decide) (by decide) (by decide) hrun hfits (show Fits 20 by decide) hr hne
  exact ⟨tr, s, p, h, hrun, hl, hlive, hr, hne, hle, hapart⟩

/-- The first call, with the largest number: the sum in `nunits` wraps around, and the block has no usable byte. -/
theorem malloc_short : ∃ p h, (State.start 0x1000 (fun _ => 0) fun _ => 0).heap.malloc32 0x800 true 0xFFFFFFFF =
    some (p, h) ∧
    p ≠ 0 ∧ h.brk = p ∧ ¬p + 0xFFFFFFFF ≤ h.brk := by
  have hany : (((State.start 0x1000 (fun _ => 0) fun _ => 0).heap.malloc32 0x800 true 0xFFFFFFFF).any
      fun r => r.1 ≠ 0 ∧ r.2.brk = r.1) = true := by decide +kernel
  obtain ⟨⟨p, h⟩, hr, hp⟩ := (Option.any_eq_true ..).mp hany
  obtain ⟨hne, hbrk⟩ := of_decide_eq_true hp
  exact ⟨p, h, hr, hne, hbrk, by dsimp only at hbrk; omega⟩

end Xv6.Umalloc
