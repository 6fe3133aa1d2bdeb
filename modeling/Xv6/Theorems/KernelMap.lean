import Xv6.Theorems.RamPages

/-! `setupkvm` maps the kernel without a panic: the ranges of `kmap` do not overlap, so no page is mapped twice. None of
    them is for user code. -/

namespace Xv6.Vm
open Lib

section
variable {m : Space} {a va size : Nat} {m' : Space} {lo hi : Nat} {flags : BitVec 12 → Prop}

/-- The pages from `lo` to `hi` have been visited: what is new there has the given permissions. -/
structure Visited (m m' : Space) (lo hi : Nat) (flags : BitVec 12 → Prop) : Prop where
  old : ∀ v, ¬(lo ≤ v * pgsize ∧ v * pgsize < hi) → m'.dir.entry v = m.dir.entry v
  new : ∀ v e, m'.dir.entry v = some e → m.dir.entry v = some e ∨ flags e.flags

theorem Visited.refl (m : Space) (lo hi : Nat) (flags : BitVec 12 → Prop) : Visited m m lo hi flags :=
  ⟨fun _ _ => rfl, fun _ _ h => .inl h⟩

theorem Visited.mono {m : Space} {lo' hi' : Nat} (h : Visited m m' lo hi flags) (hlo : lo' ≤ lo)
    (hhi : hi ≤ hi') : Visited m m' lo' hi' flags :=
  ⟨fun v hv => h.old v fun hin => hv ⟨Nat.le_trans hlo hin.1, Nat.lt_of_lt_of_le hin.2 hhi⟩, h.new⟩

theorem Visited.imp {m : Space} {flags' : BitVec 12 → Prop} (h : Visited m m' lo hi flags)
    (himp : ∀ x, flags x → flags' x) : Visited m m' lo hi flags' :=
  ⟨h.old, fun v e he => (h.new v e he).imp id (himp _)⟩

theorem Visited.trans {m m₁ : Space} (h : Visited m m₁ lo hi flags)
    (h' : Visited m₁ m' lo hi flags) : Visited m m' lo hi flags where
  old := fun v hv => (h'.old v hv).trans (h.old v hv)
  new := fun v e he => (h'.new v e he).elim (h.new v e) .inr

theorem mappage_visited (pa : Nat) (perm : BitVec 12) (ha : a % pgsize = 0) (hlt : a < wordLimit)
    (hnone : m.dir.entry (a / pgsize) = none) :
    ∃ r m', mappage m a pa perm = some (r, m') ∧ Visited m m' a (a + pgsize) (· = perm ||| pteP) := by
  rcases mappage_spec pa perm hlt hnone with ⟨hmap, -⟩ | ⟨m', hmap, -, hent, -⟩
  · exact ⟨false, m, hmap, .refl ..⟩
  · refine ⟨true, m', hmap, fun v hv => ?_, fun v e he => ?_⟩
    · rw [hent, Function.update_of_ne]
      rintro rfl
      simp only [pgsize] at hv ha
      omega
    · rw [hent] at he
      by_cases hv : v = a / pgsize
      · rw [hv, Function.update_self] at he
        obtain rfl := Option.some.inj he
        exact .inr rfl
      · rw [Function.update_of_ne hv] at he
        exact .inl he

theorem mappagesLoop_visited {k : Nat} (pa : Nat) (perm : BitVec 12) (ha : a % pgsize = 0)
    (hlt : a + k * pgsize < wordLimit)
    (hfresh : ∀ v, a ≤ v * pgsize → v * pgsize < a + (k + 1) * pgsize → m.dir.entry v = none) :
    ∃ r m', mappagesLoop k m a pa perm = some (r, m') ∧ Visited m m' a (a + (k + 1) * pgsize) (· = perm ||| pteP) := by
  have first {m : Space} {a k : Nat} (ha : a % pgsize = 0)
      (hfresh : ∀ v, a ≤ v * pgsize → v * pgsize < a + (k + 1) * pgsize → m.dir.entry v = none) :
      m.dir.entry (a / pgsize) = none := by
    have hstart : a / pgsize * pgsize = a := Nat.div_mul_cancel (Nat.dvd_of_mod_eq_zero ha)
    refine hfresh _ (Nat.le_of_eq hstart.symm) ?_
    rw [hstart, Nat.succ_mul]
    exact Nat.lt_add_of_pos_right (Nat.add_pos_right _ (by decide))
  induction k generalizing m a pa with
  | zero =>
    have hvisited := mappage_visited pa perm ha (Nat.lt_of_le_of_lt (Nat.le_add_right ..) hlt) (first ha hfresh)
    rw [Nat.zero_add, Nat.one_mul]
    exact hvisited
  | succ k ih =>
    obtain ⟨r, m₁, hmap, hvisited⟩ := mappage_visited pa perm ha (Nat.lt_of_le_of_lt (Nat.le_add_right ..) hlt)
      (first ha hfresh)
    have hle : a + pgsize ≤ a + (k + 1 + 1) * pgsize := by
      rw [Nat.succ_mul]
      omega
    rw [mappagesLoop, hmap]
    cases r with
    | false => exact ⟨false, m₁, rfl, hvisited.mono (Nat.le_refl _) hle⟩
    | true =>
      obtain ⟨r, m', hloop, hrest⟩ := ih (m := m₁) (a := a + pgsize) (pa + pgsize)
        (by rw [Nat.add_mod_right]; exact ha) (by rw [Nat.succ_mul] at hlt; omega) fun v hv hv' => by
          rw [hvisited.old v (by omega)]
          exact hfresh v (by omega) (by rw [Nat.succ_mul (k + 1)]; omega)
      refine ⟨r, m', hloop, (hvisited.mono (Nat.le_refl _) hle).trans (hrest.mono (Nat.le_add_right ..) ?_)⟩
      rw [Nat.succ_mul (k + 1)]
      omega

/-- Over whole pages `mappages` is one step of its loop for each. -/
theorem mappages_eq (m : Space) (pa : Nat) (perm : BitVec 12) (ha : va % pgsize = 0) (hsize : size % pgsize = 0)
    (hpos : 0 < size) (hle : va + size ≤ wordLimit) :
    ∃ k, size = (k + 1) * pgsize ∧ va + k * pgsize < wordLimit ∧
      mappages m va size pa perm = mappagesLoop k m va pa perm := by
  have h1 : va / pgsize * pgsize = va := Nat.div_mul_cancel (Nat.dvd_of_mod_eq_zero ha)
  have h2 : ((va + size - 1) % wordLimit / pgsize * pgsize - va) / pgsize = size / pgsize - 1 := by
    simp only [pgsize, wordLimit] at ha hsize hle ⊢
    omega
  refine ⟨size / pgsize - 1, ?_, ?_, by simp only [mappages, h1, h2]⟩ <;> simp only [pgsize] at hsize ⊢ <;> omega

end

/-! ### setupkvm -/

def Kmap.size (k : Kmap) : Nat := (wordLimit + k.physEnd - k.physStart) % wordLimit

/-- A mapping of whole kernel pages, which is not for user code. -/
structure Kmap.Fits (k : Kmap) : Prop where
  kernel : kernbase ≤ k.virt
  start : k.virt % pgsize = 0
  whole : k.size % pgsize = 0
  pos : 0 < k.size
  inside : k.virt + k.size ≤ wordLimit
  perm : (k.perm ||| pteP) &&& pteU = 0

theorem Kmap.Fits.visited {k : Kmap} {m : Space} (hk : k.Fits)
    (hfresh : ∀ v, k.virt ≤ v * pgsize → v * pgsize < k.virt + k.size → m.dir.entry v = none) :
    ∃ r m', mappages m k.virt k.size k.physStart k.perm = some (r, m') ∧
      Visited m m' k.virt (k.virt + k.size) (· = k.perm ||| pteP) := by
  obtain ⟨n, hn, hlt, heq⟩ := mappages_eq m k.physStart k.perm hk.start hk.whole hk.pos hk.inside
  rw [heq, hn]
  exact mappagesLoop_visited _ _ hk.start hlt (hn ▸ hfresh)

theorem setupkvmLoop_visited {ks : List Kmap} {m : Space} (hfits : ∀ k ∈ ks, k.Fits)
    (hapart : ks.Pairwise fun k k' => k.virt + k.size ≤ k'.virt)
    (hfresh : ∀ k ∈ ks, ∀ v, k.virt ≤ v * pgsize → v * pgsize < k.virt + k.size → m.dir.entry v = none) :
    ∃ r m', setupkvmLoop ks m = some (r, m') ∧ Visited m m' kernbase wordLimit (· &&& pteU = 0) := by
  induction ks generalizing m with
  | nil => exact ⟨true, m, rfl, .refl ..⟩
  | cons k ks ih =>
    rw [List.pairwise_cons] at hapart
    have hk := hfits k List.mem_cons_self
    obtain ⟨r, m₁, hmap, hvisited⟩ := hk.visited (hfresh k List.mem_cons_self)
    have hfirst : Visited m m₁ kernbase wordLimit (· &&& pteU = 0) :=
      (hvisited.mono hk.kernel hk.inside).imp fun _ h => h ▸ hk.perm
    have hmap : mappages m k.virt ((wordLimit + k.physEnd - k.physStart) % wordLimit) k.physStart k.perm = some (r, m₁) :=
      hmap
    rw [setupkvmLoop, hmap]
    cases r with
    | false => exact ⟨false, m₁, rfl, hfirst⟩
    | true =>
      obtain ⟨r, m', hloop, hrest⟩ := ih (m := m₁) (fun k' hk' => hfits k' (List.mem_cons_of_mem _ hk')) hapart.2
        fun k' hk' v hv hv' => by
          rw [hvisited.old v fun h => Nat.not_lt.mpr (Nat.le_trans (hapart.1 k' hk') hv) h.2]
          exact hfresh k' (List.mem_cons_of_mem _ hk') v hv hv'
      exact ⟨r, m', hloop, hfirst.trans hrest⟩

theorem kmap_fits (l : KernelLayout) : ∀ k ∈ kmap l, k.Fits := by
  have haligned := l.aligned
  have htext := l.text
  have hdata := Nat.lt_of_lt_of_le l.ordered l.fits
  simp only [pgsize, extmem, phystop] at haligned htext hdata
  intro k hk
  simp only [kmap, List.mem_cons, List.not_mem_nil, or_false] at hk
  rcases hk with rfl | rfl | rfl | rfl
  · exact ⟨by decide, by decide, by decide, by decide, by decide, by decide⟩
  · constructor <;> simp only [Kmap.size, wordLimit, pgsize, kernlink, kernbase, extmem] <;> first | decide | omega
  · constructor <;> simp only [Kmap.size, wordLimit, pgsize, phystop, kernbase] <;> first | decide | omega
  · exact ⟨by decide, by decide, by decide, by decide, by decide, by decide⟩

theorem kmap_apart (l : KernelLayout) : (kmap l).Pairwise fun k k' => k.virt + k.size ≤ k'.virt := by
  have htext := l.text
  have hdata := Nat.lt_of_lt_of_le l.ordered l.fits
  simp only [extmem, phystop] at htext hdata
  simp only [kmap, List.pairwise_cons, List.mem_cons, List.not_mem_nil, or_false, forall_eq_or_imp, forall_eq, Kmap.size,
    wordLimit,
    kernbase, kernlink, extmem, phystop, devspace, List.Pairwise.nil, and_true, false_imp_iff, implies_true]
  omega

theorem setupkvm_total (l : KernelLayout) (free : List Frame) : ∃ o free', setupkvm l free = some (o, free') ∧
    ∀ d, o = some d → ∀ v e, d.entry v = some e → e.flags &&& pteU = 0 := by
  unfold setupkvm
  cases free with
  | nil => exact ⟨none, [], rfl, fun d hd => by cases hd⟩
  | cons v free =>
    simp only [kalloc]
    rw [if_neg (by decide)]
    obtain ⟨r, m', hloop, hvisited⟩ := setupkvmLoop_visited (m := ⟨free, v, fun _ => none⟩) (kmap_fits l) (kmap_apart l)
      fun _ _ _ _ _ => rfl
    rw [hloop]
    cases r with
    | false => exact ⟨none, m'.free, rfl, fun d hd => by cases hd⟩
    | true =>
      refine ⟨some m'.dir, m'.free, rfl, fun d hd v e he => ?_⟩
      obtain rfl := Option.some.inj hd
      rcases hvisited.new v e he with he | he
      · cases he
      · exact he

end Xv6.Vm
