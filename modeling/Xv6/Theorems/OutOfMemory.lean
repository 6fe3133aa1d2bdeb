import Xv6.Theorems.Copyout
import Xv6.Theorems.KernelMap

/-! What `setupkvm`, `copyuvm` and `allocuvm` leave behind when there is no page for them. `setupkvm` takes 65 pages,
    and gives none back when they are fewer; `copyuvm` gives all back, but for the page that it could not map. -/

namespace Xv6.Vm
open Lib

/-! ### The kernel part of a directory -/

section
variable {m m₁ m' : Space} {va size pa : Nat} {perm : BitVec 12} {r : Bool}

/-- `mappages` has been over the kernel addresses from `va` on, and stopped at one without a table if it failed. -/
structure Ranged (m m' : Space) (va size : Nat) (r : Bool) : Prop where
  pages : m'.pages = m.pages
  user : m'.dir.user = m.dir.user
  kept : ∀ i, (m.dir.pde i).isSome → (m'.dir.pde i).isSome
  only : ∀ i, (m'.dir.pde i).isSome → (m.dir.pde i).isSome ∨ ∃ x, va ≤ x ∧ x < va + size ∧ i = pdx x
  all : r = true → ∀ x, va ≤ x → x < va + size → (m'.dir.pde (pdx x)).isSome
  failed : r = false → m'.free = [] ∧ ∃ x, va ≤ x ∧ x < va + size ∧ m'.dir.pde (pdx x) = none
  entries : ∀ v, (m.dir.entry v).isSome → (m'.dir.entry v).isSome
  first : r = true → (m'.dir.entry (va / pgsize)).isSome

theorem mappage_ranged (ha : va % pgsize = 0) (hk : kernbase ≤ va) (hlt : va < wordLimit)
    (h : mappage m va pa perm = some (r, m')) : Ranged m m' va pgsize r := by
  cases r with
  | false =>
    obtain ⟨rfl, hfree, hnone⟩ := mappage_false h
    exact ⟨rfl, rfl, fun _ => id, fun _ => .inl, nofun, fun _ => ⟨hfree, va, Nat.le_refl _, by simp, hnone⟩,
      fun _ => id, nofun⟩
  | true =>
    have hm := mappage_true h hlt
    have hpages := hm.pages
    have huser := hm.user
    rw [if_neg (Nat.not_lt.mpr hk), add_zero] at hpages huser
    obtain ⟨e, -, hent⟩ := hm.entry
    refine ⟨hpages, huser, fun i hi => (hm.present i).mpr (.inl hi), fun i hi => ?_, fun _ x h1 h2 => ?_, nofun,
      fun v hv => ?_,
      fun _ => ?_⟩
    · exact ((hm.present i).mp hi).imp id fun hi => ⟨va, Nat.le_refl _, by simp, hi⟩
    · refine (hm.present _).mpr (.inr ?_)
      simp only [pdx, nptentries, npdentries, pgsize] at *
      omega
    · rw [hent]
      by_cases hva : v = va / pgsize
      · rw [hva, Function.update_self]
        rfl
      · rw [Function.update_of_ne hva]
        exact hv
    · rw [hent, Function.update_self]
      rfl

theorem Ranged.trans {size' : Nat} (h : Ranged m m₁ va size true) (h' : Ranged m₁ m' (va + size) size' r) :
    Ranged m m' va (size + size') r := by
  refine ⟨h'.pages.trans h.pages, h'.user.trans h.user, fun i hi => h'.kept i (h.kept i hi), fun i hi => ?_,
    fun hr x h1 h2 => ?_,
    fun hr => ?_, fun v hv => h'.entries v (h.entries v hv), fun _ => h'.entries _ (h.first rfl)⟩
  · rcases h'.only i hi with hi | ⟨x, h1, h2, hx⟩
    · exact (h.only i hi).imp id fun ⟨x, h1, h2, hx⟩ => ⟨x, h1, by omega, hx⟩
    · exact .inr ⟨x, by omega, by omega, hx⟩
  · by_cases hx : x < va + size
    · exact h'.kept _ (h.all rfl x h1 hx)
    · exact h'.all hr x (Nat.le_of_not_lt hx) (by omega)
  · obtain ⟨hf, x, h1, h2, hx⟩ := h'.failed hr
    exact ⟨hf, x, by omega, by omega, hx⟩

theorem Ranged.extend {size' : Nat} (h : Ranged m m' va size false) (hle : size ≤ size') : Ranged m m' va size' false := by
  refine ⟨h.pages, h.user, h.kept, fun i hi => ?_, nofun, fun hr => ?_, h.entries, nofun⟩
  · exact (h.only i hi).imp id fun ⟨x, h1, h2, hx⟩ => ⟨x, h1, by omega, hx⟩
  · obtain ⟨hf, x, h1, h2, hx⟩ := h.failed hr
    exact ⟨hf, x, h1, by omega, hx⟩

theorem mappagesLoop_ranged {k : Nat} (ha : va % pgsize = 0) (hk : kernbase ≤ va) (hlt : va + k * pgsize < wordLimit)
    (h : mappagesLoop k m va pa perm = some (r, m')) : Ranged m m' va (pgsize + k * pgsize) r := by
  induction k generalizing m va pa with
  | zero => exact mappage_ranged ha hk (by omega) h
  | succ k ih =>
    unfold mappagesLoop at h
    rw [Nat.succ_mul] at hlt ⊢
    split at h
    · cases h
    · rename_i m₁ hmap
      cases h
      exact (mappage_ranged ha hk (by omega) hmap).extend (by omega)
    · rename_i m₁ hmap
      have h₁ := mappage_ranged ha hk (by omega) hmap
      have h₂ := ih (by simp only [pgsize] at *; omega) (by omega) (by omega) h
      rw [Nat.add_comm (k * pgsize)]
      exact h₁.trans h₂

theorem Kmap.Fits.ranged {k : Kmap} (hk : k.Fits)
    (h : mappages m k.virt k.size k.physStart k.perm = some (r, m')) : Ranged m m' k.virt k.size r := by
  obtain ⟨n, hn, hlt, heq⟩ := mappages_eq m k.physStart k.perm hk.start hk.whole hk.pos hk.inside
  rw [hn, Nat.succ_mul, Nat.add_comm]
  exact mappagesLoop_ranged hk.start hk.kernel hlt (heq ▸ h)

end

/-- The entries of a directory that the kernel's mappings use. -/
def KernelPde (i : Nat) : Prop := 512 ≤ i ∧ i < 568 ∨ 1016 ≤ i ∧ i < 1024

instance (i : Nat) : Decidable (KernelPde i) := inferInstanceAs (Decidable (_ ∨ _))

/-- The pages that `setupkvm` takes: the directory, 56 tables for the memory and 8 for the devices. -/
abbrev kvmPages : Nat := 65

theorem card_kernelPde : ((Finset.range npdentries).filter KernelPde).card = 64 := by decide +kernel

theorem Pgdir.card_tables (d : Pgdir) :
    d.tables.card = ((Finset.range npdentries).filter fun i => (d.pde i).isSome).card := by
  unfold tables
  rw [Multiset.card_sum, Finset.card_filter]
  refine Finset.sum_congr rfl fun i _ => ?_
  cases d.pde i <;> rfl

section
variable {l : KernelLayout} {m m' : Space} {free free' : List Frame} {r : Bool} {a pa x : Nat} {perm : BitVec 12}
  {d : Pgdir}

theorem size_eq {b : Nat} (h : a ≤ b) (hb : b < wordLimit) : (wordLimit + b - a) % wordLimit = b - a := by
  rw [Nat.add_sub_assoc h, Nat.add_mod_left, Nat.mod_eq_of_lt (Nat.lt_of_le_of_lt (Nat.sub_le ..) hb)]

theorem size_wrap (h : 0 < a) : (wordLimit + 0 - a) % wordLimit = wordLimit - a := by
  rw [Nat.add_zero]
  exact Nat.mod_eq_of_lt (Nat.sub_lt (by decide) h)

theorem setupkvmLoop_cases {k : Kmap} {ks : List Kmap} {size : Nat} (h : setupkvmLoop (k :: ks) m = some (r, m'))
    (hk : k.Fits) (hs : k.size = size) :
    (r = false ∧ Ranged m m' k.virt size false) ∨
    ∃ m₁, Ranged m m₁ k.virt size true ∧ setupkvmLoop ks m₁ = some (r, m') := by
  subst hs
  unfold setupkvmLoop at h
  split at h
  · cases h
  · rename_i m₁ h₁
    cases h
    exact .inl ⟨rfl, hk.ranged h₁⟩
  · rename_i m₁ h₁
    exact .inr ⟨m₁, hk.ranged h₁, h⟩

/-- The first three ranges of `kmap` are one, from `KERNBASE` to the end of memory; the fourth are the devices. -/
theorem setupkvmLoop_ranged (h : setupkvmLoop (kmap l) m = some (r, m')) :
    (r = false ∧ Ranged m m' kernbase phystop false) ∨
    ∃ m₁, Ranged m m₁ kernbase phystop true ∧ Ranged m₁ m' devspace (wordLimit - devspace) r := by
  have ht := l.text
  have ho := Nat.lt_of_lt_of_le l.ordered l.fits
  have text : extmem + (l.data - extmem) = l.data := Nat.add_sub_cancel' (Nat.le_of_lt ht)
  have mem : l.data + (phystop - l.data) = phystop := Nat.add_sub_cancel' (Nat.le_of_lt ho)
  have hfits := kmap_fits l
  simp only [kmap, List.forall_mem_cons] at hfits
  obtain ⟨f₁, f₂, f₃, f₄, -⟩ := hfits
  unfold kmap at h
  rcases setupkvmLoop_cases h f₁ (size_eq (Nat.zero_le _) (by decide)) with ⟨rfl, r₁⟩ | ⟨m₁, r₁, h⟩
  · exact .inl ⟨rfl, r₁.extend (by decide)⟩
  rcases setupkvmLoop_cases h f₂ (size_eq (Nat.le_of_lt ht) (Nat.lt_trans ho (by decide))) with ⟨rfl, r₂⟩ | ⟨m₂, r₂, h⟩
  · exact .inl ⟨rfl, (text ▸ r₁.trans r₂).extend (Nat.le_of_lt ho)⟩
  have hdata : Ranged m m₂ kernbase l.data true := text ▸ r₁.trans r₂
  rcases setupkvmLoop_cases h f₃ (size_eq (Nat.le_of_lt ho) (show phystop < wordLimit by decide)) with ⟨rfl,
    r₃⟩ | ⟨m₃, r₃, h⟩
  · exact .inl ⟨rfl, mem ▸ hdata.trans r₃⟩
  refine .inr ⟨m₃, mem ▸ hdata.trans r₃, ?_⟩
  rcases setupkvmLoop_cases h f₄ (size_wrap (by decide)) with ⟨rfl, r₄⟩ | ⟨m₄, r₄, h⟩
  · exact r₄
  · cases h
    exact r₄

theorem card_pages (m : Space) : m.pages.card = m.free.length + 1 + m.dir.tables.card + m.dir.user.card := by
  simp only [Space.pages, Pgdir.pages, Multiset.card_add, Multiset.coe_card, Multiset.card_singleton]
  omega

theorem pdx_memory (h1 : kernbase ≤ x) (h2 : x < kernbase + phystop) : KernelPde (pdx x) := by
  simp only [KernelPde, pdx, nptentries, npdentries, pgsize, kernbase, phystop] at *
  omega

theorem pdx_devices (h1 : devspace ≤ x) (h2 : x < devspace + (wordLimit - devspace)) : KernelPde (pdx x) := by
  simp only [KernelPde, pdx, nptentries, npdentries, pgsize, devspace, wordLimit] at *
  omega

/-- Outside of the kernel's entries there are no tables, if there were none before. -/
theorem Ranged.only_kernel {va size : Nat} (h : Ranged m m' va size r)
    (hrange : ∀ {x}, va ≤ x → x < va + size → KernelPde (pdx x)) (hm : ∀ i, (m.dir.pde i).isSome → KernelPde i) (i : Nat)
    (hi : (m'.dir.pde i).isSome) : KernelPde i := by
  rcases h.only i hi with hi | ⟨x, h1, h2, rfl⟩
  · exact hm i hi
  · exact hrange h1 h2

theorem card_tables_lt {i : Nat} (honly : ∀ j, (d.pde j).isSome → KernelPde j) (hi : KernelPde i) (hnone : d.pde i = none) :
    d.tables.card < 64 := by
  rw [Pgdir.card_tables, ← card_kernelPde]
  refine Finset.card_lt_card (Finset.ssubset_iff_subset_ne.mpr ⟨fun j hj => ?_, fun heq => ?_⟩)
  · obtain ⟨h1, h2⟩ := Finset.mem_filter.mp hj
    exact Finset.mem_filter.mpr ⟨h1, honly j h2⟩
  · have hlt : i < npdentries := by
      simp only [KernelPde, npdentries] at *
      omega
    have hmem : i ∈ (Finset.range npdentries).filter KernelPde := Finset.mem_filter.mpr ⟨Finset.mem_range.mpr hlt, hi⟩
    rw [← heq] at hmem
    have := (Finset.mem_filter.mp hmem).2
    rw [hnone] at this
    cases this

theorem card_tables_eq (h : ∀ j, (d.pde j).isSome ↔ KernelPde j) : d.tables.card = 64 := by
  rw [Pgdir.card_tables, ← card_kernelPde]
  exact congrArg Finset.card (Finset.filter_congr fun j _ => h j)

theorem user_new (v : Frame) : (Pgdir.mk v fun _ => none).user = 0 := by
  unfold Pgdir.user
  exact Finset.sum_eq_zero fun _ _ => rfl

theorem pages_new (v : Frame) (free : List Frame) :
    Space.pages ⟨free, v, fun _ => none⟩ = ((v :: free : List Frame) : Multiset Frame) := by
  have htables : (Pgdir.mk v fun _ => none).tables = 0 := by
    unfold Pgdir.tables
    exact Finset.sum_eq_zero fun _ _ => rfl
  simp only [Space.pages, Pgdir.pages, htables, user_new, add_zero, coe_cons]
  exact add_comm ..

theorem setupkvm_none (h : setupkvm l free = some (none, free')) : free' = [] ∧ free.length < kvmPages := by
  unfold setupkvm at h
  split at h
  · rename_i free₁ halloc
    cases h
    obtain ⟨h1, h2⟩ := kalloc_none halloc
    exact ⟨h2, by rw [h1]; decide⟩
  · rename_i v free₁ halloc
    rw [if_neg (by decide)] at h
    split at h
    · cases h
    · rename_i m hloop
      cases h
      -- The failure was at an address without a table.
      have key : m.free = [] ∧ m.dir.user = 0 ∧ m.pages = Space.pages ⟨free₁, v, fun _ => none⟩ ∧
          (∀ j, (m.dir.pde j).isSome → KernelPde j) ∧ ∃ i, KernelPde i ∧ m.dir.pde i = none := by
        rcases setupkvmLoop_ranged hloop with ⟨-, hr⟩ | ⟨m₁, hr₁, hr⟩
        · obtain ⟨hf, x, h1, h2, hx⟩ := hr.failed rfl
          exact ⟨hf, hr.user.trans (user_new v), hr.pages, hr.only_kernel pdx_memory nofun, pdx x, pdx_memory h1 h2, hx⟩
        · obtain ⟨hf, x, h1, h2, hx⟩ := hr.failed rfl
          exact ⟨hf, (hr.user.trans hr₁.user).trans (user_new v), hr.pages.trans hr₁.pages,
            hr.only_kernel pdx_devices (hr₁.only_kernel pdx_memory nofun), pdx x, pdx_devices h1 h2, hx⟩
      obtain ⟨hf, huser, hpages, honly, i, hi, hnone⟩ := key
      refine ⟨hf, ?_⟩
      have hlt := card_tables_lt honly hi hnone
      have hcard := card_pages m
      rw [hpages, pages_new, Multiset.coe_card, hf, huser] at hcard
      rw [kalloc_some halloc]
      simp only [List.length_nil, Multiset.card_zero, kvmPages] at *
      omega
    · cases h

/-- What `setupkvm` returns otherwise. -/
structure KernelPart (d : Pgdir) : Prop where
  present : ∀ i, (d.pde i).isSome ↔ KernelPde i
  user : d.user = 0
  first : (d.entry (kernbase / pgsize)).isSome

theorem setupkvm_some (h : setupkvm l free = some (some d, free')) :
    KernelPart d ∧ (free : Multiset Frame) = free' + d.pages ∧ free.length = free'.length + kvmPages := by
  unfold setupkvm at h
  split at h
  · cases h
  · rename_i v free₁ halloc
    rw [if_neg (by decide)] at h
    split at h
    · cases h
    · cases h
    · rename_i m hloop
      cases h
      rcases setupkvmLoop_ranged hloop with ⟨hr, -⟩ | ⟨m₁, hr₁, hr⟩
      · cases hr
      have hpages : m.pages = ((v :: free₁ : List Frame) : Multiset Frame) :=
        (hr.pages.trans hr₁.pages).trans (pages_new v free₁)
      have huser : m.dir.user = 0 := (hr.user.trans hr₁.user).trans (user_new v)
      have hpres : ∀ i, (m.dir.pde i).isSome ↔ KernelPde i := by
        refine fun i => ⟨hr.only_kernel pdx_devices (hr₁.only_kernel pdx_memory nofun) i, fun hi => ?_⟩
        -- Every table has its first address in one of the two ranges.
        have hpdx : i = pdx (i * (nptentries * pgsize)) := by
          simp only [KernelPde, pdx, nptentries, npdentries, pgsize] at *
          omega
        rw [hpdx]
        rcases hi with hi | hi
        · refine hr.kept _ (hr₁.all rfl _ ?_ ?_) <;> simp only [nptentries, pgsize, kernbase, phystop] <;> omega
        · refine hr.all rfl _ ?_ ?_ <;> simp only [nptentries, pgsize, devspace, wordLimit] <;> omega
      refine ⟨⟨hpres, huser, hr.entries _ (hr₁.first rfl)⟩, ?_, ?_⟩
      · rw [kalloc_some halloc, ← hpages]
        rfl
      · have hcard := card_pages m
        rw [hpages, Multiset.coe_card, huser, card_tables_eq hpres, ← kalloc_some halloc] at hcard
        simp only [Multiset.card_zero, kvmPages] at *
        omega

end

/-! ### `copyuvm` -/

/-- The pages that `copyuvm` takes for `v` pages of user memory: one for each, and one for each table. -/
def copied (v : Nat) : Nat := v + (v + 1023) / 1024

/-- The loop of `copyuvm` stands before page `v`. -/
structure Copying (d : Space) (v : Nat) : Prop where
  below : v ≤ userPages
  tables : ∀ i < 512, (d.dir.pde i).isSome ↔ i * 1024 < v
  kernel : (d.dir.entry (kernbase / pgsize)).isSome

section
variable {pgdir : Pgdir} {d d' : Space} {k v : Nat}

theorem pdx_page (hv : v < 0x80000) : pdx (v * pgsize) = v / 1024 := by
  simp only [pdx, nptentries, npdentries, pgsize]
  omega

theorem Copying.lt_of_none (h : Copying d v) (hnone : d.dir.entry v = none) : v < userPages := by
  refine Nat.lt_of_le_of_ne h.below fun hv => ?_
  have hk := h.kernel
  have hpages : userPages = kernbase / pgsize := by
    unfold userPages
    rfl
  rw [← hpages, ← hv, hnone] at hk
  cases hk

theorem Copying.first_of_table (h : Copying d v) (hlt : v * pgsize < wordLimit)
    (hnone : d.dir.pde (pdx (v * pgsize)) = none) : v % 1024 = 0 := by
  have hentry : d.dir.entry v = none := by
    rw [pdx_eq hlt, Nat.mul_div_cancel _ (by decide)] at hnone
    rw [Pgdir.entry, hnone]
    rfl
  have hv := lt_userPages.mp (h.lt_of_none hentry)
  have htab := h.tables (v / 1024) (by omega)
  rw [pdx_page hv] at hnone
  rw [hnone] at htab
  have : ¬v / 1024 * 1024 < v := fun hc => by cases htab.mpr hc
  omega

theorem Copying.next {m : Space} {mem : Frame} (h : Copying d v) (hd : d.free = mem :: m.free) (hdir : m.dir = d.dir)
    (hm : Mapped m d' (v * pgsize) mem) :
        Copying d' (v + 1) ∧ d'.free.length + copied (v + 1) = d.free.length + copied v := by
  have hfresh := hm.fresh
  rw [hdir, Nat.mul_div_cancel _ (by decide)] at hfresh
  have hlt := h.lt_of_none hfresh
  have hv := lt_userPages.mp hlt
  have hpdx := pdx_page hv
  obtain ⟨e, -, hent⟩ := hm.entry
  refine ⟨⟨hlt, fun i hi => ?_, ?_⟩, ?_⟩
  · rw [hm.present i, hdir, h.tables i hi, hpdx]
    omega
  · rw [hent, hdir]
    by_cases hc : kernbase / pgsize = v * pgsize / pgsize
    · rw [hc, Function.update_self]
      rfl
    · rw [Function.update_of_ne hc]
      exact h.kernel
  · have hfree := hm.free
    rw [hdir, hpdx] at hfree
    have htab := h.tables (v / 1024) (by omega)
    rw [hd, List.length_cons]
    unfold copied
    split_ifs at hfree with hs
    · have := htab.mp hs
      omega
    · have := mt htab.mpr hs
      omega

/-- Where the page that is missing is one for a table, the page for the data is lost. -/
theorem copyuvmLoop_false (h : Copying d v) (hk : v + k ≤ wordLimit / pgsize)
    (hloop : copyuvmLoop pgdir k d (v * pgsize) = some (false, d')) :
    d'.pages = d.pages ∧ (d.free.length + copied v) % 1025 ≠ 1 ∨ d'.pages ≠ d.pages ∧
      (d.free.length + copied v) % 1025 = 1 ∧ d.free.length + copied v < copied (v + k) := by
  induction k generalizing d v with
  | zero => cases hloop
  | succ k ih =>
    unfold copyuvmLoop at hloop
    have hlt : v * pgsize < wordLimit := by
      simp only [pgsize, wordLimit] at *
      omega
    have hal : v * pgsize % pgsize = 0 := Nat.mul_mod_left ..
    split at hloop
    · cases hloop
    split at hloop
    · cases hloop
    split at hloop
    · rename_i free halloc
      obtain ⟨h1, h2⟩ := kalloc_none halloc
      cases hloop
      left
      constructor
      · rw [Space.pages, Space.pages, h1, h2]
      · rw [h1, List.length_nil]
        unfold copied
        omega
    · rename_i mem free halloc
      have hfree := kalloc_some halloc
      rw [mappages_page hal hlt] at hloop
      split at hloop
      · cases hloop
      · rename_i m₁ hmap
        cases hloop
        obtain ⟨rfl, hf, hnone⟩ := mappage_false hmap
        right
        have hfirst := h.first_of_table hlt hnone
        refine ⟨fun heq => ?_, ?_⟩
        · rw [← pages_take hfree, left_eq_add] at heq
          exact Multiset.singleton_ne_zero _ heq
        dsimp only at hf
        rw [hfree, hf, List.length_singleton]
        unfold copied
        omega
      · rename_i m₁ hmap
        have hm := mappage_true hmap hlt
        rw [Nat.mul_div_cancel _ (by decide)] at hm
        obtain ⟨hc, hlen⟩ := h.next (m := ⟨free, d.dir⟩) hfree rfl hm
        have hpages : m₁.pages = d.pages := by
          have hv : v * pgsize < kernbase := by
            have := lt_userPages.mp hc.below
            simp only [pgsize, kernbase] at *
            omega
          rw [hm.pages, if_pos hv, pages_take hfree]
        have heq : (v + 1) * pgsize = v * pgsize + pgsize := Nat.succ_mul ..
        rw [← heq] at hloop
        have hend := ih hc (by omega) hloop
        rw [hlen, hpages, Nat.add_right_comm v 1 k] at hend
        exact hend

end

/-- The lengths of the free list with which `setupkvm` loses no page: it has none to take, or all that it needs. -/
def SetupKeeps (length : Nat) : Prop := length = 0 ∨ kvmPages ≤ length

/-- The lengths with which `copyuvm` of `sz` bytes loses no page: the last page that is missing is not one for a table. -/
def CopyKeeps (length sz : Nat) : Prop :=
  length = 0 ∨ kvmPages ≤ length ∧
    (kvmPages + copied ((sz + pgsize - 1) / pgsize) ≤ length ∨ (length - kvmPages) % 1025 ≠ 1)

variable {l : KernelLayout} {free free' : List Frame}

theorem copying_start {d : Pgdir} (h : setupkvm l free = some (some d, free')) :
    Copying ⟨free', d⟩ 0 := by
  obtain ⟨hk, -⟩ := setupkvm_some h
  refine ⟨Nat.zero_le _, fun i hi => ?_, hk.first⟩
  rw [hk.present i]
  simp only [KernelPde]
  omega

theorem setupkvm_perm (h : setupkvm l free = some (none, free')) :
    free'.Perm free ↔ SetupKeeps free.length := by
  obtain ⟨rfl, hlt⟩ := setupkvm_none h
  rw [List.nil_perm, ← List.length_eq_zero_iff, SetupKeeps, or_iff_left (Nat.not_le.mpr hlt)]

theorem copyuvm_perm {pgdir : Pgdir} {sz : Nat} (hsz : sz < wordLimit)
    (h : copyuvm l pgdir free sz = some (none, free')) : free'.Perm free ↔ CopyKeeps free.length sz := by
  unfold copyuvm at h
  split at h
  · cases h
  · rename_i free₁ hset
    cases h
    have hlt := (setupkvm_none hset).2
    rw [setupkvm_perm hset, SetupKeeps, CopyKeeps]
    omega
  · rename_i d free₁ hset
    obtain ⟨-, hpages, hlength⟩ := setupkvm_some hset
    split at h
    · cases h
    · rename_i d' hloop
      obtain ⟨free₂, hfreevm, heq⟩ := Option.map_eq_some_iff.mp h
      cases heq
      have hstart := copying_start hset
      rw [← Nat.zero_mul pgsize] at hloop
      have hk : 0 + (sz + pgsize - 1) / pgsize ≤ wordLimit / pgsize := by
        simp only [pgsize, wordLimit] at *
        omega
      have hend := copyuvmLoop_false hstart hk hloop
      rw [show copied 0 = 0 from rfl, Nat.zero_add, Nat.add_zero] at hend
      rw [← Multiset.coe_eq_coe, freevm_pages hfreevm, hpages]
      have hsame : d'.pages = free₁ + d.pages ↔ d'.pages = (Space.mk free₁ d).pages := Iff.rfl
      rw [hsame]
      simp only [CopyKeeps, kvmPages] at *
      -- The last page was missing for data, or for a table.
      rcases hend with ⟨hp, hmod⟩ | ⟨hp, hmod, hless⟩
      · exact iff_of_true hp (by omega)
      · exact iff_of_false hp (by omega)
    · cases h

/-- Of the calls that fail, for every page table and size, `setupkvm` and `copyuvm` lose no page exactly with the lengths
    of the free list above, and `allocuvm` loses none with any free list. -/
theorem failure_keeps_pages (l : KernelLayout) :
    (∀ free free', setupkvm l free = some (none, free') → (free'.Perm free ↔ SetupKeeps free.length)) ∧
    (∀ pgdir free free' sz, sz < wordLimit → copyuvm l pgdir free sz = some (none, free') →
      (free'.Perm free ↔ CopyKeeps free.length sz)) ∧
    ∀ m m' oldsz newsz, allocuvm l m oldsz newsz = some (0, m') → (m.free : Multiset Frame) ≤ m'.free + m'.dir.pages := by
  refine ⟨fun _ _ h => setupkvm_perm h, fun _ _ _ _ hsz h => copyuvm_perm hsz h, fun m m' _ _ h => ?_⟩
  calc (m.free : Multiset Frame) ≤ m.free + m.dir.pages := Multiset.le_add_right ..
    _ = m'.free + m'.dir.pages := (allocuvm_pages h).symm

def exampleLayout : KernelLayout := ⟨0x108000, 0x115A00, by decide, by decide, by decide, by decide⟩

section
variable {l : KernelLayout} {m : Space}

theorem deallocuvmLoop_absent {oldsz a : Nat} (hnone : ∀ i < 512, m.dir.pde i = none) (hsz : oldsz ≤ kernbase) :
    deallocuvmLoop l oldsz m a = some m := by
  unfold deallocuvmLoop
  split
  · rename_i ha
    have hpdx : m.dir.pde (pdx a) = none := by
      refine hnone _ ?_
      simp only [pdx, nptentries, npdentries, pgsize, kernbase] at *
      omega
    rw [walkpgdir_look, hpdx]
    exact deallocuvmLoop_absent hnone hsz
  · rfl
termination_by oldsz - a
decreasing_by simp only [pgsize, nptentries]; omega

theorem freeTables_total {d : Pgdir} {is : List Nat} (h : ∀ i ∈ is, ∀ t, d.pde i = some t → l.Valid t.frame)
    (free : List Frame) :
    ∃ free', freeTables l d is free = some free' := by
  induction is generalizing free with
  | nil => exact ⟨free, rfl⟩
  | cons i is ih =>
    have htail := ih fun j hj => h j (List.mem_cons_of_mem _ hj)
    unfold freeTables
    cases ht : d.pde i with
    | none => exact htail free
    | some t =>
      dsimp only
      rw [kfree_valid (h i (List.mem_cons_self ..) t ht)]
      exact htail _

theorem Pgdir.mem_tables {d : Pgdir} {i : Nat} {t : Pgtab} (hi : i < npdentries) (ht : d.pde i = some t) :
    t.frame ∈ d.tables := by
  unfold Pgdir.tables
  generalize npdentries = n at hi ⊢
  refine Multiset.mem_sum.mpr ⟨i, Finset.mem_range.mpr hi, ?_⟩
  rw [ht]
  exact Multiset.mem_singleton_self _

theorem freevm_kernel (hk : KernelPart m.dir) (hvalid : ∀ f ∈ m.dir.pages, l.Valid f) : ∃ free, freevm l m = some free := by
  have hnone (i : Nat) (hi : i < 512) : m.dir.pde i = none := by
    rw [← Option.not_isSome_iff_eq_none, hk.present i]
    simp only [KernelPde]
    omega
  have hde : deallocuvm l m kernbase 0 = some (0, m) := by
    rw [deallocuvm, if_neg (by decide), deallocuvmLoop_absent hnone (Nat.le_refl _)]
    rfl
  have htables (i : Nat) (hi : i < npdentries) (t : Pgtab) (ht : m.dir.pde i = some t) : l.Valid t.frame :=
    hvalid _ (Multiset.mem_add.mpr (.inl (Multiset.mem_add.mpr (.inr (Pgdir.mem_tables hi ht)))))
  obtain ⟨free, hfree⟩ := freeTables_total (fun i hi => htables i (List.mem_range.mp hi)) m.free
  have hdir : l.Valid m.dir.frame := hvalid _ (by simp [Pgdir.pages])
  refine ⟨m.dir.frame :: free, ?_⟩
  simp only [freevm, hde, Option.bind_eq_bind, Option.bind_some, hfree, kfree_valid hdir]

end

theorem copyuvm_gives_back : ∃ free', copyuvm exampleLayout onePage (List.range' 1000 65) 4096 = some (none, free') := by
  obtain ⟨o, free, hkvm, -⟩ := setupkvm_total exampleLayout (List.range' 1000 65)
  cases o with
  | none => exact absurd (setupkvm_none hkvm).2 (by decide)
  | some d =>
    obtain ⟨hpart, hpages, hlen⟩ := setupkvm_some hkvm
    obtain rfl : free = [] := List.length_eq_zero_iff.mp (by rw [List.length_range', kvmPages] at hlen; omega)
    have hvalid : ∀ f ∈ d.pages, exampleLayout.Valid f := by
      intro f hf
      have hmem : f ∈ ((List.range' 1000 65 : List Frame) : Multiset Frame) := by
        rw [hpages]
        exact Multiset.mem_add.mpr (.inr hf)
      rw [Multiset.mem_coe, List.mem_range'_1] at hmem
      simp only [KernelLayout.Valid, exampleLayout, pgsize, phystop]
      omega
    obtain ⟨free', hfree⟩ := freevm_kernel (m := ⟨[], d⟩) hpart hvalid
    have hloop : copyuvmLoop onePage ((4096 + pgsize - 1) / pgsize) ⟨[], d⟩ 0 = some (false, ⟨[], d⟩) := rfl
    refine ⟨free', ?_⟩
    rw [copyuvm, hkvm]
    dsimp only
    rw [hloop]
    exact congrArg (Option.map _) hfree

def twoFree : Space := ⟨[1000, 1001], 7, fun _ => none⟩

/-- It maps the first page with the second one as the table, has none for the next and gives the first one back. -/
theorem allocuvm_twoFree : ∃ m', allocuvm exampleLayout twoFree 0 5000 =
    some (0, m') ∧ m'.free = [1000] := by
  set t : Pgtab := ⟨1001, fun _ => none⟩
  set t' : Pgtab := ⟨1001, Function.update (fun _ => none) 0 (some ⟨1000, pteW ||| pteU ||| pteP⟩)⟩
  set d := (twoFree.dir.setPde 0 t).setPte 0 t (some ⟨1000, pteW ||| pteU ||| pteP⟩)
  have hloop : allocuvm exampleLayout twoFree 0 5000 = (deallocuvm exampleLayout ⟨[], d⟩ 5000 0).map fun r => (0, r.2) :=
    rfl
  have hde : deallocuvmLoop exampleLayout 5000 ⟨[], d⟩ 0 = some ⟨[1000], d.setPte 0 t' none⟩ := by
    rw [deallocuvmLoop, if_pos (by decide)]
    show deallocuvmLoop exampleLayout 5000 ⟨[1000], d.setPte 0 t' none⟩ _ = _
    rw [deallocuvmLoop, if_pos (by decide)]
    show deallocuvmLoop exampleLayout 5000 ⟨[1000], d.setPte 0 t' none⟩ _ = _
    rw [deallocuvmLoop, if_neg (by decide)]
  refine ⟨⟨[1000], d.setPte 0 t' none⟩, ?_, rfl⟩
  rw [hloop, deallocuvm, if_neg (by decide), show pgroundup 0 = 0 from rfl, hde]
  rfl

/-- A call that fails and gives pages back: `copyuvm` all 65, `allocuvm` the one that it has mapped; and `setupkvm` and
    `copyuvm`, which lose the only page. -/
theorem failure_keeps_pages_back :
    (∃ free', copyuvm exampleLayout onePage (List.range' 1000 65) 4096 = some (none, free') ∧
      free'.Perm (List.range' 1000 65)) ∧
    (setupkvm exampleLayout [1000] = some (none, []) ∧ ¬[].Perm [1000]) ∧
    ∃ m', allocuvm exampleLayout twoFree 0 5000 = some (0, m') ∧ m'.free = [1000] ∧
      (twoFree.free : Multiset Frame) ≤ m'.free + m'.dir.pages := by
  obtain ⟨hsetup, hcopy, halloc⟩ := failure_keeps_pages exampleLayout
  obtain ⟨free', hfree⟩ := copyuvm_gives_back
  refine ⟨⟨free', hfree, (hcopy _ _ _ _ (by decide) hfree).mpr ?_⟩, ⟨rfl, ?_⟩, ?_⟩
  · exact .inr ⟨by decide, .inr (by decide)⟩
  · rw [hsetup [1000] [] rfl, SetupKeeps]
    decide
  · obtain ⟨m', hm, hback⟩ := allocuvm_twoFree
    exact ⟨m', hm, hback, halloc _ _ _ _ hm⟩

/-- With one page: it becomes the directory, there is none for a table, and it is lost. So it is in `copyuvm`. -/
theorem setupkvm_leaks : setupkvm exampleLayout [1000] = some (none, []) ∧
    copyuvm exampleLayout onePage [1000] 5000 = some (none, []) ∧ ¬[].Perm [1000] := by
  have hset : setupkvm exampleLayout [1000] = some (none, []) := rfl
  refine ⟨hset, ?_, by decide⟩
  simp only [copyuvm, hset]

end Xv6.Vm
