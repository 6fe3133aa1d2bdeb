import Xv6.Theorems.OutOfMemory
import Xv6.Theorems.PageTrees

/-! What `setupkvm` maps, address by address: the memory of the machine behind `KERNBASE`, and the devices at the end of the
    address space. -/

namespace Xv6.PageTables
open Lib

def InRange (k : Vm.Kmap) (x : Addr) : Prop := k.virt ≤ x.toNat ∧ x.toNat < k.virt + k.size

/-- What maps `x` in the range of an entry of `kmap`. -/
def kernelPte (k : Vm.Kmap) (x : Addr) : Word :=
  BitVec.ofNat 32 k.physStart + BitVec.ofNat 32 ((page x - k.virt / pgsize) * pgsize) ||| k.perm.setWidth 32 ||| pteP

section
variable {s : AddressSpace} {k : Vm.Kmap} {n : Nat}

theorem InWords.pages (h : InWords k) (x : Addr) : InRange k x ↔
    page (BitVec.ofNat 32 k.virt) ≤ page x ∧
      page x < page (BitVec.ofNat 32 k.virt) + npages (BitVec.ofNat 32 k.virt)
      (BitVec.ofNat 32 k.physEnd - BitVec.ofNat 32 k.physStart) := by
  have hstart := h.start
  have hwhole := h.whole
  have hpos := h.pos
  rw [InRange, npages, page, h.toNat_virt, h.toNat_size, page]
  simp only [pgsize] at *
  omega

theorem mapKernel_maps (h : InWords k) (hnone : ∀ x, InRange k x → s.lookup x = none) (hn : 2 ^ 20 ≤ n) :
    ∃ s' : AddressSpace, s'.pgdir = s.pgdir ∧ (mapKernel n s.toMemory s.pgdir k = some (.ret (-1) s'.toMemory) ∨
      mapKernel n s.toMemory s.pgdir k = some (.ret 0 s'.toMemory) ∧
        (∀ x, InRange k x → s'.lookup x = some (kernelPte k x)) ∧
        ∀ x, ¬InRange k x → s'.lookup x = s.lookup x) := by
  have hsize : 0 < (BitVec.ofNat 32 k.physEnd - BitVec.ofNat 32 k.physStart).toNat := h.toNat_size ▸ h.pos
  have hend :
      (BitVec.ofNat 32 k.virt).toNat + (BitVec.ofNat 32 k.physEnd - BitVec.ofNat 32 k.physStart).toNat ≤ 2 ^ 32 := by
    rw [h.toNat_virt, h.toNat_size]
    exact h.inside
  obtain ⟨r, j, s', hret, hr, hmap⟩ :=
      mappages_maps s (BitVec.ofNat 32 k.physStart) (k.perm.setWidth 32) hsize hend fun x hx =>
    hnone x ((h.pages x).mpr ((overlaps_iff hsize x).mp hx))
  have hret := hret n (Nat.le_trans (npages_le hend) hn)
  refine ⟨s', hmap.pgdir, ?_⟩
  rcases hr with ⟨rfl, rfl⟩ | ⟨rfl, -⟩
  · refine .inr ⟨hret, fun x hx => ?_, fun x hx => hmap.old x fun hin => hx ((h.pages x).mpr hin)⟩
    obtain ⟨hlo, hhi⟩ := (h.pages x).mp hx
    have hpage : page (BitVec.ofNat 32 k.virt) = k.virt / pgsize := by rw [page, h.toNat_virt]
    rw [hmap.new x hlo hhi, hpage, kernelPte]
  · exact .inl hret

theorem setupkvmLoop_maps {ks : List Vm.Kmap} (hks : ∀ k ∈ ks, InWords k)
    (hapart : ks.Pairwise fun k k' => k.virt + k.size ≤ k'.virt)
    (hnone : ∀ k ∈ ks, ∀ x, InRange k x → s.lookup x = none) (hn : 2 ^ 20 ≤ n) :
    ∃ s' : AddressSpace, s'.pgdir = s.pgdir ∧ (setupkvmLoop n s.pgdir ks s.toMemory = some (.ret none s'.toMemory) ∨
      setupkvmLoop n s.pgdir ks s.toMemory = some (.ret (some s.pgdir) s'.toMemory) ∧
        (∀ k ∈ ks, ∀ x, InRange k x → s'.lookup x = some (kernelPte k x)) ∧
        ∀ x, (∀ k ∈ ks, ¬InRange k x) → s'.lookup x = s.lookup x) := by
  induction ks generalizing s with
  | nil => exact ⟨s, rfl, .inr ⟨rfl, fun k hk => absurd hk List.not_mem_nil, fun _ _ => rfl⟩⟩
  | cons k ks ih =>
    obtain ⟨hk, hks⟩ := List.forall_mem_cons.mp hks
    obtain ⟨hfirst, hapart⟩ := List.pairwise_cons.mp hapart
    obtain ⟨hnonek, hnone⟩ := List.forall_mem_cons.mp hnone
    obtain ⟨s₁, hdir₁, hfail | ⟨hmap, hnew, hold⟩⟩ := mapKernel_maps hk hnonek hn
    · refine ⟨s₁, hdir₁, .inl ?_⟩
      rw [setupkvmLoop, hfail]
      rfl
    · -- The ranges that follow are apart from this one.
      have hlater : ∀ k' ∈ ks, ∀ x, InRange k' x → ¬InRange k x := fun k' hk' x hx hkx =>
        Nat.not_lt.mpr (Nat.le_trans (hfirst k' hk') hx.1) hkx.2
      have hstep : setupkvmLoop n s.pgdir (k :: ks) s.toMemory = setupkvmLoop n s₁.pgdir ks s₁.toMemory := by
        rw [setupkvmLoop, hmap, hdir₁]
        rfl
      obtain ⟨s', hdir, hrest⟩ := ih (s := s₁) hks hapart fun k' hk' x hx => by
        rw [hold x (hlater k' hk' x hx)]
        exact hnone k' hk' x hx
      refine ⟨s', hdir.trans hdir₁, ?_⟩
      rw [hstep, ← hdir₁]
      rcases hrest with hfail | ⟨hret, hin, hout⟩
      · exact .inl hfail
      · refine .inr ⟨hret, List.forall_mem_cons.mpr ⟨fun x hx => ?_, hin⟩, fun x hx => ?_⟩
        · rw [hout x fun k' hk' hx' => hlater k' hk' x hx' hx]
          exact hnew x hx
        · obtain ⟨hkx, hx⟩ := List.forall_mem_cons.mp hx
          rw [hout x hx]
          exact hold x hkx

end

variable {k : Vm.Kmap} {x : Addr}

/-- The address that an entry of `kmap` gives: the distance of the virtual from the physical range is kept. -/
theorem InWords.address (h : InWords k) (hle : k.physStart ≤ k.virt) (hx : InRange k x) :
    BitVec.ofNat 32 k.physStart + BitVec.ofNat 32 ((page x - k.virt / pgsize) * pgsize) =
        pgrounddown (x - BitVec.ofNat 32 (k.virt - k.physStart)) := by
  have hphys := h.physStart
  have hvirt := h.start
  have hrange := h.physRange
  have hstart := h.toNat_physStart
  obtain ⟨hlo, hhi⟩ := hx
  have hxlt := x.isLt
  have hroom : (BitVec.ofNat 32 k.physStart).toNat + (page x - k.virt / pgsize) * pgsize < 2 ^ 32 := by
    rw [hstart, page]
    simp only [pgsize] at *
    omega
  refine BitVec.eq_of_toNat_eq ?_
  have hdist : (BitVec.ofNat 32 (k.virt - k.physStart)).toNat = k.virt - k.physStart := by
    rw [BitVec.toNat_ofNat, Nat.mod_eq_of_lt (by omega)]
  have hsub : (x - BitVec.ofNat 32 (k.virt - k.physStart)).toNat = x.toNat - (k.virt - k.physStart) := by
    rw [BitVec.toNat_sub_of_le (by rw [BitVec.le_def, hdist]; omega), hdist]
  rw [toNat_add_ofNat hroom, hstart, toNat_pgrounddown, hsub, page]
  simp only [pgsize] at *
  omega

/-- What the kernel maps at `x`: physical memory, all but the text of the kernel writable, and the devices. -/
def kernelEntry (l : Vm.KernelLayout) (x : Addr) : Option Word :=
  if x.toNat < kernbase then none
  else if x.toNat < kernbase + phystop then
    some (pgrounddown (x - BitVec.ofNat 32 kernbase) ||| (if Vm.kernlink ≤ x.toNat ∧
      x.toNat < kernbase + l.data then 0 else pteW) ||| pteP)
  else if x.toNat < devspace then none
  else some (pgrounddown x ||| pteW ||| pteP)

theorem kmap_cases (l : Vm.KernelLayout) (hk : k ∈ Vm.kmap l) :
    (k.virt = k.physStart + kernbase ∧ k.virt + k.size ≤ kernbase + phystop ∧
      (k.perm = Vm.pteW ∧ (k.virt + k.size ≤ Vm.kernlink ∨ kernbase + l.data ≤ k.virt) ∨
        k.perm = 0 ∧ Vm.kernlink ≤ k.virt ∧ k.virt + k.size ≤ kernbase + l.data)) ∨
    k.virt = devspace ∧ k.physStart = devspace ∧ k.perm = Vm.pteW := by
  have htext := l.text
  have hdata := Nat.lt_of_lt_of_le l.ordered l.fits
  simp only [Vm.kmap, List.mem_cons, List.not_mem_nil, or_false] at hk
  rcases hk with rfl | hk | rfl | rfl
  · simp only [Vm.Kmap.size, kernbase, Vm.kernlink, Vm.wordLimit, Vm.extmem, phystop, true_and]
    omega
  · have hend : k.virt + k.size = kernbase + l.data := by
      simp only [Vm.extmem, phystop] at htext hdata
      simp only [hk, Vm.Kmap.size, kernbase, Vm.kernlink, Vm.wordLimit, Vm.extmem]
      omega
    refine .inl ⟨?_, ?_, .inr ⟨?_, ?_, Nat.le_of_eq hend⟩⟩
    · rw [hk]
      exact Nat.add_comm kernbase Vm.extmem
    · rw [hend]
      exact Nat.add_le_add_left (Nat.le_of_lt hdata) _
    · rw [hk]
    · rw [hk]
  · simp only [Vm.extmem, phystop] at htext hdata
    simp only [Vm.Kmap.size, kernbase, Vm.kernlink, Vm.wordLimit, Vm.extmem, phystop, true_and]
    omega
  · simp only [and_self, or_true]

theorem kernelPte_kmap (l : Vm.KernelLayout) (hk : k ∈ Vm.kmap l) (hx : InRange k x) :
    kernelEntry l x = some (kernelPte k x) := by
  have hwords := kmap_inWords l k hk
  obtain ⟨hlo, hhi⟩ := id hx
  rcases kmap_cases l hk with ⟨hdist, hend, hperm⟩ | ⟨hvirt, hphys, hperm⟩
  · have hflags : (if Vm.kernlink ≤ x.toNat ∧ x.toNat < kernbase + l.data then 0 else pteW) = k.perm.setWidth 32 := by
      rcases hperm with ⟨hperm, hrange⟩ | ⟨hperm, hrange⟩
      · rw [if_neg (by omega), hperm]
        rfl
      · rw [if_pos (by omega), hperm]
        rfl
    rw [kernelEntry, if_neg (by omega), if_pos (by omega), hflags, kernelPte, hwords.address (by omega) hx, hdist,
      Nat.add_sub_cancel_left]
  · have hdev : kernbase + phystop ≤ devspace := by decide
    have haddr := hwords.address (by omega) hx
    rw [hvirt, hphys, Nat.sub_self, BitVec.sub_zero] at haddr
    rw [kernelEntry, if_neg (by omega), if_neg (by omega), if_neg (by omega), kernelPte, hvirt, hphys, haddr, hperm]
    rfl

theorem kernelEntry_outside (l : Vm.KernelLayout) (h : ∀ k ∈ Vm.kmap l, ¬InRange k x) : kernelEntry l x = none := by
  have htext := l.text
  have hdata := Nat.lt_of_lt_of_le l.ordered l.fits
  have hx := x.isLt
  simp only [Vm.kmap, List.mem_cons, List.not_mem_nil, or_false, forall_eq_or_imp, forall_eq, InRange, Vm.Kmap.size] at h
  simp only [Vm.wordLimit, kernbase, Vm.kernlink, Vm.extmem, phystop, devspace] at h htext hdata
  rw [kernelEntry]
  simp only [kernbase, phystop, devspace]
  by_cases hlow : x.toNat < 0x80000000
  · rw [if_pos hlow]
  · rw [if_neg hlow, if_neg (by omega), if_pos (by omega)]

theorem setupkvm_maps (l : Vm.KernelLayout) {m : Memory} (hm : m.free.Nodup) {n : Nat} (hn : 2 ^ 20 ≤ n) :
    (∃ m', setupkvm n l m = some (.ret none m')) ∨
    ∃ s : AddressSpace, setupkvm n l m = some (.ret (some s.pgdir) s.toMemory) ∧ ∀ x, s.lookup x = kernelEntry l x := by
  by_cases hnil : m.free = []
  · refine .inl ⟨m, ?_⟩
    rw [setupkvm, kalloc, hnil]
  · obtain ⟨v, free, hfree⟩ := List.exists_cons_of_ne_nil hnil
    have hloop : setupkvm n l m = setupkvmLoop n v (Vm.kmap l) (AddressSpace.blank m hfree hm).toMemory := by
      rw [setupkvm, kalloc, hfree]
      exact if_neg (by decide)
    obtain ⟨s, hdir, hfail | ⟨hret, hin, hout⟩⟩ :=
      setupkvmLoop_maps (s := AddressSpace.blank m hfree hm) (kmap_inWords l) (Vm.kmap_apart l)
      (fun _ _ x _ => AddressSpace.lookup_blank m hfree hm x) hn
    · exact .inl ⟨s.toMemory, hloop.trans hfail⟩
    · refine .inr ⟨s, ?_, fun x => ?_⟩
      · rw [hloop, hdir]
        exact hret
      · by_cases hx : ∃ k ∈ Vm.kmap l, InRange k x
        · obtain ⟨k, hk, hx⟩ := hx
          rw [hin k hk x hx, kernelPte_kmap l hk hx]
        · have hx : ∀ k ∈ Vm.kmap l, ¬InRange k x := fun k hk hkx => hx ⟨k, hk, hkx⟩
          rw [hout x hx, AddressSpace.lookup_blank, kernelEntry_outside l hx]

/-- `setupkvm` on trees, whatever pages are free: it does not panic, and a directory that it returns has for every
    address the entry that the map of the kernel has there, in the form of the words of `setupkvm_maps`. -/
theorem setupkvm_tree_maps (l : Vm.KernelLayout) {m : Memory} (hm : m.free.Nodup) :
    ∃ o free, Vm.setupkvm l (m.free.map BitVec.toNat) = some (o, free) ∧
      ∀ d, o = some d → ∀ x, d.entry (page x) = (kernelEntry l x).bind pteOf := by
  rcases setupkvm_tree l hm (Nat.le_refl (2 ^ 20)) with ⟨hpanic, -⟩ | ⟨m', -, htree⟩ | ⟨s, hret, htree⟩
  · rcases setupkvm_maps l hm (Nat.le_refl (2 ^ 20)) with ⟨m', hret⟩ | ⟨s, hret, -⟩
    · rw [hpanic] at hret
      cases hret
    · rw [hpanic] at hret
      cases hret
  · exact ⟨none, _, htree, fun d hd => by cases hd⟩
  · refine ⟨some s.tree.dir, _, htree, fun d hd x => ?_⟩
    obtain rfl := Option.some.inj hd
    rw [tree_entry]
    rcases setupkvm_maps l hm (Nat.le_refl (2 ^ 20)) with ⟨m', hret'⟩ | ⟨s', hret', hlookup⟩
    · rw [hret] at hret'
      cases hret'
    · rw [hret, Option.some.injEq, Outcome.ret.injEq, Option.some.injEq] at hret'
      rw [← hlookup x, AddressSpace.lookup, AddressSpace.lookup, hret'.1, hret'.2]

/-- A kernel of a megabyte, and a hundred free pages, which are enough. -/
theorem setupkvm_tree_maps_hundred : ∃ l : Vm.KernelLayout, l.kernelEnd = 0x1126FC ∧
    ∃ d free, Vm.setupkvm l ((List.range 100).map (BitVec.ofNat 20) |>.map BitVec.toNat) = some (some d, free) ∧
      ∀ x, d.entry (page x) = (kernelEntry l x).bind pteOf := by
  obtain ⟨o, free, hkvm, hmaps⟩ := setupkvm_tree_maps ⟨0x108000, 0x1126FC, by decide, by decide, by decide, by decide⟩
    (m := ⟨(List.range 100).map (BitVec.ofNat 20), fun _ _ => 0⟩) (by decide +kernel)
  cases o with
  | none => exact absurd (Vm.setupkvm_none hkvm).2 (by decide +kernel)
  | some d => exact ⟨_, rfl, d, free, hkvm, hmaps d rfl⟩

end Xv6.PageTables
