import Xv6.Ram
import Xv6.Theorems.VmPages

/-! `copyout` walks through the page table page by page, and asks `uva2ka` for each page. What `uva2ka` does not look at
    is whether the page has a table. -/

namespace Xv6.Vm
open Lib

/-! ### The address space of a directory -/

/-- The page with number `v` is present, user code may use it, and it is page `frame` of physical memory. -/
def Pgdir.Usable (d : Pgdir) (v : Nat) (frame : Frame) : Prop :=
  ∃ e, d.entry v = some e ∧ e.flags &&& pteU ≠ 0 ∧ e.frame = frame

def Pgdir.Allows (d : Pgdir) (a : Nat) : Prop := ∃ f, d.Usable (a / pgsize) f

/-- The pages that user code may use lie in physical memory, and are different pages of it. -/
structure Pgdir.Sound (d : Pgdir) : Prop where
  physical : ∀ v f, d.Usable v f → f * pgsize < phystop
  distinct : ∀ v w f, d.Usable v f → d.Usable w f → v = w

/-- The tables that `copyout` to `[va, va + len)` comes to are there: it stops at the first page that user code may not
    use. -/
def Pgdir.HasTables (d : Pgdir) (va len : Nat) : Prop :=
  ∀ i < len, (∀ j < i, d.Allows (va + j)) → (d.pde ((va + i) / pgsize / nptentries)).isSome

/-- The bytes of `buf`, and nothing else, have been stored from `va` on. -/
def Pgdir.Stored (d : Pgdir) (va : Nat) (buf : List Byte) (ram ram' : Ram) : Prop :=
  (∀ i f, d.Usable ((va + i) / pgsize) f → ∀ b, buf[i]? = some b → ram' f ((va + i) % pgsize) = b) ∧
  ∀ f x, (∀ i < buf.length, d.Usable ((va + i) / pgsize) f → (va + i) % pgsize ≠ x) → ram' f x = ram f x

/-- `copyout` returns 0 with the bytes in place if user code may use all of them, and -1 otherwise. -/
def Pgdir.Copies (d : Pgdir) (ram : Ram) (va : Nat) (buf : List Byte) : Copyout → Prop
  | .fault => False
  | .ret value ram' =>
    (value = 0 ∧ (∀ i < buf.length, d.Allows (va + i)) ∧ d.Stored va buf ram ram') ∨
    (value = -1 ∧ ∃ i < buf.length, ¬d.Allows (va + i))

theorem Pgdir.Usable.frame {d : Pgdir} {v : Nat} {f g : Frame} (hf : d.Usable v f) (hg : d.Usable v g) : f = g := by
  obtain ⟨e, he, -, rfl⟩ := hf
  obtain ⟨e', he', -, rfl⟩ := hg
  rw [he] at he'
  rw [Option.some.inj he']

section
variable {d : Pgdir} {ram : Ram} {va k : Nat} {buf : List Byte} {len i : Nat} {f : Frame}

theorem p2v_ne_zero {pa : Nat} (h : pa < phystop) : (pa + kernbase) % wordLimit ≠ 0 := by
  simp only [phystop, kernbase, wordLimit] at *
  omega

theorem uva2ka_cases (hd : d.Sound) (hva : va < wordLimit) :
    (uva2ka d va = none ∧ d.pde (va / pgsize / nptentries) = none) ∨
    (uva2ka d va = some none ∧ (d.pde (va / pgsize / nptentries)).isSome ∧ ¬d.Allows va) ∨
    ∃ f, uva2ka d va = some (some f) ∧ (d.pde (va / pgsize / nptentries)).isSome ∧ d.Usable (va / pgsize) f := by
  rw [uva2ka, pdx_eq hva]
  cases ht : d.pde (va / pgsize / nptentries) with
  | none => exact .inl ⟨rfl, rfl⟩
  | some t =>
    have hent : d.entry (va / pgsize) = t.pte (ptx va) := Pgdir.entry_of_table (by rw [pdx_eq hva]; exact ht) hva
    cases hp : t.pte (ptx va) with
    | none =>
      refine .inr (.inl ⟨by simp only [Option.map_some, hp], rfl, ?_⟩)
      rintro ⟨f, e, he, -⟩
      rw [hent, hp] at he
      cases he
    | some e =>
      by_cases hu : e.flags &&& pteU = 0
      · refine .inr (.inl ⟨by simp only [Option.map_some, hp, if_pos hu], rfl, ?_⟩)
        rintro ⟨f, e', he, hu', -⟩
        rw [hent, hp] at he
        exact hu' (Option.some.inj he ▸ hu)
      · have huse : d.Usable (va / pgsize) e.frame := ⟨e, hent.trans hp, hu, rfl⟩
        have hphys := hd.physical _ _ huse
        have hne : (e.frame * pgsize + kernbase) % wordLimit ≠ 0 := p2v_ne_zero hphys
        exact .inr (.inr ⟨e.frame, by simp only [Option.map_some, hp, if_neg hu, if_neg hne], rfl, huse⟩)

def firstPart (va len : Nat) : Nat := min (pgsize - (va - va / pgsize * pgsize)) len

theorem firstPart_page (hi : i < firstPart va len) : (va + i) / pgsize = va / pgsize ∧
    (va + i) % pgsize = va - va / pgsize * pgsize + i := by
  simp only [firstPart, pgsize] at *
  omega

theorem firstPart_next (hlen : firstPart va len < len) :
    va + firstPart va len = va / pgsize * pgsize + pgsize ∧ 0 < firstPart va len := by
  simp only [firstPart, pgsize] at *
  omega

theorem Pgdir.Stored.cons {ram' : Ram} (hd : d.Sound) (huse : d.Usable (va / pgsize) f)
    (hrest : d.Stored (va + firstPart va buf.length) (buf.drop (firstPart va buf.length))
      (Function.update ram f ((ram f).patch (va - va / pgsize * pgsize) (buf.take (firstPart va buf.length)))) ram') :
    d.Stored va buf ram ram' := by
  obtain ⟨hcopied, hframe⟩ := hrest
  -- The rest goes to other pages, which are other pages of physical memory as well.
  have hapart (i : Nat) (hi : i < (buf.drop (firstPart va buf.length)).length) :
      ¬d.Usable ((va + firstPart va buf.length + i) / pgsize) f := by
    intro huse'
    have heq := hd.distinct _ _ _ huse huse'
    rw [List.length_drop] at hi
    have hnext := firstPart_next (show firstPart va buf.length < buf.length by omega)
    simp only [pgsize] at heq hnext
    omega
  constructor
  · intro i g hg b hb
    by_cases hi : i < firstPart va buf.length
    · obtain ⟨hpage, hoff⟩ := firstPart_page hi
      rw [hpage] at hg
      obtain rfl : g = f := Pgdir.Usable.frame hg huse
      rw [hframe g _ fun j hj huse' => absurd huse' (hapart j hj), Function.update_self, hoff, Page.patch,
        if_pos (Nat.le_add_right ..), Nat.add_sub_cancel_left, List.getElem?_take_of_lt hi, hb, Option.getD_some]
    · have hsplit : i = firstPart va buf.length + (i - firstPart va buf.length) := by omega
      rw [hsplit, ← Nat.add_assoc] at hg ⊢
      refine hcopied _ g hg b ?_
      rw [List.getElem?_drop, ← hsplit, hb]
  · intro g x hx
    rw [hframe g x fun j hj huse' => ?_]
    · by_cases hg : g = f
      · subst hg
        rw [Function.update_self, Page.patch]
        split
        · rename_i hle
          rw [List.getElem?_eq_none, Option.getD_none]
          by_contra hlt
          rw [List.length_take] at hlt
          have hi : x - (va - va / pgsize * pgsize) < firstPart va buf.length := by omega
          obtain ⟨hpage, hoff⟩ := firstPart_page hi
          refine hx (x - (va - va / pgsize * pgsize)) (by omega) (by rw [hpage]; exact huse) ?_
          omega
        · rfl
      · rw [Function.update_of_ne hg]
    · rw [List.length_drop] at hj
      rw [Nat.add_assoc] at huse' ⊢
      exact hx _ (by omega) huse'

theorem firstPart_allows (huse : d.Usable (va / pgsize) f) (hi : i < firstPart va len) :
    d.Allows (va + i) := by
  rw [Pgdir.Allows, (firstPart_page hi).1]
  exact ⟨f, huse⟩

theorem hasTables_next (len : Nat) (ht : (d.pde (va / pgsize / nptentries)).isSome) (huse : d.Usable (va / pgsize) f) :
    d.HasTables va len ↔ d.HasTables (va + firstPart va len) (len - firstPart va len) := by
  constructor
  · intro h i hi hbefore
    rw [Nat.add_assoc]
    refine h (firstPart va len + i) (by omega) fun j hj => ?_
    by_cases hj' : j < firstPart va len
    · exact firstPart_allows huse hj'
    · have hb := hbefore (j - firstPart va len) (by omega)
      rwa [Nat.add_assoc, Nat.add_sub_cancel' (by omega)] at hb
  · intro h i hi hbefore
    by_cases hi' : i < firstPart va len
    · rw [(firstPart_page hi').1]
      exact ht
    · have hi := h (i - firstPart va len) (by omega) fun j hj => by
        rw [Nat.add_assoc]
        exact hbefore _ (by omega)
      rwa [Nat.add_assoc, Nat.add_sub_cancel' (by omega)] at hi

theorem Pgdir.Copies.cons {ram₁ : Ram} {r : Copyout} (hd : d.Sound) (huse : d.Usable (va / pgsize) f)
    (hram : Function.update ram f ((ram f).patch (va - va / pgsize * pgsize) (buf.take (firstPart va buf.length))) = ram₁)
    (h : d.Copies ram₁ (va + firstPart va buf.length) (buf.drop (firstPart va buf.length)) r) : d.Copies ram va buf r := by
  cases r with
  | fault => exact h
  | ret value ram' =>
    have hlen : (buf.drop (firstPart va buf.length)).length = buf.length - firstPart va buf.length := List.length_drop
    rcases h with ⟨hvalue, hall, hstored⟩ | ⟨hvalue, i, hi, hno⟩
    · refine .inl ⟨hvalue, fun i hi => ?_, .cons hd huse (hram ▸ hstored)⟩
      by_cases hi' : i < firstPart va buf.length
      · exact firstPart_allows huse hi'
      · have hb := hall (i - firstPart va buf.length) (by omega)
        rwa [Nat.add_assoc, Nat.add_sub_cancel' (by omega)] at hb
    · rw [Nat.add_assoc] at hno
      exact .inr ⟨hvalue, _, by omega, hno⟩

theorem copyoutLoop_nil (k : Nat) : copyoutLoop d k ram va [] = .ret 0 ram := by
  cases k <;> rfl

theorem Pgdir.copies_nil : d.Copies ram va [] (.ret 0 ram) := by
  refine .inl ⟨rfl, fun i hi => absurd hi (Nat.not_lt_zero _), fun i f _ b hb => ?_, fun _ _ _ => rfl⟩
  cases hb

theorem copyoutLoop_spec (hd : d.Sound) (hva : va + buf.length ≤ wordLimit) (hk : va % pgsize + buf.length ≤ k * pgsize) :
    (copyoutLoop d k ram va buf = .fault ∧ ¬d.HasTables va buf.length) ∨
    (d.HasTables va buf.length ∧ d.Copies ram va buf (copyoutLoop d k ram va buf)) := by
  induction k generalizing ram va buf with
  | zero =>
    have hnil : buf = [] := List.length_eq_zero_iff.mp (by omega)
    subst hnil
    exact .inr ⟨fun i hi => absurd hi (Nat.not_lt_zero _), Pgdir.copies_nil⟩
  | succ k ih =>
    by_cases hnil : buf = []
    · subst hnil
      rw [copyoutLoop_nil]
      exact .inr ⟨fun i hi => absurd hi (Nat.not_lt_zero _), Pgdir.copies_nil⟩
    · have hpos := List.length_pos_iff.mpr hnil
      have hpage : va / pgsize * pgsize / pgsize = va / pgsize := Nat.mul_div_cancel _ (by decide)
      rw [copyoutLoop, if_neg hnil]
      dsimp only
      have hcases := uva2ka_cases hd (show va / pgsize * pgsize < wordLimit by simp only [pgsize]; omega)
      rw [hpage] at hcases
      rcases hcases with ⟨hw, ht⟩ | ⟨hw, ht, hno⟩ | ⟨f, hw, ht, huse⟩
      · refine .inl ⟨by rw [hw], fun htables => ?_⟩
        have hfirst := htables 0 hpos fun j hj => absurd hj (Nat.not_lt_zero _)
        rw [Nat.add_zero, ht] at hfirst
        cases hfirst
      · have hno : ¬d.Allows (va + 0) := by
          rw [Pgdir.Allows, hpage] at hno
          exact hno
        rw [hw]
        refine .inr ⟨fun i hi hbefore => ?_, .inr ⟨rfl, 0, hpos, hno⟩⟩
        rcases Nat.eq_zero_or_pos i with rfl | hi0
        · exact ht
        · exact absurd (hbefore 0 hi0) hno
      · rw [hw]
        dsimp only
        change (copyoutLoop d k
          (Function.update ram f ((ram f).patch (va - va / pgsize * pgsize) (buf.take (firstPart va buf.length))))
          ((va / pgsize * pgsize + pgsize) % wordLimit) (buf.drop (firstPart va buf.length)) = .fault ∧ _) ∨ _ ∧
          d.Copies ram va buf (copyoutLoop d k
            (Function.update ram f ((ram f).patch (va - va / pgsize * pgsize) (buf.take (firstPart va buf.length))))
            ((va / pgsize * pgsize + pgsize) % wordLimit) (buf.drop (firstPart va buf.length)))
        generalize hram : Function.update ram f
          ((ram f).patch (va - va / pgsize * pgsize) (buf.take (firstPart va buf.length))) = ram₁
        have hlen : (buf.drop (firstPart va buf.length)).length = buf.length - firstPart va buf.length := List.length_drop
        -- The copy goes on right behind the first part, unless that was all of it.
        have hrest :
          (copyoutLoop d k ram₁ ((va / pgsize * pgsize + pgsize) % wordLimit) (buf.drop (firstPart va buf.length)) =
            .fault ∧ ¬d.HasTables (va + firstPart va buf.length) (buf.length - firstPart va buf.length)) ∨
            (d.HasTables (va + firstPart va buf.length) (buf.length - firstPart va buf.length) ∧
              d.Copies ram₁ (va + firstPart va buf.length) (buf.drop (firstPart va buf.length)) (copyoutLoop d k ram₁
                ((va / pgsize * pgsize + pgsize) % wordLimit) (buf.drop (firstPart va buf.length)))) := by
          by_cases hlt : firstPart va buf.length < buf.length
          · obtain ⟨hnext, -⟩ := firstPart_next hlt
            rw [← hnext, Nat.mod_eq_of_lt (by omega), ← hlen]
            refine ih (by omega) ?_
            rw [hnext]
            simp only [pgsize] at hk hnext ⊢
            omega
          · rw [List.drop_eq_nil_of_le (by omega), copyoutLoop_nil, Nat.sub_eq_zero_of_le (by omega)]
            exact .inr ⟨fun i hi => absurd hi (Nat.not_lt_zero _), Pgdir.copies_nil⟩
        have htables := hasTables_next buf.length ht huse
        refine hrest.imp (fun h => ⟨h.1, fun hno => h.2 (htables.mp hno)⟩) fun h =>
          ⟨htables.mpr h.1, .cons hd huse hram h.2⟩

theorem copyout_cases (hd : d.Sound) (hva : va + buf.length ≤ wordLimit) (ram : Ram) :
    (copyout d ram va buf = .fault ∧ ¬d.HasTables va buf.length) ∨
    (d.HasTables va buf.length ∧ d.Copies ram va buf (copyout d ram va buf)) := by
  refine copyoutLoop_spec hd hva ?_
  simp only [pgsize]
  omega

end

/-- `copyout` is total and exact, in a directory whose user pages are pages of physical memory and all different, exactly
    if the first page of the range that user code may not use has a table. -/
theorem copyout_exact_iff {d : Pgdir} {va : Nat} {buf : List Byte} (hd : d.Sound) (hva : va + buf.length ≤ wordLimit)
    (ram : Ram) : d.Copies ram va buf (copyout d ram va buf) ↔ d.HasTables va buf.length := by
  rcases copyout_cases hd hva ram with ⟨hfault, hno⟩ | ⟨htables, hcopies⟩
  · refine iff_of_false (fun h => ?_) hno
    rw [hfault] at h
    exact h
  · exact iff_of_true hcopies htables

def onePage : Pgdir :=
    ⟨500, fun i => if i = 0 then some ⟨501, fun j => if j = 0 then some ⟨502, pteP ||| pteW ||| pteU⟩ else none⟩ else none⟩

theorem onePage_entry (v : Nat) : onePage.entry v = if v = 0 then some ⟨502, pteP ||| pteW ||| pteU⟩ else none := by
  simp only [Pgdir.entry, onePage]
  by_cases hv : v = 0
  · subst hv
    rfl
  · rw [if_neg hv]
    split
    · rename_i hdiv
      have hmod : v % nptentries ≠ 0 := by
        simp only [nptentries] at *
        omega
      simp [hmod]
    · rfl

theorem onePage_usable {v : Nat} {f : Frame} (h : onePage.Usable v f) : v = 0 ∧ f = 502 := by
  obtain ⟨e, he, -, rfl⟩ := h
  rw [onePage_entry] at he
  split at he
  · cases he
    exact ⟨‹_›, rfl⟩
  · cases he

theorem onePage_sound : onePage.Sound where
  physical := fun v f h => by
    rw [(onePage_usable h).2]
    decide
  distinct := fun v w f h h' => (onePage_usable h).1.trans (onePage_usable h').1.symm

/-- Half of the address space has no table: a copy there reads an entry through a null pointer. -/
theorem copyout_faults : copyout onePage (fun _ _ => 0) 0xF0000000 [0x61] = .fault ∧
    ¬onePage.Copies (fun _ _ => 0) 0xF0000000 [0x61] (copyout onePage (fun _ _ => 0) 0xF0000000 [0x61]) := by
  have hfault : copyout onePage (fun _ _ => 0) 0xF0000000 [0x61] = .fault := rfl
  rw [hfault]
  exact ⟨rfl, id⟩

/-- A copy that ends with the page. -/
theorem copyout_exact_page : ∃ ram', copyout onePage (fun _ _ => 0) 4094 [0x61, 0x62] = .ret 0 ram' ∧
    onePage.Copies (fun _ _ => 0) 4094 [0x61, 0x62] (.ret 0 ram') := by
  have htables : onePage.HasTables 4094 [0x61, 0x62].length := by
    intro i hi _
    have hpage : (4094 + i) / pgsize / nptentries = 0 := by
      simp only [List.length_cons, List.length_nil, pgsize, nptentries] at *
      omega
    rw [hpage]
    rfl
  have hcopies := (@copyout_exact_iff onePage 4094 [0x61, 0x62] onePage_sound (by decide) fun _ _ => 0).mpr htables
  exact ⟨_, rfl, hcopies⟩

end Xv6.Vm
