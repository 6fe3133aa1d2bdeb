import Mathlib.Data.List.Nodup
import Xv6.Fs.Disk
import Xv6.Lib.Fallible

/-! The blocks of inodes. Every block number in an allocated inode or in its indirect block stands for one block, no two
    for the same. `bmap` adds a block without a change to any contents, a write changes its own inode only, and `itrunc`
    gives back exactly the blocks of its inode. -/

namespace Xv6.Fs
open Lib

/-! ### The block numbers in an inode -/

/-- The numbers in the inode itself, the last of them that of the indirect block, and the ones in that block. -/
abbrev nrefs : Nat := ndirect + 1 + nindirect

def Dinode.ref (x : Dinode) (block : Nat → Block) (r : Nat) : Nat :=
  if r ≤ ndirect then x.addrs r
  else if x.addrs ndirect = 0 then 0 else word (block (x.addrs ndirect)) (r - (ndirect + 1))

def refOf (bn : Nat) : Nat := if bn < ndirect then bn else bn + 1

/-- The byte at `pos` of the contents; a block that is not mapped counts as zero. -/
def Dinode.content (x : Dinode) (block : Nat → Block) (pos : Nat) : Byte :=
  if pos / bsize < maxfile ∧ x.ref block (refOf (pos / bsize)) ≠ 0 then
    block (x.ref block (refOf (pos / bsize))) (pos % bsize)
  else 0

theorem word_putWord {b : Block} {j v q : Nat} (hv : v < 2 ^ 32) :
    word (putWord b j v) q = if q = j then v else word b q := by
  have h0 : 4 * q / 4 = q := by omega
  have h1 : (4 * q + 1) / 4 = q := by omega
  have h2 : (4 * q + 2) / 4 = q := by omega
  have h3 : (4 * q + 3) / 4 = q := by omega
  have m0 : 4 * q % 4 = 0 := by omega
  have m1 : (4 * q + 1) % 4 = 1 := by omega
  have m2 : (4 * q + 2) % 4 = 2 := by omega
  have m3 : (4 * q + 3) % 4 = 3 := by omega
  simp only [word, putWord, h0, h1, h2, h3, m0, m1, m2, m3]
  split
  · simp only [BitVec.toNat_ofNat]
    omega
  · rfl

theorem word_zero {j : Nat} : word (fun _ => 0) j = 0 := rfl

theorem refOf_ne {bn : Nat} : refOf bn ≠ ndirect := by
  unfold refOf
  split <;> omega

theorem refOf_lt {bn : Nat} (h : bn < maxfile) : refOf bn < nrefs := by
  simp only [refOf, maxfile, nrefs] at h ⊢
  split <;> omega

theorem refOf_inj {b c : Nat} (h : refOf b = refOf c) : b = c := by
  unfold refOf at h
  split at h <;> split at h <;> omega

/-! ### Ownership -/

section Own
variable {d d' : Disk} {X X' : Nat → Dinode} {i j r q a b : Nat} {x : Dinode} {block : Nat → Block} {bn : Nat}

/-- Entry `r` of the allocated inode `i` is the number of block `a`. Here `X` gives the inodes as they are in use:
    the copies in memory where there are any. -/
def Refers (d : Disk) (X : Nat → Dinode) (i r a : Nat) : Prop :=
  (X i).kind ≠ .free ∧ r < nrefs ∧ (X i).ref d.block r = a ∧ a ≠ 0

structure Own (d : Disk) (X : Nat → Dinode) : Prop where
  pos : 0 < d.sb.nmeta
  reserved : ∀ b < d.sb.nmeta, d.bitmap b = true
  taken : ∀ {i r a}, Refers d X i r a → d.sb.nmeta ≤ a ∧ a < d.sb.size ∧ d.bitmap a = true
  once : ∀ {i r j q a}, Refers d X i r a → Refers d X j q a → i = j ∧ r = q

/-- Only the blocks that are in use are marked in the bitmap. -/
def Tight (d : Disk) (X : Nat → Dinode) : Prop :=
  ∀ b < d.sb.size, d.sb.nmeta ≤ b → d.bitmap b = true → ∃ i r, Refers d X i r b

/-- Every block below the size of an inode is mapped. -/
def Dense (d : Disk) (X : Nat → Dinode) : Prop :=
  ∀ i bn, (X i).kind ≠ .free → bn * bsize < (X i).size → ∃ a, Refers d X i (refOf bn) a

/-- What allocating blocks and writing to them keeps. -/
structure Grows (d : Disk) (X : Nat → Dinode) (d' : Disk) (X' : Nat → Dinode) : Prop where
  sb : d'.sb = d.sb
  inode : d'.inode = d.inode
  own : Own d' X'
  same : ∀ j, X' j = { X j with addrs := (X' j).addrs }
  refers : ∀ {j r a}, Refers d X j r a → Refers d' X' j r a
  tight : Tight d X → Tight d' X'

theorem Grows.refl (own : Own d X) : Grows d X d X := ⟨rfl, rfl, own, fun _ => rfl, id, id⟩

theorem Grows.trans {e : Disk} {Y : Nat → Dinode} (h : Grows d X d' X') (h' : Grows d' X' e Y) : Grows d X e Y where
  sb := h'.sb.trans h.sb
  inode := h'.inode.trans h.inode
  own := h'.own
  same j := by
    conv_lhs => rw [h'.same j, h.same j]
  refers hr := h'.refers (h.refers hr)
  tight ht := h'.tight (h.tight ht)

theorem Grows.kind (h : Grows d X d' X') : (X' j).kind = (X j).kind := by rw [h.same j]

theorem Grows.size (h : Grows d X d' X') : (X' j).size = (X j).size := by rw [h.same j]

theorem Grows.dense (h : Grows d X d' X') (hd : Dense d X) : Dense d' X' := by
  intro i bn hi hbn
  obtain ⟨a, ha⟩ := hd i bn (h.kind ▸ hi) (h.size ▸ hbn)
  exact ⟨a, h.refers ha⟩

theorem Own.not_refers (own : Own d X) (ha : d.bitmap a = false) : ¬Refers d X i r a := by
  intro hr
  rw [(own.taken hr).2.2] at ha
  cases ha

theorem Own.ne_of_refers (own : Own d X) (ha : d.bitmap a = false) (hb : Refers d X i r b) : b ≠ a := by
  rintro rfl
  exact own.not_refers ha hb

theorem content_eq (d' : Disk) (X' : Nat → Dinode)
    (hsame : ∀ bn < maxfile, (X' j).ref d'.block (refOf bn) ≠ (X j).ref d.block (refOf bn) →
      (X j).ref d.block (refOf bn) = 0 ∧ d'.block ((X' j).ref d'.block (refOf bn)) = fun _ => 0)
    (hblock : ∀ bn < maxfile, (X j).ref d.block (refOf bn) ≠ 0 →
      d'.block ((X j).ref d.block (refOf bn)) = d.block ((X j).ref d.block (refOf bn))) :
    (X' j).content d'.block = (X j).content d.block := by
  funext pos
  unfold Dinode.content
  by_cases hpos : pos / bsize < maxfile
  · by_cases hr : (X' j).ref d'.block (refOf (pos / bsize)) = (X j).ref d.block (refOf (pos / bsize))
    · rw [hr]
      by_cases h0 : (X j).ref d.block (refOf (pos / bsize)) = 0
      · rw [if_neg (by simp [h0]), if_neg (by simp [h0])]
      · rw [if_pos ⟨hpos, h0⟩, if_pos ⟨hpos, h0⟩, hblock _ hpos h0]
    · obtain ⟨h0, hz⟩ := hsame _ hpos hr
      rw [if_neg (c := _ ∧ (X j).ref d.block _ ≠ 0) (by simp [h0]), hz]
      split <;> rfl
  · rw [if_neg (by simp [hpos]), if_neg (by simp [hpos])]

/-- A fresh block `a` stands at entry `r` of inode `i`, and nothing else has changed. -/
structure Assigned (d : Disk) (X : Nat → Dinode) (d' : Disk) (X' : Nat → Dinode) (i r a : Nat) : Prop where
  grows : Grows d X d' X'
  content : ∀ j, (X j).kind ≠ .free → (X' j).content d'.block = (X j).content d.block
  refers : Refers d' X' i r a
  others : ∀ q < nrefs, q ≠ r → (X' i).ref d'.block q = (X i).ref d.block q

theorem Own.assign (own : Own d X) (hi : (X i).kind ≠ .free) (hr : r < nrefs) (hold : (X i).ref d.block r = 0)
    (ha : d.bitmap a = false) (hsize : a < d.sb.size) (hsb : d'.sb = d.sb) (hinode : d'.inode = d.inode)
    (hbit : d'.bitmap = Function.update d.bitmap a true) (hsame : ∀ j, X' j = { X j with addrs := (X' j).addrs })
    (href : ∀ j q, (X j).kind ≠ .free → q < nrefs →
      (X' j).ref d'.block q = if j = i ∧ q = r then a else (X j).ref d.block q) (hzero : d'.block a = fun _ => 0)
    (hblock : ∀ {j bn b}, bn < maxfile → Refers d X j (refOf bn) b → d'.block b = d.block b) :
    Assigned d X d' X' i r a := by
  have hkind : ∀ j, (X' j).kind = (X j).kind := fun j => by rw [hsame j]
  have hpos : d.sb.nmeta ≤ a := by
    by_contra hlt
    rw [own.reserved a (by omega)] at ha
    cases ha
  have ha0 : a ≠ 0 := by
    have := own.pos
    omega
  -- An entry is the new one, or it was there before.
  have hcases : ∀ {j q b}, Refers d' X' j q b → (j = i ∧ q = r ∧ b = a) ∨ Refers d X j q b := by
    rintro j q b ⟨hk, hq, hb, hb0⟩
    rw [hkind] at hk
    rw [href j q hk hq] at hb
    split at hb
    · rename_i h
      exact .inl ⟨h.1, h.2, hb.symm⟩
    · exact .inr ⟨hk, hq, hb, hb0⟩
  have hkept : ∀ {j q b}, Refers d X j q b → Refers d' X' j q b := by
    rintro j q b ⟨hk, hq, hb, hb0⟩
    refine ⟨(hkind j).symm ▸ hk, hq, ?_, hb0⟩
    rw [href j q hk hq, if_neg, hb]
    rintro ⟨rfl, rfl⟩
    exact hb0 (hb.symm.trans hold)
  have hnew : Refers d' X' i r a := ⟨(hkind i).symm ▸ hi, hr, by rw [href i r hi hr, if_pos ⟨rfl, rfl⟩], ha0⟩
  refine ⟨⟨hsb, hinode, ⟨hsb ▸ own.pos, ?_, ?_, ?_⟩, hsame, hkept, ?_⟩, ?_, hnew, ?_⟩
  · intro b hb
    rw [hsb] at hb
    rw [hbit]
    rcases eq_or_ne b a with rfl | hne
    · simp
    · rw [Function.update_of_ne hne, own.reserved b hb]
  · intro j q b hb
    rw [hsb, hbit]
    rcases hcases hb with ⟨-, -, rfl⟩ | hb
    · exact ⟨hpos, hsize, by simp⟩
    · obtain ⟨h1, h2, h3⟩ := own.taken hb
      refine ⟨h1, h2, ?_⟩
      rcases eq_or_ne b a with rfl | hne
      · simp
      · rw [Function.update_of_ne hne, h3]
  · intro j q l t b hj hl
    rcases hcases hj with ⟨rfl, rfl, rfl⟩ | hj
    · rcases hcases hl with ⟨rfl, rfl, -⟩ | hl
      · exact ⟨rfl, rfl⟩
      · exact absurd hl (own.not_refers ha)
    · rcases hcases hl with ⟨rfl, rfl, rfl⟩ | hl
      · exact absurd hj (own.not_refers ha)
      · exact own.once hj hl
  · intro ht b hb hnm hset
    rw [hsb] at hb hnm
    rcases eq_or_ne b a with rfl | hne
    · exact ⟨i, r, hnew⟩
    · rw [hbit, Function.update_of_ne hne] at hset
      obtain ⟨j, q, hj⟩ := ht b hb hnm hset
      exact ⟨j, q, hkept hj⟩
  · intro j hj
    refine content_eq d' X' (fun bn hbn hdiff => ?_) fun bn hbn h0 => hblock hbn ⟨hj, refOf_lt hbn, rfl, h0⟩
    rw [href j _ hj (refOf_lt hbn)] at hdiff ⊢
    split at hdiff
    · rename_i h
      obtain ⟨rfl, hbr⟩ := h
      rw [if_pos ⟨rfl, hbr⟩, hbr]
      exact ⟨hold, hzero⟩
    · exact absurd rfl hdiff
  · intro q hq hne
    rw [href i q hi hq, if_neg fun h => hne h.2]

/-! ### balloc and bmap -/

theorem balloc_ok (h : d.balloc = .ok (a, d')) :
    d.bitmap a = false ∧ a < d.sb.size ∧
      d' = { d with bitmap := Function.update d.bitmap a true, block := Function.update d.block a fun _ => 0 } := by
  unfold Disk.balloc at h
  split at h
  · rename_i b hb
    cases h
    have hmem := List.mem_range.mp (List.mem_of_find?_eq_some hb)
    have hfree := List.find?_some hb
    exact ⟨by simpa using hfree, hmem, rfl⟩
  · cases h

theorem ref_congr {block' : Nat → Block} (h : x.addrs ndirect ≠ 0 → block' (x.addrs ndirect) = block (x.addrs ndirect)) :
    x.ref block' q = x.ref block q := by
  unfold Dinode.ref
  split
  · rfl
  · split
    · rfl
    · rename_i h0
      rw [h h0]

theorem ref_ndirect : x.ref block ndirect = x.addrs ndirect := if_pos (Nat.le_refl _)

theorem refers_ndirect (hi : (X i).kind ≠ .free) (h0 : (X i).addrs ndirect ≠ 0) :
    Refers d X i ndirect ((X i).addrs ndirect) := ⟨hi, by decide, ref_ndirect, h0⟩

theorem Own.assign_addr (own : Own d X) (hi : (X i).kind ≠ .free) (hr : r ≤ ndirect) (hold : (X i).addrs r = 0)
    (h : d.balloc = .ok (a, d')) :
    Assigned d X d' (Function.update X i { X i with addrs := Function.update (X i).addrs r a }) i r a := by
  obtain ⟨ha, hsize, rfl⟩ := balloc_ok h
  have ha0 : a ≠ 0 := by
    rintro rfl
    rw [own.reserved 0 own.pos] at ha
    cases ha
  have hrn : r < nrefs := by simp only [nrefs]; omega
  have href0 : (X i).ref d.block r = 0 := by rw [Dinode.ref, if_pos hr, hold]
  have hne : ∀ j, (X j).kind ≠ .free → (X j).addrs ndirect ≠ 0 → (X j).addrs ndirect ≠ a := fun j hj h0 =>
    own.ne_of_refers ha (refers_ndirect hj h0)
  have href : ∀ j q, (X j).kind ≠ .free → q < nrefs →
      (Function.update X i { X i with addrs := Function.update (X i).addrs r a } j).ref
        (Function.update d.block a fun _ => 0) q = if j = i ∧ q = r then a else (X j).ref d.block q := by
    intro j q hj hq
    rcases eq_or_ne j i with rfl | hji
    · rw [Function.update_self]
      by_cases hqr : q = r
      · subst hqr
        simp only [Dinode.ref, if_pos hr, Function.update_self, and_self, if_true]
      · rw [if_neg (by simp [hqr])]
        simp only [Dinode.ref]
        by_cases hqd : q ≤ ndirect
        · rw [if_pos hqd, if_pos hqd, Function.update_of_ne hqr]
        · rw [if_neg hqd, if_neg hqd]
          rcases eq_or_ne r ndirect with rfl | hrd
          · simp only [Function.update_self, if_neg ha0, if_pos hold, word_zero]
          · rw [Function.update_of_ne (Ne.symm hrd)]
            by_cases h0 : (X j).addrs ndirect = 0
            · rw [if_pos h0, if_pos h0]
            · rw [if_neg h0, if_neg h0, Function.update_of_ne (hne j hj h0)]
    · rw [Function.update_of_ne hji, if_neg (by simp [hji])]
      exact ref_congr fun h0 => Function.update_of_ne (hne j hj h0) _ _
  refine own.assign hi hrn href0 ha hsize rfl rfl rfl (fun j => ?_) href (Function.update_self ..)
    fun _ hb => Function.update_of_ne (own.ne_of_refers ha hb) _ _
  rcases eq_or_ne j i with rfl | hji
  · simp
  · simp [hji]

theorem Own.assign_indirect (own : Own d X) (hi : (X i).kind ≠ .free) (hbp : (X i).addrs ndirect ≠ 0) (hj : j < nindirect)
    (hold : word (d.block ((X i).addrs ndirect)) j = 0) (h : d.balloc = .ok (a, d')) :
    let e := { d' with
      block := Function.update d'.block ((X i).addrs ndirect) (putWord (d'.block ((X i).addrs ndirect)) j a) }
    Assigned d X e X i (ndirect + 1 + j) a := by
  obtain ⟨ha, hsize, rfl⟩ := balloc_ok h
  intro e
  have ha0 : a ≠ 0 := by
    rintro rfl
    rw [own.reserved 0 own.pos] at ha
    cases ha
  have hbpa : (X i).addrs ndirect ≠ a := own.ne_of_refers ha (refers_ndirect hi hbp)
  have hrn : ndirect + 1 + j < nrefs := by simp only [nrefs]; omega
  have hlt : ¬ndirect + 1 + j ≤ ndirect := by omega
  have hsub : ndirect + 1 + j - (ndirect + 1) = j := by omega
  have href0 : (X i).ref d.block (ndirect + 1 + j) = 0 := by
    rw [Dinode.ref, if_neg hlt, if_neg hbp, hsub, hold]
  have hblock : e.block ((X i).addrs ndirect) = putWord (d.block ((X i).addrs ndirect)) j a := by
    simp only [e, Function.update_self, Function.update_of_ne hbpa]
  have hother : ∀ b, b ≠ a → b ≠ (X i).addrs ndirect → e.block b = d.block b := by
    intro b hb hb'
    simp only [e, Function.update_of_ne hb', Function.update_of_ne hb]
  have href : ∀ l q, (X l).kind ≠ .free → q < nrefs →
      (X l).ref e.block q = if l = i ∧ q = ndirect + 1 + j then a else (X l).ref d.block q := by
    intro l q hl hq
    rcases eq_or_ne l i with rfl | hli
    · by_cases hqd : q ≤ ndirect
      · rw [if_neg (by rintro ⟨-, rfl⟩; omega), Dinode.ref, Dinode.ref, if_pos hqd, if_pos hqd]
      · have hq' : q - (ndirect + 1) = j ↔ q = ndirect + 1 + j := by omega
        have hsz := d.sb.fits
        rw [Dinode.ref, Dinode.ref, if_neg hqd, if_neg hqd, if_neg hbp, if_neg hbp, hblock, word_putWord (by omega)]
        simp only [hq', true_and]
    · rw [if_neg (by simp [hli])]
      refine ref_congr fun h0 => hother _ (own.ne_of_refers ha (refers_ndirect hl h0)) fun heq => ?_
      have := own.once (refers_ndirect hl h0) (heq ▸ refers_ndirect hi hbp)
      exact hli this.1
  refine own.assign hi hrn href0 ha hsize rfl rfl rfl (fun _ => rfl) href ?_ fun _ hr => ?_
  · simp only [e, Function.update_of_ne (Ne.symm hbpa), Function.update_self]
  · refine hother _ (own.ne_of_refers ha hr) fun heq => ?_
    exact refOf_ne (own.once hr (heq ▸ refers_ndirect hi hbp)).2

/-- What `bmap` does: the block is the one that the inode has for `bn` afterwards, and neither the contents nor the
    numbers of the other blocks change. -/
theorem Own.bmap {ip : Dinode} (own : Own d X) (hi : (X i).kind ≠ .free)
    (h : d.bmap (X i) bn = .ok (a, d', ip)) :
    Grows d X d' (Function.update X i ip) ∧
      (∀ j, (X j).kind ≠ .free → (Function.update X i ip j).content d'.block = (X j).content d.block) ∧
      bn < maxfile ∧ Refers d' (Function.update X i ip) i (refOf bn) a ∧
      ∀ c < maxfile, c ≠ bn → ip.ref d'.block (refOf c) = (X i).ref d.block (refOf c) := by
  unfold Disk.bmap at h
  split at h
  · rename_i hbn
    have hmax : bn < maxfile := by simp only [maxfile]; omega
    have hof : refOf bn = bn := if_pos hbn
    split at h
    · rename_i h0
      obtain ⟨⟨b, e⟩, hb, h⟩ := bind_eq_ok.mp h
      cases h
      obtain ⟨hg, hc, hr, hkept⟩ := own.assign_addr hi (by omega) h0 hb
      rw [Function.update_self] at hkept
      exact ⟨hg, hc, hmax, hof.symm ▸ hr, fun c hc hne => hkept _ (refOf_lt hc) fun h => hne (refOf_inj (h.trans hof.symm))⟩
    · rename_i h0
      cases h
      rw [Function.update_eq_self]
      refine ⟨.refl own, fun _ _ => rfl, hmax, ⟨hi, refOf_lt hmax, ?_, h0⟩, fun _ _ _ => rfl⟩
      rw [hof, Dinode.ref, if_pos (by omega)]
  · rename_i hbn
    split at h
    · rename_i hlt
      have hmax : bn < maxfile := by simp only [maxfile]; omega
      have hof : refOf bn = ndirect + 1 + (bn - ndirect) := by
        rw [refOf, if_neg hbn]
        omega
      obtain ⟨⟨e, x⟩, hfirst, h⟩ := bind_eq_ok.mp h
      -- After the first part the inode has an indirect block.
      have hind : Grows d X e (Function.update X i x) ∧
          (∀ j, (X j).kind ≠ .free → (Function.update X i x j).content e.block = (X j).content d.block) ∧
          x.addrs ndirect ≠ 0 ∧ ∀ c < maxfile, x.ref e.block (refOf c) = (X i).ref d.block (refOf c) := by
        unfold Disk.indirect at hfirst
        split at hfirst
        · rename_i h0
          obtain ⟨⟨b, e'⟩, hb, h⟩ := bind_eq_ok.mp hfirst
          cases h
          obtain ⟨hg, hc, hr, hkept⟩ := own.assign_addr hi (Nat.le_refl _) h0 hb
          rw [Function.update_self] at hkept
          exact ⟨hg, hc, by simpa using hr.2.2.2, fun c hc => hkept _ (refOf_lt hc) refOf_ne⟩
        · rename_i h0
          cases hfirst
          rw [Function.update_eq_self]
          exact ⟨.refl own, fun _ _ => rfl, h0, fun _ _ => rfl⟩
      obtain ⟨hg, hc, hx, hsame⟩ := hind
      have hself : Function.update X i x i = x := Function.update_self ..
      have hkind : ∀ j, (X j).kind ≠ .free → (Function.update X i x j).kind ≠ .free := fun j hj => hg.kind.symm ▸ hj
      dsimp only at h
      split at h
      · rename_i h0
        obtain ⟨⟨b, e'⟩, hb, h⟩ := bind_eq_ok.mp h
        cases h
        have hnew := hg.own.assign_indirect (hkind i hi) (hself.symm ▸ hx) hlt (hself.symm ▸ h0) hb
        rw [hself] at hnew
        obtain ⟨hg', hc', hr, hkept⟩ := hnew
        rw [hself] at hkept
        refine ⟨hg.trans hg', fun j hj => (hc' j (hkind j hj)).trans (hc j hj), hmax, hof.symm ▸ hr, fun c hc hne => ?_⟩
        exact (hkept _ (refOf_lt hc) fun h => hne (refOf_inj (h.trans hof.symm))).trans (hsame c hc)
      · rename_i h0
        cases h
        refine ⟨hg, hc, hmax, ⟨hkind i hi, refOf_lt hmax, ?_, h0⟩, fun c hc _ => hsame c hc⟩
        rw [hself, hof, Dinode.ref, if_neg (by omega), if_neg hx]
        congr 1
        omega
    · cases h

theorem bmap_of_refers (h : Refers d X i (refOf bn) a) (hbn : bn < maxfile) :
    d.bmap (X i) bn = .ok (a, d, X i) := by
  obtain ⟨-, -, hr, h0⟩ := h
  subst hr
  by_cases hd : bn < ndirect
  · have hr : (X i).ref d.block (refOf bn) = (X i).addrs bn := by
      rw [refOf, if_pos hd, Dinode.ref, if_pos (by omega)]
    rw [hr] at h0 ⊢
    rw [Disk.bmap, if_pos hd, if_neg h0]
  · have hlt : bn - ndirect < nindirect := by simp only [maxfile] at hbn; omega
    have hsub : bn + 1 - (ndirect + 1) = bn - ndirect := by omega
    have hr : (X i).ref d.block (refOf bn) =
        if (X i).addrs ndirect = 0 then 0 else word (d.block ((X i).addrs ndirect)) (bn - ndirect) := by
      rw [refOf, if_neg hd, Dinode.ref, if_neg (by omega), hsub]
    rw [hr] at h0 ⊢
    split at h0
    · exact absurd rfl h0
    · rename_i hp
      rw [if_neg hp, Disk.bmap, if_neg hd, if_pos hlt, Disk.indirect, if_neg hp]
      simp only [bind, Except.bind, if_neg h0]

/-! ### itrunc -/

theorem foldlM_bfree : ∀ {bs : List Nat} {d : Disk}, bs.Nodup → (∀ b ∈ bs, d.bitmap b = true) →
    bs.foldlM Disk.bfree d = .ok { d with bitmap := fun b => if b ∈ bs then false else d.bitmap b }
  | [], d, _, _ => by simp [pure, Except.pure]
  | b :: bs, d, hnd, hset => by
    obtain ⟨hb, hnd⟩ := List.nodup_cons.mp hnd
    have hstep : d.bfree b = .ok { d with bitmap := Function.update d.bitmap b false } := if_pos (hset b (by simp))
    have hset' : ∀ c ∈ bs, Function.update d.bitmap b false c = true := by
      intro c hc
      have hcb : c ≠ b := by
        rintro rfl
        exact hb hc
      rw [Function.update_of_ne hcb]
      exact hset c (by simp [hc])
    rw [List.foldlM_cons, hstep]
    refine (foldlM_bfree hnd hset').trans ?_
    congr 2
    funext c
    rcases eq_or_ne c b with rfl | hcb
    · simp
    · simp [hcb]

theorem Own.bfreeAll (own : Own d X) (d' : Disk) (hi : (X i).kind ≠ .free) {rs : List Nat} (hrs : ∀ r ∈ rs, r < nrefs)
    (hnd : rs.Nodup)
    (hset : ∀ r ∈ rs, (X i).ref d.block r ≠ 0 → d'.bitmap ((X i).ref d.block r) = true) :
    ∃ bitmap, d'.bfreeAll (rs.map ((X i).ref d.block)) = .ok { d' with bitmap } ∧
      ∀ b, bitmap b = true ↔ d'.bitmap b = true ∧ ∀ r ∈ rs, ¬Refers d X i r b := by
  have hmem : ∀ b, b ∈ (rs.map ((X i).ref d.block)).filter (· ≠ 0) ↔ ∃ r ∈ rs, Refers d X i r b := by
    intro b
    simp only [List.mem_filter, List.mem_map, decide_not, Bool.not_eq_eq_eq_not, Bool.not_true, decide_eq_false_iff_not]
    constructor
    · rintro ⟨⟨r, hr, rfl⟩, h0⟩
      exact ⟨r, hr, hi, hrs r hr, rfl, h0⟩
    · rintro ⟨r, hr, -, -, hb, h0⟩
      exact ⟨⟨r, hr, hb⟩, h0⟩
  refine ⟨_, foldlM_bfree ?_ ?_, fun b => ?_⟩
  · rw [List.filter_map]
    refine List.Nodup.map_on ?_ (hnd.filter _)
    intro r hr q hq heq
    simp only [List.mem_filter, Function.comp_apply, decide_not, Bool.not_eq_eq_eq_not, Bool.not_true,
      decide_eq_false_iff_not] at hr hq
    exact (own.once ⟨hi, hrs r hr.1, rfl, hr.2⟩ ⟨hi, hrs q hq.1, heq.symm, hr.2⟩).2
  · intro b hb
    obtain ⟨r, hr, -, -, rfl, h0⟩ := (hmem b).mp hb
    exact hset r hr h0
  · have := hmem b
    split
    · rename_i h
      obtain ⟨r, hr, hR⟩ := this.mp h
      exact ⟨fun h => (nomatch h), fun h => absurd hR (h.2 r hr)⟩
    · rename_i h
      exact ⟨fun hb => ⟨hb, fun r hr hR => h (this.mpr ⟨r, hr, hR⟩)⟩, And.left⟩

/-- The inode that `itrunc` leaves. -/
def Dinode.emptied (x : Dinode) : Dinode :=
  { x with addrs := fun r => if r ≤ ndirect then 0 else x.addrs r, size := 0 }

theorem emptied_ref : x.emptied.ref block r = 0 := by
  simp only [Dinode.ref, Dinode.emptied, Nat.le_refl, if_true]
  split <;> rfl

theorem Own.itrunc (own : Own d X) (hi : (X i).kind ≠ .free) :
    ∃ bitmap, d.itrunc i (X i) =
        .ok ({ d with bitmap, inode := Function.update d.inode i (X i).emptied }, (X i).emptied) ∧
      ∀ b, bitmap b = true ↔ d.bitmap b = true ∧ ∀ r, ¬Refers d X i r b := by
  have hset : ∀ r < nrefs, (X i).ref d.block r ≠ 0 → d.bitmap ((X i).ref d.block r) = true := fun r hr h0 =>
    (own.taken ⟨hi, hr, rfl, h0⟩).2.2
  have hdlt : ∀ r ∈ List.range ndirect, r < nrefs := fun r hr => Nat.lt_trans (List.mem_range.mp hr) (by decide)
  have hdirect : (List.range ndirect).map (X i).addrs = (List.range ndirect).map ((X i).ref d.block) := by
    refine List.map_congr_left fun r hr => ?_
    rw [Dinode.ref, if_pos (Nat.le_of_lt (List.mem_range.mp hr))]
  obtain ⟨bm1, h1, hbm1⟩ := own.bfreeAll d hi hdlt List.nodup_range fun r hr => hset r (hdlt r hr)
  by_cases hbp : (X i).addrs ndirect = 0
  · refine ⟨bm1, ?_, fun b => (hbm1 b).trans (and_congr_right fun _ => ⟨fun h r hR => ?_, fun h r _ => h r⟩)⟩
    · simp only [Disk.itrunc, hdirect, h1, Disk.itruncIndirect, hbp, bind, Except.bind]
      rfl
    · by_cases hr : r < ndirect
      · exact h r (List.mem_range.mpr hr) hR
      · refine hR.2.2.2 (hR.2.2.1.symm.trans ?_)
        unfold Dinode.ref
        split
        · have : r = ndirect := by omega
          rw [this, hbp]
        · rfl
  · have hwords : (List.range nindirect).map (word (d.block ((X i).addrs ndirect))) =
        ((List.range nindirect).map (ndirect + 1 + ·)).map ((X i).ref d.block) := by
      rw [List.map_map]
      refine List.map_congr_left fun j _ => ?_
      rw [Function.comp_apply, Dinode.ref, if_neg (by omega), if_neg hbp]
      congr 1
      omega
    have hmem : ∀ r, r ∈ (List.range nindirect).map (ndirect + 1 + ·) ↔ ndirect < r ∧ r < nrefs := by
      intro r
      simp only [List.mem_map, List.mem_range, nrefs]
      exact ⟨fun ⟨j, hj, hr⟩ => by omega, fun h => ⟨r - (ndirect + 1), by omega, by omega⟩⟩
    obtain ⟨bm2, h2, hbm2⟩ := own.bfreeAll { d with bitmap := bm1 } hi (fun r hr => ((hmem r).mp hr).2)
      (List.nodup_range.map fun a b h => by simpa using h) fun r hr h0 => by
        obtain ⟨hlt, hr⟩ := (hmem r).mp hr
        refine (hbm1 _).mpr ⟨hset r hr h0, fun q hq hR => ?_⟩
        have := (own.once hR ⟨hi, hr, rfl, h0⟩).2
        have := List.mem_range.mp hq
        omega
    have hboth : ∀ b, bm2 b = true ↔ d.bitmap b = true ∧ ∀ r, r ≠ ndirect → ¬Refers d X i r b := by
      intro b
      rw [hbm2, hbm1, and_assoc]
      refine and_congr_right fun _ => ⟨fun h r hr hR => ?_, fun h => ⟨fun r hr => h r ?_, fun r hr => h r ?_⟩⟩
      · by_cases hlt : r < ndirect
        · exact h.1 r (List.mem_range.mpr hlt) hR
        · exact h.2 r ((hmem r).mpr ⟨by omega, hR.2.1⟩) hR
      · exact Nat.ne_of_lt (List.mem_range.mp hr)
      · exact Nat.ne_of_gt ((hmem r).mp hr).1
    have hR := refers_ndirect (d := d) hi hbp
    -- The indirect block itself is still in use then.
    have h3 : Disk.bfree { d with bitmap := bm2 } ((X i).addrs ndirect) =
        .ok { d with bitmap := Function.update bm2 ((X i).addrs ndirect) false } :=
      if_pos ((hboth _).mpr ⟨(own.taken hR).2.2, fun r hr hR' => hr (own.once hR' hR).2⟩)
    refine ⟨Function.update bm2 ((X i).addrs ndirect) false, ?_, fun b => ?_⟩
    · simp only [Disk.itrunc, hdirect, h1, Disk.itruncIndirect, ne_eq, hbp, not_false_eq_true, if_true, hwords, h2,
        h3, bind,
        Except.bind]
      rfl
    · rcases eq_or_ne b ((X i).addrs ndirect) with rfl | hne
      · rw [Function.update_self]
        exact ⟨fun h => (nomatch h), fun h => absurd hR (h.2 ndirect)⟩
      · rw [Function.update_of_ne hne, hboth]
        refine and_congr_right fun _ => ⟨fun h r hR' => ?_, fun h r _ => h r⟩
        rcases eq_or_ne r ndirect with rfl | hr
        · exact hne (hR'.2.2.1.symm.trans ref_ndirect)
        · exact h r hr hR'

end Own

/-! ### The superblock stays -/

section Superblock
variable {d d' : Disk} {x y : Dinode} {c off n i : Nat} {e : Panic} {src : List Byte}

theorem bmap_sb {bn a : Nat} (h : d.bmap x bn = .ok (a, d', y)) : d'.sb = d.sb := by
  have hball : ∀ {d d' : Disk} {a}, d.balloc = .ok (a, d') → d'.sb = d.sb := fun h => by rw [(balloc_ok h).2.2]
  unfold Disk.bmap at h
  split at h
  · split at h
    · obtain ⟨⟨b, e⟩, hb, h⟩ := bind_eq_ok.mp h
      cases h
      exact hball hb
    · cases h
      rfl
  · split at h
    · obtain ⟨⟨e, z⟩, hi, h⟩ := bind_eq_ok.mp h
      have he : e.sb = d.sb := by
        unfold Disk.indirect at hi
        split at hi
        · obtain ⟨⟨b, e'⟩, hb, hi⟩ := bind_eq_ok.mp hi
          cases hi
          exact hball hb
        · cases hi
          rfl
      dsimp only at h
      split at h
      · obtain ⟨⟨b, e'⟩, hb, h⟩ := bind_eq_ok.mp h
        cases h
        exact (hball hb).trans he
      · cases h
        exact he
    · cases h

theorem readiLoop_sb {bytes : List Byte} (h : Disk.readiLoop c d x off n = .ok (bytes, d', y)) :
    d'.sb = d.sb := by
  induction c generalizing d x off n bytes with
  | zero =>
    cases h
    rfl
  | succ c ih =>
    rw [Disk.readiLoop] at h
    split at h
    · cases h
      rfl
    · obtain ⟨⟨bp, e, z⟩, hb, h⟩ := bind_eq_ok.mp h
      obtain ⟨⟨rest, e', z'⟩, hr, h⟩ := bind_eq_ok.mp h
      cases h
      exact (ih hr).trans (bmap_sb hb)

theorem readi_sb {r : Option (List Byte)} (h : d.readi x off n = .ok (r, d', y)) : d'.sb = d.sb := by
  unfold Disk.readi at h
  split at h
  · cases h
    rfl
  · obtain ⟨⟨bytes, e, z⟩, hr, h⟩ := bind_eq_ok.mp h
    cases h
    exact readiLoop_sb hr

theorem findDirent_sb {P : List Byte → Bool} {r : Nat × Option (List Byte)}
    (h : Disk.findDirent e P c d x off = .ok (r, d', y)) : d'.sb = d.sb := by
  induction c generalizing d x off with
  | zero =>
    cases h
    rfl
  | succ c ih =>
    rw [Disk.findDirent] at h
    split at h
    · obtain ⟨⟨de, d1, z⟩, hde, h⟩ := bind_eq_ok.mp h
      have hd1 : d1.sb = d.sb := by
        obtain ⟨⟨r, d2, z2⟩, hr, hde⟩ := bind_eq_ok.mp hde
        dsimp only at hde
        split at hde
        · split at hde
          · cases hde
            exact readi_sb hr
          · cases hde
        · cases hde
      dsimp only at h
      split at h
      · cases h
        exact hd1
      · exact (ih h).trans hd1
    · cases h
      rfl

theorem writeiLoop_sb (h : Disk.writeiLoop c d x src off = .ok (d', y)) :
    d'.sb = d.sb := by
  induction c generalizing d x off src with
  | zero =>
    cases h
    rfl
  | succ c ih =>
    rw [Disk.writeiLoop] at h
    split at h
    · cases h
      rfl
    · obtain ⟨⟨bp, e, z⟩, hb, h⟩ := bind_eq_ok.mp h
      have he : e.sb = d.sb := bmap_sb hb
      exact (ih h).trans he

theorem writei_sb {r : Option Nat} (h : d.writei i x src off = .ok (r, d', y)) :
    d'.sb = d.sb := by
  unfold Disk.writei at h
  dsimp only at h
  split at h
  · cases h
    rfl
  · split at h
    · cases h
      rfl
    · obtain ⟨⟨e, z⟩, hw, h⟩ := bind_eq_ok.mp h
      have he : e.sb = d.sb := writeiLoop_sb hw
      dsimp only at h
      split at h
      · cases h
        exact he
      · cases h
        exact he

theorem writeDirent_sb {de : List Byte} (h : d.writeDirent e i x off de = .ok (d', y)) :
    d'.sb = d.sb := by
  obtain ⟨⟨r, e, z⟩, hw, h⟩ := bind_eq_ok.mp h
  dsimp only at h
  split at h
  · cases h
    exact writei_sb hw
  · cases h

theorem bfreeAll_sb {bs : List Nat} (h : d.bfreeAll bs = .ok d') : d'.sb = d.sb := by
  unfold Disk.bfreeAll at h
  generalize bs.filter (· ≠ 0) = cs at h
  induction cs generalizing d with
  | nil =>
    cases h
    rfl
  | cons b cs ih =>
    rw [List.foldlM_cons] at h
    obtain ⟨e, hb, h⟩ := bind_eq_ok.mp h
    unfold Disk.bfree at hb
    split at hb
    · cases hb
      exact (ih h).trans rfl
    · cases hb

theorem itrunc_sb (h : d.itrunc i x = .ok (d', y)) : d'.sb = d.sb := by
  obtain ⟨e, h1, h⟩ := bind_eq_ok.mp h
  obtain ⟨e', h2, h⟩ := bind_eq_ok.mp h
  cases h
  refine Eq.trans ?_ (bfreeAll_sb h1)
  unfold Disk.itruncIndirect at h2
  split at h2
  · obtain ⟨e'', h3, h2⟩ := bind_eq_ok.mp h2
    refine Eq.trans ?_ (bfreeAll_sb h3)
    unfold Disk.bfree at h2
    split at h2
    · cases h2
      rfl
    · cases h2
  · cases h2
    rfl

end Superblock

end Xv6.Fs
