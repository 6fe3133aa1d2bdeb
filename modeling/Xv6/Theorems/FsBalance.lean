import Xv6.Lib.Run
import Xv6.Theorems.FsAccounts

/-! Calls that run one after the other. While one process is in a call, the ledgers of the others are at rest; between
    two calls every count is what the tables of the processes show. -/

namespace Xv6.Fs
open Lib

/-- A process that is not in a call. -/
structure Idle (L : Ledger) : Prop where
  rest : Rest L
  borrow : L.borrow = none
  vacant : L.proc.state = .live ∨ L.refs = 0 ∧ L.files = 0

def File.opened (x : File) (k : Slot) : Nat := if 0 < x.ref ∧ x.type = .inode ∧ x.ip = k then 1 else 0

section
variable {s s' : State} {Ls : Pid → Ledger} {p q : Pid} {L L' : Ledger} {k k' : Slot} {f : FileIx} {i : Nat} {h : Held}
  {R : Multiset (Slot × Nat)} {x : Proc} {o : Op}

theorem File.opened_ref {x : File} {n : Int} (hx : 0 < x.ref) (hn : 0 < n) :
    { x with ref := n }.opened k = x.opened k := by
  simp only [File.opened, hx, hn]

theorem opens_eq : s.opens k = ∑ f, (s.ftable f).opened k := Finset.card_filter ..

theorem opens_setFile {x : File} : (s.setFile f x).opens k + (s.ftable f).opened k = s.opens k + x.opened k := by
  rw [opens_eq, opens_eq]
  exact sum_update_add (fun _ y => File.opened y k) s.ftable (Finset.mem_univ f) x

/-! ### One process in a call -/

/-- What an operation does that changes the counts, while the other processes are at rest. -/
structure Move (s : State) (p : Pid) (L : Ledger) (s' : State) (L' : Ledger) : Prop where
  proc : s'.proc = s.proc ∧ L'.proc = L.proc
  ninodes : s'.disk.sb.ninodes = s.disk.sb.ninodes ∧ L'.ninodes = L.ninodes
  ops : s'.outstanding = s.outstanding ∧ L'.ops = L.ops
  ref : ∀ k, (s'.icache k).ref + L.count k + s.opens k = (s.icache k).ref + L'.count k + s'.opens k
  kept : ∀ k, 0 < (s.icache k).ref → (s'.icache k).inum = (s.icache k).inum
  inum : ∀ x ∈ L'.refs, (s'.icache x.1).inum = x.2
  single : ∀ k k', 0 < (s'.icache k).ref → 0 < (s'.icache k').ref → (s'.icache k).inum = (s'.icache k').inum → k = k'
  file : ∀ f, (s'.ftable f).ref + L.files.count f = (s.ftable f).ref + L'.files.count f
  idle : ∀ f, (s'.ftable f).ref = 0 → (s'.ftable f).type = .none
  blank : ∀ f ∈ L'.blank, f ∈ L'.files ∧ (s'.ftable f).ref = 1 ∧ (s'.ftable f).type = .none
  borrow : ∀ f k w, L'.borrow = some (f, k, w) →
    f ∈ L'.files ∧ (s'.ftable f).type = .inode ∧ (s'.ftable f).ip = k ∧ (s'.ftable f).writable = w
  lock : ∀ k h, L'.locks k = some h → (s'.icache k).lock = some p ∧ (s'.icache k).inum = h.inum ∧ L'.Pinned k ∧
    (h.valid = true → (s'.icache k).valid = true)
  holder : ∀ k q, (s'.icache k).lock = some q → q = p ∧ ∃ h, L'.locks k = some h
  freeing : L'.freeing = none

theorem Accounts.move (hA : Accounts s Ls) (hq : ∀ q ≠ p, Idle (Ls q)) (hM : Move s p (Ls p) s' L') :
    Accounts s' (Function.update Ls p L') := by
  refine ⟨forall_update (P := Audit s') ?_ fun q hne => ?_, fun k => ?_, hM.single, fun f => ?_, hM.idle,
    fun k q hk => ?_, ?_⟩
  · refine ⟨?_, ?_, hM.inum, hM.blank, hM.borrow, hM.lock, fun x ph hx => ?_⟩
    · rw [hM.proc.1, hM.proc.2, (hA.audit p).proc]
    · rw [hM.ninodes.1, hM.ninodes.2, (hA.audit p).ninodes]
    · rw [hM.freeing] at hx
      cases hx
  · refine ⟨?_, ?_, fun x hx => ?_, fun f hf => ?_, fun f k w hb => ?_, fun k h hk => ?_, fun x ph hx => ?_⟩
    · rw [hM.proc.1, (hA.audit q).proc]
    · rw [hM.ninodes.1, (hA.audit q).ninodes]
    · have hpos : 0 < (s.icache x.1).ref := hA.pinned_pos (.inl ⟨x.2, hx⟩)
      rw [hM.kept x.1 hpos]
      exact (hA.audit q).inum x hx
    · rw [(hq q hne).rest.blank] at hf
      exact absurd hf (Finset.notMem_empty f)
    · rw [(hq q hne).borrow] at hb
      cases hb
    · rw [(hq q hne).rest.locks] at hk
      cases hk
    · rw [(hq q hne).rest.freeing] at hx
      cases hx
  · have hsum := sum_update_add (fun _ L => Ledger.count L k) Ls (Finset.mem_univ p) L'
    have hold := hA.ref k
    have hnew := hM.ref k
    omega
  · have hsum := sum_update_add (fun _ L => (Ledger.files L).count f) Ls (Finset.mem_univ p) L'
    have hold := hA.file f
    have hnew := hM.file f
    omega
  · obtain ⟨rfl, hh⟩ := hM.holder k q hk
    rw [Function.update_self]
    exact hh
  · have hsum := sum_update_add (fun _ L => Ledger.ops L) Ls (Finset.mem_univ p) L'
    have hold := hA.outstanding
    rw [hM.ops.1]
    rw [hM.ops.2] at hsum
    omega

theorem Accounts.holder_alone (hA : Accounts s Ls) (hq : ∀ q ≠ p, Idle (Ls q)) (hk : (s.icache k).lock = some q) :
    q = p ∧ ∃ h, (Ls p).locks k = some h := by
  obtain ⟨h, hh⟩ := hA.holder k q hk
  by_cases hne : q = p
  · subst hne
    exact ⟨rfl, h, hh⟩
  · rw [(hq q hne).rest.locks] at hh
    cases hh

theorem Accounts.inum_at {y : Slot × Nat} (hA : Accounts s Ls) (hy : y ∈ (Ls p).refs) :
    y.1 = k ∧ (s.icache k).inum = y.2 ∨ y.1 ≠ k ∧ y ∈ (Ls p).refs := by
  by_cases hk : y.1 = k
  · exact .inl ⟨hk, by rw [← (hA.audit p).inum y hy, hk]⟩
  · exact .inr ⟨hk, hy⟩

theorem Accounts.inode {x : Inode} (hA : Accounts s Ls) (hq : ∀ q ≠ p, Idle (Ls q))
    (hB : L'.proc = (Ls p).proc ∧ L'.ninodes = (Ls p).ninodes ∧ L'.files = (Ls p).files ∧ L'.blank = (Ls p).blank ∧
      L'.borrow = (Ls p).borrow ∧ L'.ops = (Ls p).ops ∧ L'.freeing = none)
    (href : x.ref + (Ls p).count k = (s.icache k).ref + L'.count k) (hcount : ∀ k' ≠ k, L'.count k' = (Ls p).count k')
    (hkept : 0 < (s.icache k).ref → x.inum = (s.icache k).inum)
    (hinum : ∀ y ∈ L'.refs, y.1 = k ∧ x.inum = y.2 ∨ y.1 ≠ k ∧ y ∈ (Ls p).refs)
    (hnew : (s.icache k).ref = 0 → ∀ k', 0 < (s.icache k').ref → (s.icache k').inum ≠ x.inum)
    (hlock : ∀ h, L'.locks k = some h →
      x.lock = some p ∧ x.inum = h.inum ∧ L'.Pinned k ∧ (h.valid = true → x.valid = true))
    (hother : ∀ k' ≠ k, L'.locks k' = (Ls p).locks k' ∧ ((Ls p).Pinned k' → L'.Pinned k'))
    (hholder : ∀ q, x.lock = some q → q = p ∧ ∃ h, L'.locks k = some h) :
    Accounts (s.setInode k x) (Function.update Ls p L') := by
  obtain ⟨b1, b2, b3, b4, b5, b6, b7⟩ := hB
  have hself : (s.setInode k x).icache k = x := Function.update_self ..
  have hold (k' : Slot) (hne : k' ≠ k) : (s.setInode k x).icache k' = s.icache k' := Function.update_of_ne hne ..
  have hopens (k' : Slot) : (s.setInode k x).opens k' = s.opens k' := rfl
  -- Another entry in use has another number.
  have hdiff (k' : Slot) (hne : k' ≠ k) (hpos : 0 < (s.icache k').ref) (heq : (s.icache k').inum = x.inum) : False := by
    by_cases h0 : (s.icache k).ref = 0
    · exact hnew h0 k' hpos heq
    · have h0 : 0 < (s.icache k).ref := lt_of_le_of_ne hA.ref_nonneg (Ne.symm h0)
      exact hne (hA.single k' k hpos h0 (heq.trans (hkept h0)))
  refine hA.move hq ⟨⟨rfl, b1⟩, ⟨rfl, b2⟩, ⟨rfl, b6⟩, fun k' => ?_, fun k' hpos => ?_, fun y hy => ?_,
    fun k₁ k₂ h₁ h₂ heq => ?_, fun f => ?_,
    hA.idle, fun f hf => ?_, fun f k' w hb => ?_, fun k' h hk => ?_, fun k' q hk => ?_, b7⟩
  · rw [hopens]
    by_cases hne : k' = k
    · subst hne
      rw [hself]
      omega
    · rw [hold k' hne, hcount k' hne]
  · by_cases hne : k' = k
    · subst hne
      rw [hself]
      exact hkept hpos
    · rw [hold k' hne]
  · rcases hinum y hy with ⟨rfl, heq⟩ | ⟨hne, hmem⟩
    · rw [hself]
      exact heq
    · rw [hold y.1 hne]
      exact (hA.audit p).inum y hmem
  · by_cases hk₁ : k₁ = k
    · by_cases hk₂ : k₂ = k
      · rw [hk₁, hk₂]
      · rw [hk₁, hself, hold k₂ hk₂] at heq
        rw [hold k₂ hk₂] at h₂
        exact (hdiff k₂ hk₂ h₂ heq.symm).elim
    · rw [hold k₁ hk₁] at heq h₁
      by_cases hk₂ : k₂ = k
      · rw [hk₂, hself] at heq
        exact (hdiff k₁ hk₁ h₁ heq).elim
      · rw [hold k₂ hk₂] at heq h₂
        exact hA.single k₁ k₂ h₁ h₂ heq
  · rw [b3]
    rfl
  · rw [b3]
    exact (hA.audit p).blank f (b4 ▸ hf)
  · rw [b3]
    exact (hA.audit p).borrow f k' w (b5 ▸ hb)
  · by_cases hne : k' = k
    · subst hne
      rw [hself]
      exact hlock h hk
    · obtain ⟨hl, hp⟩ := hother k' hne
      rw [hl] at hk
      obtain ⟨h1, h2, h3, h4⟩ := (hA.audit p).lock k' h hk
      rw [hold k' hne]
      exact ⟨h1, h2, hp h3, h4⟩
  · by_cases hne : k' = k
    · subst hne
      rw [hself] at hk
      exact hholder q hk
    · rw [hold k' hne] at hk
      rw [(hother k' hne).1]
      exact hA.holder_alone hq hk

theorem Accounts.fileStep {x : File} (hA : Accounts s Ls) (hq : ∀ q ≠ p, Idle (Ls q))
    (hB : L'.proc = (Ls p).proc ∧ L'.ninodes = (Ls p).ninodes ∧ L'.locks = (Ls p).locks ∧
      L'.borrow = (Ls p).borrow ∧ L'.ops = (Ls p).ops ∧ L'.freeing = none)
    (hfile : x.ref + (Ls p).files.count f = (s.ftable f).ref + L'.files.count f)
    (hcount : ∀ f' ≠ f, L'.files.count f' = (Ls p).files.count f')
    (href : ∀ k, (Ls p).count k + (s.ftable f).opened k = L'.count k + x.opened k)
    (hinum : ∀ y ∈ L'.refs, (s.icache y.1).inum = y.2) (hidle : x.ref = 0 → x.type = .none)
    (hblank : ∀ f' ∈ L'.blank, f' = f ∧ f ∈ L'.files ∧ x.ref = 1 ∧ x.type = .none ∨ f' ≠ f ∧ f' ∈ (Ls p).blank)
    (hborrow : ∀ k w, (Ls p).borrow = some (f, k, w) → f ∈ L'.files ∧ x.type = .inode ∧ x.ip = k ∧ x.writable = w)
    (hpinned : ∀ k h, (Ls p).locks k = some h → L'.Pinned k) :
    Accounts (s.setFile f x) (Function.update Ls p L') := by
  obtain ⟨b1, b2, b3, b4, b5, b6⟩ := hB
  have hself : (s.setFile f x).ftable f = x := Function.update_self ..
  have hold (f' : FileIx) (hne : f' ≠ f) : (s.setFile f x).ftable f' = s.ftable f' := Function.update_of_ne hne ..
  have hmem (f' : FileIx) (hne : f' ≠ f) (hf : f' ∈ (Ls p).files) : f' ∈ L'.files := by
    rw [← Multiset.count_pos, hcount f' hne]
    exact Multiset.count_pos.mpr hf
  refine hA.move hq ⟨⟨rfl, b1⟩, ⟨rfl, b2⟩, ⟨rfl, b5⟩, fun k => ?_, fun _ _ => rfl, hinum, hA.single, fun f' => ?_,
    fun f' h0 => ?_,
    fun f' hf => ?_, fun f' k w hb => ?_, fun k h hk => ?_, fun k q hk => ?_, b6⟩
  · have hopens := opens_setFile (s := s) (f := f) (k := k) (x := x)
    have hk := href k
    change (s.icache k).ref + _ + _ = (s.icache k).ref + _ + _
    omega
  · by_cases hne : f' = f
    · subst hne
      rw [hself]
      exact hfile
    · rw [hold f' hne, hcount f' hne]
  · by_cases hne : f' = f
    · subst hne
      rw [hself] at h0 ⊢
      exact hidle h0
    · rw [hold f' hne] at h0 ⊢
      exact hA.idle f' h0
  · rcases hblank f' hf with ⟨rfl, h⟩ | ⟨hne, hold'⟩
    · rw [hself]
      exact h
    · obtain ⟨h1, h2, h3⟩ := (hA.audit p).blank f' hold'
      rw [hold f' hne]
      exact ⟨hmem f' hne h1, h2, h3⟩
  · rw [b4] at hb
    by_cases hne : f' = f
    · subst hne
      rw [hself]
      exact hborrow k w hb
    · obtain ⟨h1, h2⟩ := (hA.audit p).borrow f' k w hb
      rw [hold f' hne]
      exact ⟨hmem f' hne h1, h2⟩
  · rw [b3] at hk
    obtain ⟨h1, h2, -, h4⟩ := (hA.audit p).lock k h hk
    exact ⟨h1, h2, hpinned k h hk, h4⟩
  · rw [b3]
    exact hA.holder_alone hq hk

/-! ### Operations on inodes -/

theorem igetSlot_cases (h : s.igetSlot i = some k) : 0 < (s.icache k).ref ∧ (s.icache k).inum = i ∨
    (s.icache k).ref = 0 ∧ ∀ k', 0 < (s.icache k').ref → (s.icache k').inum ≠ i := by
  unfold State.igetSlot at h
  split at h
  · rename_i k' hfind
    obtain rfl := Option.some.inj h
    exact .inl (by simpa using List.find?_some hfind)
  · rename_i hnone
    refine .inr ⟨by simpa using List.find?_some h, fun k' hpos heq => ?_⟩
    have := List.find?_eq_none.mp hnone k' (List.mem_finRange k')
    simp [hpos, heq] at this

theorem count_push : ((((k, i) ::ₘ R).map Prod.fst).count k') = (R.map Prod.fst).count k' + if k' = k then 1 else 0 := by
  rw [Multiset.map_cons, Multiset.count_cons]

theorem Ledger.Pinned.push (hp : L.Pinned k') : { L with refs := (k, i) ::ₘ L.refs }.Pinned k' := by
  rcases hp with ⟨j, hj⟩ | hb
  · exact .inl ⟨j, Multiset.mem_cons_of_mem hj⟩
  · exact .inr hb

theorem Ledger.Pinned.keep (hp : L.Pinned k') (hr : L.refs = (k, i) ::ₘ R) (hne : k' ≠ k) :
    (L.keep R).Pinned k' := by
  rcases hp with ⟨j, hj⟩ | hb
  · rw [hr] at hj
    rcases Multiset.mem_cons.mp hj with heq | hj
    · exact absurd (congrArg Prod.fst heq) hne
    · exact .inl ⟨j, hj⟩
  · exact .inr hb

section
variable (hA : Accounts s Ls) (hq : ∀ q ≠ p, Idle (Ls q)) (hfree : (Ls p).freeing = none)
include hA

theorem same_balanced {o : Op} {r : Res o} (hm : o.Makes (Ls p) r (Ls p)) : Balanced s Ls p o r := by
  refine ⟨Ls p, hm, ?_⟩
  rw [Function.update_eq_self]
  exact hA

include hq

theorem Accounts.pop {R : Multiset (Slot × Nat)} {valid : Bool} {freeing : Option ((Slot × Nat) × Phase)}
    (hr : (Ls p).refs = (k, i) ::ₘ R) (hf : freeing = none) (hvalid : (s.icache k).lock = none ∨ valid = (s.icache k).valid)
    (hpin : ∀ x, (Ls p).locks k = some x → ((Ls p).keep R).Pinned k) :
    Accounts (s.setInode k { s.icache k with valid, ref := (s.icache k).ref - 1 })
      (Function.update Ls p { (Ls p).keep R with freeing }) := by
  have hmem : (k, i) ∈ (Ls p).refs := by
    rw [hr]
    exact Multiset.mem_cons_self ..
  have hpos := hA.pinned_pos (.inl ⟨i, hmem⟩)
  refine hA.inode hq ⟨rfl, rfl, rfl, rfl, rfl, rfl, hf⟩ ?_ (fun k' hne => ?_) (fun _ => rfl) (fun y hy => ?_)
    (fun h0 => absurd h0 hpos.ne') (fun x hx => ?_) (fun k' hne => ⟨rfl, fun hp => hp.keep hr hne⟩) fun q hk =>
      hA.holder_alone hq hk
  · rw [Ledger.count, Ledger.count, hr, count_push, if_pos rfl]
    change (s.icache k).ref - 1 + _ = (s.icache k).ref + (R.map Prod.fst).count k
    omega
  · rw [Ledger.count, Ledger.count, hr, count_push, if_neg hne]
    rfl
  · have hy' : y ∈ (Ls p).refs := by
      rw [hr]
      exact Multiset.mem_cons_of_mem hy
    exact hA.inum_at hy'
  · obtain ⟨h1, h2, -, h4⟩ := (hA.audit p).lock k x hx
    refine ⟨h1, h2, hpin x hx, fun hv => ?_⟩
    rcases hvalid with hnone | rfl
    · rw [hnone] at h1
      cases h1
    · exact h4 hv

include hfree

theorem Accounts.push (hpos : 0 < (s.icache k).ref) (hi : (s.icache k).inum = i) :
    Accounts (s.idup k) (Function.update Ls p { Ls p with refs := (k, i) ::ₘ (Ls p).refs }) := by
  refine hA.inode hq ⟨rfl, rfl, rfl, rfl, rfl, rfl, hfree⟩ ?_ (fun k' hne => ?_) (fun _ => rfl) (fun y hy => ?_)
    (fun h0 => absurd h0 hpos.ne') (fun h hk => ?_) (fun k' _ => ⟨rfl, fun hp => hp.push⟩) fun q hk => hA.holder_alone hq hk
  · rw [Ledger.count, Ledger.count, count_push, if_pos rfl]
    dsimp only
    omega
  · rw [Ledger.count, Ledger.count, count_push, if_neg hne]
    rfl
  · rcases Multiset.mem_cons.mp hy with rfl | hy
    · exact .inl ⟨rfl, hi⟩
    · exact hA.inum_at hy
  · obtain ⟨h1, h2, h3, h4⟩ := (hA.audit p).lock k h hk
    exact ⟨h1, h2, h3.push, h4⟩

theorem iget_balanced (h : s.iget i = .done k s') : Balanced s' Ls p (.iget i) k := by
  refine ⟨_, rfl, ?_⟩
  unfold State.iget at h
  split at h
  · cases h
  · rename_i k₀ hslot
    have hcases := igetSlot_cases hslot
    dsimp only at h
    split at h
    · rename_i hpos
      cases h
      rcases hcases with ⟨-, hi⟩ | ⟨h0, -⟩
      · exact hA.push hq hfree hpos hi
      · exact absurd h0 hpos.ne'
    · rename_i hzero
      cases h
      rcases hcases with ⟨hpos, -⟩ | ⟨h0, hnew⟩
      · exact absurd hpos hzero
      · have hnone (y : Slot × Nat) (hy : y ∈ (Ls p).refs) : y.1 ≠ k := by
          rintro rfl
          exact hzero (hA.pinned_pos (.inl ⟨y.2, hy⟩))
        have hcount : (Ls p).count k = 0 := by
          have := hA.ref_ge (p := p) (k := k)
          omega
        refine hA.inode hq ⟨rfl, rfl, rfl, rfl, rfl, rfl, hfree⟩ ?_ (fun k' hne => ?_) (fun hpos => absurd hpos hzero)
          (fun y hy => ?_)
          (fun _ => hnew) (fun h hk => absurd (hA.lock_pos hk) hzero) (fun k' _ => ⟨rfl, fun hp => hp.push⟩) fun q hk => ?_
        · rw [Ledger.count, Ledger.count, count_push, if_pos rfl]
          rw [Ledger.count] at hcount
          dsimp only
          omega
        · rw [Ledger.count, Ledger.count, count_push, if_neg hne]
          rfl
        · rcases Multiset.mem_cons.mp hy with rfl | hy
          · exact .inl ⟨rfl, rfl⟩
          · exact .inr ⟨hnone y hy, hy⟩
        · have := hA.unlocked h0
          simp [this] at hk

theorem idupCwd_balanced {r : Slot} (hn : (Ls p).Home) (h : act p .idupCwd s = .done r s') :
    Balanced s' Ls p .idupCwd r := by
  rw [act] at h
  split at h
  · rename_i k hk
    cases h
    rw [← (hA.audit _).proc] at hk
    obtain ⟨i, hi⟩ := hn _ hk
    exact ⟨_, ⟨hk, i, rfl⟩, hA.push hq hfree (hA.pinned_pos (.inl ⟨i, hi⟩)) ((hA.audit p).inum _ hi)⟩
  · cases h

theorem acquiresleep_balanced {r : Unit} (hn : (Ls p).Pinned k) (h : s.acquiresleep p k = .done r s') :
    Balanced s' Ls p (.acquiresleep k) r := by
  unfold State.acquiresleep at h
  dsimp only at h
  split at h
  · cases h
  · split at h
    · rename_i hlock
      cases h
      have hnone : (Ls p).locks k = none := by
        cases hk : (Ls p).locks k with
        | none => rfl
        | some x =>
          have := ((hA.audit p).lock k x hk).1
          rw [hlock] at this
          cases this
      refine ⟨_, ⟨hnone, (s.icache k).inum, fun i' hi' => ((hA.audit p).inum _ hi').symm, rfl⟩, ?_⟩
      refine hA.inode hq ⟨rfl, rfl, rfl, rfl, rfl, rfl, hfree⟩ rfl (fun _ _ => rfl) (fun _ => rfl) (fun y hy => ?_)
        (fun h0 => absurd h0 (hA.pinned_pos hn).ne') (fun x hx => ?_) (fun k' hne => ⟨Function.update_of_ne hne .., id⟩)
        fun q hk => ⟨(Option.some.inj hk).symm, _, Function.update_self ..⟩
      · exact hA.inum_at hy
      · obtain rfl := Option.some.inj (setLock_self.symm.trans hx)
        exact ⟨rfl, rfl, hn, fun hv => by cases hv⟩
    · cases h

theorem iunlock_balanced {r : Unit} (hn : ∃ x, (Ls p).locks k = some x) (h : s.iunlock k = .done r s') :
    Balanced s' Ls p (.iunlock k) r := by
  obtain ⟨x, hx⟩ := hn
  unfold State.iunlock at h
  dsimp only at h
  split at h
  · cases h
  · cases h
    refine ⟨{ (Ls p).setLock k none with
      plain := { z | z ∈ (Ls p).plain ∨ x.dir = some false ∧ z = (k, x.inum) ∧ z ∈ (Ls p).refs } }, fun y hy => ?_, ?_⟩
    · cases hx.symm.trans hy
      rfl
    · refine hA.inode hq ⟨rfl, rfl, rfl, rfl, rfl, rfl, hfree⟩ rfl (fun _ _ => rfl) (fun _ => rfl) (fun y hy => ?_)
        (fun h0 => absurd h0 (hA.lock_pos hx).ne') (fun y hy => ?_) (fun k' hne => ⟨Function.update_of_ne hne .., id⟩)
        fun q hk => by cases hk
      · exact hA.inum_at hy
      · cases (setLock_self (L := Ls p)).symm.trans hy

theorem iputTest_balanced {r : Bool} (hn : (Op.iputTest k).Needs (Ls p)) (h : s.iputTest k = .done r s') :
    Balanced s' Ls p (.iputTest k) r := by
  obtain ⟨i, R, hr, hpin, -⟩ := hn
  have hmem : (k, i) ∈ (Ls p).refs := by
    rw [hr]
    exact Multiset.mem_cons_self ..
  have hunique := hA.inum_unique hmem
  unfold State.iputTest at h
  dsimp only at h
  split at h
  · rename_i hlast
    cases h
    refine ⟨_, ⟨i, R, hr, hunique, rfl⟩,
      hA.frame ⟨?_, ⟨rfl, rfl⟩, rfl, rfl, rfl, fun _ => ⟨rfl, rfl, rfl, id⟩, fun _ => rfl,
      fun _ _ _ => .inl, fun _ _ => hA.pinned, fun _ h hk => ⟨h, hk, rfl, .inl⟩, fun _ h hk => ⟨h, hk⟩, rfl,
      fun x ph hx => ?_⟩⟩
    · change s.proc = Function.update s.proc p (Ls p).proc
      rw [(hA.audit _).proc, Function.update_eq_self]
    · cases hx
      refine .inr ⟨hmem, hlast.1, hlast.2.1, ?_⟩
      -- A lock would be pinned by another reference than this one.
      by_contra hlock
      obtain ⟨q, hlock⟩ := Option.ne_none_iff_exists'.mp hlock
      obtain ⟨-, x, hx⟩ := hA.holder_alone hq hlock
      have hge := hA.ref_ge (p := p) (k := k)
      have hone := hlast.1
      rw [Ledger.count, hr, count_push, if_pos rfl] at hge
      rcases hpin x hx with ⟨j, hj⟩ | ⟨f, w, hb⟩
      · have := Multiset.count_pos.mpr (Multiset.mem_map_of_mem Prod.fst hj)
        change 0 < (R.map Prod.fst).count k at this
        omega
      · obtain ⟨hf, ht, hk, -⟩ := (hA.audit p).borrow f k w hb
        have := opens_pos ht (hA.file_pos hf)
        rw [hk] at this
        omega
  · cases h
    refine ⟨_, ⟨i, R, hr, hunique, rfl⟩, ?_⟩
    have hsame : (Ls p).keep R = { (Ls p).keep R with freeing := none } := by rw [← hfree]; rfl
    rw [hsame]
    exact hA.pop hq hr rfl (.inr rfl) hpin

omit hfree in
theorem iputDrop_balanced {ph : Phase} (hf : (Ls p).freeing = some ((k, i), ph)) :
    Balanced (s.setInode k { s.icache k with valid := false, ref := (s.icache k).ref - 1 }) Ls p (.iputDrop k) () := by
  obtain ⟨hmem, -, -, hlock⟩ := (hA.audit p).freeing _ _ hf
  obtain ⟨R, hr⟩ := Multiset.exists_cons_of_mem hmem
  refine ⟨_, ⟨(k, i), ph, R, hf, hr, rfl⟩, hA.pop hq hr rfl (.inl hlock) fun x hx => ?_⟩
  have := ((hA.audit p).lock k x hx).1
  rw [hlock] at this
  cases this

/-! ### Operations on files -/

theorem filealloc_balanced {r : Option FileIx} (h : s.filealloc = .done r s') : Balanced s' Ls p .filealloc r := by
  unfold State.filealloc at h
  split at h
  · rename_i f hfind
    cases h
    have h0 : (s.ftable f).ref = 0 := by simpa using List.find?_some hfind
    have hnot : f ∉ (Ls p).files := fun hf => by
      have := hA.file_pos hf
      omega
    have htype := hA.idle f h0
    refine ⟨_, ⟨hnot, (Ls p).room, rfl⟩, hA.fileStep hq ⟨rfl, rfl, rfl, rfl, rfl, hfree⟩ ?_ (fun f' hne => ?_) (fun k => ?_)
      (hA.audit p).inum (fun h1 => by cases h1) (fun f' hf => ?_)
      (fun k w hb => absurd ((hA.audit p).borrow f k w hb).1 hnot)
      fun _ _ => hA.pinned⟩
    · have hz := Multiset.count_eq_zero.mpr hnot
      simp [h0, hz]
    · exact Multiset.count_cons_of_ne hne ..
    · simp [File.opened, htype]
      rfl
    · rcases Finset.mem_insert.mp hf with rfl | hf'
      · exact .inl ⟨rfl, Multiset.mem_cons_self .., rfl, htype⟩
      · refine .inr ⟨?_, hf'⟩
        rintro rfl
        exact hnot ((hA.audit p).blank _ hf').1
  · cases h
    exact same_balanced hA rfl

theorem filedup_balanced {r : Unit} (hn : f ∈ (Ls p).files ∧ f ∉ (Ls p).blank) (h : s.filedup f = .done r s') :
    Balanced s' Ls p (.filedup f) r := by
  unfold State.filedup at h
  split at h
  · cases h
  · rename_i hpos
    cases h
    refine ⟨_, rfl, hA.fileStep hq ⟨rfl, rfl, rfl, rfl, rfl, hfree⟩ ?_ (fun f' hne => ?_) (fun k => ?_)
      (hA.audit p).inum (fun h1 => ?_) (fun f' hf => ?_) (fun k w hb => ?_)
      fun _ _ => hA.pinned⟩
    · change (s.ftable f).ref + 1 + _ = (s.ftable f).ref + (f ::ₘ (Ls p).files).count f
      rw [Multiset.count_cons_self]
      omega
    · exact Multiset.count_cons_of_ne hne ..
    · exact congrArg (_ + ·) (File.opened_ref (by omega) (by omega)).symm
    · change (s.ftable f).ref + 1 = 0 at h1
      omega
    · refine .inr ⟨?_, hf⟩
      rintro rfl
      exact hn.2 hf
    · obtain ⟨h1, h2⟩ := (hA.audit p).borrow f k w hb
      exact ⟨Multiset.mem_cons_self .., h2⟩

theorem filecloseTest_balanced {r : Option File} (hn : f ∈ (Ls p).files ∧ (Ls p).borrow = none)
    (h : s.filecloseTest f = .done r s') : Balanced s' Ls p (.filecloseTest f) r := by
  obtain ⟨hmem, hb⟩ := hn
  obtain ⟨F, hF⟩ := Multiset.exists_cons_of_mem hmem
  have hself : (Ls p).files.count f = F.count f + 1 := by rw [hF, Multiset.count_cons_self]
  have hother (f' : FileIx) (hne : f' ≠ f) : F.count f' = (Ls p).files.count f' := by rw [hF, Multiset.count_cons_of_ne hne]
  have hborrow {P : Prop} (k : Slot) (w : Bool) (h : (Ls p).borrow = some (f, k, w)) : P := by
    rw [hb] at h
    cases h
  unfold State.filecloseTest at h
  dsimp only at h
  split at h
  · cases h
  · rename_i hpos
    split at h
    · rename_i hmore
      cases h
      have hnot : f ∉ (Ls p).blank := fun hf => by
        have := ((hA.audit p).blank f hf).2.1
        omega
      refine ⟨{ (Ls p).loud with files := F }, ⟨F, (Ls p).room, hF, ?_⟩,
        hA.fileStep hq ⟨rfl, rfl, rfl, rfl, rfl, hfree⟩ ?_ hother
        (fun k => ?_) (hA.audit p).inum (fun h1 => ?_) (fun f' hf => .inr ⟨?_, hf⟩) (fun k w hb => hborrow k w hb)
        fun _ _ => hA.pinned⟩
      · rw [if_neg hnot]
        rfl
      · change (s.ftable f).ref - 1 + _ = (s.ftable f).ref + F.count f
        omega
      · rw [File.opened_ref (by omega) hmore]
        rfl
      · change (s.ftable f).ref - 1 = 0 at h1
        omega
      · rintro rfl
        exact hnot hf
    · rename_i hlast
      cases h
      have hone : (s.ftable f).ref = 1 := by omega
      have hfile : 0 + (Ls p).files.count f = (s.ftable f).ref + F.count f := by omega
      by_cases hbl : f ∈ (Ls p).blank
      · have htype := ((hA.audit p).blank f hbl).2.2
        refine ⟨{ Ls p with files := F, blank := (Ls p).blank.erase f }, ⟨F, (Ls p).room, hF, ?_⟩,
          hA.fileStep hq ⟨rfl, rfl, rfl, rfl, rfl, hfree⟩ hfile hother
          (fun k => ?_) (hA.audit p).inum (fun _ => rfl) (fun f' hf => .inr (Finset.mem_erase.mp hf))
            (fun k w hb => hborrow k w hb)
          fun _ _ => hA.pinned⟩
        · rw [if_pos hbl]
          exact ⟨⟨_, rfl, htype⟩, rfl⟩
        · simp [File.opened, htype]
          rfl
      · have hne (f' : FileIx) (hf : f' ∈ (Ls p).blank) : f' ≠ f := by
          rintro rfl
          exact hbl hf
        by_cases htype : (s.ftable f).type = .inode
        · -- The reference of the file goes to the process.
          refine ⟨
            { (Ls p).loud with files := F, refs := ((s.ftable f).ip, (s.icache (s.ftable f).ip).inum) ::ₘ (Ls p).refs },
            ⟨F, (Ls p).room, hF, ?_⟩, hA.fileStep hq ⟨rfl, rfl, rfl, rfl, rfl, hfree⟩ hfile hother
            (fun k => ?_) (fun y hy => ?_) (fun _ => rfl) (fun f' hf => .inr ⟨hne f' hf, hf⟩) (fun k w hb => hborrow k w hb)
            fun k x hx => (hA.pinned hx).push⟩
          · rw [if_neg hbl]
            change if (s.ftable f).type = .inode then _ else _
            rw [if_pos htype]
            exact ⟨_, rfl⟩
          · rw [Ledger.count, Ledger.count, count_push]
            simp [File.opened, htype, hone, eq_comm]
          · rcases Multiset.mem_cons.mp hy with rfl | hy
            · rfl
            · exact (hA.audit p).inum y hy
        · refine ⟨{ (Ls p).loud with files := F }, ⟨F, (Ls p).room, hF, ?_⟩,
            hA.fileStep hq ⟨rfl, rfl, rfl, rfl, rfl, hfree⟩ hfile hother
            (fun k => ?_) (hA.audit p).inum (fun _ => rfl) (fun f' hf => .inr ⟨hne f' hf, hf⟩)
              (fun k w hb => hborrow k w hb)
            fun _ _ => hA.pinned⟩
          · rw [if_neg hbl]
            change if (s.ftable f).type = .inode then _ else _
            rw [if_neg htype]
            rfl
          · simp [File.opened, htype]
            rfl

theorem setFile_balanced {type : FdType} {readable writable : Bool} {ip : Slot}
    (hn : (Op.setFile f type readable writable ip).Needs (Ls p)) :
    Balanced (s.setFile f { s.ftable f with type, readable, writable, ip, off := 0 }) Ls p
        (.setFile f type readable writable ip) () := by
  obtain ⟨hbl, hn⟩ := hn
  obtain ⟨hmem, hone, hnone⟩ := (hA.audit p).blank f hbl
  have hborrow {P : Prop} (k : Slot) (w : Bool) (hb : (Ls p).borrow = some (f, k, w)) : P := by
    have := ((hA.audit p).borrow f k w hb).2.1
    rw [hnone] at this
    cases this
  have hidle {P : Prop} (h0 : (s.ftable f).ref = 0) : P := by omega
  cases type with
  | none => exact hn.elim
  | pipe =>
    refine ⟨_, rfl, hA.fileStep hq ⟨rfl, rfl, rfl, rfl, rfl, hfree⟩ rfl (fun _ _ => rfl) (fun k => ?_)
      (hA.audit p).inum (fun h0 => hidle h0) (fun f' hf => .inr (Finset.mem_erase.mp hf)) (fun k w hb => hborrow k w hb)
      fun _ _ => hA.pinned⟩
    simp [File.opened, hnone]
    rfl
  | inode =>
    obtain ⟨hlock, i, hi, -⟩ := hn
    obtain ⟨R, hr⟩ := Multiset.exists_cons_of_mem hi
    refine ⟨_, ⟨i, R, hr, hA.inum_unique hi, rfl⟩, hA.fileStep hq ⟨rfl, rfl, rfl, rfl, rfl, hfree⟩ rfl (fun _ _ => rfl)
      (fun k => ?_)
      (fun y hy => (hA.audit p).inum y ?_) (fun h0 => hidle h0) (fun f' hf => .inr (Finset.mem_erase.mp hf))
        (fun k w hb => hborrow k w hb)
      fun k x hx => (hA.pinned hx).keep hr ?_⟩
    · rw [Ledger.count, Ledger.count, hr, count_push]
      simp [File.opened, hnone, hone, eq_comm]
      rfl
    · rw [hr]
      exact Multiset.mem_cons_of_mem hy
    · rintro rfl
      rw [hlock] at hx
      cases hx

end

/-! ### fork and wait -/

theorem count_files : x.files.count f = (List.finRange nofile).countP fun fd => x.ofile fd = some f := by
  have hone (fd : Fin nofile) :
      ((x.ofile fd).elim (0 : Multiset FileIx) fun g => {g}).count f = if x.ofile fd = some f then 1 else 0 := by
    cases x.ofile fd with
    | none => simp
    | some g => simp [Multiset.count_singleton, eq_comm]
  rw [Proc.files, Multiset.count_sum', Fin.sum_univ_def]
  simp only [hone]
  induction List.finRange nofile with
  | nil => rfl
  | cons fd fds ih =>
    rw [List.map_cons, List.sum_cons, ih, List.countP_cons, Nat.add_comm]
    simp only [decide_eq_true_eq]

theorem count_dirs : x.dirs.count k = if x.cwd = some k then 1 else 0 := by
  unfold Proc.dirs
  cases x.cwd with
  | none => simp
  | some k' => simp [Multiset.count_singleton, eq_comm]

/-- The ledger of a new process. -/
def Proc.born (x : Proc) (ninodes : Nat) (inum : Slot → Nat) : Ledger where
  proc := x
  ninodes
  refs := x.dirs.map fun k => (k, inum k)
  files := x.files
  blank := ∅
  borrow := none
  locks := fun _ => none
  ops := 0
  freeing := none
  alloc := none
  debt := 0
  plain := ∅
  quiet := true
  room := true
  spare := true

theorem idle_born {ninodes : Nat} {inum : Slot → Nat} (hx : x.state = .live ∨ x.dirs = 0 ∧ x.files = 0) :
    Idle (x.born ninodes inum) := by
  refine ⟨⟨fun _ => rfl, rfl, rfl, rfl, rfl, rfl, ?_, rfl⟩, rfl, ?_⟩
  · rw [Proc.born, Multiset.map_map]
    exact Multiset.map_id' _
  · rcases hx with hx | ⟨hdirs, hfiles⟩
    · exact .inl hx
    · exact .inr ⟨Multiset.map_eq_zero.mpr hdirs, hfiles⟩

/-- The state and the ledger of a process in a call; the other processes are at rest. -/
def Alone (p : Pid) (s : State) (L : Ledger) : Prop :=
  ∃ Ls, Ls p = L ∧ Accounts s Ls ∧ (∀ q ≠ p, Idle (Ls q)) ∧ (L.proc.state = .live ∨ L.refs = 0 ∧ L.files = 0)

theorem freeing_of_stage {ph : Phase} (h : (L.freeing.map fun (x, ph) => (x.1, ph)) = some (k, ph)) :
    ∃ i, L.freeing = some ((k, i), ph) := by
  obtain ⟨⟨⟨k', i⟩, ph'⟩, hf, heq⟩ := Option.map_eq_some_iff.mp h
  cases heq
  exact ⟨i, hf⟩

theorem makes_live {r : Res o} (hpre : (rules false).pre o L) (hm : o.Makes L r L') :
    L'.proc.state = .live ∨ L'.refs = 0 ∧ L'.files = 0 := by
  obtain ⟨⟨hlive, hstage⟩, hn⟩ := hpre
  cases o with
  | panic e => cases r
  | zombie =>
    obtain rfl : L' = _ := hm
    obtain ⟨hrest, hnone, -⟩ := hn
    refine .inr ⟨Multiset.map_eq_zero.mp hrest.refs, hrest.files.trans ?_⟩
    exact Finset.sum_eq_zero fun fd _ => by rw [hnone fd]; rfl
  | beginOp | endOp | iget | readi | filedup | fileOff | addOff | fdclear | setCwd | fork | wait =>
    obtain rfl : L' = _ := hm
    exact .inl hlive
  | sb | inum | ofile | cwd =>
    obtain ⟨rfl, -⟩ := hm
    exact .inl hlive
  | idupCwd =>
    obtain ⟨-, i, rfl⟩ := hm
    exact .inl hlive
  | acquiresleep k =>
    obtain ⟨-, i, -, rfl⟩ := hm
    exact .inl hlive
  | load k | iunlock k =>
    obtain ⟨x, hx⟩ := hn
    rw [hm x hx]
    exact .inl hlive
  | peek k | dirlookup k name | dirlinkScan k | isdirempty k | writei k src off | addNlink k n =>
    obtain ⟨x, hx, -⟩ := hn
    rw [hm x hx]
    exact .inl hlive
  | initInode k major minor =>
    obtain ⟨x, a, hx, -, ha, -⟩ := hn
    rw [hm x a hx ha]
    exact .inl hlive
  | dirlinkWrite k off j name =>
    obtain ⟨x, hx, -⟩ := hn
    have hm := hm x hx
    split at hm <;> (rw [hm]; exact .inl hlive)
  | unlinkWrite k off =>
    obtain ⟨x, name, j, k', x', b, hx, -, hsc, -, -, hx', hj, -, hb, -⟩ := hn
    rw [hm x name j k' x' b hx hsc hx' hj hb]
    exact .inl hlive
  | iputTest k =>
    obtain ⟨i, R, -, -, hm⟩ := hm
    cases r <;> (rw [hm]; exact .inl hlive)
  | itrunc k | ifree k =>
    obtain ⟨i, hf⟩ := freeing_of_stage hstage
    rw [hm _ _ hf]
    exact .inl hlive
  | iputDrop k =>
    obtain ⟨x, ph, R, -, -, rfl⟩ := hm
    exact .inl hlive
  | tryAlloc j kind =>
    cases r <;> (obtain rfl : L' = _ := hm; exact .inl hlive)
  | filealloc =>
    cases r with
    | none =>
      obtain rfl : L' = _ := hm
      exact .inl hlive
    | some f =>
      obtain ⟨-, room, rfl⟩ := hm
      exact .inl hlive
  | filecloseTest f =>
    obtain ⟨F, room, -, hm⟩ := hm
    split at hm
    · rw [hm.2]
      exact .inl hlive
    · split at hm
      · rw [hm]
        exact .inl hlive
      · split at hm
        · obtain ⟨i, rfl⟩ := hm
          exact .inl hlive
        · rw [hm]
          exact .inl hlive
  | file f =>
    obtain ⟨-, hm⟩ := hm
    split at hm <;> (rw [hm]; exact .inl hlive)
  | setFile f type readable writable ip =>
    cases type with
    | inode =>
      obtain ⟨i, R, -, -, rfl⟩ := hm
      exact .inl hlive
    | none | pipe =>
      obtain rfl : L' = _ := hm
      exact .inl hlive
  | fdalloc f =>
    obtain ⟨-, hm⟩ := hm
    split at hm <;> (rw [hm]; exact .inl hlive)

theorem Proc.mem_dirs {k : Slot} (h : k ∈ x.dirs) : x.cwd = some k := by
  unfold Proc.dirs at h
  cases hc : x.cwd with
  | none => simp [hc] at h
  | some k' => simpa [hc, eq_comm] using h

theorem Proc.mem_files {f : FileIx} (h : f ∈ x.files) : ∃ fd, x.ofile fd = some f := by
  obtain ⟨fd, -, hfd⟩ := Multiset.mem_sum.mp h
  refine ⟨fd, ?_⟩
  cases ho : x.ofile fd with
  | none => simp [ho] at hfd
  | some g => simpa [ho, eq_comm] using hfd

theorem Proc.count_born (x : Proc) (ninodes : Nat) (inum : Slot → Nat) (k : Slot) :
    (x.born ninodes inum).count k = x.dirs.count k := by
  rw [Ledger.count, Proc.born, Multiset.map_map]
  exact congrArg (Multiset.count k) (Multiset.map_id' _)

theorem opens_addRefs {s' : State} {more : Multiset FileIx}
    (hfile : ∀ f, s'.ftable f = { s.ftable f with ref := (s.ftable f).ref + more.count f }) (hpos : ∀ f ∈ more,
      0 < (s.ftable f).ref) (k : Slot) :
    s'.opens k = s.opens k := by
  rw [opens_eq, opens_eq]
  refine Finset.sum_congr rfl fun f _ => ?_
  rw [hfile]
  by_cases hf : f ∈ more
  · have := hpos f hf
    exact File.opened_ref this (by omega)
  · rw [Multiset.count_eq_zero.mpr hf, Nat.cast_zero, add_zero]

/-- The ledger of the process that `fork` makes. -/
def State.forked (s : State) (p : Pid) : Ledger :=
  Proc.born { s.proc p with state := .live } s.disk.sb.ninodes fun k => (s.icache k).inum

/-- `fork` gives the new process its own references to the files and the directory of the old one. -/
theorem Accounts.fork {q : Pid} {s' : State} (hA : Accounts s Ls) (hidle : ∀ q ≠ p, Idle (Ls q))
    (hfree : (Ls p).freeing = none)
    (hn : (Op.fork true).Needs (Ls p)) (hq : q ≠ p) (hunused : (s.proc q).state ≠ .live)
    (hproc : s'.proc = Function.update s.proc q { s.proc p with state := .live })
    (hdisk : s'.disk = s.disk) (hout : s'.outstanding = s.outstanding)
    (hfile : ∀ f, s'.ftable f = { s.ftable f with ref := (s.ftable f).ref + (s.proc p).files.count f })
    (hinode : ∀ k, s'.icache k = { s.icache k with ref := (s.icache k).ref + (s.proc p).dirs.count k }) :
    Accounts s' (Function.update Ls q (s.forked p)) := by
  obtain ⟨hhome, hfiles⟩ := hn
  have hvac : (Ls q).refs = 0 ∧ (Ls q).files = 0 :=
    (hidle q hq).vacant.resolve_left fun h => hunused ((hA.audit q).proc ▸ h)
  have hops : (Ls q).ops = 0 := (hidle q hq).rest.ops
  have hcwd (k : Slot) (hk : k ∈ (s.proc p).dirs) : 0 < (s.icache k).ref := by
    obtain ⟨i, hi⟩ := hhome k ((hA.audit p).proc ▸ Proc.mem_dirs hk)
    exact hA.pinned_pos (.inl ⟨i, hi⟩)
  have hopen (f : FileIx) (hf : f ∈ (s.proc p).files) : f ∈ (Ls p).files ∧ f ∉ (Ls p).blank := by
    obtain ⟨fd, hfd⟩ := Proc.mem_files hf
    exact hfiles fd f ((hA.audit p).proc ▸ hfd)
  have hpos (k : Slot) (h : 0 < (s'.icache k).ref) : 0 < (s.icache k).ref := by
    rw [hinode] at h
    by_cases hk : k ∈ (s.proc p).dirs
    · exact hcwd k hk
    · rwa [Multiset.count_eq_zero.mpr hk, Nat.cast_zero, add_zero] at h
  have hopens (k : Slot) : s'.opens k = s.opens k := opens_addRefs hfile (fun f hf => hA.file_pos (hopen f hf).1) k
  have hinum (k : Slot) : (s'.icache k).inum = (s.icache k).inum := by rw [hinode]
  have hlock (k : Slot) : (s'.icache k).lock = (s.icache k).lock := by rw [hinode]
  have hvalid (k : Slot) : (s'.icache k).valid = (s.icache k).valid := by rw [hinode]
  have htype (f : FileIx) : (s'.ftable f).type = (s.ftable f).type := by rw [hfile]
  refine ⟨forall_update (P := Audit s') ?_ fun r hr => ?_, fun k => ?_, fun k k' hk hk' heq => ?_, fun f => ?_,
    fun f h0 => ?_, fun k r hk => ?_, ?_⟩
  · refine ⟨?_, ?_, fun x hx => ?_, fun f hf => absurd hf (Finset.notMem_empty f), fun f k w hb => ?_, fun k h hk => ?_,
      fun x ph hx => ?_⟩
    · rw [hproc, Function.update_self]
      rfl
    · rw [hdisk]
      rfl
    · obtain ⟨k, -, rfl⟩ := Multiset.mem_map.mp hx
      exact hinum k
    · cases hb
    · cases hk
    · cases hx
  · obtain ⟨hproc', hninodes, hinum', hblank, hborrow, hlock', -⟩ := hA.audit r
    refine ⟨?_, ?_, fun x hx => ?_, fun f hf => ?_, fun f k w hb => ?_, fun k h hk => ?_, fun x ph hx => ?_⟩
    · rw [hproc, Function.update_of_ne hr, hproc']
    · rw [hdisk, hninodes]
    · rw [hinum]
      exact hinum' x hx
    · obtain ⟨h1, h2, h3⟩ := hblank f hf
      have hzero : (s.proc p).files.count f = 0 := by
        refine Multiset.count_eq_zero.mpr fun hmem => ?_
        by_cases hrp : r = p
        · subst hrp
          exact (hopen f hmem).2 hf
        · rw [(hidle r hrp).rest.blank] at hf
          exact absurd hf (Finset.notMem_empty f)
      rw [hfile, hzero, Nat.cast_zero, add_zero]
      exact ⟨h1, h2, h3⟩
    · rw [hfile]
      exact hborrow f k w hb
    · rw [hlock, hinum, hvalid]
      exact hlock' k h hk
    · by_cases hrp : r = p
      · subst hrp
        rw [hfree] at hx
        cases hx
      · rw [(hidle r hrp).rest.freeing] at hx
        cases hx
  · have hsum := sum_update_add (fun _ L => Ledger.count L k) Ls (Finset.mem_univ q) (s.forked p)
    have hborn : (s.forked p).count k = (s.proc p).dirs.count k := Proc.count_born ..
    have hzero : (Ls q).count k = 0 := by rw [Ledger.count, hvac.1]; rfl
    have hold := hA.ref k
    have hnew : (s'.icache k).ref = (s.icache k).ref + (s.proc p).dirs.count k := by rw [hinode]
    rw [hopens, hnew]
    omega
  · rw [hinum, hinum] at heq
    exact hA.single k k' (hpos k hk) (hpos k' hk') heq
  · have hsum := sum_update_add (fun _ L => (Ledger.files L).count f) Ls (Finset.mem_univ q) (s.forked p)
    have hborn : (s.forked p).files.count f = (s.proc p).files.count f := rfl
    have hzero : (Ls q).files.count f = 0 := by rw [hvac.2]; rfl
    have hold := hA.file f
    have hnew : (s'.ftable f).ref = (s.ftable f).ref + (s.proc p).files.count f := by rw [hfile]
    rw [hnew]
    omega
  · rw [htype]
    rw [hfile] at h0
    dsimp only at h0
    have := hA.file_nonneg (f := f)
    exact hA.idle f (by omega)
  · rw [hlock] at hk
    obtain ⟨rfl, hh⟩ := hA.holder_alone hidle hk
    rw [Function.update_of_ne (Ne.symm hq)]
    exact hh
  · have hsum := sum_update_add (fun _ L => Ledger.ops L) Ls (Finset.mem_univ q) (s.forked p)
    have hborn : (s.forked p).ops = 0 := rfl
    have hold := hA.outstanding
    rw [hout]
    omega

theorem fork_alone {mem : Bool} {r : Option Pid} (hA : Accounts s Ls) (hidle : ∀ q ≠ p, Idle (Ls q))
    (hlive : (Ls p).proc.state = .live)
    (hfree : (Ls p).freeing = none) (hn : (Op.fork mem).Needs (Ls p)) (h : s.fork p mem = .done r s') :
        Alone p s' (Ls p) := by
  have hsame : Alone p s (Ls p) := ⟨Ls, rfl, hA, hidle, .inl hlive⟩
  unfold State.fork at h
  split at h
  · rename_i q hfind
    have hunused : (s.proc q).state = .unused := by simpa using List.find?_some hfind
    have hq : q ≠ p := by
      rintro rfl
      rw [(hA.audit _).proc, hunused] at hlive
      cases hlive
    split at h
    · cases h
      exact hsame
    · split at h
      · cases h
      · refine ⟨Function.update Ls q (s.forked p),
          Function.update_of_ne (Ne.symm hq) .., ?_, fun r hr => ?_, .inl hlive⟩
        · dsimp only at h
          split at h
          · rename_i d hcwd
            cases h
            refine hA.fork hidle hfree hn hq (by rw [hunused]; simp) rfl rfl rfl (fun f => ?_) fun k => ?_
            · rw [count_files]
              rfl
            · by_cases hk : k = d
              · subst hk
                simp [State.idup, State.setInode, State.setProc, Proc.dirs, hcwd]
              · simp [State.idup, State.setInode, State.setProc, Proc.dirs, hcwd, hk]
          · rename_i hcwd
            cases h
            refine hA.fork hidle hfree hn hq (by rw [hunused]; simp) rfl rfl rfl (fun f => ?_) fun k => ?_
            · rw [count_files]
              rfl
            · simp [State.setProc, Proc.dirs, hcwd]
        · by_cases hrq : r = q
          · rw [hrq, Function.update_self]
            exact idle_born (.inl rfl)
          · rw [Function.update_of_ne hrq]
            exact hidle r hr
  · cases h
    exact hsame

theorem wait_alone {q : Pid} {r : Bool} (hA : Accounts s Ls) (hidle : ∀ q ≠ p, Idle (Ls q))
    (hlive : (Ls p).proc.state = .live)
    (h : act p (.wait q) s = .done r s') : Alone p s' (Ls p) := by
  rw [act] at h
  split at h
  · rename_i hzombie
    cases h
    have hq : q ≠ p := by
      rintro rfl
      rw [(hA.audit _).proc, hzombie] at hlive
      cases hlive
    refine ⟨Function.update Ls q { Ls q with proc := { s.proc q with state := .unused }, quiet := (Ls q).quiet },
      Function.update_of_ne (Ne.symm hq) .., proc_balanced hA, fun r hr => ?_, .inl hlive⟩
    by_cases hrq : r = q
    · subst hrq
      rw [Function.update_self]
      obtain ⟨⟨h1, h2, h3, h4, h5, h6, h7, h8⟩, hb, hv⟩ := hidle r hr
      rw [(hA.audit _).proc] at h7 h8 hv
      exact ⟨⟨h1, h2, h3, h4, h5, h6, h7, h8⟩, hb, .inr (hv.resolve_left (by rw [hzombie]; simp))⟩
    · rw [Function.update_of_ne hrq]
      exact hidle r hr
  · cases h
    exact ⟨Ls, rfl, hA, hidle, .inl hlive⟩

/-! ### Every operation -/

theorem Balanced.alone {r : Res o} (hidle : ∀ q ≠ p, Idle (Ls q)) (hpre : (rules false).pre o (Ls p))
    (h : Balanced s' Ls p o r) :
    ∃ L', (rules false).post o (Ls p) r L' ∧ Alone p s' L' := by
  obtain ⟨L', hm, hA⟩ := h
  refine ⟨L', ⟨hm, fun h => by cases h⟩, _, Function.update_self .., hA, fun q hq => ?_, makes_live hpre hm⟩
  rw [Function.update_of_ne hq]
  exact hidle q hq

theorem act_alone {r : Res o} (hI : Alone p s L) (hpre : (rules false).pre o L) (h : act p o s = .done r s') :
    ∃ L', (rules false).post o L r L' ∧ Alone p s' L' := by
  obtain ⟨Ls, rfl, hA, hidle, -⟩ := hI
  have hlive := hpre.1.1
  have hstage := hpre.1.2
  have hn := hpre.2
  have hfree (ho : o.stage = none) : (Ls p).freeing = none := by
    rw [ho] at hstage
    exact Option.map_eq_none_iff.mp hstage
  cases o with
  | fork mem => exact ⟨_, ⟨rfl, fun h => by cases h⟩, fork_alone hA hidle hlive (hfree rfl) hn h⟩
  | wait q => exact ⟨_, ⟨rfl, fun h => by cases h⟩, wait_alone hA hidle hlive h⟩
  | panic e => cases h
  | beginOp =>
    cases h
    exact Balanced.alone hidle hpre ⟨_, rfl, ops_balanced hA (by omega)⟩
  | endOp =>
    cases h
    change 0 < (Ls p).ops at hn
    exact Balanced.alone hidle hpre ⟨_, rfl, ops_balanced hA (by omega)⟩
  | sb =>
    cases h
    exact Balanced.alone hidle hpre (same_balanced hA ⟨rfl, ((hA.audit p).ninodes).symm⟩)
  | fileOff f =>
    cases h
    exact Balanced.alone hidle hpre (same_balanced hA rfl)
  | ofile fd =>
    cases h
    exact Balanced.alone hidle hpre (same_balanced hA ⟨rfl, by rw [(hA.audit _).proc]⟩)
  | iget j => exact (iget_balanced hA hidle (hfree rfl) h).alone hidle hpre
  | idupCwd => exact (idupCwd_balanced hA hidle (hfree rfl) hn h).alone hidle hpre
  | acquiresleep k => exact (acquiresleep_balanced hA hidle (hfree rfl) hn.1 h).alone hidle hpre
  | load k => exact (load_balanced hA hn h).alone hidle hpre
  | iunlock k => exact (iunlock_balanced hA hidle (hfree rfl) hn h).alone hidle hpre
  | iputTest k => exact (iputTest_balanced hA hidle (hfree rfl) hn h).alone hidle hpre
  | itrunc k =>
    obtain ⟨i, hf⟩ := freeing_of_stage hstage
    refine Balanced.alone hidle hpre ⟨{ Ls p with freeing := some ((k, i), .truncated) }, fun x ph hx => ?_,
      phase_balanced hA rfl h hf⟩
    cases hf.symm.trans hx
    rfl
  | ifree k =>
    obtain ⟨i, hf⟩ := freeing_of_stage hstage
    refine Balanced.alone hidle hpre ⟨{ Ls p with freeing := some ((k, i), .freed) }, fun x ph hx => ?_,
      phase_balanced hA rfl h hf⟩
    cases hf.symm.trans hx
    rfl
  | iputDrop k =>
    obtain ⟨i, hf⟩ := freeing_of_stage hstage
    cases h
    exact (iputDrop_balanced hA hidle hf).alone hidle hpre
  | tryAlloc j kind => exact (tryAlloc_balanced hA h).alone hidle hpre
  | peek k =>
    cases h
    exact (peek_balanced hA hn).alone hidle hpre
  | inum k =>
    cases h
    exact (inum_balanced hA).alone hidle hpre
  | addNlink k | initInode k | readi k | writei k | dirlookup k | dirlinkScan k | isdirempty k
  | dirlinkWrite k | unlinkWrite k =>
    exact (locked_balanced hA rfl rfl hn h).alone hidle hpre
  | filealloc => exact (filealloc_balanced hA hidle (hfree rfl) h).alone hidle hpre
  | filedup f => exact (filedup_balanced hA hidle (hfree rfl) hn h).alone hidle hpre
  | filecloseTest f => exact (filecloseTest_balanced hA hidle (hfree rfl) hn h).alone hidle hpre
  | file f =>
    cases h
    exact (file_balanced hA hn).alone hidle hpre
  | setFile f type readable writable ip =>
    cases h
    exact (setFile_balanced hA hidle (hfree rfl) hn).alone hidle hpre
  | addOff f n =>
    cases h
    exact (addOff_balanced hA).alone hidle hpre
  | fdalloc f => exact (fdalloc_balanced hA h).alone hidle hpre
  | fdclear fd | setCwd k | zombie =>
    cases h
    refine Balanced.alone hidle hpre ⟨_, rfl, ?_⟩
    rw [(hA.audit p).proc]
    exact proc_balanced hA
  | cwd =>
    cases h
    exact Balanced.alone hidle hpre ⟨_, ⟨rfl, by rw [(hA.audit _).proc]⟩,
      hA.unchanged .refl ⟨rfl, rfl, rfl, rfl, rfl, rfl, rfl, rfl⟩ rfl⟩

/-! ### Runs of calls -/

def Settled (s : State) : Prop := ∃ Ls, Accounts s Ls ∧ ∀ q, Idle (Ls q)

theorem Alone.settled (hI : Alone p s L) (hL : Rest L) : Settled s := by
  obtain ⟨Ls, rfl, hA, hidle, hvac⟩ := hI
  refine ⟨Function.update Ls p { Ls p with borrow := none },
    hA.frame ⟨?_, ⟨rfl, rfl⟩, rfl, rfl, rfl, fun _ => ⟨rfl, rfl, rfl, id⟩, fun _ => rfl,
    (fun _ _ _ hb => by cases hb), fun k h hk => ?_, fun _ h hk => ⟨h, hk, rfl, .inl⟩, fun _ h hk => ⟨h, hk⟩, rfl,
    fun _ ph hx => .inl ⟨ph, hx⟩⟩, fun q => ?_⟩
  · change s.proc = Function.update s.proc p (Ls p).proc
    rw [(hA.audit _).proc, Function.update_eq_self]
  · rw [hL.locks] at hk
    cases hk
  · by_cases hq : q = p
    · subst hq
      rw [Function.update_self]
      exact ⟨⟨hL.locks, hL.freeing, hL.alloc, hL.blank, hL.ops, hL.debt, hL.refs, hL.files⟩, rfl, hvac⟩
    · rw [Function.update_of_ne hq]
      exact hidle q hq

theorem Settled.syscall {c : Syscall} (h : Settled s) (hs : s.syscall c = some s') : Settled s' := by
  obtain ⟨Ls, hA, hidle⟩ := h
  unfold State.syscall at hs
  split at hs
  · rename_i hlive
    split at hs
    · rename_i r t hrun
      obtain rfl := Option.some.inj hs
      obtain ⟨hrest, hb, -⟩ := hidle c.proc
      have hlive' : (Ls c.proc).proc.state = .live := by rw [(hA.audit _).proc, hlive]
      have hwp : (c.call.prog c.proc).wp (rules false) (Ends false (Ls c.proc) (c.call.Keeps (Ls c.proc))) (Ls c.proc) :=
        Call.ends hrest hlive' hb c.call
      have hI : Alone c.proc s (Ls c.proc) := ⟨Ls, rfl, hA, fun q _ => hidle q, .inl hlive'⟩
      obtain ⟨L', hends, hI'⟩ :=
        Prog.run_sound hwp hI (Prog.during_true _ s) hrun fun hI hpre _ hstep => act_alone hI hpre hstep
      exact hI'.settled hends.rest
    all_goals cases hs
  · cases hs

theorem settled_boot (d : Disk) : Settled (boot d) := by
  have hofile (q : Pid) (fd : Fin nofile) : ((boot d).proc q).ofile fd = none := by
    simp only [boot]
    split <;> rfl
  have hfiles (q : Pid) : ((boot d).proc q).files = 0 := Finset.sum_eq_zero fun fd _ => by rw [hofile q fd]; rfl
  have hcwd (q : Pid) : ((boot d).proc q).cwd = if q = 0 then some 0 else none := by
    simp only [boot]
    split <;> rfl
  have hcount (q : Pid) (k : Slot) : (((boot d).proc q).born d.sb.ninodes fun _ => rootino).count k = if q = 0 ∧
      k = 0 then 1 else 0 := by
    rw [Ledger.count, Proc.born, Multiset.map_map]
    refine (congrArg (Multiset.count k) (Multiset.map_id' _)).trans ?_
    rw [count_dirs, hcwd]
    by_cases hq : q = 0 <;> simp [hq, eq_comm]
  have hopens (k : Slot) : (boot d).opens k = 0 := by
    rw [opens_eq]
    exact Finset.sum_eq_zero fun f _ => rfl
  refine ⟨fun q => ((boot d).proc q).born d.sb.ninodes fun _ => rootino, ⟨fun q => ⟨rfl, rfl, fun x hx => ?_,
    fun f hf => absurd hf (Finset.notMem_empty f), (fun _ _ _ hb => by cases hb), (fun _ _ hk => by cases hk),
    fun _ _ hx => by cases hx⟩, fun k => ?_, fun k k' hk hk' _ => ?_, fun f => ?_, fun _ _ => rfl,
    (fun _ _ hk => by cases hk), ?_⟩, fun q => ?_⟩
  · obtain ⟨k, hk, rfl⟩ := Multiset.mem_map.mp hx
    have hpos := Multiset.count_pos.mpr hk
    rw [count_dirs, hcwd] at hpos
    by_cases hq : q = 0
    · by_cases hk0 : k = 0
      · simp [boot, hk0]
      · simp [hq, Ne.symm hk0] at hpos
    · simp [hq] at hpos
  · rw [hopens, Nat.add_zero]
    simp only [hcount]
    by_cases hk : k = 0 <;> simp [boot, hk]
  · have hzero (k : Slot) (hk : 0 < ((boot d).icache k).ref) : k = 0 := by
      by_contra hne
      simp [boot, hne] at hk
    rw [hzero k hk, hzero k' hk']
  · exact congrArg Nat.cast (Finset.sum_eq_zero fun q _ => by rw [Proc.born, hfiles]; rfl).symm
  · exact congrArg Nat.cast (Finset.sum_eq_zero fun q _ => rfl).symm
  · refine idle_born ?_
    by_cases hq : q = 0
    · exact .inl (by simp [boot, hq])
    · exact .inr ⟨by simp [Proc.dirs, hcwd, hq], hfiles q⟩

/-- The counts are what the tables show, and no lock and no transaction is left. -/
structure State.Balances (s : State) : Prop where
  file : ∀ f, (s.ftable f).ref =
    (∑ p, (List.finRange nofile).countP fun fd => (s.proc p).ofile fd = some f : Nat)
  inode : ∀ k, (s.icache k).ref = (s.opens k + (Finset.univ.filter fun p => (s.proc p).cwd = some k).card : Nat)
  unlocked : ∀ k, (s.icache k).lock = none
  outstanding : s.outstanding = 0

theorem Settled.balances (h : Settled s) : s.Balances := by
  obtain ⟨Ls, hA, hidle⟩ := h
  refine ⟨fun f => ?_, fun k => ?_, fun k => ?_, ?_⟩
  · rw [hA.file, Nat.cast_inj]
    refine Finset.sum_congr rfl fun p _ => ?_
    rw [(hidle p).rest.files, count_files, (hA.audit _).proc]
  · have hdirs : ∑ p, (Ls p).count k = ∑ p, if (s.proc p).cwd = some k then 1 else 0 := by
      refine Finset.sum_congr rfl fun p _ => ?_
      rw [Ledger.count, (hidle p).rest.refs, (hA.audit _).proc, count_dirs]
    rw [hA.ref, hdirs, Nat.add_comm, Finset.card_filter]
  · by_contra hlock
    obtain ⟨q, hlock⟩ := Option.ne_none_iff_exists'.mp hlock
    obtain ⟨x, hx⟩ := hA.holder k q hlock
    rw [(hidle q).rest.locks] at hx
    cases hx
  · rw [hA.outstanding, Finset.sum_eq_zero fun p _ => (hidle p).rest.ops]
    rfl

end

/-- After every call that returns, from every state that calls lead to, the reference counts are the numbers of
    descriptors, open files and current directories, no lock is held, and the call has ended its transactions. -/
theorem calls_balance {d : Disk} {tr : List (State × Syscall)} {s s' : State} {c : Syscall}
    (hr : Run (OfStep State.syscall) (boot d) tr s) (hs : s.syscall c = some s') :
    s'.Balances ∧ s'.outstanding = s.outstanding := by
  have hsettled : Settled s := hr.invariant (settled_boot d) fun h hstep => h.syscall hstep
  have hnew := (hsettled.syscall hs).balances
  exact ⟨hnew, hnew.outstanding.trans hsettled.balances.outstanding.symm⟩

/-- A disk with an empty root directory. -/
def rootOnly : Disk where
  sb := mkfsSuperblock
  inode := fun i => ⟨if i = rootino then .dir else .free, 0, 0, 1, 0, fun _ => 0⟩
  bitmap := fun _ => true
  block := fun _ _ => 0

/-- The root directory is opened, and its descriptor is duplicated. -/
theorem calls_balance_dup : ∃ tr s s', Run (OfStep State.syscall) (boot rootOnly) tr s ∧
    tr.map (·.2) = [⟨0, .open (some [slash]) (some 0)⟩] ∧ s.syscall ⟨0, .dup 0⟩ = some s' ∧
    (s'.ftable 0).ref = 2 ∧ (s'.icache 0).ref = 2 ∧ s'.Balances ∧ s'.outstanding = s.outstanding := by
  obtain ⟨tr, s, hr, hl, hs⟩ :=
    Run.exists_of_traceOf (f := State.syscall) (boot rootOnly) [⟨0, .open (some [slash]) (some 0)⟩]
    (fun _ s => (s.syscall ⟨0, .dup 0⟩).any fun s' => (s'.ftable 0).ref = 2 ∧ (s'.icache 0).ref = 2) (by decide +kernel)
  obtain ⟨s', hs', hfile, hinode⟩ : ∃ s', s.syscall ⟨0, .dup 0⟩ = some s' ∧ (s'.ftable 0).ref = 2 ∧
      (s'.icache 0).ref = 2 := by
    simpa [Option.any_eq_true] using hs
  exact ⟨tr, s, s', hr, hl, hs', hfile, hinode, calls_balance hr hs'⟩

end Xv6.Fs
