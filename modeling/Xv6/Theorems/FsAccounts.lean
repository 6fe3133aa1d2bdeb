import Mathlib.Algebra.BigOperators.Fin
import Mathlib.Algebra.Order.BigOperators.Group.Finset
import Xv6.Fs.Mkfs
import Xv6.Lib.Sums
import Xv6.Theorems.FsBlocks
import Xv6.Theorems.FsRest

/-! The state against the ledgers of all processes: a reference count is the number of references that the processes
    and the open files own, a lock is held by the process whose ledger has it. -/

namespace Xv6.Fs
open Lib

/-- The number of open files with the inode. -/
def State.opens (s : State) (k : Slot) : Nat :=
  (Finset.univ.filter fun f => 0 < (s.ftable f).ref ∧ (s.ftable f).type = .inode ∧ (s.ftable f).ip = k).card

def Ledger.count (L : Ledger) (k : Slot) : Nat := (L.refs.map Prod.fst).count k

/-- The ledger of process `p` is right about it and about what it refers to. -/
structure Audit (s : State) (p : Pid) (L : Ledger) : Prop where
  proc : L.proc = s.proc p
  ninodes : L.ninodes = s.disk.sb.ninodes
  inum : ∀ x ∈ L.refs, (s.icache x.1).inum = x.2
  blank : ∀ f ∈ L.blank, f ∈ L.files ∧ (s.ftable f).ref = 1 ∧ (s.ftable f).type = .none
  borrow : ∀ f k w, L.borrow = some (f, k, w) →
    f ∈ L.files ∧ (s.ftable f).type = .inode ∧ (s.ftable f).ip = k ∧ (s.ftable f).writable = w
  lock : ∀ k h, L.locks k = some h → (s.icache k).lock = some p ∧ (s.icache k).inum = h.inum ∧ L.Pinned k ∧
    (h.valid = true → (s.icache k).valid = true)
  freeing : ∀ x ph, L.freeing = some (x, ph) →
    x ∈ L.refs ∧ (s.icache x.1).ref = 1 ∧ (s.icache x.1).valid = true ∧ (s.icache x.1).lock = none

structure Accounts (s : State) (Ls : Pid → Ledger) : Prop where
  audit : ∀ p, Audit s p (Ls p)
  ref : ∀ k, (s.icache k).ref = (∑ p, (Ls p).count k + s.opens k : Nat)
  single : ∀ k k', 0 < (s.icache k).ref → 0 < (s.icache k').ref → (s.icache k).inum = (s.icache k').inum → k = k'
  file : ∀ f, (s.ftable f).ref = (∑ p, (Ls p).files.count f : Nat)
  idle : ∀ f, (s.ftable f).ref = 0 → (s.ftable f).type = .none
  holder : ∀ k p, (s.icache k).lock = some p → ∃ h, (Ls p).locks k = some h
  outstanding : s.outstanding = (∑ p, (Ls p).ops : Nat)

section
variable {s s' : State} {Ls : Pid → Ledger} {p q : Pid} {L L' : Ledger} {k k' : Slot} {f : FileIx} {i : Nat} {h : Held}

theorem forall_update {P : Pid → Ledger → Prop} (hp : P p L') (hq : ∀ q ≠ p, P q (Ls q)) (q : Pid) :
    P q (Function.update Ls p L' q) := by
  by_cases h : q = p
  · rw [h, Function.update_self]
    exact hp
  · rw [Function.update_of_ne h]
    exact hq q h

theorem count_pos (h : (k, i) ∈ L.refs) : 0 < L.count k :=
  Multiset.count_pos.mpr (Multiset.mem_map_of_mem Prod.fst h)

/-! ### What follows from the accounts -/

theorem opens_pos (hb : (s.ftable f).type = .inode) (hf : 0 < (s.ftable f).ref) : 0 < s.opens (s.ftable f).ip :=
  Finset.card_pos.mpr ⟨f, Finset.mem_filter.mpr ⟨Finset.mem_univ f, hf, hb, rfl⟩⟩

namespace Accounts
variable (hA : Accounts s Ls)
include hA

theorem ref_ge : ((Ls p).count k + s.opens k : Nat) ≤ (s.icache k).ref := by
  rw [hA.ref]
  have := Finset.single_le_sum (f := fun p => (Ls p).count k) (fun _ _ => Nat.zero_le _) (Finset.mem_univ p)
  exact Int.ofNat_le.mpr (Nat.add_le_add_right this _)

theorem ref_nonneg : 0 ≤ (s.icache k).ref := by
  rw [hA.ref]
  exact Int.natCast_nonneg _

theorem file_nonneg : 0 ≤ (s.ftable f).ref := by
  rw [hA.file]
  exact Int.natCast_nonneg _

theorem file_ge : ((Ls p).files.count f : Int) ≤ (s.ftable f).ref := by
  rw [hA.file]
  exact Int.ofNat_le.mpr
    (Finset.single_le_sum (f := fun p => (Ls p).files.count f) (fun _ _ => Nat.zero_le _) (Finset.mem_univ p))

theorem file_pos (hf : f ∈ (Ls p).files) : 0 < (s.ftable f).ref :=
  lt_of_lt_of_le (Int.ofNat_lt.mpr (Multiset.count_pos.mpr hf)) hA.file_ge

theorem pinned_pos (hp : (Ls p).Pinned k) : 0 < (s.icache k).ref := by
  have hge := hA.ref_ge (p := p) (k := k)
  rcases hp with ⟨i, hi⟩ | ⟨f, w, hb⟩
  · have := count_pos hi
    omega
  · obtain ⟨hf, ht, hk, -⟩ := (hA.audit p).borrow f k w hb
    have := opens_pos ht (hA.file_pos hf)
    rw [hk] at this
    omega

theorem pinned (hl : (Ls p).locks k = some h) : (Ls p).Pinned k := ((hA.audit p).lock k h hl).2.2.1

theorem lock_pos (hl : (Ls p).locks k = some h) : 0 < (s.icache k).ref := hA.pinned_pos (hA.pinned hl)

theorem unlocked (h0 : (s.icache k).ref = 0) : (s.icache k).lock = none := by
  cases hl : (s.icache k).lock with
  | none => rfl
  | some q =>
    obtain ⟨h, hh⟩ := hA.holder k q hl
    have := hA.lock_pos hh
    omega

theorem inum_unique (hi : (k, i) ∈ (Ls p).refs) : ∀ i', (k, i') ∈ (Ls p).refs → i' = i := fun _ hi' =>
  ((hA.audit p).inum _ hi').symm.trans ((hA.audit p).inum _ hi)

end Accounts

/-! ### Operations that leave the accounts alone -/

/-- What most operations have in common: they own the same references, files and locks afterwards. -/
structure Frame (s : State) (p : Pid) (L : Ledger) (s' : State) (L' : Ledger) : Prop where
  proc : s'.proc = Function.update s.proc p L'.proc
  ninodes : s'.disk.sb.ninodes = s.disk.sb.ninodes ∧ L'.ninodes = L.ninodes
  refs : L'.refs = L.refs
  files : L'.files = L.files
  blank : L'.blank = L.blank
  slot : ∀ k, (s'.icache k).ref = (s.icache k).ref ∧ (s'.icache k).inum = (s.icache k).inum ∧
    (s'.icache k).lock = (s.icache k).lock ∧ ((s.icache k).valid = true → (s'.icache k).valid = true)
  table : ∀ f, s'.ftable f = { s.ftable f with off := (s'.ftable f).off }
  borrow : ∀ f k w, L'.borrow = some (f, k, w) → L.borrow = some (f, k, w) ∨
    f ∈ L.files ∧ (s.ftable f).type = .inode ∧ (s.ftable f).ip = k ∧ (s.ftable f).writable = w
  pinned : ∀ k h, L.locks k = some h → L'.Pinned k
  held : ∀ k h', L'.locks k = some h' → ∃ h, L.locks k = some h ∧ h'.inum = h.inum ∧
    (h'.valid = true → h.valid = true ∨ (s'.icache k).valid = true)
  kept : ∀ k h, L.locks k = some h → ∃ h', L'.locks k = some h'
  ops : s'.outstanding + L.ops = s.outstanding + L'.ops
  freeing : ∀ x ph, L'.freeing = some (x, ph) → (∃ ph', L.freeing = some (x, ph')) ∨
    x ∈ L.refs ∧ (s.icache x.1).ref = 1 ∧ (s.icache x.1).valid = true ∧ (s.icache x.1).lock = none

theorem Frame.opens (hF : Frame s p L s' L') : s'.opens k = s.opens k := by
  unfold State.opens
  congr 1
  refine Finset.filter_congr fun f _ => ?_
  rw [hF.table f]

theorem Accounts.frame (hA : Accounts s Ls) (hF : Frame s p (Ls p) s' L') : Accounts s' (Function.update Ls p L') := by
  have hcount : ∀ k, L'.count k = (Ls p).count k := fun k => by rw [Ledger.count, hF.refs, Ledger.count]
  have hstays : ∀ f, (s'.ftable f).ref = (s.ftable f).ref ∧ (s'.ftable f).type = (s.ftable f).type ∧
      (s'.ftable f).ip = (s.ftable f).ip ∧ (s'.ftable f).writable = (s.ftable f).writable := fun f => by
    rw [hF.table f]
    exact ⟨rfl, rfl, rfl, rfl⟩
  refine ⟨forall_update (P := Audit s') ?_ fun q hq => ?_, fun k => ?_, fun k k' hk hk' hi => ?_, fun f => ?_,
    fun f h0 => ?_, fun k q hq => ?_, ?_⟩
  · obtain ⟨-, -, hinum, hblank, hborrow, hlock, hfreeing⟩ := hA.audit p
    refine ⟨?_, ?_, fun x hx => ?_, fun f hf => ?_, fun f k w hb => ?_, fun k h' hk => ?_, fun x ph hx => ?_⟩
    · rw [hF.proc, Function.update_self]
    · rw [hF.ninodes.2, hF.ninodes.1, (hA.audit p).ninodes]
    · rw [(hF.slot x.1).2.1]
      exact hinum x (hF.refs ▸ hx)
    · rw [(hstays f).1, (hstays f).2.1, hF.files]
      exact hblank f (hF.blank ▸ hf)
    · rw [(hstays f).2.1, (hstays f).2.2.1, (hstays f).2.2.2, hF.files]
      rcases hF.borrow f k w hb with hb | hb
      · exact hborrow f k w hb
      · exact hb
    · obtain ⟨h, hk0, hi, hv⟩ := hF.held k h' hk
      obtain ⟨h1, h2, -, h4⟩ := hlock k h hk0
      rw [(hF.slot k).2.2.1, (hF.slot k).2.1, hi]
      refine ⟨h1, h2, hF.pinned k h hk0, fun hv' => ?_⟩
      rcases hv hv' with h | h
      · exact (hF.slot k).2.2.2 (h4 h)
      · exact h
    · rw [(hF.slot x.1).1, hF.refs, (hF.slot x.1).2.2.1]
      rcases hF.freeing x ph hx with ⟨ph', hx⟩ | ⟨h1, h2, h3, h4⟩
      · obtain ⟨h1, h2, h3, h4⟩ := hfreeing x ph' hx
        exact ⟨h1, h2, (hF.slot x.1).2.2.2 h3, h4⟩
      · exact ⟨h1, h2, (hF.slot x.1).2.2.2 h3, h4⟩
  · obtain ⟨hproc, hninodes, hinum, hblank, hborrow, hlock, hfreeing⟩ := hA.audit q
    refine ⟨?_, ?_, fun x hx => ?_, fun f hf => ?_, fun f k w hb => ?_, fun k h hk => ?_, fun x ph hx => ?_⟩
    · rw [hF.proc, Function.update_of_ne hq, hproc]
    · rw [hF.ninodes.1, hninodes]
    · rw [(hF.slot x.1).2.1]
      exact hinum x hx
    · rw [(hstays f).1, (hstays f).2.1]
      exact hblank f hf
    · rw [(hstays f).2.1, (hstays f).2.2.1, (hstays f).2.2.2]
      exact hborrow f k w hb
    · obtain ⟨h1, h2, h3, h4⟩ := hlock k h hk
      rw [(hF.slot k).2.2.1, (hF.slot k).2.1]
      exact ⟨h1, h2, h3, fun hv => (hF.slot k).2.2.2 (h4 hv)⟩
    · obtain ⟨h1, h2, h3, h4⟩ := hfreeing x ph hx
      rw [(hF.slot x.1).1, (hF.slot x.1).2.2.1]
      exact ⟨h1, h2, (hF.slot x.1).2.2.2 h3, h4⟩
  · have := sum_update_add (fun _ L => Ledger.count L k) Ls (Finset.mem_univ p) L'
    have := hA.ref k
    have := (hF.slot k).1
    have := hF.opens (k := k)
    simp only [hcount] at *
    omega
  · rw [(hF.slot k).1] at hk
    rw [(hF.slot k').1] at hk'
    rw [(hF.slot k).2.1, (hF.slot k').2.1] at hi
    exact hA.single k k' hk hk' hi
  · have := sum_update_add (fun _ L => (Ledger.files L).count f) Ls (Finset.mem_univ p) L'
    have := hA.file f
    rw [(hstays f).1]
    simp only [hF.files] at *
    omega
  · rw [(hstays f).2.1]
    exact hA.idle f ((hstays f).1 ▸ h0)
  · rw [(hF.slot k).2.2.1] at hq
    obtain ⟨h, hh⟩ := hA.holder k q hq
    by_cases hqp : q = p
    · subst hqp
      rw [Function.update_self]
      exact hF.kept k h hh
    · rw [Function.update_of_ne hqp]
      exact ⟨h, hh⟩
  · have := sum_update_add (fun _ L => Ledger.ops L) Ls (Finset.mem_univ p) L'
    have := hA.outstanding
    have := hF.ops
    omega

/-- The two states agree on all that is in the accounts. -/
def Still (s s' : State) : Prop :=
  s'.proc = s.proc ∧ s'.ftable = s.ftable ∧ s'.outstanding = s.outstanding ∧
    s'.disk.sb.ninodes = s.disk.sb.ninodes ∧ ∀ k, (s'.icache k).ref = (s.icache k).ref ∧
      (s'.icache k).inum = (s.icache k).inum ∧ (s'.icache k).lock = (s.icache k).lock ∧
      ((s.icache k).valid = true → (s'.icache k).valid = true)

theorem Still.refl : Still s s := ⟨rfl, rfl, rfl, rfl, fun _ => ⟨rfl, rfl, rfl, id⟩⟩

theorem Still.inode {x : Inode} {disk : Disk} (hsb : disk.sb = s.disk.sb) (hx : x.ref = (s.icache k).ref ∧
    x.inum = (s.icache k).inum ∧ x.lock = (s.icache k).lock ∧ ((s.icache k).valid = true → x.valid = true)) :
    Still s { s.setInode k x with disk } := by
  refine ⟨rfl, rfl, rfl, congrArg Superblock.ninodes hsb, fun k' => ?_⟩
  by_cases h : k' = k
  · subst h
    simpa only [State.setInode, Function.update_self] using hx
  · simp only [State.setInode, Function.update_of_ne h]
    exact ⟨trivial, trivial, trivial, id⟩

/-- The two ledgers agree on all that is in the accounts, but for the locks. -/
def Books (L L' : Ledger) : Prop :=
  L'.proc = L.proc ∧ L'.ninodes = L.ninodes ∧ L'.refs = L.refs ∧ L'.files = L.files ∧ L'.blank = L.blank ∧
    L'.borrow = L.borrow ∧ L'.ops = L.ops ∧ L'.freeing = L.freeing

namespace Accounts
variable (hA : Accounts s Ls)
include hA

theorem still (hs : Still s s') (hB : Books (Ls p) L')
    (held : ∀ k h', L'.locks k = some h' → ∃ h, (Ls p).locks k = some h ∧ h'.inum = h.inum ∧
      (h'.valid = true → h.valid = true ∨ (s'.icache k).valid = true))
    (kept : ∀ k h, (Ls p).locks k = some h → ∃ h', L'.locks k = some h') : Accounts s' (Function.update Ls p L') := by
  obtain ⟨h1, h2, h3, h4, h5⟩ := hs
  obtain ⟨b1, b2, b3, b4, b5, b6, b7, b8⟩ := hB
  refine hA.frame ⟨?_, ⟨h4, b2⟩, b3, b4, b5, h5,
    fun f => by rw [h2], fun f k w hb => .inl (b6 ▸ hb), fun k h hk => ?_, held, kept,
    by rw [h3, b7], fun x ph hx => .inl ⟨ph, b8 ▸ hx⟩⟩
  · rw [h1, b1, (hA.audit p).proc, Function.update_eq_self]
  · have := (hA.pinned hk)
    unfold Ledger.Pinned
    rw [b3, b6]
    exact this

theorem facts {h' : Held} (hs : Still s s') (hB : Books (Ls p) L') (hk : (Ls p).locks k = some h)
    (hl : L'.locks = Function.update (Ls p).locks k (some h')) (hi : h'.inum = h.inum)
    (hv : h'.valid = true → h.valid = true ∨ (s'.icache k).valid = true) : Accounts s' (Function.update Ls p L') := by
  refine hA.still hs hB (fun k' x hx => ?_) fun k' x hx => ?_
  · rw [hl] at hx
    by_cases h1 : k' = k
    · subst h1
      rw [Function.update_self, Option.some.injEq] at hx
      subst hx
      exact ⟨h, hk, hi, hv⟩
    · rw [Function.update_of_ne h1] at hx
      exact ⟨x, hx, rfl, .inl⟩
  · rw [hl]
    by_cases h1 : k' = k
    · exact ⟨h', by rw [h1, Function.update_self]⟩
    · exact ⟨x, by rw [Function.update_of_ne h1, hx]⟩

theorem unchanged (hs : Still s s') (hB : Books (Ls p) L') (hl : L'.locks = (Ls p).locks) :
    Accounts s' (Function.update Ls p L') :=
  hA.still hs hB (fun _ x hx => ⟨x, hl ▸ hx, rfl, .inl⟩) fun _ x hx => ⟨x, hl.symm ▸ hx⟩

end Accounts

/-! ### Work on an inode -/

theorem withInode_done {α : Type} {work : Except Panic (α × Disk × Dinode)} {a : α} (h : s.withInode k work = .done a s') :
    ∃ disk din, work = .ok (a, disk, din) ∧ s' = { s.setInode k { s.icache k with din } with disk } := by
  unfold State.withInode at h
  split at h
  · cases h
    exact ⟨_, _, rfl, rfl⟩
  · cases h

theorem map_ok {α β : Type} {w : Except Panic α} {g : α → β} {b : β} (h : w.map g = .ok b) : ∃ a, w = .ok a ∧ g a = b := by
  cases w with
  | error e => cases h
  | ok a =>
    cases h
    exact ⟨a, rfl, rfl⟩

/-- The inode that the operation works on. -/
def Op.target : Op → Option Slot
  | .itrunc k | .ifree k | .addNlink k _ | .initInode k _ _ | .readi k _ _ | .writei k _ _ | .dirlookup k _
  | .dirlinkScan k | .isdirempty k | .dirlinkWrite k _ _ _ | .unlinkWrite k _ => some k
  | _ => none

theorem act_target {o : Op} {r : Res o} (ho : o.target = some k) (h : act p o s = .done r s') :
    ∃ disk din, s' = { s.setInode k { s.icache k with din } with disk } ∧ disk.sb = s.disk.sb := by
  cases o with
  | itrunc k =>
    cases ho
    rw [act] at h
    obtain ⟨disk, din, hw, rfl⟩ := withInode_done h
    obtain ⟨⟨d, y⟩, hd, he⟩ := map_ok hw
    cases he
    exact ⟨disk, din, rfl, itrunc_sb hd⟩
  | ifree k | addNlink k n | initInode k major minor =>
    cases ho
    rw [act] at h
    obtain ⟨disk, din, hw, rfl⟩ := withInode_done h
    cases hw
    exact ⟨_, _, rfl, rfl⟩
  | readi k off n =>
    cases ho
    obtain ⟨disk, din, hw, rfl⟩ := withInode_done h
    exact ⟨disk, din, rfl, readi_sb hw⟩
  | writei k src off =>
    cases ho
    obtain ⟨disk, din, hw, rfl⟩ := withInode_done h
    exact ⟨disk, din, rfl, writei_sb hw⟩
  | dirlookup k name =>
    cases ho
    obtain ⟨disk, din, hw, rfl⟩ := withInode_done h
    refine ⟨disk, din, rfl, ?_⟩
    unfold Disk.dirlookup at hw
    split at hw
    · cases hw
    · obtain ⟨⟨⟨off, de⟩, d, y⟩, hf, hw⟩ := bind_eq_ok.mp hw
      cases hw
      exact findDirent_sb hf
  | dirlinkScan k | isdirempty k =>
    cases ho
    obtain ⟨disk, din, hw, rfl⟩ := withInode_done h
    refine ⟨disk, din, rfl, ?_⟩
    obtain ⟨⟨⟨off, de⟩, d, y⟩, hf, hw⟩ := bind_eq_ok.mp hw
    cases hw
    exact findDirent_sb hf
  | dirlinkWrite k off j name | unlinkWrite k off =>
    cases ho
    rw [act] at h
    obtain ⟨disk, din, hw, rfl⟩ := withInode_done h
    obtain ⟨⟨d, y⟩, hd, he⟩ := map_ok hw
    cases he
    exact ⟨disk, din, rfl, writeDirent_sb hd⟩
  | _ => cases ho

theorem act_still {o : Op} {r : Res o} (ho : o.target = some k) (h : act p o s = .done r s') : Still s s' := by
  obtain ⟨disk, din, rfl, hsb⟩ := act_target ho h
  exact Still.inode hsb ⟨rfl, rfl, rfl, id⟩

/-- The operation makes a ledger with which the accounts are right again. -/
def Balanced (s' : State) (Ls : Pid → Ledger) (p : Pid) (o : Op) (r : Res o) : Prop :=
  ∃ L', o.Makes (Ls p) r L' ∧ Accounts s' (Function.update Ls p L')

section
variable {o : Op} {r : Res o} (hA : Accounts s Ls)
include hA

theorem load_balanced {r : Unit} (hn : (Op.load k).Needs (Ls p)) (h : s.load k = .done r s') :
    Balanced s' Ls p (.load k) r := by
  obtain ⟨x, hx⟩ := hn
  have hs : Still s s' ∧ (s'.icache k).valid = true := by
    unfold State.load at h
    dsimp only at h
    split at h
    · rename_i hv
      cases h
      exact ⟨.refl, hv⟩
    · split at h
      · cases h
      · cases h
        exact ⟨Still.inode rfl ⟨rfl, rfl, rfl, fun _ => rfl⟩, by simp [State.setInode]⟩
  refine ⟨(Ls p).setLock k (some { x with valid := true }), fun y hy => ?_,
    hA.facts hs.1 ⟨rfl, rfl, rfl, rfl, rfl, rfl, rfl, rfl⟩ hx rfl rfl fun _ => .inr hs.2⟩
  cases hx.symm.trans hy
  rfl

theorem peek_balanced (hn : (Op.peek k).Needs (Ls p)) : Balanced s Ls p (.peek k) (s.icache k).din := by
  obtain ⟨x, hx, -⟩ := hn
  refine ⟨(Ls p).setLock k (some { x with dir := some (decide ((s.icache k).din.kind = .dir)) }), fun y hy => ?_,
    hA.facts .refl ⟨rfl, rfl, rfl, rfl, rfl, rfl, rfl, rfl⟩ hx rfl rfl .inl⟩
  cases hx.symm.trans hy
  rfl

theorem inum_balanced : Balanced s Ls p (.inum k) (s.icache k).inum := by
  refine ⟨Ls p, ⟨rfl, fun i' hi' => ((hA.audit p).inum _ hi').symm, fun x hx => ((hA.audit p).lock k x hx).2.1.symm⟩, ?_⟩
  rw [Function.update_eq_self]
  exact hA

theorem locked_balanced (ho : o.target = some k) (hf : o.stage = none) (hn : o.Needs (Ls p))
    (h : act p o s = .done r s') : Balanced s' Ls p o r := by
  have hs := act_still ho h
  cases o with
  | itrunc k | ifree k => cases hf
  | addNlink k n =>
    obtain ⟨x, hx, -⟩ := hn
    refine ⟨{ Ls p with debt := (Ls p).debt + Pi.single x.inum n.toInt }, fun y hy => ?_,
      hA.unchanged hs ⟨rfl, rfl, rfl, rfl, rfl, rfl, rfl, rfl⟩ rfl⟩
    cases hx.symm.trans hy
    rfl
  | initInode k major minor =>
    obtain ⟨x, a, hx, -, ha, -⟩ := hn
    refine ⟨{ ((Ls p).setLock k (some { x with dir := some (decide (a.kind = .dir)), entries := some [] })) with
        debt := (Ls p).debt + Pi.single x.inum 1, alloc := some { a with init := true } }, fun y b hy hb => ?_,
      hA.facts hs ⟨rfl, rfl, rfl, rfl, rfl, rfl, rfl, rfl⟩ hx rfl rfl .inl⟩
    cases hx.symm.trans hy
    cases ha.symm.trans hb
    rfl
  | readi k off n => exact ⟨Ls p, rfl, hA.unchanged hs ⟨rfl, rfl, rfl, rfl, rfl, rfl, rfl, rfl⟩ rfl⟩
  | writei k src off =>
    obtain ⟨x, hx, -⟩ := hn
    refine ⟨((Ls p).setLock k (some { x with scan := none, free := none, empty := false, entries := none })).loud,
      fun y hy => ?_, hA.facts hs ⟨rfl, rfl, rfl, rfl, rfl, rfl, rfl, rfl⟩ hx rfl rfl .inl⟩
    cases hx.symm.trans hy
    rfl
  | dirlookup k name =>
    obtain ⟨x, hx, -⟩ := hn
    refine ⟨(Ls p).setLock k (some { x with scan := some (name, r), dir := some true }), fun y hy => ?_,
      hA.facts hs ⟨rfl, rfl, rfl, rfl, rfl, rfl, rfl, rfl⟩ hx rfl rfl .inl⟩
    cases hx.symm.trans hy
    rfl
  | dirlinkScan k =>
    obtain ⟨x, hx, -⟩ := hn
    refine ⟨(Ls p).setLock k (some { x with free := some r }), fun y hy => ?_,
      hA.facts hs ⟨rfl, rfl, rfl, rfl, rfl, rfl, rfl, rfl⟩ hx rfl rfl .inl⟩
    cases hx.symm.trans hy
    rfl
  | isdirempty k =>
    obtain ⟨x, hx, -⟩ := hn
    refine ⟨(Ls p).setLock k (some { x with empty := r }), fun y hy => ?_,
      hA.facts hs ⟨rfl, rfl, rfl, rfl, rfl, rfl, rfl, rfl⟩ hx rfl rfl .inl⟩
    cases hx.symm.trans hy
    rfl
  | dirlinkWrite k off j name =>
    obtain ⟨x, hx, -⟩ := hn
    cases hes : x.entries with
    | some es =>
      refine ⟨((Ls p).setLock k (some { x with
          scan := none, free := none, empty := false, entries := some (es ++ [(j, name)]) })).loud, fun y hy => ?_,
        hA.facts hs ⟨rfl, rfl, rfl, rfl, rfl, rfl, rfl, rfl⟩ hx rfl rfl .inl⟩
      cases hx.symm.trans hy
      rw [hes]
    | none =>
      refine ⟨{ ((Ls p).setLock k (some { x with scan := none, free := none, empty := false })).loud with
          debt := (Ls p).debt - Pi.single j 1 -
            if (Ls p).alloc.any (fun a => a.inum = j ∧ a.kind = .dir) then Pi.single x.inum 1 else 0
          alloc := (Ls p).alloc.filter fun a => a.inum ≠ j }, fun y hy => ?_,
        hA.facts hs ⟨rfl, rfl, rfl, rfl, rfl, rfl, rfl, rfl⟩ hx rfl rfl .inl⟩
      cases hx.symm.trans hy
      rw [hes]
  | unlinkWrite k off =>
    obtain ⟨x, name, j, k', x', b, hx, -, hsc, -, -, hx', hj, -, hb, -⟩ := hn
    refine ⟨{ ((Ls p).setLock k (some { x with scan := none, free := none, empty := false })).loud with
        debt := (Ls p).debt + Pi.single j 1 + if b then Pi.single x.inum 1 else 0 },
      fun y name2 j2 k2 y' b2 hy hsc2 hy' hj2 hb2 => ?_,
      hA.facts hs ⟨rfl, rfl, rfl, rfl, rfl, rfl, rfl, rfl⟩ hx rfl rfl .inl⟩
    cases hx.symm.trans hy
    cases hsc.symm.trans hsc2
    -- Two locked entries of the cache with the same inode are one entry.
    have hk : k2 = k' := hA.single k2 k' (hA.lock_pos hy') (hA.lock_pos hx') (by
      rw [((hA.audit p).lock k2 y' hy').2.1, ((hA.audit p).lock k' x' hx').2.1, hj, hj2])
    subst hk
    cases hx'.symm.trans hy'
    cases hb.symm.trans hb2
    rfl
  | _ => cases ho

theorem tryAlloc_balanced {kind : Kind} {r : Bool} (h : s.tryAlloc i kind = .done r s') :
    Balanced s' Ls p (.tryAlloc i kind) r := by
  unfold State.tryAlloc at h
  split at h
  · cases h
    refine ⟨{ (Ls p).loud with alloc := some ⟨i, kind, false⟩ }, rfl, ?_⟩
    exact hA.unchanged ⟨rfl, rfl, rfl, rfl, fun _ => ⟨rfl, rfl, rfl, id⟩⟩ ⟨rfl, rfl, rfl, rfl, rfl, rfl, rfl, rfl⟩ rfl
  · cases h
    refine ⟨Ls p, rfl, ?_⟩
    rw [Function.update_eq_self]
    exact hA

theorem proc_balanced {x : Proc} {quiet : Bool} :
    Accounts (s.setProc p x) (Function.update Ls p { Ls p with proc := x, quiet }) :=
  hA.frame ⟨rfl, ⟨rfl, rfl⟩, rfl, rfl, rfl, fun _ => ⟨rfl, rfl, rfl, id⟩, fun _ => rfl, fun _ _ _ => .inl,
    fun _ _ => hA.pinned, fun _ h hk => ⟨h, hk, rfl, .inl⟩, fun _ h hk => ⟨h, hk⟩, rfl,
    fun _ ph hx => .inl ⟨ph, hx⟩⟩

theorem fdalloc_balanced {r : Option (Fin nofile)} (h : s.fdalloc p f = .done r s') : Balanced s' Ls p (.fdalloc f) r := by
  unfold State.fdalloc at h
  rw [← (hA.audit p).proc] at h
  split at h
  · rename_i fd hfd
    cases h
    refine ⟨{ (Ls p).loud with proc := (Ls p).proc.setFd fd (some f) }, ⟨hfd.symm, ?_⟩, proc_balanced hA⟩
    rw [hfd]
  · rename_i hfd
    cases h
    refine ⟨Ls p, ⟨hfd.symm, ?_⟩, ?_⟩
    · rw [hfd]
    · rw [Function.update_eq_self]
      exact hA

theorem file_balanced (hn : (Op.file f).Needs (Ls p)) : Balanced s Ls p (.file f) (s.ftable f) := by
  obtain ⟨hf, -, hl⟩ := hn
  have hb : ∀ k w, (Ls p).borrow = some (f, k, w) →
      (s.ftable f).type = .inode ∧ (s.ftable f).ip = k ∧ (s.ftable f).writable = w :=
        fun k w h => ((hA.audit p).borrow f k w h).2
  by_cases ht : (s.ftable f).type = .inode
  · refine ⟨{ Ls p with borrow := some (f, (s.ftable f).ip, (s.ftable f).writable) }, ⟨hb, ?_⟩,
      hA.frame ⟨?_, ⟨rfl, rfl⟩, rfl,
      rfl, rfl, fun _ => ⟨rfl, rfl, rfl, id⟩, fun _ => rfl, fun f' k w h => ?_, fun k h hk => ?_,
        fun _ h hk => ⟨h, hk, rfl, .inl⟩,
      fun _ h hk => ⟨h, hk⟩, rfl, fun _ ph hx => .inl ⟨ph, hx⟩⟩⟩
    · rw [if_pos ht]
    · rw [(hA.audit p).proc, Function.update_eq_self]
    · cases h
      exact .inr ⟨hf, ht, rfl, rfl⟩
    · rw [hl] at hk
      cases hk
  · refine ⟨Ls p, ⟨hb, ?_⟩, ?_⟩
    · rw [if_neg ht]
    · rw [Function.update_eq_self]
      exact hA

theorem addOff_balanced {n : Nat} :
    Balanced (s.setFile f { s.ftable f with off := (s.ftable f).off + n }) Ls p (.addOff f n) () := by
  refine ⟨Ls p, rfl, hA.frame ⟨?_, ⟨rfl, rfl⟩, rfl, rfl, rfl, fun _ => ⟨rfl, rfl, rfl, id⟩, fun f' => ?_, fun _ _ _ => .inl,
    fun _ _ => hA.pinned, fun _ h hk => ⟨h, hk, rfl, .inl⟩, fun _ h hk => ⟨h, hk⟩, rfl,
    fun _ ph hx => .inl ⟨ph, hx⟩⟩⟩
  · rw [(hA.audit p).proc, Function.update_eq_self]
    rfl
  · by_cases hf : f' = f
    · subst hf
      simp only [State.setFile, Function.update_self]
    · simp only [State.setFile, Function.update_of_ne hf]

theorem ops_balanced {n : Int} {m : Nat} (hn : n + (Ls p).ops = s.outstanding + m) :
    Accounts { s with outstanding := n } (Function.update Ls p { Ls p with ops := m }) := by
  refine hA.frame ⟨?_, ⟨rfl, rfl⟩, rfl, rfl, rfl, fun _ => ⟨rfl, rfl, rfl, id⟩, fun _ => rfl, fun _ _ _ => .inl,
    fun _ _ => hA.pinned, fun _ h hk => ⟨h, hk, rfl, .inl⟩, fun _ h hk => ⟨h, hk⟩, hn,
    fun _ ph hx => .inl ⟨ph, hx⟩⟩
  rw [(hA.audit p).proc, Function.update_eq_self]

theorem phase_balanced {x : Slot × Nat} {ph ph' : Phase} (ho : o.target = some k) (h : act p o s = .done r s')
    (hx : (Ls p).freeing = some (x, ph)) :
    Accounts s' (Function.update Ls p { Ls p with freeing := some (x, ph') }) := by
  obtain ⟨h1, h2, h3, h4, h5⟩ := act_still ho h
  refine hA.frame ⟨?_, ⟨h4, rfl⟩, rfl, rfl, rfl, h5, fun f => by rw [h2], fun _ _ _ => .inl,
    fun _ _ => hA.pinned, fun _ h hk => ⟨h, hk, rfl, .inl⟩, fun _ h hk => ⟨h, hk⟩, ?_, fun y ph2 hy => ?_⟩
  · rw [h1, (hA.audit p).proc, Function.update_eq_self]
  · rw [h3]
  · cases hy
    exact .inl ⟨ph, hx⟩

end

end

end Xv6.Fs
