import Xv6.Theorems.FsLedger

/-! The system calls keep to the rules of the ledger. Each function has one lemma that says what it makes of the ledger
    on each way out, and the lemma of a call is put together from those of the functions it calls. -/

namespace Xv6.Fs
open Lib Prog

section
variable {al : Bool} {L : Ledger} {k k' : Slot} {i : Nat} {h : Held} {R : Multiset (Slot × Nat)} {Q : Unit → Ledger → Prop}
  {x : Option Held} {f : Slot → Option Held} {plain : Set (Slot × Nat)} {quiet parent : Bool}
  {refs S : Multiset (Slot × Nat)} {name : Name} {path : Path} {j d : Nat} {kind : Kind} {ip : Slot} {hp hi : Held}

/-! ### Single operations -/

theorem stage_none (hf : L.Going) : L.proc.state = .live ∧ (L.freeing.map fun (x, ph) => (x.1, ph)) = none :=
  ⟨hf.1, by rw [hf.2]; rfl⟩

theorem wp_panic {α : Type} {e : Panic} {Q : α → Ledger → Prop} (hf : L.Going) :
    (panic e : P α).wp (rules al) Q L := ⟨⟨stage_none hf, trivial⟩, fun r => nomatch r⟩

theorem wp_beginOp (hf : L.Going) (hq : Q () { L with ops := L.ops + 1 }) :
    beginOp.wp (rules al) Q L := by
  refine ⟨⟨stage_none hf, trivial⟩, ?_⟩
  rintro r L' ⟨rfl, -⟩
  exact hq

theorem wp_endOp (hf : L.Going) (hops : 0 < L.ops)
    (hq : Q () { L with ops := L.ops - 1 }) : endOp.wp (rules al) Q L := by
  refine ⟨⟨stage_none hf, hops⟩, ?_⟩
  rintro r L' ⟨rfl, -⟩
  exact hq

theorem wp_iget {Q : Slot → Ledger → Prop} (hf : L.Going) (hk : L.Knows i)
    (hq : ∀ k, Q k { L with refs := (k, i) ::ₘ L.refs }) : (iget i).wp (rules al) Q L := by
  refine ⟨⟨stage_none hf, hk⟩, ?_⟩
  rintro k L' ⟨rfl, -⟩
  exact hq k

theorem wp_idupCwd {Q : Slot → Ledger → Prop} (hf : L.Going) (hc : L.Home)
    (hq : ∀ k i, Q k { L with refs := (k, i) ::ₘ L.refs }) : idupCwd.wp (rules al) Q L := by
  refine ⟨⟨stage_none hf, hc⟩, ?_⟩
  rintro k L' ⟨⟨-, i, rfl⟩, -⟩
  exact hq k i

def Held.fresh (i : Nat) : Held := ⟨i, true, none, none, none, false, none⟩

theorem setLock_setLock {y : Option Held} : (L.setLock k x).setLock k y = L.setLock k y := by
  simp only [Ledger.setLock, Function.update_idem]

theorem update_none (hk : f k = none) : Function.update f k none = f := by
  rw [← hk, Function.update_eq_self]

theorem setLock_self : (L.setLock k x).locks k = x := Function.update_self ..

theorem setLock_ne (hne : k' ≠ k) : (L.setLock k x).locks k' = L.locks k' := Function.update_of_ne hne ..

theorem wp_ilock (hf : L.Going) (hp : L.Pinned k)
    (hw : ∀ k' h, L.locks k' = some h → L.Allows h k) (ha : ∀ a, L.alloc = some a → (k, a.inum) ∈ L.refs)
    (hq : ∀ i, L.locks k = none → (∀ i', (k, i') ∈ L.refs → i' = i) → Q () (L.setLock k (some (.fresh i)))) :
    (ilock k).wp (rules al) Q L := by
  refine wp_bind ⟨⟨stage_none hf, hp, hw, ha⟩, ?_⟩
  rintro r L' ⟨⟨hnone, i, hi, rfl⟩, -⟩
  refine ⟨⟨stage_none hf, _, Function.update_self ..⟩, ?_⟩
  rintro r L' ⟨hl, -⟩
  rw [hl _ (Function.update_self ..), setLock_setLock]
  exact hq i hnone hi

theorem wp_ilock_first (hf : L.Going) (hi : (k, i) ∈ L.refs)
    (hl : ∀ k, L.locks k = none) (ha : L.alloc = none) (hq : Q () (L.setLock k (some (.fresh i)))) :
    (ilock k).wp (rules al) Q L := by
  refine wp_ilock hf (.inl ⟨i, hi⟩) (fun k' h hk => ?_) (fun a h => ?_) fun j _ hj => ?_
  · rw [hl k'] at hk
    cases hk
  · rw [ha] at h
    cases h
  · rw [← hj i hi]
    exact hq

theorem wp_iunlock (hf : L.Going) (hk : L.locks k = some h)
    (hq : Q () { L.setLock k none with
      plain := { x | x ∈ L.plain ∨ h.dir = some false ∧ x = (k, h.inum) ∧ x ∈ L.refs } }) :
    (iunlock k).wp (rules al) Q L := by
  refine ⟨⟨stage_none hf, h, hk⟩, ?_⟩
  rintro r L' ⟨hl, -⟩
  rw [hl h hk]
  exact hq

theorem wp_peek {Q : Dinode → Ledger → Prop} (hf : L.Going) (hk : L.locks k = some h) (hv : h.valid = true)
    (hq : ∀ x, Q x (L.setLock k (some { h with dir := some (decide (x.kind = .dir)) }))) :
    (peek k).wp (rules al) Q L := by
  refine ⟨⟨stage_none hf, h, hk, hv⟩, ?_⟩
  rintro x L' ⟨hl, -⟩
  rw [hl h hk]
  exact hq x

theorem wp_inumOf {Q : Nat → Ledger → Prop} (hf : L.Going) (hi : (k, i) ∈ L.refs) (hq : Q i L) :
    (inumOf k).wp (rules al) Q L := by
  refine ⟨⟨stage_none hf, .inl ⟨i, hi⟩⟩, ?_⟩
  rintro j L' ⟨⟨rfl, hj, -⟩, -⟩
  rw [← hj i hi]
  exact hq

theorem wp_addNlink {n : BitVec 16} (hf : L.Going) (hk : L.locks k = some h)
    (hv : h.valid = true) (hn : n = 1 ∨ n = -1 ∧ 1 ≤ L.debt h.inum)
    (hq : Q () { L with debt := L.debt + Pi.single h.inum n.toInt }) : (addNlink k n).wp (rules al) Q L := by
  refine ⟨⟨stage_none hf, h, hk, hv, hn⟩, ?_⟩
  rintro r L' ⟨hl, -⟩
  rw [hl h hk]
  exact hq

/-- How `plain` and `quiet` may change while references are given away, apart from those in `R`. -/
structure Drops (al : Bool) (L : Ledger) (R : Multiset (Slot × Nat)) (plain : Set (Slot × Nat)) (quiet : Bool) : Prop where
  plain : ∀ x ∈ L.plain, x ∈ R → x ∈ plain
  quiet : quiet = L.quiet ∨ quiet = false ∧ al = false

/-- The link counts that the process has changed are of inodes it keeps references to. -/
def Ledger.Backed (L : Ledger) (R : Multiset (Slot × Nat)) : Prop :=
  L.quiet = true → ∀ i, L.debt i ≠ 0 → ∃ k, (k, i) ∈ R

theorem Ledger.backed_zero (hd : L.debt = 0) : L.Backed R := fun _ i hi => absurd (congrFun hd i) hi

theorem wp_iput (hf : L.Going) (hr : L.refs = (k, i) ::ₘ R)
    (hl : ∀ h, L.locks k = some h → ∃ i, (k, i) ∈ R) (hd : L.Backed R)
    (hq : ∀ plain quiet, Drops al L R plain quiet → Q () { L with refs := R, plain, quiet }) :
    (iput k).wp (rules al) Q L := by
  refine wp_bind ⟨⟨stage_none hf, i, R, hr, fun h hk => .inl (hl h hk), fun h h' => hd h i h'⟩, ?_⟩
  rintro r L' ⟨⟨j, S, hS, hj, hm⟩, ht⟩
  have hij : i = j := hj i (by rw [hr]; exact Multiset.mem_cons_self ..)
  subst hij
  have hRS : R = S := (Multiset.cons_inj_right _).mp (hr.symm.trans hS)
  subst hRS
  cases r with
  | false =>
    subst hm
    exact hq _ _ ⟨fun x hx hxR => ⟨hx, hxR⟩, .inl rfl⟩
  | true =>
    subst hm
    refine wp_bind ⟨⟨⟨hf.1, rfl⟩, trivial⟩, ?_⟩
    rintro r L' ⟨hm, -⟩
    rw [hm _ _ rfl]
    refine wp_bind ⟨⟨⟨hf.1, rfl⟩, trivial⟩, ?_⟩
    rintro r L' ⟨hm, -⟩
    rw [hm _ _ rfl]
    refine ⟨⟨⟨hf.1, rfl⟩, trivial⟩, ?_⟩
    rintro r L' ⟨⟨x, ph, S, hx, hS, rfl⟩, -⟩
    cases hx
    have hRS : R = S := (Multiset.cons_inj_right _).mp (hr.symm.trans hS)
    subst hRS
    rw [← hf.2]
    refine hq _ _ ⟨fun x hx hxR => ⟨hx, hxR⟩, ?_⟩
    cases al with
    | false => exact .inr ⟨rfl, rfl⟩
    | true => exact .inl (ht rfl rfl).symm

theorem wp_iunlockput (hf : L.Going) (hr : L.refs = (k, i) ::ₘ R)
    (hk : L.locks k = some h) (hd : L.Backed R)
    (hq : ∀ plain quiet, Drops al L R plain quiet → Q () { L.setLock k none with refs := R, plain, quiet }) :
    (iunlockput k).wp (rules al) Q L := by
  refine wp_bind (wp_iunlock hf hk ?_)
  refine wp_iput hf hr (fun h' hk' => ?_) hd fun plain quiet hp => ?_
  · cases (setLock_self (x := none)).symm.trans hk'
  · exact hq plain quiet ⟨fun x hx hxR => hp.plain x (.inl hx) hxR, hp.quiet⟩

theorem Drops.quiet_eq (hp : Drops al L R plain quiet) (hal : al = true) :
    quiet = L.quiet := by
  rcases hp.quiet with h | h
  · exact h
  · cases hal.symm.trans h.2

theorem Drops.refl : Drops al L R L.plain L.quiet := ⟨fun _ hx _ => hx, .inl rfl⟩

theorem Drops.trans {plain' : Set (Slot × Nat)}
    {quiet' : Bool} (hp : Drops al L R plain quiet)
    (hp' : Drops al { L with refs, plain, quiet, locks := f } S plain' quiet')
    (hR : ∀ x ∈ R, x ∈ S) : Drops al L R plain' quiet' := by
  refine ⟨fun x hx hxR => hp'.plain x (hp.plain x hx hxR) (hR x hxR), ?_⟩
  rcases hp'.quiet with h | h
  · exact h ▸ hp.quiet
  · exact .inr h

theorem Drops.backed
    (hp : Drops al L R plain quiet) (hd : L.Backed R) (hR : ∀ x ∈ R, x ∈ S) :
    ({ L with refs, plain, quiet, locks := f } : Ledger).Backed S := by
  intro hq j hj
  have hq : quiet = true := hq
  have hLq : L.quiet = true := by
    rcases hp.quiet with h | h
    · exact h ▸ hq
    · cases hq.symm.trans h.1
  obtain ⟨k, hk⟩ := hd hLq j hj
  exact ⟨k, hR _ hk⟩

/-! ### Directories and paths -/

theorem wp_dirlookup {Q : Option (Nat × Slot) → Ledger → Prop} (hf : L.Going)
    (hk : L.locks k = some h) (hv : h.valid = true)
    (hnone : Q none (L.setLock k (some { h with scan := some (name, none), dir := some true })))
    (hsome : ∀ off j ip, Q (some (off, ip)) { L.setLock k (some { h with
      scan := some (name, some (off, j)), dir := some true }) with refs := (ip, j) ::ₘ L.refs }) :
    (dirlookup k name).wp (rules al) Q L := by
  refine wp_bind ⟨⟨stage_none hf, h, hk, hv⟩, ?_⟩
  rintro r L' ⟨hm, -⟩
  rw [hm h hk]
  match r with
  | none => exact hnone
  | some (off, j) =>
    exact wp_bind (wp_iget hf (.inr (.inr ⟨k, _, name, off, setLock_self, rfl⟩)) fun ip => hsome off j ip)

theorem skipelem_nameOk {rest : Path} (h0 : 0 ∉ path) (h : skipelem path = some (rest, name)) :
    NameOk name ∧ 0 ∉ rest := by
  unfold skipelem at h
  dsimp only at h
  split at h
  · cases h
  · rename_i hne
    cases h
    have hsub : 0 ∉ path.dropWhile (· = slash) := fun hm => h0 ((List.dropWhile_sublist _).subset hm)
    refine ⟨⟨?_, ?_, fun hm => ?_⟩, fun hm => ?_⟩
    · obtain ⟨c, cs, hcs⟩ := List.exists_cons_of_ne_nil hne
      have hc : c ≠ slash := by
        have := List.head?_dropWhile_not (fun c => decide (c = slash)) path
        rw [hcs] at this
        simpa using this
      rw [hcs, List.takeWhile_cons_of_pos (by simpa using hc)]
      simp [dirsiz]
    · exact List.length_take_le ..
    · exact hsub ((List.takeWhile_sublist _).subset ((List.take_sublist ..).subset hm))
    · exact hsub ((List.drop_sublist ..).subset ((List.dropWhile_sublist _).subset hm))

theorem elements_nameOk {c : Nat} (h0 : 0 ∉ path) : ∀ name ∈ elements c path, NameOk name := by
  induction c generalizing path with
  | zero => exact fun name hn => absurd hn List.not_mem_nil
  | succ c ih =>
    intro name hn
    rw [elements] at hn
    split at hn
    · rename_i rest n hs
      obtain ⟨hok, hrest⟩ := skipelem_nameOk h0 hs
      rcases List.mem_cons.mp hn with rfl | hn
      · exact hok
      · exact ih hrest name hn
    · exact absurd hn List.not_mem_nil

theorem wp_namexLoop {Q : Option (Slot × Name) → Ledger → Prop} {names : List Name}
    (hf : L.Going) (hl : ∀ k, L.locks k = none) (ha : L.alloc = none)
    (hd : L.Backed L.refs) (hn : ∀ name ∈ names, NameOk name) (hp : Drops al L L.refs plain quiet)
    (hnone : ∀ plain quiet, Drops al L L.refs plain quiet → Q none { L with plain, quiet })
    (hsome : ∀ k i name plain quiet, Drops al L L.refs plain quiet → (parent = true → NameOk name) →
      Q (some (k, name)) { L with refs := (k, i) ::ₘ L.refs, plain, quiet }) :
    (namexLoop parent names k).wp (rules al) Q { L with refs := (k, i) ::ₘ L.refs, plain, quiet } := by
  induction names generalizing k i plain quiet with
  | nil =>
    cases parent with
    | false => exact hsome k i [] plain quiet hp (fun h => (nomatch h))
    | true =>
      refine wp_bind (wp_iput hf rfl (fun h hk => ?_) (hp.backed hd fun _ h => h) fun plain' quiet' hp' => ?_)
      · cases (hl k).symm.trans hk
      · exact hnone plain' quiet' (hp.trans hp' fun _ h => h)
  | cons name rest ih =>
    have hname := hn name (by simp)
    have hrest : ∀ n ∈ rest, NameOk n := fun n hm => hn n (by simp [hm])
    refine wp_bind (wp_ilock_first hf (Multiset.mem_cons_self ..) hl ha ?_)
    refine wp_bind (wp_peek hf setLock_self rfl fun x => ?_)
    rw [setLock_setLock]
    split
    · refine wp_bind (wp_iunlockput hf rfl setLock_self (hp.backed hd fun _ h => h) fun plain' quiet' hp' => ?_)
      dsimp only [Ledger.setLock]
      simp only [Function.update_idem, update_none (hl k)]
      exact hnone plain' quiet' (hp.trans hp' fun _ h => h)
    · split
      · refine wp_bind (wp_iunlock hf setLock_self ?_)
        dsimp only [Ledger.setLock]
        simp only [Function.update_idem, update_none (hl k)]
        exact hsome k i name _ quiet ⟨fun x hx hxR => .inl (hp.plain x hx hxR), hp.quiet⟩ fun _ => hname
      · refine wp_bind (wp_dirlookup hf setLock_self rfl ?_ fun off j next => ?_)
        · refine wp_bind (wp_iunlockput hf rfl setLock_self (hp.backed hd fun _ h => h) fun plain' quiet' hp' => ?_)
          dsimp only [Ledger.setLock]
          simp only [Function.update_idem, update_none (hl k)]
          exact hnone plain' quiet' (hp.trans hp' fun _ h => h)
        · have hmem : ∀ x ∈ L.refs, x ∈ (next, j) ::ₘ L.refs := fun x hx => Multiset.mem_cons_of_mem hx
          refine wp_bind (wp_iunlockput hf (Multiset.cons_swap ..) setLock_self (hp.backed hd hmem)
            fun plain' quiet' hp' => ?_)
          dsimp only [Ledger.setLock]
          simp only [Function.update_idem, update_none (hl k)]
          exact ih hrest (hp.trans hp' hmem)

theorem wp_namex {Q : Option (Slot × Name) → Ledger → Prop} (hf : L.Going)
    (hc : L.Home) (hl : ∀ k, L.locks k = none) (ha : L.alloc = none) (hd : L.Backed L.refs)
    (hnone : ∀ plain quiet, Drops al L L.refs plain quiet → Q none { L with plain, quiet })
    (hsome : ∀ k i name plain quiet, Drops al L L.refs plain quiet → (parent = true → NameOk name) →
      Q (some (k, name)) { L with refs := (k, i) ::ₘ L.refs, plain, quiet }) :
    (namex path parent).wp (rules al) Q L := by
  have h0 : 0 ∉ cstring path := by
    intro hm
    simpa using (List.all_eq_true.mp (List.all_takeWhile (p := fun c : Byte => decide (c ≠ 0)) (l := path))) 0 hm
  have hn := elements_nameOk (c := (cstring path).length) h0
  have hloop : ∀ k i, (namexLoop parent (elements (cstring path).length (cstring path)) k).wp (rules al) Q
      { L with refs := (k, i) ::ₘ L.refs } := fun k i => wp_namexLoop hf hl ha hd hn .refl hnone hsome
  refine wp_bind ?_
  unfold namexStart
  split
  · exact wp_iget hf (.inl rfl) fun k => hloop k rootino
  · exact wp_idupCwd hf hc hloop

theorem wp_namei {Q : Option Slot → Ledger → Prop} (hf : L.Going)
    (hc : L.Home) (hl : ∀ k, L.locks k = none) (ha : L.alloc = none) (hd : L.Backed L.refs)
    (hnone : ∀ plain quiet, Drops al L L.refs plain quiet → Q none { L with plain, quiet })
    (hsome : ∀ k i plain quiet, Drops al L L.refs plain quiet →
      Q (some k) { L with refs := (k, i) ::ₘ L.refs, plain, quiet }) :
    (namei path).wp (rules al) Q L :=
  wp_bind (wp_namex hf hc hl ha hd hnone fun k i _ plain quiet hp _ => hsome k i plain quiet hp)

theorem wp_dirlink_write {Q : Bool → Ledger → Prop} (hf : L.Going)
    (hk : L.locks k = some h) (hv : h.valid = true) (hpin : ∀ k h, L.locks k = some h → ∃ i, (k, i) ∈ L.refs)
    (hd : L.Backed L.refs)
    (hfalse : ∀ h' plain quiet, Drops al L L.refs plain quiet →
      Q false { L with locks := Function.update L.locks k (some h'), plain, quiet })
    (hneed : ∀ off, (Op.dirlinkWrite k off j name).Needs (L.setLock k (some { h with
      dir := some true, scan := some (name, none), free := some off })))
    (htrue : ∀ off L', (Op.dirlinkWrite k off j name).Makes (L.setLock k (some { h with
      dir := some true, scan := some (name, none), free := some off })) () L' → Q true L') :
    (dirlink k name j).wp (rules al) Q L := by
  refine wp_bind (wp_dirlookup hf hk hv ?_ fun off i ip => ?_)
  · refine wp_bind ⟨⟨stage_none hf, _, setLock_self, hv⟩, ?_⟩
    rintro off L' ⟨hm, -⟩
    rw [hm _ setLock_self, setLock_setLock]
    refine wp_bind ⟨⟨stage_none hf, hneed off⟩, ?_⟩
    rintro r L' ⟨hm, -⟩
    exact htrue off L' hm
  · refine wp_bind (wp_iput hf rfl (fun h' hk' => ?_) hd fun plain quiet hp => ?_)
    · by_cases hip : ip = k
      · exact hip ▸ hpin k h hk
      · exact hpin ip h' ((setLock_ne hip).symm.trans hk')
    · exact hfalse _ plain quiet ⟨hp.plain, hp.quiet⟩

theorem wp_dirlink_fresh {Q : Bool → Ledger → Prop} {es : List (Nat × Name)} (hf : L.Going)
    (hk : L.locks k = some h) (hv : h.valid = true) (hpin : ∀ k h, L.locks k = some h → ∃ i, (k, i) ∈ L.refs)
    (hd : L.Backed L.refs) (hes : h.entries = some es) (hn : NameOk name)
    (hfalse : ∀ h' plain quiet, Drops al L L.refs plain quiet →
      Q false { L with locks := Function.update L.locks k (some h'), plain, quiet })
    (htrue : Q true { L with
      locks := Function.update L.locks k (some ⟨h.inum, true, some true, none, none, false, some (es ++ [(j, name)])⟩)
      quiet := false }) : (dirlink k name j).wp (rules al) Q L := by
  refine wp_dirlink_write hf hk hv hpin hd hfalse (fun off => ?_) fun off L' hm => ?_
  · exact ⟨_, setLock_self, hv, rfl, rfl, hn, fun hnone => (nomatch hes.symm.trans hnone)⟩
  · have hm := hm _ setLock_self
    simp only [hes] at hm
    rw [hm]
    dsimp only [Ledger.setLock, Ledger.loud]
    rw [Function.update_idem, hv]
    exact htrue

theorem wp_dirlink {Q : Bool → Ledger → Prop} {debt : Nat → Int} {alloc : Option Alloc} (hf : L.Going)
    (hk : L.locks k = some h) (hv : h.valid = true) (hpin : ∀ k h, L.locks k = some h → ∃ i, (k, i) ∈ L.refs)
    (hd : L.Backed L.refs) (hes : h.entries = none) (hn : NameOk name) (hj : 1 ≤ L.debt j)
    (hnew : (∃ k', (k', j) ∈ L.plain) ∨
      ∃ a k' h', k' ≠ k ∧ L.alloc = some a ∧ a.inum = j ∧ a.init = true ∧ L.locks k' = some h' ∧ h'.inum = j ∧
        (a.kind = .dir → h'.entries = some [(j, dot), (h.inum, dotdot)] ∧ 1 ≤ L.debt h.inum))
    (hdebt : L.debt - Pi.single j 1 -
      (if L.alloc.any (fun a => a.inum = j ∧ a.kind = .dir) then Pi.single h.inum 1 else 0) = debt)
    (halloc : L.alloc.filter (fun a => a.inum ≠ j) = alloc)
    (hfalse : ∀ h' plain quiet, Drops al L L.refs plain quiet →
      Q false { L with locks := Function.update L.locks k (some h'), plain, quiet })
    (htrue : Q true { L with
      locks := Function.update L.locks k (some ⟨h.inum, true, some true, none, none, false, none⟩)
      quiet := false, debt, alloc }) : (dirlink k name j).wp (rules al) Q L := by
  refine wp_dirlink_write hf hk hv hpin hd hfalse (fun off => ?_) fun off L' hm => ?_
  · refine ⟨_, setLock_self, hv, rfl, rfl, hn, fun _ => ⟨hj, hnew.imp_right ?_⟩⟩
    rintro ⟨a, k', h', hne, ha⟩
    exact ⟨a, k', h', ha.1, ha.2.1, ha.2.2.1, (setLock_ne hne).trans ha.2.2.2.1, ha.2.2.2.2⟩
  · have hm := hm _ setLock_self
    simp only [hes] at hm
    subst hdebt halloc
    rw [hm]
    dsimp only [Ledger.setLock, Ledger.loud]
    rw [Function.update_idem, hv]
    exact htrue

theorem nameOk_dot : NameOk dot := by
  unfold NameOk
  decide

theorem nameOk_dotdot : NameOk dotdot := by
  unfold NameOk
  decide

/-! ### create -/

theorem wp_ialloc {Q : Slot → Ledger → Prop} (hf : L.Going) (ha : L.alloc = none)
    (hkind : kind ≠ .free)
    (hq : ∀ k i, (al = true → L.spare = true → L.room = true ∧ L.proc.freeFd.isSome) →
      Q k { L with refs := (k, i) ::ₘ L.refs, alloc := some ⟨i, kind, false⟩, quiet := false }) :
    (ialloc kind).wp (rules al) Q L := by
  refine wp_bind ⟨⟨stage_none hf, trivial⟩, ?_⟩
  rintro sb L' ⟨⟨rfl, hsb⟩, -⟩
  have hloop : ∀ l : List Nat, (∀ i ∈ l, 0 < i ∧ i < L'.ninodes) → (iallocLoop kind l).wp (rules al) Q L' := by
    intro l
    induction l with
    | nil => exact fun _ => wp_panic hf
    | cons i rest ih =>
      intro hl
      refine wp_bind ⟨⟨stage_none hf, hkind, ha, hl i (by simp)⟩, ?_⟩
      rintro found L'' ⟨hm, ht⟩
      cases found with
      | true =>
        subst hm
        exact wp_iget hf (.inr (.inl ⟨_, rfl, rfl⟩)) fun k => hq k i fun h => ht h rfl
      | false =>
        subst hm
        exact ih fun i hi => hl i (by simp [hi])
  refine hloop _ fun i hi => ?_
  have := List.mem_range'_1.mp hi
  omega

theorem wp_createDots (dp : Slot)
    (hf : L.Going) (hdp : L.locks dp = some hp) (hpv : hp.valid = true) (hpi : hp.inum = d)
    (hip : L.locks ip = some hi) (hiv : hi.valid = true) (hie : hi.entries = some [])
    (hpin : ∀ k h, L.locks k = some h → ∃ i, (k, i) ∈ L.refs) (hd : (dp, d) ∈ L.refs) (hq : L.quiet = false)
    (hfile : kind ≠ .dir → Q () L)
    (hdir : kind = .dir → Q () { L with
      locks := Function.update L.locks ip
        (some ⟨hi.inum, true, some true, none, none, false, some [(i, dot), (d, dotdot)]⟩)
      debt := L.debt + Pi.single d 1
      quiet := false }) : (createDots dp ip kind i).wp (rules al) Q L := by
  unfold createDots
  split
  · rename_i hkind
    refine wp_bind (wp_addNlink hf hdp hpv (.inl rfl) ?_)
    refine wp_bind (wp_inumOf hf hd ?_)
    have hback : ∀ {M : Ledger} {S}, M.quiet = false → M.Backed S := fun hM h => (nomatch hM.symm.trans h)
    refine wp_bind (wp_dirlink_fresh hf hip hiv hpin (hback hq) hie nameOk_dot (fun h' plain quiet _ => wp_panic hf) ?_)
    refine wp_bind (wp_dirlink_fresh hf (Function.update_self ..) rfl (fun k h hk => ?_) (hback rfl) rfl nameOk_dotdot
      (fun h' plain quiet _ => wp_panic hf) ?_)
    · by_cases hki : k = ip
      · exact hki ▸ hpin ip hi hip
      · exact hpin k h ((Function.update_of_ne hki ..).symm.trans hk)
    · dsimp only
      rw [Function.update_idem, hpi]
      exact hdir hkind
  · rename_i hkind
    exact hfile hkind

theorem wp_createLink {Q : Option Slot → Ledger → Prop} {dp : Slot}
    (hf : L.Going) (hne : ip ≠ dp) (hdp : L.locks dp = some hp) (hpv : hp.valid = true) (hpi : hp.inum = d)
    (hpe : hp.entries = none) (hip : L.locks ip = some hi) (hii : hi.inum = i)
    (hl : ∀ k, k ≠ dp → k ≠ ip → L.locks k = none) (hr : L.refs = (ip, i) ::ₘ (dp, d) ::ₘ R) (hn : NameOk name)
    (ha : L.alloc = some ⟨i, kind, true⟩) (hq : L.quiet = false)
    (hd : L.debt = Pi.single i 1 + if kind = .dir then Pi.single d 1 else 0)
    (hdots : kind = .dir → hi.entries = some [(i, dot), (d, dotdot)])
    (hQ : ∀ f plain, f ip = some hi → (∀ k ≠ ip, f k = none) →
      Q (some ip) { L with locks := f, refs := (ip, i) ::ₘ R, alloc := none, debt := 0, plain, quiet := false }) :
    (do
      let ok ← dirlink dp name i
      if ok = false then panic .createDirlink
      else
        iunlockput dp
        pure (some ip) : P (Option Slot)).wp (rules al) Q L := by
  have hback : ∀ {M : Ledger} {S}, M.quiet = false → M.Backed S := fun hM h => (nomatch hM.symm.trans h)
  have hpin : ∀ k h, L.locks k = some h → ∃ i, (k, i) ∈ L.refs := by
    intro k h hk
    rw [hr]
    by_cases h1 : k = ip
    · exact ⟨i, h1 ▸ Multiset.mem_cons_self ..⟩
    · by_cases h2 : k = dp
      · exact ⟨d, h2 ▸ Multiset.mem_cons_of_mem (Multiset.mem_cons_self ..)⟩
      · cases (hl k h2 h1).symm.trans hk
  have hpos : ∀ x y : Nat, 0 ≤ (Pi.single x (1 : Int) : Nat → Int) y := fun x y => by
    rw [Pi.single_apply]
    split <;> decide
  have hi1 : 1 ≤ L.debt i := by
    rw [hd, Pi.add_apply, Pi.single_eq_same]
    split
    · have := hpos d i
      omega
    · exact le_refl _
  have hdebt : L.debt - Pi.single i 1 -
      (if L.alloc.any (fun a => a.inum = i ∧ a.kind = .dir) then Pi.single hp.inum 1 else 0) = 0 := by
    rw [hd, ha, hpi, add_sub_cancel_left]
    by_cases hk : kind = .dir <;> simp [hk]
  have halloc : L.alloc.filter (fun a => a.inum ≠ i) = none := by
    rw [ha]
    simp
  refine wp_bind (wp_dirlink hf hdp hpv hpin (hback hq) hpe hn hi1
    (.inr ⟨_, ip, hi, hne, ha, rfl, rfl, hip, hii, fun hk => ⟨hpi.symm ▸ hdots hk, ?_⟩⟩) hdebt halloc
    (fun h' plain quiet _ => wp_panic hf) ?_)
  · rw [hd, if_pos hk, hpi, Pi.add_apply, Pi.single_eq_same]
    have := hpos i d
    omega
  · refine wp_bind (wp_iunlockput hf (hr.trans (Multiset.cons_swap ..)) (Function.update_self ..) (hback rfl)
      fun plain quiet hp' => ?_)
    have hquiet : quiet = false := by
      rcases hp'.quiet with h | h
      · exact h
      · exact h.1
    dsimp only [Ledger.setLock]
    rw [hquiet]
    refine hQ _ plain ?_ fun k hk => ?_
    · rw [Function.update_of_ne hne, Function.update_of_ne hne, hip]
    · by_cases h2 : k = dp
      · rw [h2, Function.update_self]
      · rw [Function.update_of_ne h2, Function.update_of_ne h2, hl k h2 hk]

theorem wp_create {Q : Option Slot → Ledger → Prop} {major minor : BitVec 16}
    (hf : L.Going) (hc : L.Home) (hl : ∀ k, L.locks k = none) (ha : L.alloc = none) (hd : L.debt = 0) (hkind : kind ≠ .free)
    (hnone : ∀ plain quiet, Drops al L L.refs plain quiet → Q none { L with plain, quiet })
    (hsome : ∀ k i h f plain quiet, f k = some h → (∀ k' ≠ k, f k' = none) → h.inum = i →
      h.dir = some (decide (kind = .dir)) →
      (al = true → quiet = L.quiet ∨
        quiet = false ∧ (L.spare = true → L.room = true ∧ L.proc.freeFd.isSome)) →
      Q (some k) { L with locks := f, refs := (k, i) ::ₘ L.refs, plain, quiet }) :
    (create path kind major minor).wp (rules al) Q L := by
  have hback : ∀ {M : Ledger} {S}, M.debt = L.debt → M.Backed S := fun hM => Ledger.backed_zero (hM.trans hd)
  refine wp_bind (wp_namex hf hc hl ha (hback rfl) hnone fun dp d name plain quiet hp hname => ?_)
  refine wp_bind (wp_ilock_first hf (Multiset.mem_cons_self ..) hl ha ?_)
  refine wp_bind (wp_dirlookup hf setLock_self rfl ?_ fun off j ip => ?_)
  · dsimp only [Ledger.setLock]
    rw [Function.update_idem]
    refine wp_bind (wp_ialloc hf ha hkind fun ip i hspare => ?_)
    refine wp_bind (wp_ilock hf (.inl ⟨i, Multiset.mem_cons_self ..⟩)
      (fun k' h hk => .inr ⟨_, rfl, Multiset.mem_cons_self ..⟩)
      (fun a hak => by cases hak; exact Multiset.mem_cons_self ..) fun i' hfree hi' => ?_)
    obtain rfl := hi' i (Multiset.mem_cons_self ..)
    have hne : ip ≠ dp := by
      rintro rfl
      cases (Function.update_self ..).symm.trans hfree
    refine wp_bind ⟨⟨stage_none hf, _, _, setLock_self, rfl, rfl, rfl, rfl⟩, ?_⟩
    rintro r L' ⟨hm, -⟩
    rw [hm _ _ setLock_self rfl, setLock_setLock]
    dsimp only [Ledger.setLock]
    refine wp_bind (wp_inumOf hf (Multiset.mem_cons_self ..) ?_)
    have hother : ∀ k, k ≠ dp → k ≠ ip → ∀ x y : Option Held,
        Function.update (Function.update L.locks dp x) ip y k = none := fun k h1 h2 x y => by
      rw [Function.update_of_ne h2, Function.update_of_ne h1, hl k]
    refine wp_bind (wp_createDots (d :=
      d) dp hf ((Function.update_of_ne (Ne.symm hne) ..).trans (Function.update_self ..)) rfl rfl
      (Function.update_self ..) rfl rfl ?_ (Multiset.mem_cons_of_mem (Multiset.mem_cons_self ..)) rfl (fun hk => ?_)
        fun hk => ?_)
    · intro k h hk
      by_cases h1 : k = ip
      · exact ⟨i, h1 ▸ Multiset.mem_cons_self ..⟩
      · by_cases h2 : k = dp
        · exact ⟨d, h2 ▸ Multiset.mem_cons_of_mem (Multiset.mem_cons_self ..)⟩
        · cases (hother k h2 h1 _ _).symm.trans hk
    · refine wp_createLink hf hne ((Function.update_of_ne (Ne.symm hne) ..).trans (Function.update_self ..)) rfl rfl rfl
        (Function.update_self ..) rfl
        (fun k h1 h2 => hother k h1 h2 _ _) rfl (hname rfl) rfl rfl ?_ (fun h => absurd h hk) fun f plain hf1 hf2 => ?_
      · rw [if_neg hk, add_zero]
        exact (congrArg (· + _) hd).trans (zero_add _)
      · rw [← ha, ← hd]
        exact hsome ip i _ f plain false hf1 hf2 rfl rfl fun hal => .inr ⟨rfl, hspare hal⟩
    · refine wp_createLink (d := d) hf hne (((Function.update_of_ne (Ne.symm hne) ..).trans
        (Function.update_of_ne (Ne.symm hne) ..)).trans (Function.update_self ..)) rfl rfl rfl (Function.update_self ..) rfl
        (fun k h1 h2 => ?_) rfl (hname rfl) rfl rfl ?_ (fun _ => rfl) fun f plain hf1 hf2 => ?_
      · exact (Function.update_of_ne h2 ..).trans (hother k h1 h2 _ _)
      · rw [if_pos hk]
        exact congrArg (· + Pi.single d 1) ((congrArg (· + _) hd).trans (zero_add _))
      · rw [← ha, ← hd]
        refine hsome ip i _ f plain false hf1 hf2 rfl ?_ fun hal => .inr ⟨rfl, hspare hal⟩
        rw [hk]
        rfl
  · have hmem : ∀ x ∈ L.refs, x ∈ (ip, j) ::ₘ L.refs := fun x hx => Multiset.mem_cons_of_mem hx
    refine wp_bind (wp_iunlockput hf (Multiset.cons_swap ..) setLock_self (hback rfl) fun plain' quiet' hp' => ?_)
    have hp1 := hp.trans hp' hmem
    dsimp only [Ledger.setLock]
    simp only [Function.update_idem, update_none (hl dp)]
    refine wp_bind (wp_ilock_first hf (Multiset.mem_cons_self ..) hl ha ?_)
    refine wp_bind (wp_peek hf setLock_self rfl fun x => ?_)
    rw [setLock_setLock]
    split
    · rename_i hx
      refine hsome ip j _ _ plain' quiet' (Function.update_self ..) (fun k' hk' => ?_) rfl ?_ fun hal => ?_
      · exact (Function.update_of_ne hk' ..).trans (hl k')
      · rw [hx.1, hx.2]
      · rcases hp1.quiet with h | h
        · exact .inl h
        · cases hal.symm.trans h.2
    · refine wp_bind (wp_iunlockput hf rfl setLock_self (hback rfl) fun plain'' quiet'' hp'' => ?_)
      dsimp only [Ledger.setLock]
      simp only [Function.update_idem, update_none (hl ip)]
      exact hnone plain'' quiet'' (hp1.trans hp'' fun _ h => h)

end

end Xv6.Fs
