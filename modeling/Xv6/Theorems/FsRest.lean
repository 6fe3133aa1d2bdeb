import Xv6.Theorems.FsCalls

/-! Every call leaves the ledger at rest: the process owns its current directory and its descriptors, and nothing
    else. A call of those that make, remove or open files leaves no trace where it fails. -/

namespace Xv6.Fs
open Lib Prog

section
variable {x : Proc} {fd : Fin nofile} {f : FileIx}

theorem mem_files : f ∈ x.files ↔ ∃ fd, x.ofile fd = some f := by
  rw [Proc.files, Multiset.mem_sum]
  refine exists_congr fun fd => ?_
  cases x.ofile fd with
  | none => simp
  | some g => simp [eq_comm]

theorem files_erase (x : Proc) (fd : Fin nofile) :
    x.files = ((x.ofile fd).elim 0 fun f => {f}) + (x.setFd fd none).files := by
  unfold Proc.files
  rw [← Finset.add_sum_erase _ _ (Finset.mem_univ fd), ← Finset.add_sum_erase (Finset.univ) _ (Finset.mem_univ fd)]
  congr 1
  simp only [Proc.setFd, Function.update_self, Option.elim_none, zero_add]
  refine Finset.sum_congr rfl fun fd' hfd => ?_
  rw [Function.update_of_ne (Finset.ne_of_mem_erase hfd)]

theorem files_clear (h : x.ofile fd = some f) : x.files = f ::ₘ (x.setFd fd none).files := by
  rw [files_erase x fd, h]
  rfl

theorem files_setFd (h : x.ofile fd = none) : (x.setFd fd (some f)).files = f ::ₘ x.files := by
  have hfd : (x.setFd fd (some f)).ofile fd = some f := Function.update_self ..
  have hback : (x.setFd fd (some f)).setFd fd none = x := by
    simp only [Proc.setFd, Function.update_idem]
    rw [← h, Function.update_eq_self]
  rw [files_clear hfd, hback]

theorem freeFd_some (h : x.freeFd = some fd) : x.ofile fd = none := by
  simpa using List.find?_some h

theorem argfd_some {n : Int} (h : x.argfd n = some (fd, f)) : x.ofile fd = some f := by
  unfold Proc.argfd at h
  split at h
  · obtain ⟨g, hg, he⟩ := Option.map_eq_some_iff.mp h
    cases he
    exact hg
  · cases h

end

/-- How a call ends that began with `L`. With `keeps`, it has changed nothing if it has failed. -/
structure Ends (al : Bool) (L : Ledger) (keeps : Prop) (r : Int) (L' : Ledger) : Prop where
  rest : Rest L'
  same : al = true → keeps → r = -1 → L'.quiet = L.quiet ∧ L'.proc = L.proc

section
variable {al : Bool} {L : Ledger} {k k' : Slot} {i : Nat} {h : Held} {f : FileIx} {F : Multiset FileIx}
  {plain : Set (Slot × Nat)} {quiet room readable writable mem : Bool} {Q : Unit → Ledger → Prop} {off n j : Nat}
  {g : Slot → Option Held} {addr : List Byte} {fd : Fin nofile} {R : Multiset (Slot × Nat)} {x : Dinode} {ip : Slot}
    {name : Name} {hp : Held} {path : Option Path}

theorem Rest.going (hL : Rest L) (hlive : L.proc.state = .live) : L.Going := ⟨hlive, hL.freeing⟩

theorem Rest.home (hL : Rest L) : L.Home := by
  intro k hk
  have hrefs := hL.refs
  rw [Proc.dirs, hk, Option.elim_some, Multiset.map_eq_singleton] at hrefs
  obtain ⟨⟨k', c⟩, hr, rfl⟩ := hrefs
  exact ⟨c, by simp [hr]⟩

theorem Rest.of {borrow : Option (FileIx × Slot × Bool)} (hL : Rest L) :
    Rest { L with borrow, plain, quiet, room } :=
  ⟨hL.locks, hL.freeing, hL.alloc, hL.blank, hL.ops, hL.debt, hL.refs, hL.files⟩

/-! ### file.c -/

theorem wp_filecloseTest {Q : Option File → Ledger → Prop} (hf : L.Going) (hF : L.files = f ::ₘ F)
    (hb : L.borrow = none)
    (hblank : f ∈ L.blank → ∀ x room, x.type = .none →
      Q (some x) { L with files := F, blank := L.blank.erase f, room })
    (hnone : f ∉ L.blank → ∀ room, Q none { L with files := F, quiet := false, room })
    (hinode : f ∉ L.blank → ∀ x i room, x.type = .inode →
      Q (some x) { L with files := F, refs := (x.ip, i) ::ₘ L.refs, quiet := false, room })
    (hother : f ∉ L.blank → ∀ x room, x.type ≠ .inode → Q (some x) { L with files := F, quiet := false, room }) :
    (filecloseTest f).wp (rules al) Q L := by
  refine ⟨⟨stage_none hf, hF ▸ Multiset.mem_cons_self .., hb⟩, ?_⟩
  rintro r L' ⟨⟨F', room, hF', hm⟩, -⟩
  obtain rfl := (Multiset.cons_inj_right _).mp (hF.symm.trans hF')
  split at hm
  · rename_i hbl
    obtain ⟨⟨x, rfl, hx⟩, rfl⟩ := hm
    exact hblank hbl x room hx
  · rename_i hbl
    match r with
    | none =>
      subst hm
      exact hnone hbl room
    | some x =>
      dsimp only at hm
      split at hm
      · rename_i hx
        obtain ⟨i, rfl⟩ := hm
        exact hinode hbl x i room hx
      · rename_i hx
        subst hm
        exact hother hbl x room hx

theorem wp_fileclose_blank (hf : L.Going) (hF : L.files = f ::ₘ F) (hb : L.borrow = none)
    (hblank : f ∈ L.blank) (hq : ∀ room, Q () { L with files := F, blank := L.blank.erase f, room }) :
    (fileclose f).wp (rules al) Q L := by
  refine wp_bind (wp_filecloseTest hf hF hb (fun _ x room hx => ?_) (fun h => absurd hblank h) (fun h => absurd hblank h)
    fun h => absurd hblank h)
  dsimp only
  rw [if_neg (by rw [hx]; decide)]
  exact hq room

theorem wp_fileclose (hf : L.Going) (hF : L.files = f ::ₘ F) (hb : L.borrow = none)
    (hblank : f ∉ L.blank) (hl : ∀ k, L.locks k = none) (hd : L.debt = 0)
    (hq : ∀ plain quiet room, Q () { L with files := F, plain, quiet, room }) : (fileclose f).wp (rules al) Q L := by
  refine wp_bind (wp_filecloseTest hf hF hb (fun h => absurd h hblank) (fun _ room => hq _ _ room)
    (fun _ x i room hx => ?_) fun _ x room hx => ?_)
  · dsimp only
    rw [if_pos hx]
    refine wp_bind (wp_beginOp hf ?_)
    refine wp_bind (wp_iput hf rfl (fun h hk => ?_) (Ledger.backed_zero hd) fun plain quiet _ => ?_)
    · cases (hl _).symm.trans hk
    · exact wp_endOp hf (Nat.succ_pos _) (hq plain quiet room)
  · dsimp only
    rw [if_neg hx]
    exact hq _ _ room

/-- The inode is unlocked while the console is used. -/
theorem wp_relock {α : Type} {Q : α → Ledger → Prop} {r : α} (hf : L.Going) (hk : L.locks k = some h) (hp : L.Pinned k)
    (hl : ∀ k' ≠ k, L.locks k' = none) (ha : L.alloc = none)
    (hq : ∀ h' plain, h'.valid = true → Q r { L with locks := Function.update L.locks k (some h'), plain }) :
    (do iunlock k; ilock k; pure r : P α).wp (rules al) Q L := by
  refine wp_bind (wp_iunlock hf hk ?_)
  refine wp_bind (wp_ilock hf hp (fun k' h' hk' => ?_) (fun a h => (nomatch ha.symm.trans h)) fun j _ _ => ?_)
  · by_cases h1 : k' = k
    · subst h1
      cases (Function.update_self ..).symm.trans hk'
    · cases ((Function.update_of_ne h1 ..).trans (hl k' h1)).symm.trans hk'
  · dsimp only [Ledger.setLock]
    rw [Function.update_idem]
    exact hq _ _ rfl

theorem wp_readi {Q : Option (List Byte) → Ledger → Prop} {dev : Option (List Byte)} (hf : L.Going)
    (hk : L.locks k = some h) (hv : h.valid = true) (hp : L.Pinned k) (hl : ∀ k' ≠ k, L.locks k' = none)
    (ha : L.alloc = none)
    (hq : ∀ r h' plain, h'.valid = true → Q r { L with locks := Function.update L.locks k (some h'), plain }) :
    (readi k off n dev).wp (rules al) Q L := by
  refine wp_bind (wp_peek hf hk hv fun x => ?_)
  split
  · split
    · refine wp_relock hf setLock_self hp (fun k' hk' => (setLock_ne hk').trans (hl k' hk')) ha fun h' plain hv' => ?_
      dsimp only [Ledger.setLock]
      rw [Function.update_idem]
      exact hq dev _ _ hv'
    · exact hq none _ _ hv
  · refine ⟨⟨stage_none hf, _, setLock_self, hv⟩, ?_⟩
    rintro r L' ⟨rfl, -⟩
    exact hq r _ _ hv

theorem wp_writei {Q : Option Nat → Ledger → Prop} {src : List Byte} (hf : L.Going)
    (hk : L.locks k = some h) (hv : h.valid = true) (hb : L.borrow = some (f, k, true)) (hl : ∀ k' ≠ k, L.locks k' = none)
    (ha : L.alloc = none)
    (hq : ∀ r h' plain quiet, h'.valid = true →
      Q r { L with locks := Function.update L.locks k (some h'), plain, quiet }) :
    (writei k src off).wp (rules al) Q L := by
  refine wp_bind (wp_peek hf hk hv fun x => ?_)
  split
  · split
    · refine wp_relock hf setLock_self (.inr ⟨f, true, hb⟩) (fun k' hk' => (setLock_ne hk').trans (hl k' hk')) ha
        fun h' plain hv' => ?_
      dsimp only [Ledger.setLock]
      rw [Function.update_idem]
      exact hq _ _ _ _ hv'
    · exact hq none _ _ _ hv
  · refine ⟨⟨stage_none hf, _, setLock_self, hv, .inr ⟨f, hb⟩⟩, ?_⟩
    rintro r L' ⟨hm, -⟩
    rw [hm _ setLock_self, setLock_setLock]
    exact hq r _ _ _ hv

theorem wp_file {Q : File → Ledger → Prop} (hf : L.Going) (hm : f ∈ L.files) (hbl : f ∉ L.blank)
    (hl : ∀ k, L.locks k = none)
    (hinode : ∀ x, (∀ k w, L.borrow = some (f, k, w) → x.ip = k ∧ x.writable = w) → x.type = .inode →
      Q x { L with borrow := some (f, x.ip, x.writable) })
    (hother : ∀ x, x.type ≠ .inode → L.borrow.all (fun y => y.1 ≠ f) → Q x L) : (file f).wp (rules al) Q L := by
  refine ⟨⟨stage_none hf, hm, hbl, hl⟩, ?_⟩
  rintro x L' ⟨⟨hx, hL'⟩, -⟩
  split at hL'
  · rename_i hty
    subst hL'
    exact hinode x (fun k w hb => (hx k w hb).2) hty
  · rename_i hty
    subst hL'
    refine hother x hty ?_
    rw [Option.all_eq_true]
    rintro ⟨g, k, w⟩ hb
    by_contra hg
    obtain rfl : g = f := by simpa using hg
    exact hty (hx k w hb).1

theorem wp_fileOff {Q : Nat → Ledger → Prop} (hf : L.Going) (hm : f ∈ L.files) (hq : ∀ off, Q off L) :
    (fileOff f).wp (rules al) Q L := by
  refine ⟨⟨stage_none hf, hm⟩, ?_⟩
  rintro r L' ⟨rfl, -⟩
  exact hq r

theorem wp_addOff (hf : L.Going) (hm : f ∈ L.files) (hq : Q () L) :
    (addOff f n).wp (rules al) Q L := by
  refine ⟨⟨stage_none hf, hm⟩, ?_⟩
  rintro r L' ⟨rfl, -⟩
  exact hq

theorem wp_ilock_borrow {w : Bool} (hf : L.Going) (hl : ∀ k, L.locks k = none)
    (ha : L.alloc = none) (hb : L.borrow = some (f, k, w))
    (hq : ∀ h : Held, h.valid = true → Q () (L.setLock k (some h))) : (ilock k).wp (rules al) Q L :=
  wp_ilock hf (.inr ⟨f, w, hb⟩) (fun k' _ hk' => (nomatch (hl k').symm.trans hk')) (fun _ h => (nomatch ha.symm.trans h))
    fun _ _ _ => hq _ rfl

theorem wp_iunlock_only (hf : L.Going) (hg : ∀ k, g k = none)
    (hk : L.locks = Function.update g k (some h)) (hq : ∀ plain, Q () { L with locks := g, plain }) :
    (iunlock k).wp (rules al) Q L := by
  refine wp_iunlock hf (h := h) (by rw [hk, Function.update_self]) ?_
  dsimp only [Ledger.setLock]
  rw [hk, Function.update_idem, update_none (hg k)]
  exact hq _

theorem wp_fileread {Q : Int → Ledger → Prop} {env : Option (List Byte)} (hf : L.Going)
    (hm : f ∈ L.files) (hbl : f ∉ L.blank) (hl : ∀ k, L.locks k = none) (ha : L.alloc = none)
    (hq : ∀ r borrow plain, Q r { L with borrow, plain }) : (fileread f n env).wp (rules al) Q L := by
  refine wp_bind (wp_file hf hm hbl hl (fun x _ hty => ?_) fun x hty _ => ?_)
  · split
    · exact hq _ _ _
    · simp only [hty]
      refine wp_bind (wp_ilock_borrow hf hl ha rfl fun h hv => ?_)
      refine wp_bind (wp_fileOff hf hm fun off => ?_)
      refine wp_bind (wp_readi hf setLock_self hv (.inr ⟨f, _, rfl⟩)
        (fun k' hk' => (setLock_ne hk').trans (hl k')) ha fun r h' plain hv' => ?_)
      dsimp only [Ledger.setLock]
      rw [Function.update_idem]
      cases r with
      | none => exact wp_bind (wp_iunlock_only hf hl rfl fun plain => hq _ _ _)
      | some bytes =>
        dsimp only
        split
        · refine wp_bind (wp_addOff hf hm ?_)
          exact wp_bind (wp_iunlock_only hf hl rfl fun plain => hq _ _ _)
        · exact wp_bind (wp_iunlock_only hf hl rfl fun plain => hq _ _ _)
  · split
    · exact hq _ _ _
    · match hx : x.type with
      | .pipe => exact hq _ _ _
      | .none => exact wp_panic hf
      | .inode => exact absurd hx hty

theorem wp_filestat {Q : Int → Ledger → Prop} (hf : L.Going) (hm : f ∈ L.files) (hbl : f ∉ L.blank)
    (hl : ∀ k, L.locks k = none) (ha : L.alloc = none) (hq : ∀ r borrow plain, Q r { L with borrow, plain }) :
    (filestat f).wp (rules al) Q L := by
  refine wp_bind (wp_file hf hm hbl hl (fun x _ hty => ?_) fun x hty _ => ?_)
  · rw [if_pos hty]
    refine wp_bind (wp_ilock_borrow hf hl ha rfl fun h hv => ?_)
    refine wp_bind (wp_peek hf setLock_self hv fun y => ?_)
    rw [setLock_setLock]
    exact wp_bind (wp_iunlock_only hf hl rfl fun plain => hq _ _ _)
  · rw [if_neg hty]
    exact hq _ _ _

theorem wp_filewriteLoop {Q : Bool → Ledger → Prop} {c : Nat}
    (hf : L.Going) (hm : f ∈ L.files) (hbl : f ∉ L.blank) (hl : ∀ k, L.locks k = none) (ha : L.alloc = none)
    (hb : L.borrow = some (f, k, true)) (hq : ∀ r plain quiet, Q r { L with plain, quiet }) :
    (filewriteLoop f c addr).wp (rules al) Q { L with plain, quiet } := by
  induction c generalizing addr plain quiet with
  | zero => exact hq _ _ _
  | succ c ih =>
    rw [filewriteLoop]
    split
    · exact hq _ _ _
    · refine wp_bind (wp_beginOp hf ?_)
      refine wp_bind (wp_file hf hm hbl hl (fun x hx hty => ?_) fun x _ hnone => ?_)
      · obtain ⟨hip, hw⟩ := hx k true hb
        rw [hip, hw]
        refine wp_bind (wp_ilock_borrow hf hl ha rfl fun h hv => ?_)
        refine wp_bind (wp_fileOff hf hm fun off => ?_)
        refine wp_bind (wp_writei hf setLock_self hv rfl (fun k' hk' => (setLock_ne hk').trans (hl k')) ha
          fun r h' plain' quiet' hv' => ?_)
        dsimp only [Ledger.setLock]
        rw [Function.update_idem, ← hb]
        cases r with
        | none =>
          refine wp_bind (wp_iunlock_only hf hl rfl fun plain => ?_)
          exact wp_bind (wp_endOp hf (Nat.succ_pos _) (hq _ _ _))
        | some n =>
          dsimp only
          split
          · refine wp_bind (wp_addOff hf hm ?_)
            refine wp_bind (wp_iunlock_only hf hl rfl fun plain => ?_)
            refine wp_bind (wp_endOp hf (Nat.succ_pos _) ?_)
            split
            · exact wp_panic hf
            · exact ih
          · refine wp_bind (wp_iunlock_only hf hl rfl fun plain => ?_)
            refine wp_bind (wp_endOp hf (Nat.succ_pos _) ?_)
            split
            · exact wp_panic hf
            · exact ih
      · rw [show ({ L with plain, quiet, ops := L.ops + 1 } : Ledger).borrow = some (f, k, true) from hb] at hnone
        simp at hnone

theorem wp_filewrite {Q : Int → Ledger → Prop} {env : Int} (hf : L.Going)
    (hm : f ∈ L.files) (hbl : f ∉ L.blank) (hl : ∀ k, L.locks k = none) (ha : L.alloc = none)
    (hq : ∀ r borrow plain quiet, Q r { L with borrow, plain, quiet }) : (filewrite f addr env).wp (rules al) Q L := by
  refine wp_bind (wp_file hf hm hbl hl (fun x _ hty => ?_) fun x hty _ => ?_)
  · split
    · exact hq _ _ _ _
    · rename_i hw
      simp only [hty]
      rw [Bool.not_eq_false] at hw
      exact wp_bind (wp_filewriteLoop (L := { L with borrow := some (f, x.ip, x.writable) }) hf hm hbl hl ha
        (by rw [hw]) fun r plain quiet => hq _ _ _ _)
  · split
    · exact hq _ _ _ _
    · match hx : x.type with
      | .pipe => exact hq _ _ _ _
      | .none => exact wp_panic hf
      | .inode => exact absurd hx hty

/-! ### Files -/

theorem wp_ofile {Q : Option (Fin nofile × FileIx) → Ledger → Prop} {fd : Int} (hf : L.Going)
    (hq : Q (L.proc.argfd fd) L) : (ofile fd).wp (rules al) Q L := by
  refine ⟨⟨stage_none hf, trivial⟩, ?_⟩
  rintro r L' ⟨⟨rfl, rfl⟩, -⟩
  exact hq

theorem wp_fdalloc {Q : Option (Fin nofile) → Ledger → Prop} (hf : L.Going)
    (hsome : ∀ fd, L.proc.freeFd = some fd → Q (some fd) { L with proc := L.proc.setFd fd (some f), quiet := false })
    (hnone : L.proc.freeFd = none → Q none L) : (fdalloc f).wp (rules al) Q L := by
  refine ⟨⟨stage_none hf, trivial⟩, ?_⟩
  rintro r L' ⟨⟨rfl, hm⟩, -⟩
  split at hm
  · rename_i fd hfd
    subst hm
    rw [hfd]
    exact hsome fd hfd
  · rename_i hfd
    subst hm
    rw [hfd]
    exact hnone hfd

theorem wp_fdclear (hf : L.Going)
    (hq : Q () { L with proc := L.proc.setFd fd none, quiet := false }) : (fdclear fd).wp (rules al) Q L := by
  refine ⟨⟨stage_none hf, trivial⟩, ?_⟩
  rintro r L' ⟨rfl, -⟩
  exact hq

theorem wp_filealloc {Q : Option FileIx → Ledger → Prop} (hf : L.Going)
    (hnone : (al = true → L.room = false) → Q none L)
    (hsome : ∀ f room, f ∉ L.files → Q (some f) { L with files := f ::ₘ L.files, blank := insert f L.blank, room }) :
    filealloc.wp (rules al) Q L := by
  refine ⟨⟨stage_none hf, trivial⟩, ?_⟩
  rintro r L' ⟨hm, ht⟩
  match r with
  | none =>
    obtain rfl : L' = L := hm
    exact hnone fun h => ht h rfl
  | some f =>
    obtain ⟨hm, room, rfl⟩ := hm
    exact hsome f room hm

section
variable (hL : Rest L) (hlive : L.proc.state = .live) (hb : L.borrow = none) {fd : Int}
include hL

theorem Rest.mem_files {n : Int} {fd : Fin nofile} (h : L.proc.argfd n = some (fd, f)) : f ∈ L.files ∧ f ∉ L.blank :=
  ⟨hL.files ▸ Xv6.Fs.mem_files.mpr ⟨fd, argfd_some h⟩, by simp [hL.blank]⟩

include hlive

theorem sysDup_ends : (sysDup fd).wp (rules al) (Ends al L False) L := by
  refine wp_bind (wp_ofile (hL.going hlive) ?_)
  match hfd : L.proc.argfd fd with
  | none => exact ⟨hL, fun _ h => h.elim⟩
  | some (fd', f) =>
    refine wp_bind (wp_fdalloc (hL.going hlive) (fun fd'' hfree => ?_) fun _ => ⟨hL, fun _ h => h.elim⟩)
    refine wp_bind ⟨⟨stage_none (hL.going hlive), hL.mem_files hfd⟩, ?_⟩
    rintro r L' ⟨rfl, -⟩
    refine ⟨⟨hL.locks, hL.freeing, hL.alloc, hL.blank, hL.ops, hL.debt, hL.refs, ?_⟩, fun _ h => h.elim⟩
    exact (congrArg (f ::ₘ ·) hL.files).trans (files_setFd (freeFd_some hfree)).symm

theorem sysRead_ends {n : Option Nat} {env : Option (List Byte)} :
    (sysRead fd n env).wp (rules al) (Ends al L False) L := by
  refine wp_bind (wp_ofile (hL.going hlive) ?_)
  match hfd : L.proc.argfd fd, n with
  | some (fd', f), some n =>
    obtain ⟨hm, hbl⟩ := hL.mem_files hfd
    exact wp_fileread (hL.going hlive) hm hbl hL.locks hL.alloc fun r borrow plain => ⟨hL.of, fun _ h => h.elim⟩
  | none, _ => exact ⟨hL, fun _ h => h.elim⟩
  | some _, none => exact ⟨hL, fun _ h => h.elim⟩

theorem sysWrite_ends {addr : Option (List Byte)} {env : Int} :
    (sysWrite fd addr env).wp (rules al) (Ends al L False) L := by
  refine wp_bind (wp_ofile (hL.going hlive) ?_)
  match hfd : L.proc.argfd fd, addr with
  | some (fd', f), some addr =>
    obtain ⟨hm, hbl⟩ := hL.mem_files hfd
    exact wp_filewrite (hL.going hlive) hm hbl hL.locks hL.alloc fun r borrow plain quiet => ⟨hL.of, fun _ h => h.elim⟩
  | none, _ => exact ⟨hL, fun _ h => h.elim⟩
  | some _, none => exact ⟨hL, fun _ h => h.elim⟩

theorem sysFstat_ends {ok : Bool} : (sysFstat fd ok).wp (rules al) (Ends al L False) L := by
  refine wp_bind (wp_ofile (hL.going hlive) ?_)
  match hfd : L.proc.argfd fd, ok with
  | some (fd', f), true =>
    obtain ⟨hm, hbl⟩ := hL.mem_files hfd
    exact wp_filestat (hL.going hlive) hm hbl hL.locks hL.alloc fun r borrow plain => ⟨hL.of, fun _ h => h.elim⟩
  | none, _ => exact ⟨hL, fun _ h => h.elim⟩
  | some _, false => exact ⟨hL, fun _ h => h.elim⟩

include hb

theorem sysClose_ends : (sysClose fd).wp (rules al) (Ends al L False) L := by
  refine wp_bind (wp_ofile (hL.going hlive) ?_)
  match hfd : L.proc.argfd fd with
  | none => exact ⟨hL, fun _ h => h.elim⟩
  | some (fd', f) =>
    refine wp_bind (wp_fdclear (hL.going hlive) ?_)
    refine wp_bind (wp_fileclose (hL.going hlive)
      (hL.files.trans (files_clear (argfd_some hfd))) hb (hL.mem_files hfd).2 hL.locks
      hL.debt fun plain quiet room => ?_)
    exact ⟨⟨hL.locks, hL.freeing, hL.alloc, hL.blank, hL.ops, hL.debt, hL.refs, rfl⟩, fun _ h => h.elim⟩

end

/-! ### link -/

theorem wp_sysLinkBad {Q : Int → Ledger → Prop} (hf : L.Going)
    (hr : L.refs = (k, i) ::ₘ R) (hl : ∀ k, L.locks k = none) (ha : L.alloc = none) (hd : L.debt = Pi.single i 1)
    (ho : 0 < L.ops)
    (hq : ∀ plain quiet, Drops al L R plain quiet →
      Q (-1) { L with refs := R, debt := 0, ops := L.ops - 1, plain, quiet }) :
    (sysLinkBad k).wp (rules al) Q L := by
  refine wp_bind (wp_ilock_first hf (hr ▸ Multiset.mem_cons_self ..) hl ha ?_)
  refine wp_bind (wp_addNlink hf setLock_self rfl (.inr ⟨rfl, ?_⟩) ?_)
  · have h1 : 1 ≤ L.debt i := by rw [hd, Pi.single_eq_same]
    exact h1
  · have hzero : L.debt + Pi.single i (BitVec.toInt (-1 : BitVec 16)) = 0 := by
      rw [hd, show BitVec.toInt (-1 : BitVec 16) = -1 by decide, Pi.single_neg, add_neg_cancel]
    refine wp_bind (wp_iunlockput hf hr setLock_self (Ledger.backed_zero hzero) fun plain quiet hp => ?_)
    refine wp_bind (wp_endOp hf ho ?_)
    dsimp only [Ledger.setLock]
    rw [Function.update_idem, update_none (hl k), show (Held.fresh i).inum = i from rfl, hzero]
    exact hq plain quiet ⟨hp.plain, hp.quiet⟩

theorem wp_sysLinkTo {new : Path} {Q : Int → Ledger → Prop} (hf : L.Going)
    (hc : L.Home) (hr : L.refs = (k, i) ::ₘ R) (hl : ∀ k, L.locks k = none) (ha : L.alloc = none)
    (hd : L.debt = Pi.single i 1) (ho : 0 < L.ops) (hplain : (k, i) ∈ L.plain)
    (hbad : ∀ plain quiet, (al = true → quiet = L.quiet) →
      Q (-1) { L with refs := R, debt := 0, ops := L.ops - 1, plain, quiet })
    (hok : ∀ plain quiet, Q 0 { L with refs := R, debt := 0, ops := L.ops - 1, plain, quiet }) :
    (sysLinkTo k new).wp (rules al) Q L := by
  have hmem : (k, i) ∈ L.refs := hr ▸ Multiset.mem_cons_self ..
  have hback : L.Backed L.refs := fun _ j hj => by
    rw [hd] at hj
    obtain rfl : j = i := by
      by_contra hne
      exact hj (Pi.single_eq_of_ne hne _)
    exact ⟨k, hmem⟩
  refine wp_bind (wp_namex hf hc hl ha hback (fun plain quiet hp => ?_) fun dp d name plain quiet hp hname => ?_)
  · exact wp_sysLinkBad hf hr hl ha hd ho fun plain' quiet' hp' => hbad plain' quiet' fun hal =>
      (hp'.quiet_eq hal).trans (hp.quiet_eq hal)
  · have hsub : ∀ x ∈ L.refs, x ∈ (dp, d) ::ₘ L.refs := fun x hx => Multiset.mem_cons_of_mem hx
    refine wp_bind (wp_ilock_first hf (Multiset.mem_cons_self ..) hl ha ?_)
    refine wp_bind (wp_inumOf hf (hsub _ hmem) ?_)
    have hdebt : L.debt - Pi.single i 1 -
        (if L.alloc.any (fun a => a.inum = i ∧ a.kind = .dir) then Pi.single (Held.fresh d).inum 1 else 0) = 0 := by
      rw [hd, ha, sub_self]
      exact sub_zero _
    have halloc : L.alloc.filter (fun a => a.inum ≠ i) = none := by rw [ha]; rfl
    refine wp_bind (wp_dirlink hf setLock_self rfl (fun k' h hk' => ?_) (hp.backed hback hsub) rfl (hname rfl) ?_
      (.inl ⟨k, hp.plain _ hplain hmem⟩) hdebt halloc (fun h' plain' quiet' hp' => ?_) ?_)
    · by_cases h1 : k' = dp
      · exact ⟨d, h1 ▸ Multiset.mem_cons_self ..⟩
      · cases ((setLock_ne h1).trans (hl k')).symm.trans hk'
    · have h1 : 1 ≤ L.debt i := by rw [hd, Pi.single_eq_same]
      exact h1
    · have hp1 : Drops al L L.refs plain' quiet' := hp.trans hp' hsub
      refine wp_bind (wp_iunlockput hf rfl (Function.update_self ..) (hp1.backed hback fun _ h => h)
        fun plain'' quiet'' hp'' => ?_)
      dsimp only [Ledger.setLock]
      simp only [Function.update_idem, update_none (hl dp)]
      exact wp_sysLinkBad hf hr hl ha hd ho fun plain3 quiet3 hp3 => hbad plain3 quiet3 fun hal =>
        (hp3.quiet_eq hal).trans ((hp1.trans hp'' fun _ h => h).quiet_eq hal)
    · refine wp_bind (wp_iunlockput hf rfl (Function.update_self ..) (Ledger.backed_zero rfl) fun plain' quiet' hp' => ?_)
      dsimp only [Ledger.setLock]
      simp only [Function.update_idem, update_none (hl dp)]
      refine wp_bind (wp_iput hf hr (fun h hk => (nomatch (hl k).symm.trans hk)) (Ledger.backed_zero rfl)
        fun plain'' quiet'' _ => ?_)
      refine wp_bind (wp_endOp hf ho ?_)
      rw [← ha]
      exact hok plain'' quiet''

theorem sysLink_ends {old new : Option Path} (hL : Rest L) (hlive : L.proc.state = .live) :
    (sysLink old new).wp (rules al) (Ends al L True) L := by
  have hf := hL.going hlive
  have hl := hL.locks
  have ha := hL.alloc
  match old, new with
  | none, _ => exact ⟨hL, fun _ _ _ => ⟨rfl, rfl⟩⟩
  | some _, none => exact ⟨hL, fun _ _ _ => ⟨rfl, rfl⟩⟩
  | some old, some new =>
    refine wp_bind (wp_beginOp hf ?_)
    refine wp_bind (wp_namei hf hL.home hl ha (Ledger.backed_zero hL.debt) (fun plain quiet hp => ?_)
      fun ip i plain quiet hp => ?_)
    · exact wp_bind (wp_endOp hf (Nat.succ_pos _) ⟨hL.of, fun hal _ _ => ⟨hp.quiet_eq hal, rfl⟩⟩)
    · refine wp_bind (wp_ilock_first hf (Multiset.mem_cons_self ..) hl ha ?_)
      refine wp_bind (wp_peek hf setLock_self rfl fun x => ?_)
      rw [setLock_setLock]
      split
      · refine wp_bind (wp_iunlockput hf rfl setLock_self (Ledger.backed_zero hL.debt) fun plain' quiet' hp' => ?_)
        refine wp_bind (wp_endOp hf (Nat.succ_pos _) ?_)
        dsimp only [Ledger.setLock]
        rw [Function.update_idem, update_none (hl ip)]
        exact ⟨hL.of, fun hal _ _ => ⟨(hp.trans hp' fun _ h => h).quiet_eq hal, rfl⟩⟩
      · rename_i hx
        refine wp_bind (wp_addNlink hf setLock_self rfl (.inl rfl) ?_)
        have hone : L.debt + Pi.single (Held.fresh i).inum (BitVec.toInt (1 : BitVec 16)) = Pi.single i 1 := by
          rw [hL.debt, zero_add]
          rfl
        refine wp_bind (wp_iunlock hf setLock_self ?_)
        dsimp only [Ledger.setLock]
        rw [Function.update_idem, update_none (hl ip), hone]
        have hhome : ∀ k, L.proc.cwd = some k → ∃ j, (k, j) ∈ (ip, i) ::ₘ L.refs := fun k hk =>
          (hL.home k hk).imp fun _ => Multiset.mem_cons_of_mem
        refine wp_sysLinkTo hf hhome rfl hl ha rfl (Nat.succ_pos _) (.inr ⟨?_, rfl, Multiset.mem_cons_self ..⟩)
          (fun plain' quiet' hq => ?_) fun plain' quiet' => ?_
        · rw [decide_eq_false hx]
        · exact ⟨⟨hl, hf.2, ha, hL.blank, hL.ops, rfl, hL.refs, hL.files⟩,
            fun hal _ _ => ⟨(hq hal).trans (hp.quiet_eq hal), rfl⟩⟩
        · exact ⟨⟨hl, hf.2, ha, hL.blank, hL.ops, rfl, hL.refs, hL.files⟩, fun _ _ h => (nomatch h)⟩

/-! ### unlink -/

theorem wp_sysUnlinkBad {Q : Int → Ledger → Prop}
    (hf : L.Going) (hr : L.refs = (k, i) ::ₘ R) (hg : ∀ k, g k = none)
    (hk : L.locks = Function.update g k (some h)) (hd : L.debt = 0) (ho : 0 < L.ops)
    (hq : ∀ plain quiet, Drops al L R plain quiet →
      Q (-1) { L with locks := g, refs := R, ops := L.ops - 1, plain, quiet }) :
    (sysUnlinkBad k).wp (rules al) Q L := by
  refine wp_bind (wp_iunlockput hf hr (h := h) (by rw [hk, Function.update_self]) (Ledger.backed_zero hd)
    fun plain quiet hp => ?_)
  refine wp_bind (wp_endOp hf ho ?_)
  dsimp only [Ledger.setLock]
  rw [hk, Function.update_idem, update_none (hg k)]
  exact hq plain quiet hp

theorem wp_unlinkTest {Q : Bool → Ledger → Prop} (hf : L.Going) (hk : L.locks k = some h)
    (hv : h.valid = true) (hdir : h.dir = some (decide (x.kind = .dir)))
    (hq : ∀ h' r, h'.inum = h.inum → h'.valid = true → h'.dir = h.dir → (r = true → x.kind = .dir → h'.empty = true) →
      Q r { L with locks := Function.update L.locks k (some h') }) : (unlinkTest k x).wp (rules al) Q L := by
  unfold unlinkTest
  split
  · rename_i hx
    refine ⟨⟨stage_none hf, h, hk, hv, by rw [hdir, decide_eq_true hx]⟩, ?_⟩
    rintro r L' ⟨hm, -⟩
    rw [hm h hk]
    exact hq _ r rfl hv rfl fun h _ => h
  · rename_i hx
    rw [wp_pure]
    have := hq h true rfl hv rfl fun _ h => absurd h hx
    rwa [← hk, Function.update_eq_self] at this

theorem wp_unlinkWrite {b : Bool}
    (hf : L.Going) (hk : L.locks k = some h) (hv : h.valid = true) (hs : h.scan = some (name, some (off, j)))
    (hn1 : name ≠ dot) (hn2 : name ≠ dotdot) (hip : L.locks ip = some hp) (hpi : hp.inum = j) (hpv : hp.valid = true)
    (hdir : hp.dir = some b) (he : b = true → hp.empty = true)
    (hq : Q () { L with
      locks := Function.update L.locks k (some { h with scan := none, free := none, empty := false })
      debt := L.debt + Pi.single j 1 + if b then Pi.single h.inum 1 else 0
      quiet := false }) : (unlinkWrite k off).wp (rules al) Q L := by
  refine ⟨⟨stage_none hf, h, name, j, ip, hp, b, hk, hv, hs, hn1, hn2, hip, hpi, hpv, hdir, he⟩, ?_⟩
  rintro r L' ⟨hm, -⟩
  rw [hm h name j ip hp b hk hs hip hpi hdir]
  exact hq

theorem wp_unlinkParent {D : Nat → Int} (hf : L.Going)
    (hk : L.locks k = some h) (hv : h.valid = true) (hD : ∀ i, 0 ≤ D i)
    (hd : L.debt = D + if x.kind = .dir then Pi.single h.inum 1 else 0)
    (hq : Q () { L with debt := D }) : (unlinkParent k x).wp (rules al) Q L := by
  unfold unlinkParent
  split
  · rename_i hx
    rw [if_pos hx] at hd
    refine wp_addNlink hf hk hv (.inr ⟨rfl, ?_⟩) ?_
    · rw [hd, Pi.add_apply, Pi.single_eq_same]
      have := hD h.inum
      omega
    · have hback : L.debt + Pi.single h.inum (BitVec.toInt (-1 : BitVec 16)) = D := by
        rw [hd, show BitVec.toInt (-1 : BitVec 16) = -1 by decide, Pi.single_neg, add_neg_cancel_right]
      rw [hback]
      exact hq
  · rename_i hx
    rw [if_neg hx, add_zero] at hd
    subst hd
    exact hq

theorem wp_sysUnlinkDo {Q : Int → Ledger → Prop} {dp : Slot} {d : Nat} {hi : Held}
   
    (hf : L.Going) (hne : ip ≠ dp) (hg : ∀ k, g k = none)
    (hl : L.locks = Function.update (Function.update g dp (some hp)) ip (some hi))
    (hr : L.refs = (dp, d) ::ₘ (ip, j) ::ₘ R) (hpv : hp.valid = true) (hps : hp.scan = some (name, some (off, j)))
    (hn1 : name ≠ dot) (hn2 : name ≠ dotdot) (hii : hi.inum = j) (hiv : hi.valid = true)
    (hdir : hi.dir = some (decide (x.kind = .dir))) (he : x.kind = .dir → hi.empty = true) (hd : L.debt = 0)
      (ho : 0 < L.ops)
    (hq : ∀ plain quiet, Q 0 { L with locks := g, refs := R, debt := 0, ops := L.ops - 1, plain, quiet }) :
    (sysUnlinkDo dp ip off x).wp (rules al) Q L := by
  have hdp : L.locks dp = some hp := by rw [hl, Function.update_of_ne (Ne.symm hne), Function.update_self]
  have hip : L.locks ip = some hi := by rw [hl, Function.update_self]
  have hback : ∀ {M : Ledger} {S}, M.quiet = false → M.Backed S := fun hM h => (nomatch hM.symm.trans h)
  refine wp_bind (wp_unlinkWrite hf hdp hpv hps hn1 hn2 hip hii hiv hdir (fun h => he (of_decide_eq_true h)) ?_)
  refine wp_bind (wp_unlinkParent (D := Pi.single j 1) hf (Function.update_self ..) hpv (fun l => ?_) ?_ ?_)
  · rw [Pi.single_apply]
    split <;> decide
  · dsimp only
    rw [hd, zero_add]
    simp only [decide_eq_true_eq]
  · refine wp_bind (wp_iunlockput hf hr (Function.update_self ..) (hback rfl) fun plain quiet hpq => ?_)
    have hquiet : quiet = false := by
      rcases hpq.quiet with h | h
      · exact h
      · exact h.1
    dsimp only [Ledger.setLock]
    rw [Function.update_idem, hl, Function.update_comm hne, Function.update_idem, update_none (hg dp)]
    refine wp_bind (wp_addNlink hf (h := hi) (Function.update_self ..) hiv (.inr ⟨rfl, ?_⟩) ?_)
    · have h1 : 1 ≤ (Pi.single j 1 : Nat → Int) hi.inum := by rw [hii, Pi.single_eq_same]
      exact h1
    · have hzero : (Pi.single j 1 : Nat → Int) + Pi.single hi.inum (BitVec.toInt (-1 : BitVec 16)) = 0 := by
        rw [hii, show BitVec.toInt (-1 : BitVec 16) = -1 by decide, Pi.single_neg, add_neg_cancel]
      rw [hzero]
      refine wp_bind (wp_iunlockput hf rfl (Function.update_self ..) (hback hquiet) fun plain' quiet' _ => ?_)
      refine wp_bind (wp_endOp hf ho ?_)
      dsimp only [Ledger.setLock]
      rw [Function.update_idem, update_none (hg ip)]
      exact hq plain' quiet'

theorem sysUnlink_ends (hL : Rest L) (hlive : L.proc.state = .live) :
    (sysUnlink path).wp (rules al) (Ends al L True) L := by
  have hf := hL.going hlive
  have hl := hL.locks
  have ha := hL.alloc
  have hback : ∀ {M : Ledger} {S}, M.debt = L.debt → M.Backed S := fun hM => Ledger.backed_zero (hM.trans hL.debt)
  match path with
  | none => exact ⟨hL, fun _ _ _ => ⟨rfl, rfl⟩⟩
  | some path =>
    refine wp_bind (wp_beginOp hf ?_)
    refine wp_bind (wp_namex hf hL.home hl ha (hback rfl) (fun plain quiet hp => ?_) fun dp d name plain quiet hp _ => ?_)
    · exact wp_bind (wp_endOp hf (Nat.succ_pos _) ⟨hL.of, fun hal _ _ => ⟨hp.quiet_eq hal, rfl⟩⟩)
    · refine wp_bind (wp_ilock_first hf (Multiset.mem_cons_self ..) hl ha ?_)
      split
      · exact wp_sysUnlinkBad hf rfl hl rfl hL.debt (Nat.succ_pos _) fun plain' quiet' hp' =>
          ⟨hL.of, fun hal _ _ => ⟨(hp.trans hp' fun _ h => h).quiet_eq hal, rfl⟩⟩
      · rename_i hname
        rw [not_or] at hname
        refine wp_bind (wp_dirlookup hf setLock_self rfl ?_ fun off j ip => ?_)
        · rw [setLock_setLock]
          exact wp_sysUnlinkBad hf rfl hl rfl hL.debt (Nat.succ_pos _) fun plain' quiet' hp' =>
            ⟨hL.of, fun hal _ _ => ⟨(hp.trans hp' fun _ h => h).quiet_eq hal, rfl⟩⟩
        · rw [setLock_setLock]
          dsimp only [Ledger.setLock]
          refine wp_bind (wp_ilock hf (.inl ⟨j, Multiset.mem_cons_self ..⟩) (fun k' h hk' => ?_)
            (fun a h => (nomatch ha.symm.trans h)) fun j' hfree hj => ?_)
          · -- The only lock is that of the directory, which names the inode.
            by_cases h1 : k' = dp
            · subst h1
              cases (Function.update_self ..).symm.trans hk'
              exact .inl ⟨name, off, j, rfl, hname.1, hname.2, Multiset.mem_cons_self ..⟩
            · cases ((Function.update_of_ne h1 ..).trans (hl k')).symm.trans hk'
          · obtain rfl := hj j (Multiset.mem_cons_self ..)
            have hne : ip ≠ dp := by
              rintro rfl
              cases (Function.update_self ..).symm.trans hfree
            refine wp_bind (wp_peek hf setLock_self rfl fun x => ?_)
            rw [setLock_setLock]
            split
            · exact wp_panic hf
            · refine wp_bind (wp_unlinkTest hf setLock_self rfl rfl fun hi r hii hiv hdir he => ?_)
              dsimp only [Ledger.setLock]
              rw [Function.update_idem]
              split
              · refine wp_bind (wp_iunlockput hf rfl (Function.update_self ..) (hback rfl) fun plain' quiet' hp' => ?_)
                dsimp only [Ledger.setLock]
                rw [Function.update_idem, update_none ((Function.update_of_ne hne ..).trans (hl ip))]
                have hsub : ∀ x ∈ L.refs, x ∈ (dp, d) ::ₘ L.refs := fun x hx => Multiset.mem_cons_of_mem hx
                exact wp_sysUnlinkBad hf rfl hl rfl hL.debt (Nat.succ_pos _) fun plain'' quiet'' hp'' =>
                  ⟨hL.of, fun hal _ _ => ⟨(hp''.quiet_eq hal).trans ((hp.trans hp' hsub).quiet_eq hal), rfl⟩⟩
              · rename_i hr
                refine wp_sysUnlinkDo hf hne hl rfl (Multiset.cons_swap ..) rfl rfl hname.1 hname.2 hii hiv hdir
                  (he (by simpa using hr)) hL.debt (Nat.succ_pos _) fun plain' quiet' => ?_
                exact ⟨⟨hl, hf.2, ha, hL.blank, hL.ops, rfl, hL.refs, hL.files⟩, fun _ _ h => (nomatch h)⟩

/-! ### open, mkdir, mknod and chdir -/

theorem wp_iunlockput_only
    (hf : L.Going) (hr : L.refs = (k, i) ::ₘ R) (hg : ∀ k, g k = none)
    (hk : L.locks = Function.update g k (some h)) (hd : L.debt = 0)
    (hq : ∀ plain quiet, Drops al L R plain quiet → Q () { L with locks := g, refs := R, plain, quiet }) :
    (iunlockput k).wp (rules al) Q L := by
  refine wp_iunlockput hf hr (h := h) (by rw [hk, Function.update_self]) (Ledger.backed_zero hd) fun plain quiet hp => ?_
  dsimp only [Ledger.setLock]
  rw [hk, Function.update_idem, update_none (hg k)]
  exact hq plain quiet hp

theorem wp_setFile_inode
    (hf : L.Going) (hb : f ∈ L.blank) (hl : L.locks k = none) (hr : L.refs = (k, i) ::ₘ R)
    (hw : writable = true → (k, i) ∈ L.plain)
    (hq : ∀ plain, Q () { L with refs := R, blank := L.blank.erase f, plain, quiet := false }) :
    (setFile f .inode readable writable k).wp (rules al) Q L := by
  have hmem : (k, i) ∈ L.refs := hr ▸ Multiset.mem_cons_self ..
  refine ⟨⟨stage_none hf, hb, hl, i, hmem, hw⟩, ?_⟩
  rintro r L' ⟨⟨j, S, hS, hj, rfl⟩, -⟩
  obtain rfl := hj i hmem
  obtain rfl := (Multiset.cons_inj_right _).mp (hr.symm.trans hS)
  exact hq _

theorem wp_sysOpenFile {Q : Int → Ledger → Prop} {omode : BitVec 32}
    (hf : L.Going) (hr : L.refs = (k, i) ::ₘ R) (hg : ∀ k, g k = none)
    (hk : L.locks = Function.update g k (some h)) (hi : h.inum = i) (hd : L.debt = 0) (hbl : L.blank = ∅)
    (hb : L.borrow = none) (ho : 0 < L.ops)
    (hw : (omode &&& 1 != 0 || omode &&& 2 != 0) = true → h.dir = some false)
    (hbad : ∀ plain quiet room, (al = true → quiet = L.quiet) → (al = true → L.room = false ∨ L.proc.freeFd = none) →
      Q (-1) { L with locks := g, refs := R, ops := L.ops - 1, plain, quiet, room })
    (hok : ∀ f fd plain room, L.proc.freeFd = some fd →
      Q fd.val { L with
        locks := g, refs := R, files := f ::ₘ L.files, proc := L.proc.setFd fd (some f), ops := L.ops - 1, plain
        quiet := false, room }) : (sysOpenFile k omode).wp (rules al) Q L := by
  refine wp_bind (wp_filealloc hf (fun hroom => ?_) fun f room _ => ?_)
  · refine wp_bind (wp_iunlockput_only hf hr hg hk hd fun plain quiet hp => ?_)
    exact wp_bind (wp_endOp hf ho (hbad plain quiet _ hp.quiet_eq fun hal => .inl (hroom hal)))
  · refine wp_bind (wp_fdalloc hf (fun fd hfd => ?_) fun hfd => ?_)
    · refine wp_bind (wp_iunlock hf (h := h) (by dsimp only; rw [hk, Function.update_self]) ?_)
      dsimp only [Ledger.setLock]
      rw [hk, Function.update_idem, update_none (hg k)]
      refine wp_bind (wp_endOp hf ho ?_)
      refine wp_bind (wp_setFile_inode hf (Finset.mem_insert_self ..) (hg k) hr (fun h => .inr ⟨hw h, by rw [hi], ?_⟩)
        fun plain => ?_)
      · exact hr ▸ Multiset.mem_cons_self ..
      · dsimp only
        rw [hbl, Finset.erase_insert (by simp), ← hbl]
        exact hok f fd plain room hfd
    · refine wp_bind (wp_fileclose_blank hf rfl hb (Finset.mem_insert_self ..) fun room' => ?_)
      dsimp only
      rw [hbl, Finset.erase_insert (by simp), ← hbl]
      refine wp_bind (wp_iunlockput_only hf hr hg hk hd fun plain quiet hp => ?_)
      exact wp_bind (wp_endOp hf ho (hbad plain quiet _ hp.quiet_eq fun _ => .inr hfd))

theorem Rest.opened (hL : Rest L)
    (hfd : L.proc.freeFd = some fd) :
    Rest { L with files := f ::ₘ L.files, proc := L.proc.setFd fd (some f), plain, quiet, room } :=
  ⟨hL.locks, hL.freeing, hL.alloc, hL.blank, hL.ops, hL.debt, hL.refs,
    (congrArg (f ::ₘ ·) hL.files).trans (files_setFd (freeFd_some hfd)).symm⟩

theorem locks_eq_update {g' : Slot → Option Held} (hg' : ∀ k, g' k = none) (hk : g k = some h)
    (hg : ∀ k' ≠ k, g k' = none) : g = Function.update g' k (some h) := by
  funext k'
  by_cases h1 : k' = k
  · rw [h1, hk, Function.update_self]
  · rw [hg k' h1, Function.update_of_ne h1, hg' k']

theorem sysOpen_ends {omode : Option (BitVec 32)} (hL : Rest L) (hlive : L.proc.state = .live) (hb : L.borrow = none) :
    (sysOpen path omode).wp (rules al) (Ends al L (L.spare = true)) L := by
  have hf := hL.going hlive
  have hl := hL.locks
  have ha := hL.alloc
  have hneg : ∀ fd : Fin nofile, (fd.val : Int) ≠ -1 := fun fd => by omega
  match path, omode with
  | none, _ => exact ⟨hL, fun _ _ _ => ⟨rfl, rfl⟩⟩
  | some _, none => exact ⟨hL, fun _ _ _ => ⟨rfl, rfl⟩⟩
  | some path, some omode =>
    refine wp_bind (wp_beginOp hf ?_)
    split
    · refine wp_bind (wp_create hf hL.home hl ha hL.debt (by decide) (fun plain quiet hp => ?_)
        fun ip i h g plain quiet hip hg hi hdir hq => ?_)
      · exact wp_bind (wp_endOp hf (Nat.succ_pos _) ⟨hL.of, fun hal _ _ => ⟨hp.quiet_eq hal, rfl⟩⟩)
      · refine wp_sysOpenFile (L :=
          { L with ops := L.ops + 1, locks := g, refs := (ip, i) ::ₘ L.refs, plain, quiet }) hf rfl hl
          (locks_eq_update hl hip hg) hi hL.debt hL.blank hb (Nat.succ_pos _) (fun _ => hdir)
          (fun plain' quiet' room hq' hfull => ⟨hL.of, fun hal hspare _ => ⟨(hq' hal).trans ?_, rfl⟩⟩)
          fun f fd plain' room hfd => ⟨hL.opened hfd, fun _ _ h => absurd h (hneg fd)⟩
        rcases hq hal with h | h
        · exact h
        · obtain ⟨hroom, hfd⟩ := h.2 hspare
          rcases hfull hal with h1 | h1
          · cases hroom.symm.trans h1
          · rw [show L.proc.freeFd = none from h1] at hfd
            cases hfd
    · refine wp_bind (wp_namei hf hL.home hl ha (Ledger.backed_zero hL.debt) (fun plain quiet hp => ?_)
        fun ip i plain quiet hp => ?_)
      · exact wp_bind (wp_endOp hf (Nat.succ_pos _) ⟨hL.of, fun hal _ _ => ⟨hp.quiet_eq hal, rfl⟩⟩)
      · refine wp_bind (wp_ilock_first hf (Multiset.mem_cons_self ..) hl ha ?_)
        refine wp_bind (wp_peek hf setLock_self rfl fun x => ?_)
        rw [setLock_setLock]
        split
        · refine wp_bind (wp_iunlockput_only hf rfl hl rfl hL.debt fun plain' quiet' hp' => ?_)
          exact wp_bind (wp_endOp hf (Nat.succ_pos _)
            ⟨hL.of, fun hal _ _ => ⟨(hp.trans hp' fun _ h => h).quiet_eq hal, rfl⟩⟩)
        · rename_i hx
          refine wp_sysOpenFile hf rfl hl rfl rfl hL.debt hL.blank hb (Nat.succ_pos _) (fun hw => ?_)
            (fun plain' quiet' room hq' _ => ⟨hL.of, fun hal _ _ => ⟨(hq' hal).trans (hp.quiet_eq hal), rfl⟩⟩)
            fun f fd plain' room hfd => ⟨hL.opened hfd, fun _ _ h => absurd h (hneg fd)⟩
          have hdir : x.kind ≠ .dir := fun hdir => hx ⟨hdir, by rintro rfl; simp at hw⟩
          rw [decide_eq_false hdir]

theorem wp_sysMade {Q : Int → Ledger → Prop} (hf : L.Going)
    (hr : L.refs = (k, i) ::ₘ R) (hg : ∀ k, g k = none) (hk : L.locks = Function.update g k (some h)) (hd : L.debt = 0)
    (ho : 0 < L.ops) (hq : ∀ plain quiet, Q 0 { L with locks := g, refs := R, ops := L.ops - 1, plain, quiet }) :
    (sysMade (some k)).wp (rules al) Q L :=
  wp_bind (wp_iunlockput_only hf hr hg hk hd fun plain quiet _ => wp_bind (wp_endOp hf ho (hq plain quiet)))

theorem create_ends {path : Path} {kind : Kind} {major minor : BitVec 16} (hL : Rest L) (hlive : L.proc.state = .live)
    (hkind : kind ≠ .free) :
    (do
      let r ← create path kind major minor
      sysMade r : P Int).wp (rules al) (Ends al L True) { L with ops := L.ops + 1 } := by
  have hf := hL.going hlive
  refine wp_bind (wp_create hf hL.home hL.locks hL.alloc hL.debt hkind (fun plain quiet hp => ?_)
    fun ip i h g plain quiet hip hg _ _ _ => ?_)
  · exact wp_bind (wp_endOp hf (Nat.succ_pos _) ⟨hL.of, fun hal _ _ => ⟨hp.quiet_eq hal, rfl⟩⟩)
  · exact wp_sysMade (L :=
      { L with ops := L.ops + 1, locks := g, refs := (ip, i) ::ₘ L.refs, plain, quiet }) hf rfl hL.locks
      (locks_eq_update hL.locks hip hg) hL.debt (Nat.succ_pos _) fun plain' quiet' => ⟨hL.of, fun _ _ h => (nomatch h)⟩

theorem sysMkdir_ends (hL : Rest L) (hlive : L.proc.state = .live) : (sysMkdir path).wp (rules al) (Ends al L True) L := by
  refine wp_bind (wp_beginOp (hL.going hlive) ?_)
  match path with
  | none => exact wp_bind (wp_endOp (hL.going hlive) (Nat.succ_pos _) ⟨hL, fun _ _ _ => ⟨rfl, rfl⟩⟩)
  | some path => exact create_ends hL hlive (by decide)

theorem sysMknod_ends {major minor : Option (BitVec 32)} (hL : Rest L) (hlive : L.proc.state = .live) :
    (sysMknod path major minor).wp (rules al) (Ends al L True) L := by
  have hnone : (sysMade none).wp (rules al) (Ends al L True) { L with ops := L.ops + 1 } :=
    wp_bind (wp_endOp (hL.going hlive) (Nat.succ_pos _) ⟨hL, fun _ _ _ => ⟨rfl, rfl⟩⟩)
  refine wp_bind (wp_beginOp (hL.going hlive) ?_)
  match path, major, minor with
  | some path, some major, some minor => exact create_ends hL hlive (by decide)
  | none, _, _ => exact hnone
  | some _, none, _ => exact hnone
  | some _, some _, none => exact hnone

theorem wp_iputCwd {S T : Multiset (Slot × Nat)} (hf : L.Going) (hl : ∀ k, L.locks k = none)
    (hd : L.debt = 0) (hr : L.refs = S + T) (hT : T.map Prod.fst = L.proc.dirs)
    (hq : ∀ plain quiet, Q () { L with refs := S, plain, quiet }) : iputCwd.wp (rules al) Q L := by
  refine wp_bind ⟨⟨stage_none hf, trivial⟩, ?_⟩
  rintro r L' ⟨⟨rfl, hcwd⟩, -⟩
  subst hcwd
  cases hc : L.proc.cwd with
  | none =>
    rw [Proc.dirs, hc, Option.elim_none, Multiset.map_eq_zero] at hT
    subst hT
    rw [add_zero] at hr
    subst hr
    exact hq _ _
  | some k =>
    rw [Proc.dirs, hc, Option.elim_some, Multiset.map_eq_singleton] at hT
    obtain ⟨⟨k', c⟩, rfl, rfl⟩ := hT
    rw [add_comm, Multiset.singleton_add] at hr
    exact wp_iput hf hr (fun h hk => (nomatch (hl _).symm.trans hk)) (Ledger.backed_zero hd) fun plain quiet _ => hq _ _

theorem sysChdirTo_some_ends (hL : Rest L) (hlive : L.proc.state = .live) (hp : Drops al L L.refs plain quiet) :
    (sysChdirTo (some k)).wp (rules al) (Ends al L True)
      { L with ops := L.ops + 1, refs := (k, i) ::ₘ L.refs, plain, quiet } := by
  have hf := hL.going hlive
  have hl := hL.locks
  refine wp_bind (wp_ilock_first hf (Multiset.mem_cons_self ..) hl hL.alloc ?_)
  refine wp_bind (wp_peek hf setLock_self rfl fun x => ?_)
  rw [setLock_setLock]
  split
  · refine wp_bind (wp_iunlockput_only hf rfl hl rfl hL.debt fun plain' quiet' hp' => ?_)
    exact wp_bind (wp_endOp hf (Nat.succ_pos _) ⟨hL.of, fun hal _ _ => ⟨(hp'.quiet_eq hal).trans (hp.quiet_eq hal), rfl⟩⟩)
  · refine wp_bind (wp_iunlock_only hf hl rfl fun plain' => ?_)
    refine wp_bind (wp_iputCwd (S := {(k, i)}) hf hl hL.debt (Multiset.singleton_add ..).symm hL.refs fun plain'' quiet'' =>
      ?_)
    refine wp_bind (wp_endOp hf (Nat.succ_pos _) ?_)
    refine wp_bind ⟨⟨stage_none hf, trivial⟩, ?_⟩
    rintro r L' ⟨rfl, -⟩
    exact ⟨⟨hl, hf.2, hL.alloc, hL.blank, hL.ops, hL.debt, rfl, hL.files⟩, fun _ _ h => (nomatch h)⟩

theorem sysChdir_ends (hL : Rest L) (hlive : L.proc.state = .live) : (sysChdir path).wp (rules al) (Ends al L True) L := by
  have hf := hL.going hlive
  refine wp_bind (wp_beginOp hf ?_)
  match path with
  | none => exact wp_bind (wp_endOp hf (Nat.succ_pos _) ⟨hL, fun _ _ _ => ⟨rfl, rfl⟩⟩)
  | some path =>
    refine wp_bind (wp_namei hf hL.home hL.locks hL.alloc (Ledger.backed_zero hL.debt) (fun plain quiet hp => ?_)
      fun ip i plain quiet hp => sysChdirTo_some_ends hL hlive ⟨hp.plain, hp.quiet⟩)
    exact wp_bind (wp_endOp hf (Nat.succ_pos _) ⟨hL.of, fun hal _ _ => ⟨hp.quiet_eq hal, rfl⟩⟩)

/-! ### pipe -/

theorem wp_setFile_pipe (hf : L.Going) (hb : f ∈ L.blank)
    (hq : Q () { L with blank := L.blank.erase f, quiet := false }) :
    (setFile f .pipe readable writable k).wp (rules al) Q L := by
  refine ⟨⟨stage_none hf, hb, trivial⟩, ?_⟩
  rintro r L' ⟨rfl, -⟩
  exact hq

theorem sysPipe_ends {ok : Bool} (hL : Rest L) (hlive : L.proc.state = .live) (hb : L.borrow = none) :
    (sysPipe ok mem).wp (rules al) (Ends al L False) L := by
  have hf := hL.going hlive
  have hend : ∀ {plain quiet room r}, Ends al L False r { L with plain, quiet, room } := ⟨hL.of, fun _ h => h.elim⟩
  unfold sysPipe
  split
  · exact hend
  · refine wp_bind (wp_filealloc hf (fun _ => hend) fun rf room _ => ?_)
    have hone : ∀ g, (insert g (∅ : Finset FileIx)).erase g = ∅ := fun g => by simp
    rw [hL.blank]
    refine wp_bind (wp_filealloc hf (fun _ => ?_) fun wf room' hwf => ?_)
    · refine wp_bind (wp_fileclose_blank hf rfl hb (Finset.mem_insert_self ..) fun room'' => ?_)
      dsimp only
      rw [hone, ← hL.blank]
      exact hend
    · have hne : rf ≠ wf := by
        rintro rfl
        exact hwf (Multiset.mem_cons_self ..)
      have htwo : (insert wf (insert rf (∅ : Finset FileIx))).erase rf = insert wf ∅ := by
        rw [Finset.erase_insert_of_ne (Ne.symm hne), hone]
      have hmem : rf ∈ insert wf (insert rf (∅ : Finset FileIx)) := by simp
      dsimp only
      split
      · refine wp_bind (wp_fileclose_blank hf (Multiset.cons_swap ..) hb hmem fun room'' => ?_)
        dsimp only
        rw [htwo]
        refine wp_bind (wp_fileclose_blank hf rfl hb (Finset.mem_insert_self ..) fun room3 => ?_)
        dsimp only
        rw [hone, ← hL.blank]
        exact hend
      · refine wp_bind (wp_setFile_pipe hf hmem ?_)
        dsimp only
        rw [htwo]
        refine wp_bind (wp_setFile_pipe hf (Finset.mem_insert_self ..) ?_)
        dsimp only
        rw [hone, ← hL.blank]
        have hnb : ∀ g, g ∉ L.blank := fun g => by simp [hL.blank]
        refine wp_bind (wp_fdalloc hf (fun fd0 hfd0 => ?_) fun _ => ?_)
        · refine wp_bind (wp_fdalloc hf (fun fd1 hfd1 => ?_) fun _ => ?_)
          · refine ⟨⟨hL.locks, hf.2, hL.alloc, hL.blank, hL.ops, hL.debt, hL.refs, ?_⟩, fun _ h => h.elim⟩
            dsimp only
            rw [files_setFd (freeFd_some hfd1), files_setFd (freeFd_some hfd0), hL.files]
          · refine wp_bind (wp_fdclear hf ?_)
            have hback : (L.proc.setFd fd0 (some rf)).setFd fd0 none = L.proc := by
              simp only [Proc.setFd, Function.update_idem]
              rw [← freeFd_some hfd0, Function.update_eq_self]
            dsimp only
            rw [hback]
            refine wp_bind (wp_fileclose hf (Multiset.cons_swap ..) hb (hnb rf) hL.locks hL.debt fun plain quiet room => ?_)
            exact wp_bind (wp_fileclose hf rfl hb (hnb wf) hL.locks hL.debt fun plain quiet room => hend)
        · refine wp_bind (wp_fileclose hf (Multiset.cons_swap ..) hb (hnb rf) hL.locks hL.debt fun plain quiet room => ?_)
          exact wp_bind (wp_fileclose hf rfl hb (hnb wf) hL.locks hL.debt fun plain quiet room => hend)

/-! ### exec -/

section
variable {env : ExecEnv} {Q : Bool → Ledger → Prop}

theorem wp_loaduvm {n offset sz c page : Nat} (hf : L.Going) (hk : L.locks k = some h) (hv : h.valid = true)
    (hp : L.Pinned k) (hl : ∀ k' ≠ k, L.locks k' = none) (ha : L.alloc = none)
    (hq : ∀ r h' plain, h'.valid = true → Q r { L with locks := Function.update L.locks k (some h'), plain }) :
    (loaduvm env k n offset sz c page).wp (rules al) Q L := by
  induction c generalizing L h page with
  | zero =>
    have := hq true h L.plain hv
    rwa [← hk, Function.update_eq_self] at this
  | succ c ih =>
    rw [loaduvm]
    split
    · split
      · exact wp_panic hf
      · refine wp_bind (wp_readi hf hk hv hp hl ha fun r h' plain hv' => ?_)
        cases r with
        | none => exact hq false h' plain hv'
        | some bytes =>
          dsimp only
          split
          · refine ih hf (Function.update_self ..) hv' hp (fun k' hk' =>
              (Function.update_of_ne hk' ..).trans (hl k' hk')) ha
              fun r h'' plain' hv'' => ?_
            dsimp only
            rw [Function.update_idem]
            exact hq r h'' plain' hv''
          · exact hq false h' plain hv'
    · have := hq true h L.plain hv
      rwa [← hk, Function.update_eq_self] at this

theorem wp_loadSegments {phoff c n : Nat} (hf : L.Going) (hk : L.locks k = some h) (hv : h.valid = true)
    (hp : L.Pinned k) (hl : ∀ k' ≠ k, L.locks k' = none) (ha : L.alloc = none)
    (hq : ∀ r h' plain, h'.valid = true → Q r { L with locks := Function.update L.locks k (some h'), plain }) :
    (loadSegments env k phoff c n).wp (rules al) Q L := by
  induction c generalizing L h n with
  | zero =>
    have := hq true h L.plain hv
    rwa [← hk, Function.update_eq_self] at this
  | succ c ih =>
    refine wp_bind (wp_readi hf hk hv hp hl ha fun r h' plain hv' => ?_)
    have hl' : ∀ h', ∀ k' ≠ k, Function.update L.locks k (some h') k' = none := fun h' k' hk' =>
      (Function.update_of_ne hk' ..).trans (hl k' hk')
    have hnext : ∀ h' plain, h'.valid = true → (loadSegments env k phoff c (n + 1)).wp (rules al) Q
        { L with locks := Function.update L.locks k (some h'), plain } := by
      intro h' plain hv'
      refine ih hf (Function.update_self ..) hv' hp (hl' h') ha fun r h'' plain' hv'' => ?_
      dsimp only
      rw [Function.update_idem]
      exact hq r h'' plain' hv''
    cases r with
    | none => exact hq false h' plain hv'
    | some ph =>
      dsimp only
      split
      · exact hq false h' plain hv'
      · split
        · exact hnext h' plain hv'
        · split
          · exact hq false h' plain hv'
          · refine wp_bind (wp_loaduvm hf (Function.update_self ..) hv' hp (hl' h') ha fun r h'' plain' hv'' => ?_)
            dsimp only
            rw [Function.update_idem]
            split
            · exact hnext h'' plain' hv''
            · exact hq false h'' plain' hv''

theorem wp_loadElf {r : Option (List Byte)} (hf : L.Going) (hk : L.locks k = some h) (hv : h.valid = true)
    (hp : L.Pinned k) (hl : ∀ k' ≠ k, L.locks k' = none) (ha : L.alloc = none)
    (hq : ∀ r h' plain, h'.valid = true → Q r { L with locks := Function.update L.locks k (some h'), plain }) :
    (loadElf env k r).wp (rules al) Q L := by
  unfold loadElf
  dsimp only
  split
  · have := hq false h L.plain hv
    rwa [← hk, Function.update_eq_self] at this
  · exact wp_loadSegments hf hk hv hp hl ha hq

end

theorem sysExec_ends {argv : Bool} {env : ExecEnv} (hL : Rest L) (hlive : L.proc.state = .live) :
    (sysExec path argv env).wp (rules al) (Ends al L False) L := by
  have hf := hL.going hlive
  have hl := hL.locks
  match path, argv with
  | none, _ => exact ⟨hL, fun _ h => h.elim⟩
  | some _, false => exact ⟨hL, fun _ h => h.elim⟩
  | some path, true =>
    refine wp_bind (wp_beginOp hf ?_)
    refine wp_bind (wp_namei hf hL.home hl hL.alloc (Ledger.backed_zero hL.debt) (fun plain quiet _ => ?_)
      fun ip i plain quiet _ => ?_)
    · exact wp_bind (wp_endOp hf (Nat.succ_pos _) ⟨hL.of, fun _ h => h.elim⟩)
    · refine wp_bind (wp_ilock_first hf (Multiset.mem_cons_self ..) hl hL.alloc ?_)
      have hp : ∀ {M : Ledger}, M.refs = (ip, i) ::ₘ L.refs → M.Pinned ip := fun hM =>
        .inl ⟨i, hM ▸ Multiset.mem_cons_self ..⟩
      have hl' : ∀ h', ∀ k' ≠ ip, Function.update L.locks ip (some h') k' = none := fun h' k' hk' =>
        (Function.update_of_ne hk' ..).trans (hl k')
      refine wp_bind (wp_readi hf setLock_self rfl (hp rfl) (hl' _) hL.alloc fun r h' plain' hv' => ?_)
      dsimp only [Ledger.setLock]
      rw [Function.update_idem]
      refine wp_bind (wp_loadElf hf (Function.update_self ..) hv' (hp rfl) (hl' h') hL.alloc fun ok h'' plain'' _ => ?_)
      dsimp only
      rw [Function.update_idem]
      refine wp_bind (wp_iunlockput_only hf rfl hl rfl hL.debt fun plain3 quiet3 _ => ?_)
      exact wp_bind (wp_endOp hf (Nat.succ_pos _) ⟨hL.of, fun _ h => h.elim⟩)

/-! ### fork, exit and wait -/

theorem sysFork_ends (hL : Rest L) (hlive : L.proc.state = .live) : (sysFork mem).wp (rules al) (Ends al L False) L := by
  refine wp_bind ⟨⟨stage_none (hL.going hlive), hL.home, fun fd f hfd => ?_⟩, ?_⟩
  · exact ⟨hL.files ▸ mem_files.mpr ⟨fd, hfd⟩, by simp [hL.blank]⟩
  · rintro r L' ⟨rfl, -⟩
    exact ⟨hL, fun _ h => h.elim⟩

theorem argfd_val_none {x : Proc} (h : x.argfd fd.val = none) : x.ofile fd = none := by
  unfold Proc.argfd at h
  have hlt : (0 : Int) ≤ fd.val ∧ (fd.val : Int) < nofile := by omega
  rw [dif_pos hlt] at h
  exact Option.map_eq_none_iff.mp h

theorem argfd_val {x : Proc} {fd' : Fin nofile} (h : x.argfd fd.val = some (fd', f)) : fd' = fd := by
  unfold Proc.argfd at h
  split at h
  · obtain ⟨g, -, he⟩ := Option.map_eq_some_iff.mp h
    cases he
    rfl
  · cases h

theorem wp_exitLoop {fds : List (Fin nofile)} (hL : Rest L) (hlive : L.proc.state = .live)
    (hb : L.borrow = none) (hfds : ∀ fd, fd ∈ fds ∨ L.proc.ofile fd = none)
    (hq : ∀ L', Rest L' → L'.proc.state = .live → (∀ fd, L'.proc.ofile fd = none) → Q () L') :
    (exitLoop fds).wp (rules al) Q L := by
  induction fds generalizing L with
  | nil => exact hq L hL hlive fun fd => (hfds fd).resolve_left (List.not_mem_nil)
  | cons fd rest ih =>
    refine wp_bind (wp_ofile (hL.going hlive) ?_)
    match hfd : L.proc.argfd fd.val with
    | none =>
      refine ih hL hlive hb fun fd' => ?_
      rcases hfds fd' with h | h
      · rcases List.mem_cons.mp h with rfl | h
        · exact .inr (argfd_val_none hfd)
        · exact .inl h
      · exact .inr h
    | some (fd', f) =>
      obtain rfl := argfd_val hfd
      refine wp_bind (wp_fileclose (hL.going hlive) (hL.files.trans (files_clear (argfd_some hfd))) hb (hL.mem_files hfd).2
        hL.locks hL.debt fun plain quiet room => ?_)
      refine wp_bind (wp_fdclear (hL.going hlive) ?_)
      refine ih ⟨hL.locks, hL.freeing, hL.alloc, hL.blank, hL.ops, hL.debt, hL.refs, rfl⟩ hlive hb fun fd => ?_
      by_cases h : fd = fd'
      · exact .inr (by rw [h]; exact Function.update_self ..)
      · rcases hfds fd with h' | h'
        · exact .inl ((List.mem_cons.mp h').resolve_left h)
        · exact .inr ((Function.update_of_ne h ..).trans h')

theorem sysExit_ends {init : Bool} (hL : Rest L) (hlive : L.proc.state = .live) (hb : L.borrow = none) :
    (sysExit init).wp (rules al) (Ends al L False) L := by
  unfold sysExit
  split
  · exact wp_panic (hL.going hlive)
  · refine wp_bind (wp_exitLoop hL hlive hb (fun fd => .inl (List.mem_finRange fd)) fun M hM hlive hnone => ?_)
    have hf := hM.going hlive
    refine wp_bind (wp_beginOp hf ?_)
    refine wp_bind (wp_iputCwd (S := 0) hf hM.locks hM.debt (zero_add _).symm hM.refs fun plain quiet => ?_)
    refine wp_bind (wp_endOp hf (Nat.succ_pos _) ?_)
    refine wp_bind ⟨⟨stage_none hf, ⟨hM.locks, hf.2, hM.alloc, hM.blank, hM.ops, hM.debt, rfl, hM.files⟩, hnone, rfl⟩, ?_⟩
    rintro r L' ⟨rfl, -⟩
    exact ⟨⟨hM.locks, hf.2, hM.alloc, hM.blank, hM.ops, hM.debt, rfl, hM.files⟩, fun _ h => h.elim⟩

theorem sysWait_ends {q : Pid} (hL : Rest L) (hlive : L.proc.state = .live) :
    (sysWait q).wp (rules al) (Ends al L False) L := by
  refine wp_bind ⟨⟨stage_none (hL.going hlive), trivial⟩, ?_⟩
  rintro r L' ⟨rfl, -⟩
  exact ⟨hL, fun _ h => h.elim⟩

/-! ### All calls -/

/-- The calls that change nothing where they fail; `open` only if the file that it makes can be opened. -/
def Call.Keeps (L : Ledger) : Call → Prop
  | .link _ _ | .unlink _ | .mkdir _ | .mknod _ _ _ | .chdir _ => True
  | .open _ _ => L.spare = true
  | _ => False

theorem Call.ends {p : Pid} (hL : Rest L) (hlive : L.proc.state = .live) (hb : L.borrow = none) (c : Call) :
    (c.prog p).wp (rules al) (Ends al L (c.Keeps L)) L := by
  cases c with
  | dup fd => exact sysDup_ends hL hlive
  | read fd n env => exact sysRead_ends hL hlive
  | write fd addr env => exact sysWrite_ends hL hlive
  | close fd => exact sysClose_ends hL hlive hb
  | fstat fd ok => exact sysFstat_ends hL hlive
  | link old new => exact sysLink_ends hL hlive
  | unlink path => exact sysUnlink_ends hL hlive
  | «open» path omode => exact sysOpen_ends hL hlive hb
  | mkdir path => exact sysMkdir_ends hL hlive
  | mknod path major minor => exact sysMknod_ends hL hlive
  | chdir path => exact sysChdir_ends hL hlive
  | exec path argv env => exact sysExec_ends hL hlive
  | pipe ok mem => exact sysPipe_ends hL hlive hb
  | fork mem => exact sysFork_ends hL hlive
  | exit => exact sysExit_ends hL hlive hb
  | wait q => exact sysWait_ends hL hlive

end

end Xv6.Fs
