import Mathlib.Algebra.BigOperators.Fin
import Mathlib.Algebra.Order.Group.Multiset
import Mathlib.Data.Finset.Erase
import Mathlib.Data.Finset.Insert
import Mathlib.Algebra.Group.Int.Defs
import Mathlib.Algebra.Group.Pi.Lemmas
import Xv6.Fs.Calls

/-! The ledger of a process: what it owns and knows in the middle of a call, whatever the other processes do. The
    rules say what each operation needs of the ledger and what it makes of it. -/

namespace Xv6.Fs
open Lib

/-- What a process knows of an inode whose lock it holds, since it got the lock. -/
structure Held where
  inum : Nat
  /-- The copy in memory has been read from the disk. -/
  valid : Bool
  /-- The inode is a directory, or not. -/
  dir : Option Bool
  /-- The name last looked up, with what was found. -/
  scan : Option (Name × Option (Nat × Nat))
  /-- The first empty entry. -/
  free : Option Nat
  /-- There are no entries besides the first two. -/
  empty : Bool
  /-- All entries, if the process has made the directory. -/
  entries : Option (List (Nat × Name))

/-- How far `iput` has got with an inode that it frees. -/
inductive Phase
  | tested
  | truncated
  | freed

/-- An inode that the process has allocated and that no directory names yet. -/
structure Alloc where
  inum : Nat
  kind : Kind
  /-- `create` has filled it in. -/
  init : Bool

structure Ledger where
  /-- The process itself, which no other process changes. -/
  proc : Proc
  ninodes : Nat
  /-- The references to inodes that the process owns, with the number of the inode. -/
  refs : Multiset (Slot × Nat)
  /-- The references to files that it owns, and those of the files that it has not filled in yet. -/
  files : Multiset FileIx
  blank : Finset FileIx
  /-- The inode of an open file in use, and whether the file is writable. -/
  borrow : Option (FileIx × Slot × Bool)
  locks : Slot → Option Held
  /-- The transactions it has begun. -/
  ops : Nat
  freeing : Option ((Slot × Nat) × Phase)
  alloc : Option Alloc
  /-- The link count of an inode minus the entries that the process still has to make or has removed. -/
  debt : Nat → Int
  /-- References to inodes that are no directories. -/
  plain : Set (Slot × Nat)
  /-- Nothing has changed since the call began, except for link counts as in `debt`. -/
  quiet : Bool
  /-- There is a free entry in the file table. -/
  room : Bool
  /-- Inodes are allocated only while there is a free descriptor and a free entry in the file table. -/
  spare : Bool

namespace Ledger

def setLock (L : Ledger) (k : Slot) (h : Option Held) : Ledger := { L with locks := Function.update L.locks k h }

/-- The references left after one has been given away. -/
def keep (L : Ledger) (refs : Multiset (Slot × Nat)) : Ledger :=
  { L with refs, plain := { x | x ∈ L.plain ∧ x ∈ refs } }

def loud (L : Ledger) : Ledger := { L with quiet := false }

/-- The process has a reference to the inode, or one of its files does. -/
def Pinned (L : Ledger) (k : Slot) : Prop := (∃ i, (k, i) ∈ L.refs) ∨ ∃ f w, L.borrow = some (f, k, w)

/-- The process is alive and not in the middle of freeing an inode. -/
abbrev Going (L : Ledger) : Prop := L.proc.state = .live ∧ L.freeing = none

def Home (L : Ledger) : Prop := ∀ k, L.proc.cwd = some k → ∃ i, (k, i) ∈ L.refs

/-- The number of an inode that the process may ask for. -/
def Knows (L : Ledger) (inum : Nat) : Prop :=
  inum = rootino ∨ (∃ a, L.alloc = some a ∧ a.inum = inum) ∨
    ∃ k h name off, L.locks k = some h ∧ h.scan = some (name, some (off, inum))

/-- A lock that is held allows to wait for the lock of `k`: the directory names it, or the process has just
    allocated it. -/
def Allows (L : Ledger) (h : Held) (k : Slot) : Prop :=
  (∃ name off i, h.scan = some (name, some (off, i)) ∧ name ≠ dot ∧ name ≠ dotdot ∧ (k, i) ∈ L.refs) ∨
    ∃ a, L.alloc = some a ∧ (k, a.inum) ∈ L.refs

end Ledger

def Proc.files (x : Proc) : Multiset FileIx := ∑ fd, (x.ofile fd).elim 0 fun f => {f}

def Proc.dirs (x : Proc) : Multiset Slot := x.cwd.elim 0 fun k => {k}

/-- Between two calls. -/
structure Rest (L : Ledger) : Prop where
  locks : ∀ k, L.locks k = none
  freeing : L.freeing = none
  alloc : L.alloc = none
  blank : L.blank = ∅
  ops : L.ops = 0
  debt : L.debt = 0
  refs : L.refs.map Prod.fst = L.proc.dirs
  files : L.files = L.proc.files

/-- The ledger of a process that does not run: it owns nothing. -/
def Vacant (L : Ledger) : Prop := Rest L ∧ (∀ fd, L.proc.ofile fd = none) ∧ L.proc.cwd = none

def NameOk (name : Name) : Prop := name ≠ [] ∧ name.length ≤ dirsiz ∧ 0 ∉ name

/-- The place in `iput` that an operation belongs to. -/
def Op.stage : Op → Option (Slot × Phase)
  | .itrunc k => some (k, .tested)
  | .ifree k => some (k, .truncated)
  | .iputDrop k => some (k, .freed)
  | _ => none

/-- What the operation needs. -/
def Op.Needs (L : Ledger) : Op → Prop
  | .endOp => 0 < L.ops
  | .iget i => L.Knows i
  | .idupCwd => L.Home
  | .acquiresleep k =>
    L.Pinned k ∧ (∀ k' h, L.locks k' = some h → L.Allows h k) ∧ ∀ a, L.alloc = some a → (k, a.inum) ∈ L.refs
  | .load k | .iunlock k => ∃ h, L.locks k = some h
  | .iputTest k =>
    ∃ i R, L.refs = (k, i) ::ₘ R ∧ (∀ h, L.locks k = some h → (L.keep R).Pinned k) ∧
      (L.quiet = true → L.debt i ≠ 0 → ∃ k', (k', i) ∈ R)
  | .tryAlloc i kind => kind ≠ .free ∧ L.alloc = none ∧ 0 < i ∧ i < L.ninodes
  | .peek k | .readi k _ _ | .dirlookup k _ | .dirlinkScan k => ∃ h, L.locks k = some h ∧ h.valid = true
  | .inum k => L.Pinned k
  | .addNlink k n =>
    ∃ h, L.locks k = some h ∧ h.valid = true ∧ (n = 1 ∨ n = -1 ∧ 1 ≤ L.debt h.inum)
  | .initInode k _ _ =>
    ∃ h a, L.locks k = some h ∧ h.valid = true ∧ L.alloc = some a ∧ a.inum = h.inum ∧ a.init = false
  | .writei k _ _ =>
    ∃ h, L.locks k = some h ∧ h.valid = true ∧ (h.dir = some false ∨ ∃ f, L.borrow = some (f, k, true))
  | .isdirempty k => ∃ h, L.locks k = some h ∧ h.valid = true ∧ h.dir = some true
  | .dirlinkWrite k off j name =>
    ∃ h, L.locks k = some h ∧ h.valid = true ∧ h.scan = some (name, none) ∧ h.free = some off ∧ NameOk name ∧
      (h.entries = none → 1 ≤ L.debt j ∧
        ((∃ k', (k', j) ∈ L.plain) ∨
          ∃ a k' h', L.alloc = some a ∧ a.inum = j ∧ a.init = true ∧ L.locks k' = some h' ∧ h'.inum = j ∧
            (a.kind = .dir → h'.entries = some [(j, dot), (h.inum, dotdot)] ∧ 1 ≤ L.debt h.inum)))
  | .unlinkWrite k off =>
    ∃ h name j k' h' b, L.locks k = some h ∧ h.valid = true ∧ h.scan = some (name, some (off, j)) ∧ name ≠ dot ∧
      name ≠ dotdot ∧ L.locks k' = some h' ∧ h'.inum = j ∧ h'.valid = true ∧ h'.dir = some b ∧
      (b = true → h'.empty = true)
  | .filedup f => f ∈ L.files ∧ f ∉ L.blank
  | .filecloseTest f => f ∈ L.files ∧ L.borrow = none
  | .file f => f ∈ L.files ∧ f ∉ L.blank ∧ ∀ k, L.locks k = none
  | .setFile f type _ writable ip =>
    f ∈ L.blank ∧
      match type with
      | .none => False
      | .pipe => True
      | .inode => L.locks ip = none ∧ ∃ i, (ip, i) ∈ L.refs ∧ (writable = true → (ip, i) ∈ L.plain)
  | .fileOff f | .addOff f _ => f ∈ L.files
  | .fork _ => L.Home ∧ ∀ fd f, L.proc.ofile fd = some f → f ∈ L.files ∧ f ∉ L.blank
  | .zombie => Vacant { L with proc := { L.proc with state := .zombie, cwd := none } }
  | _ => True

/-- What the operation makes of the ledger. -/
def Op.Makes (L : Ledger) : (o : Op) → Res o → Ledger → Prop
  | .panic _, r, _ => nomatch r
  | .beginOp, _, L' => L' = { L with ops := L.ops + 1 }
  | .endOp, _, L' => L' = { L with ops := L.ops - 1 }
  | .sb, x, L' => L' = L ∧ x.ninodes = L.ninodes
  | .iget i, k, L' => L' = { L with refs := (k, i) ::ₘ L.refs }
  | .idupCwd, k, L' => L.proc.cwd = some k ∧ ∃ i, L' = { L with refs := (k, i) ::ₘ L.refs }
  | .acquiresleep k, _, L' =>
    L.locks k = none ∧ ∃ i, (∀ i', (k, i') ∈ L.refs → i' = i) ∧
      L' = L.setLock k (some ⟨i, false, none, none, none, false, none⟩)
  | .load k, _, L' => ∀ h, L.locks k = some h → L' = L.setLock k (some { h with valid := true })
  | .iunlock k, _, L' => ∀ h, L.locks k = some h → L' = { L.setLock k none with
      plain := { x | x ∈ L.plain ∨ h.dir = some false ∧ x = (k, h.inum) ∧ x ∈ L.refs } }
  | .iputTest k, r, L' =>
    ∃ i R, L.refs = (k, i) ::ₘ R ∧ (∀ i', (k, i') ∈ L.refs → i' = i) ∧
      match (r : Bool) with
      | true => L' = { L.loud with freeing := some ((k, i), .tested) }
      | false => L' = L.keep R
  | .itrunc _, _, L' => ∀ x ph, L.freeing = some (x, ph) → L' = { L with freeing := some (x, .truncated) }
  | .ifree _, _, L' => ∀ x ph, L.freeing = some (x, ph) → L' = { L with freeing := some (x, .freed) }
  | .iputDrop _, _, L' =>
    ∃ x ph R, L.freeing = some (x, ph) ∧ L.refs = x ::ₘ R ∧ L' = { L.keep R with freeing := none }
  | .tryAlloc i kind, r, L' =>
    match (r : Bool) with
    | true => L' = { L.loud with alloc := some ⟨i, kind, false⟩ }
    | false => L' = L
  | .peek k, x, L' => ∀ h, L.locks k = some h → L' = L.setLock k (some { h with dir := some (decide (x.kind = .dir)) })
  | .inum k, i, L' => L' = L ∧ (∀ i', (k, i') ∈ L.refs → i' = i) ∧ ∀ h, L.locks k = some h → h.inum = i
  | .addNlink k n, _, L' => ∀ h, L.locks k = some h → L' = { L with debt := L.debt + Pi.single h.inum n.toInt }
  | .initInode k _ _, _, L' => ∀ h a, L.locks k = some h → L.alloc = some a → L' = { (L.setLock k (some { h with
      dir := some (decide (a.kind = .dir)), entries := some [] })) with
      debt := L.debt + Pi.single h.inum 1, alloc := some { a with init := true } }
  | .readi _ _ _, _, L' => L' = L
  | .writei k _ _, _, L' => ∀ h, L.locks k = some h → L' = (L.setLock k (some { h with
      scan := none, free := none, empty := false, entries := none })).loud
  | .dirlookup k name, r, L' => ∀ h, L.locks k = some h → L' = L.setLock k (some { h with
      scan := some (name, r), dir := some true })
  | .dirlinkScan k, off, L' => ∀ h, L.locks k = some h → L' = L.setLock k (some { h with free := some off })
  | .isdirempty k, r, L' => ∀ h, L.locks k = some h → L' = L.setLock k (some { h with empty := r })
  | .dirlinkWrite k _ j name, _, L' => ∀ h, L.locks k = some h →
      match h.entries with
      | some es => L' = (L.setLock k (some { h with
          scan := none, free := none, empty := false, entries := some (es ++ [(j, name)]) })).loud
      | none => L' = { (L.setLock k (some { h with scan := none, free := none, empty := false })).loud with
          debt := L.debt - Pi.single j 1 -
            if L.alloc.any (fun a => a.inum = j ∧ a.kind = .dir) then Pi.single h.inum 1 else 0
          alloc := L.alloc.filter fun a => a.inum ≠ j }
  | .unlinkWrite k off, _, L' => ∀ h name j k' h' b, L.locks k = some h → h.scan = some (name, some (off, j)) →
      L.locks k' = some h' → h'.inum = j → h'.dir = some b →
      L' = { (L.setLock k (some { h with scan := none, free := none, empty := false })).loud with
        debt := L.debt + Pi.single j 1 + if b then Pi.single h.inum 1 else 0 }
  | .filealloc, r, L' =>
    match (r : Option FileIx) with
    | some f => f ∉ L.files ∧ ∃ room, L' = { L with files := f ::ₘ L.files, blank := insert f L.blank, room }
    | none => L' = L
  | .filedup f, _, L' => L' = { L.loud with files := f ::ₘ L.files }
  | .filecloseTest f, r, L' => ∃ F room, L.files = f ::ₘ F ∧
      if f ∈ L.blank then
        (∃ x : File, (r : Option File) = some x ∧ x.type = .none) ∧
          L' = { L with files := F, blank := L.blank.erase f, room }
      else
        match (r : Option File) with
        | none => L' = { L.loud with files := F, room }
        | some x =>
          if x.type = .inode then ∃ i, L' = { L.loud with files := F, refs := (x.ip, i) ::ₘ L.refs, room }
          else L' = { L.loud with files := F, room }
  | .file f, x, L' =>
    (∀ k w, L.borrow = some (f, k, w) → x.type = .inode ∧ x.ip = k ∧ x.writable = w) ∧
      if x.type = .inode then L' = { L with borrow := some (f, x.ip, x.writable) } else L' = L
  | .setFile f type _ _ ip, _, L' =>
    match type with
    | .inode => ∃ i R, L.refs = (ip, i) ::ₘ R ∧ (∀ i', (ip, i') ∈ L.refs → i' = i) ∧
        L' = { (L.keep R).loud with blank := L.blank.erase f }
    | _ => L' = { L.loud with blank := L.blank.erase f }
  | .fileOff _, _, L' | .addOff _ _, _, L' => L' = L
  | .ofile fd, r, L' => L' = L ∧ r = L.proc.argfd fd
  | .fdalloc f, r, L' =>
    r = L.proc.freeFd ∧
      match L.proc.freeFd with
      | some fd => L' = { L.loud with proc := L.proc.setFd fd (some f) }
      | none => L' = L
  | .fdclear fd, _, L' => L' = { L.loud with proc := L.proc.setFd fd none }
  | .cwd, r, L' => L' = L.loud ∧ r = L.proc.cwd
  | .setCwd k, _, L' => L' = { L.loud with proc := { L.proc with cwd := some k } }
  | .fork _, _, L' => L' = L
  | .zombie, _, L' => L' = { L.loud with proc := { L.proc with state := .zombie, cwd := none } }
  | .wait _, _, L' => L' = L

/-- What the result of an operation tells a process while no other one is in the middle of a call. -/
def Op.Tells (L : Ledger) : (o : Op) → Res o → Prop
  | .iputTest _, r => (r : Bool) = true → L.quiet = false
  | .tryAlloc _ _, r => (r : Bool) = true → L.spare = true → L.room = true ∧ L.proc.freeFd.isSome
  | .filealloc, r => (r : Option FileIx) = none → L.room = false
  | _, _ => True

/-- The rules; `alone` is whether no other process is in the middle of a call. -/
def rules (alone : Bool) : Logic Op Res Ledger where
  pre o L := (L.proc.state = .live ∧ (L.freeing.map fun (x, ph) => (x.1, ph)) = o.stage) ∧ o.Needs L
  post o L r L' := o.Makes L r L' ∧ (alone = true → o.Tells L r)

end Xv6.Fs
