import Xv6.Theorems.DirMaps
import Xv6.Theorems.FsRuns

/-! Paths. `skipelem` takes the parts between the slashes from a path, and `namex` looks them up one after the other,
    each in the directory that the last one has led to. -/

namespace Xv6.Fs
open Lib

/-! ### The parts of a path -/

/-- The parts of a path between slashes that are not empty. -/
def segments (path : Path) : List Name := ((path.splitOn slash).filter (· ≠ [])).map (·.take dirsiz)

/-- `skipelem` takes the names from the path one after the other, and then there is none. -/
inductive Skips : Path → List Name → Prop
  | none {path : Path} (h : skipelem path = none) : Skips path []
  | some {path rest : Path} {name : Name} {names : List Name} (h : skipelem path = some (rest, name))
    (hrest : Skips rest names) :
    Skips path (name :: names)

theorem segments_slash (path : Path) : segments (slash :: path) = segments path := by
  have hsplit : (slash :: path).splitOn slash = [] :: path.splitOn slash :=
    List.splitOnP_append_cons_of_forall_mem (p := (· == slash)) (List.forall_mem_nil _) slash (beq_self_eq_true _) path
  rw [segments, hsplit, List.filter_cons_of_neg (by simp), segments]

theorem segments_dropWhile (path : Path) : segments (path.dropWhile (· = slash)) = segments path := by
  induction path with
  | nil => rfl
  | cons c path ih =>
    rw [List.dropWhile_cons]
    split
    · rename_i hc
      rw [of_decide_eq_true hc, segments_slash, ih]
    · rfl

theorem segments_append {s rest : Path} (hs : slash ∉ s) (hne : s ≠ []) (hrest : rest = [] ∨ ∃ t, rest = slash :: t) :
    segments (s ++ rest) = s.take dirsiz :: segments rest := by
  have hfree : ∀ c ∈ s, (c == slash) = false := by
    intro c hc
    exact beq_false_of_ne fun heq => hs (heq ▸ hc)
  rcases hrest with rfl | ⟨t, rfl⟩
  · have hsplit : s.splitOn slash = [s] := List.splitOnP_eq_singleton hfree
    rw [List.append_nil, segments, hsplit, List.filter_cons_of_pos (by simpa using hne)]
    rfl
  · have hsplit : (s ++ slash :: t).splitOn slash = s :: t.splitOn slash :=
      List.splitOnP_append_cons_of_forall_mem hfree slash (beq_self_eq_true _) t
    rw [segments_slash, segments, hsplit, List.filter_cons_of_pos (by simpa using hne), List.map_cons, segments]

theorem dropWhile_cases (P : Byte → Bool) (l : Path) : l.dropWhile P = [] ∨ ∃ c t, l.dropWhile P = c :: t ∧
    P c = false := by
  induction l with
  | nil => exact .inl rfl
  | cons c l ih =>
    rw [List.dropWhile_cons]
    split
    · exact ih
    · rename_i hc
      exact .inr ⟨c, l, rfl, by simpa using hc⟩

theorem skipelem_none {path : Path} (h : path.dropWhile (· = slash) = []) : skipelem path = none := if_pos h

theorem skipelem_some {path : Path} (h : path.dropWhile (· = slash) ≠ []) :
    ∃ rest name, skipelem path = some (rest, name) ∧ segments path = name :: segments rest ∧ rest.length < path.length := by
  obtain ⟨c, t, hq, hc⟩ := (dropWhile_cases (· = slash) path).resolve_left h
  have hc : c ≠ slash := of_decide_eq_false hc
  have hlen : (c :: t).length ≤ path.length := hq ▸ (List.dropWhile_sublist _).length_le
  have hsplit : (c :: t).takeWhile (· ≠ slash) ++ (c :: t).dropWhile (· ≠ slash) = c :: t := List.takeWhile_append_dropWhile
  have hdrop : (c :: t).drop ((c :: t).takeWhile (· ≠ slash)).length = (c :: t).dropWhile (· ≠ slash) := by
    have hleft :
      ((c :: t).takeWhile (· ≠ slash) ++ (c :: t).dropWhile (· ≠ slash)).drop ((c :: t).takeWhile (· ≠ slash)).length =
      (c :: t).dropWhile (· ≠ slash) := List.drop_left
    rwa [hsplit] at hleft
  have hfirst : (c :: t).takeWhile (· ≠ slash) = c :: t.takeWhile (· ≠ slash) :=
    List.takeWhile_cons_of_pos (by simpa using hc)
  refine ⟨_, _, if_neg h, ?_⟩
  rw [hq, hdrop, segments_dropWhile, ← segments_dropWhile path, hq]
  constructor
  · conv_lhs => rw [← hsplit]
    refine segments_append ?_ (by rw [hfirst]; simp) ?_
    · intro hmem
      simpa using List.all_eq_true.mp List.all_takeWhile _ hmem
    · rcases dropWhile_cases (· ≠ slash) (c :: t) with hnil | ⟨c', t', hrest, hc'⟩
      · exact .inl hnil
      · exact .inr ⟨t', by rw [hrest, not_not.mp (of_decide_eq_false hc')]⟩
  · have h1 := (List.dropWhile_sublist (· = slash) (l := (c :: t).dropWhile (· ≠ slash))).length_le
    have h2 := congrArg List.length hsplit
    rw [List.length_append, hfirst, List.length_cons] at h2
    omega

theorem skips_segments (path : Path) : Skips path (segments path) := by
  by_cases h : path.dropWhile (· = slash) = []
  · have hnil : segments path = [] := by
      rw [← segments_dropWhile, h]
      rfl
    rw [hnil]
    exact .none (skipelem_none h)
  · obtain ⟨rest, name, hskip, hseg, hlt⟩ := skipelem_some h
    rw [hseg]
    exact .some hskip (skips_segments rest)
termination_by path.length

theorem elements_segments {c : Nat} {path : Path} (hc : path.length ≤ c) : elements c path = segments path := by
  induction c generalizing path with
  | zero =>
    obtain rfl := List.length_eq_zero_iff.mp (Nat.le_zero.mp hc)
    rfl
  | succ c ih =>
    rw [elements]
    by_cases h : path.dropWhile (· = slash) = []
    · rw [skipelem_none h, ← segments_dropWhile, h]
      rfl
    · obtain ⟨rest, name, hskip, hseg, hlt⟩ := skipelem_some h
      rw [hskip, hseg]
      dsimp only
      rw [ih (by omega)]

/-! ### Directory trees -/

/-- The directories of a disk have the entries of maps, which lead to inodes in use. -/
structure Forest (d : Disk) (dirs : Nat → Dir) : Prop where
  own : Own d d.inode
  dense : Dense d d.inode
  dir : ∀ i, (d.inode i).kind = .dir → Represents ((d.inode i).node d.block) (dirs i)
  entry : ∀ {i name off j}, (d.inode i).kind = .dir → dirs i name = some (off, j) → (d.inode j).kind ≠ .free ∧
    (d.inode j).nlink ≠ 0

/-- The inode that a name leads to from inode `i`. -/
def lookupIn (d : Disk) (dirs : Nat → Dir) (i : Nat) (name : Name) : Option Nat :=
  if (d.inode i).kind = .dir then (dirs i name).map Prod.snd else none

def walk (d : Disk) (dirs : Nat → Dir) (i : Nat) (names : List Name) : Option Nat := names.foldlM (lookupIn d dirs) i

/-- The directory that all names but the last lead to, with the last name. -/
def walkParent (d : Disk) (dirs : Nat → Dir) (i : Nat) (names : List Name) : Option (Nat × Name) :=
  names.getLast?.bind fun last => (walk d dirs i names.dropLast).bind fun j =>
    if (d.inode j).kind = .dir then some (j, last) else none

def State.resultOf (s : State) (r : Option (Slot × Name)) : Option (Nat × Name) := r.map fun x => ((s.icache x.1).inum, x.2)

/-! ### The inode cache -/

/-- The disk is `d`, the copies of its inodes are right, and no inode but that of entry `locked` is locked. -/
structure Calm (d : Disk) (locked : Option Slot) (s : State) : Prop where
  disk : s.disk = d
  lock : ∀ k, (s.icache k).lock = none ↔ locked ≠ some k
  copy : ∀ k, 0 < (s.icache k).ref → (s.icache k).valid = true → (s.icache k).din = d.inode (s.icache k).inum

/-- The inode number and the reference count of every entry of the cache. -/
def State.refs (s : State) (k : Slot) : Nat × Int := ((s.icache k).inum, (s.icache k).ref)

/-- Entry `k` is of inode `i`, and dropping a reference to it does not free the inode. -/
structure Refs (d : Disk) (s : State) (k : Slot) (i : Nat) : Prop where
  inum : (s.icache k).inum = i
  ref : 0 < (s.icache k).ref
  kind : (d.inode i).kind ≠ .free
  kept : (d.inode i).nlink ≠ 0 ∨ 2 ≤ (s.icache k).ref

section
variable {d : Disk} {dirs : Nat → Dir} {s s' : State} {p : Pid} {k : Slot} {i : Nat} {L : Option Slot} {k' : Slot} {j : Nat}
  {name : Name} {s₀ : State} {rest names : List Name}

theorem refs_setInode (x : Inode) : (s.setInode k x).refs = Function.update s.refs k (x.inum, x.ref) := by
  funext l
  rcases eq_or_ne l k with rfl | hl
  · rw [State.refs, setInode_self, Function.update_self]
  · rw [State.refs, setInode_of_ne hl, Function.update_of_ne hl, State.refs]

theorem Refs.congr (h : Refs d s k i) (hrefs : s'.refs k = s.refs k) : Refs d s' k i := by
  rw [State.refs, State.refs, Prod.mk.injEq] at hrefs
  exact ⟨hrefs.1.trans h.inum, hrefs.2.symm ▸ h.ref, h.kind, hrefs.2.symm ▸ h.kept⟩

theorem icache_of_refs {ref : Int} (h : s'.refs = Function.update s.refs k (i, ref)) (l : Slot) :
    (s'.icache l).inum = (if l = k then i else (s.icache l).inum) ∧
        (s'.icache l).ref = if l = k then ref else (s.icache l).ref := by
  have hl := congrFun h l
  rcases eq_or_ne l k with rfl | hne
  · rw [Function.update_self] at hl
    rw [if_pos rfl, if_pos rfl]
    exact ⟨congrArg Prod.fst hl, congrArg Prod.snd hl⟩
  · rw [Function.update_of_ne hne] at hl
    rw [if_neg hne, if_neg hne]
    exact ⟨congrArg Prod.fst hl, congrArg Prod.snd hl⟩

theorem Refs.iget (h : Refs d s k i) (hrefs : s'.refs = Function.update s.refs k' (j, (s.icache k').ref + 1))
    (hfound : (s.icache k').ref = 0 ∨ 0 < (s.icache k').ref ∧ (s.icache k').inum = j) (hnlink : (d.inode j).nlink ≠ 0) :
    Refs d s' k i := by
  obtain ⟨hinum, href⟩ := icache_of_refs hrefs k
  rcases eq_or_ne k k' with rfl | hne
  · obtain ⟨hpos, hj⟩ := hfound.resolve_left h.ref.ne'
    have hij : j = i := hj.symm.trans h.inum
    rw [if_pos rfl] at hinum href
    exact ⟨hinum.trans hij, by omega, h.kind, .inl (hij ▸ hnlink)⟩
  · rw [if_neg hne] at hinum href
    exact ⟨hinum.trans h.inum, href ▸ h.ref, h.kind, href ▸ h.kept⟩

theorem Calm.setInode {L' : Option Slot} {x : Inode} (h : Calm d L s) (hlock : x.lock = none ↔ L' ≠ some k)
    (hother : ∀ l, l ≠ k → (L' = some l ↔ L = some l)) (hcopy : 0 < x.ref → x.valid = true → x.din = d.inode x.inum) :
    Calm d L' (s.setInode k x) := by
  refine ⟨h.disk, fun l => ?_, fun l => ?_⟩
  · rcases eq_or_ne l k with rfl | hl
    · rw [setInode_self]
      exact hlock
    · rw [setInode_of_ne hl, h.lock, ne_eq, ne_eq, hother l hl]
  · rcases eq_or_ne l k with rfl | hl
    · rw [setInode_self]
      exact hcopy
    · rw [setInode_of_ne hl]
      exact h.copy l

theorem Calm.copyOf (h : Calm d L s) (href : 0 < (s.icache k).ref) : s.copyOf k = d.inode (s.icache k).inum := by
  rw [State.copyOf]
  split
  · rename_i hv
    exact h.copy k href hv
  · rw [h.disk]

theorem Calm.ilock (h : Calm d none s) (hk : Refs d s k i) :
    ∃ s', (ilock k).run (act p) s = .done () s' ∧ Calm d (some k) s' ∧ s'.refs = s.refs ∧
        (s'.icache k).din = d.inode i := by
  have hcopy : s.copyOf k = d.inode i := hk.inum ▸ h.copyOf hk.ref
  refine ⟨_, run_ilock hk.ref ((h.lock k).mpr (by simp)) (by rw [hcopy]; exact hk.kind), ?_, ?_, ?_⟩
  · refine h.setInode (by simp) (fun l hl => by simp [Ne.symm hl]) fun _ _ => ?_
    exact hcopy.trans (by rw [hk.inum])
  · exact (refs_setInode _).trans (Function.update_eq_self ..)
  · rw [locked_self]
    exact hcopy

theorem Calm.iunlock (h : Calm d (some k) s) (href : 0 < (s.icache k).ref) :
    ∃ s', (iunlock k).run (act p) s = .done () s' ∧ Calm d none s' ∧ s'.refs = s.refs := by
  refine ⟨_, run_iunlock_locked href (fun hc => (h.lock k).mp hc rfl), ?_,
    (refs_setInode _).trans (Function.update_eq_self ..)⟩
  exact h.setInode (by simp) (fun l hl => by simp [Ne.symm hl]) (h.copy k)

theorem Calm.iput (h : Calm d none s) (hk : Refs d s k i) :
    ∃ s', (iput k).run (act p) s = .done () s' ∧ Calm d none s' ∧
        s'.refs = Function.update s.refs k (i, (s.icache k).ref - 1) := by
  have htest : s.iputTest k = .done false (s.setInode k { s.icache k with ref := (s.icache k).ref - 1 }) := by
    refine if_neg ?_
    rintro ⟨href, hv, hnlink⟩
    rw [h.copy k hk.ref hv, hk.inum] at hnlink
    rcases hk.kept with hkept | hkept
    · exact hkept hnlink
    · omega
  refine ⟨s.setInode k { s.icache k with ref := (s.icache k).ref - 1 }, ?_, ?_, (refs_setInode _).trans (by rw [hk.inum])⟩
  · rw [Xv6.Fs.iput, Prog.run_bind, run_iputTest, htest]
    rfl
  · refine h.setInode (by simp [h.lock k]) (fun l hl => Iff.rfl) fun _ => h.copy k hk.ref

theorem Calm.iunlockput (h : Calm d (some k) s) (hk : Refs d s k i) :
    ∃ s', (iunlockput k).run (act p) s = .done () s' ∧ Calm d none s' ∧
        s'.refs = Function.update s.refs k (i, (s.icache k).ref - 1) := by
  obtain ⟨s₁, hr₁, h₁, hrefs₁⟩ := h.iunlock (p := p) hk.ref
  have hk₁ : Refs d s₁ k i := hk.congr (by rw [hrefs₁])
  obtain ⟨s₂, hr₂, h₂, hrefs₂⟩ := h₁.iput (p := p) hk₁
  have href : (s₁.icache k).ref = (s.icache k).ref := congrArg Prod.snd (congrFun hrefs₁ k)
  refine ⟨s₂, ?_, h₂, by rw [hrefs₂, hrefs₁, href]⟩
  rw [Xv6.Fs.iunlockput, Prog.run_bind, hr₁]
  exact hr₂

/-- `iget` panics because no entry is free, or it gives an entry of inode `i` with one more reference. -/
theorem Calm.iget (h : Calm d L s) (i : Nat) :
    ((iget i).run (act p) s = .panic .igetNoInodes ∧ ∀ l, (s.icache l).ref ≠ 0) ∨
      ∃ k s', (iget i).run (act p) s = .done k s' ∧ Calm d L s' ∧
        s'.refs = Function.update s.refs k (i, (s.icache k).ref + 1) ∧
        ((s.icache k).ref = 0 ∨ 0 < (s.icache k).ref ∧ (s.icache k).inum = i) := by
  rw [run_iget, State.iget]
  cases hslot : s.igetSlot i with
  | none =>
    refine .inl ⟨rfl, fun l hl => ?_⟩
    unfold State.igetSlot at hslot
    split at hslot
    · cases hslot
    · have := List.find?_eq_none.mp hslot l (List.mem_finRange l)
      simp [hl] at this
  | some k =>
    right
    have hfound : (s.icache k).ref = 0 ∨ 0 < (s.icache k).ref ∧ (s.icache k).inum = i := by
      unfold State.igetSlot at hslot
      split at hslot
      · rename_i k' hfind
        cases hslot
        exact .inr (by simpa using List.find?_some hfind)
      · exact .inl (by simpa using List.find?_some hslot)
    dsimp only
    rcases hfound with href | ⟨href, hinum⟩
    · rw [if_neg (by omega)]
      refine ⟨k, _, rfl, ?_, (refs_setInode _).trans (by rw [href]; rfl), .inl href⟩
      exact h.setInode (h.lock k) (fun _ _ => Iff.rfl) fun _ hv => by cases hv
    · rw [if_pos href]
      refine ⟨k, _, rfl, ?_, (refs_setInode _).trans (by rw [hinum]), .inr ⟨href, hinum⟩⟩
      exact h.setInode (h.lock k) (fun _ _ => Iff.rfl) fun _ => h.copy k href

theorem Forest.dirlookupScan (t : Forest d dirs) (h : Calm d (some k) s) (hdin : (s.icache k).din = d.inode i)
    (hdir : (d.inode i).kind = .dir) (hname : name.take dirsiz = name) :
    (dirlookupScan k name).run (act p) s = .done (dirs i name) s := by
  have hlookup := t.dense.dirlookup t.own (show (d.inode i).kind ≠ .free by rw [hdir]; simp) name
  rw [(t.dir i hdir).dirlookup, hname] at hlookup
  rw [run_dirlookupScan, hdin, h.disk, hlookup, ← hdin]
  change Outcome.done _ _ = _
  congr 1
  rw [State.setInode, Function.update_eq_self, ← h.disk]

/-! ### namex -/

/-- The loop of `namex`, called in state `s₀`, is at inode `i`, and has taken only entry `k`. -/
structure At (d : Disk) (s₀ s : State) (k : Slot) (i : Nat) : Prop extends Refs d s k i where
  calm : Calm d none s
  fresh : ∀ l, (s₀.icache l).ref = 0 → (s.icache l).ref = if l = k then 1 else 0

def State.Scarce (s : State) : Prop := ∀ k l, (s.icache k).ref = 0 → (s.icache l).ref = 0 → k = l

theorem At.scarce (h : At d s₀ s k i) (hnone : ∀ l, (s.icache l).ref ≠ 0) : s₀.Scarce := by
  have hk : ∀ l, (s₀.icache l).ref = 0 → l = k := by
    intro l hl
    by_contra hne
    exact hnone l ((h.fresh l hl).trans (if_neg hne))
  intro a b ha hb
  rw [hk a ha, hk b hb]

theorem At.move {s₁ s₂ : State} (h : At d s₀ s k i)
    (hget : s₁.refs = Function.update s.refs k' (j, (s.icache k').ref + 1)) (hold : Refs d s₁ k i)
    (hput : s₂.refs = Function.update s₁.refs k (i, (s₁.icache k).ref - 1)) (hcalm : Calm d none s₂)
    (hkind : (d.inode j).kind ≠ .free) (hnlink : (d.inode j).nlink ≠ 0) (hnonneg : 0 ≤ (s.icache k').ref) :
    At d s₀ s₂ k' j := by
  have hpos := h.ref
  obtain ⟨hinum₁, href₁⟩ := icache_of_refs hget k'
  obtain ⟨hinum₂, href₂⟩ := icache_of_refs hput k'
  rw [if_pos rfl] at hinum₁ href₁
  refine ⟨⟨?_, ?_, hkind, .inl hnlink⟩, hcalm, fun l hl => ?_⟩
  · rw [hinum₂]
    split
    · rename_i heq
      rw [← hold.inum, ← heq, hinum₁]
    · exact hinum₁
  · rw [href₂]
    split
    · rename_i heq
      subst heq
      omega
    · omega
  · have hl₀ := h.fresh l hl
    have hl₁ := (icache_of_refs hget l).2
    rw [(icache_of_refs hput l).2]
    rcases eq_or_ne l k with rfl | hlk
    · rw [if_pos rfl] at hl₀ ⊢
      rw [hl₁]
      split
      · rename_i heq
        rw [← heq, hl₀]
        rfl
      · rw [hl₀]
        rfl
    · rw [if_neg hlk] at hl₀ ⊢
      rw [hl₁]
      split
      · rename_i heq
        rw [← heq, hl₀]
        rfl
      · exact hl₀

theorem Forest.round (t : Forest d dirs) (h : At d s₀ s k i) {parent : Bool}
    (hname : name.take dirsiz = name) (hmore : ¬(parent = true ∧ rest = [])) :
    ((namexLoop parent (name :: rest) k).run (act p) s = .panic .igetNoInodes ∧ s₀.Scarce) ∨
      (lookupIn d dirs i name = none ∧ ∃ s', (namexLoop parent (name :: rest) k).run (act p) s = .done none s') ∨
      ∃ j k' s', lookupIn d dirs i name = some j ∧
        (namexLoop parent (name :: rest) k).run (act p) s = (namexLoop parent rest k').run (act p) s' ∧
            At d s₀ s' k' j := by
  obtain ⟨s₁, hr₁, h₁, hrefs₁, hdin⟩ := h.calm.ilock (p := p) h.toRefs
  have hk₁ : Refs d s₁ k i := h.toRefs.congr (by rw [hrefs₁])
  have href₁ (l : Slot) : (s₁.icache l).ref = (s.icache l).ref := congrArg Prod.snd (congrFun hrefs₁ l)
  rw [namexLoop]
  simp only [Prog.run_bind]
  rw [hr₁]
  simp only [Outcome.bind_done, run_peek, hdin]
  by_cases hdir : (d.inode i).kind = .dir
  · rw [if_neg (not_not.mpr hdir), if_neg hmore]
    simp only [dirlookup, Prog.run_bind]
    rw [t.dirlookupScan h₁ hdin hdir hname]
    simp only [Outcome.bind_done, lookupIn, if_pos hdir]
    cases hentry : dirs i name with
    | none =>
      obtain ⟨s₂, hr₂, -, -⟩ := h₁.iunlockput (p := p) hk₁
      right; left
      refine ⟨rfl, s₂, ?_⟩
      simp only [Prog.run_pure, Prog.run_bind, Outcome.bind_done, hr₂]
    | some r =>
      obtain ⟨off, j⟩ := r
      obtain ⟨hkind, hnlink⟩ := t.entry hdir hentry
      simp only [Prog.run_bind]
      rcases h₁.iget (p := p) j with ⟨hpanic, hnone⟩ | ⟨k', s₂, hr₂, h₂, hrefs₂, hfound⟩
      · left
        refine ⟨by simp only [hpanic, Outcome.bind_panic], h.scarce fun l hl => hnone l ((href₁ l).trans hl)⟩
      · have hk₂ := hk₁.iget hrefs₂ hfound hnlink
        obtain ⟨s₃, hr₃, h₃, hrefs₃⟩ := h₂.iunlockput (p := p) hk₂
        rw [hrefs₁, href₁] at hrefs₂
        rw [href₁] at hfound
        right; right
        refine ⟨j, k', s₃, rfl, ?_, h.move hrefs₂ hk₂ hrefs₃ h₃ hkind hnlink (by omega)⟩
        simp only [hr₂, Outcome.bind_done, Prog.run_pure, Prog.run_bind]
        rw [hr₃, Outcome.bind_done]
  · rw [if_pos hdir]
    obtain ⟨s₂, hr₂, -, -⟩ := h₁.iunlockput (p := p) hk₁
    right; left
    refine ⟨if_neg hdir, s₂, ?_⟩
    simp only [Prog.run_pure, Prog.run_bind, Outcome.bind_done, hr₂]

theorem Forest.run_namei (t : Forest d dirs) (h : At d s₀ s k i)
    (hnames : ∀ name ∈ names, name.take dirsiz = name) :
    ((namexLoop false names k).run (act p) s = .panic .igetNoInodes ∧ s₀.Scarce) ∨
      ∃ r s', (namexLoop false names k).run (act p) s = .done r s' ∧
          (s'.resultOf r).map Prod.fst = walk d dirs i names := by
  induction names generalizing s k i with
  | nil =>
    right
    refine ⟨_, s, rfl, ?_⟩
    exact congrArg some h.inum
  | cons name rest ih =>
    obtain ⟨hname, hrest⟩ := List.forall_mem_cons.mp hnames
    have hwalk : walk d dirs i (name :: rest) = (lookupIn d dirs i name).bind fun j => walk d dirs j rest :=
      List.foldlM_cons
    rcases t.round (p := p) h hname (show ¬(false = true ∧ rest = []) by simp) with hpanic | ⟨hnone, s', hr⟩ | ⟨j, k', s',
      hj, hr, h'⟩
    · exact .inl hpanic
    · right
      refine ⟨none, s', hr, ?_⟩
      rw [hwalk, hnone]
      rfl
    · rw [hr, hwalk, hj]
      exact ih h' hrest

theorem walkParent_cons (hrest : rest ≠ []) :
    walkParent d dirs i (name :: rest) = (lookupIn d dirs i name).bind fun j => walkParent d dirs j rest := by
  obtain ⟨last, hlast⟩ := Option.ne_none_iff_exists'.mp (mt List.getLast?_eq_none_iff.mp hrest)
  have hdrop : (name :: rest).dropLast = name :: rest.dropLast := List.dropLast_cons_of_ne_nil hrest
  have hget : (name :: rest).getLast? = some last := by
    rw [List.getLast?_cons, hlast]
    rfl
  rw [walkParent, hget, hdrop]
  simp only [walkParent, hlast, Option.bind_some]
  rw [walk, List.foldlM_cons]
  cases lookupIn d dirs i name with
  | none => rfl
  | some j => rfl

theorem At.last (h : At d s₀ s k i) (name : Name) :
    ∃ r s', (namexLoop true [name] k).run (act p) s = .done r s' ∧ s'.resultOf r = walkParent d dirs i [name] := by
  obtain ⟨s₁, hr₁, h₁, hrefs₁, hdin⟩ := h.calm.ilock (p := p) h.toRefs
  have hk₁ : Refs d s₁ k i := h.toRefs.congr (by rw [hrefs₁])
  have hparent : walkParent d dirs i [name] = if (d.inode i).kind = .dir then some (i, name) else none := rfl
  rw [hparent, namexLoop]
  simp only [Prog.run_bind]
  rw [hr₁]
  simp only [Outcome.bind_done, run_peek, hdin]
  by_cases hdir : (d.inode i).kind = .dir
  · obtain ⟨s₂, hr₂, -, hrefs₂⟩ := h₁.iunlock (p := p) hk₁.ref
    refine ⟨some (k, name), s₂, ?_, ?_⟩
    · rw [if_neg (not_not.mpr hdir), if_pos (by simp), Prog.run_bind, hr₂]
      rfl
    · have hinum : (s₂.icache k).inum = (s₁.icache k).inum := congrArg Prod.fst (congrFun hrefs₂ k)
      rw [if_pos hdir, State.resultOf, Option.map_some, hinum, hk₁.inum]
  · obtain ⟨s₂, hr₂, -, -⟩ := h₁.iunlockput (p := p) hk₁
    refine ⟨none, s₂, ?_, (if_neg hdir).symm⟩
    rw [if_pos hdir, Prog.run_bind, hr₂]
    rfl

theorem Forest.run_nameiparent (t : Forest d dirs) (h : At d s₀ s k i)
    (hnames : ∀ name ∈ names, name.take dirsiz = name) :
    ((namexLoop true names k).run (act p) s = .panic .igetNoInodes ∧ s₀.Scarce) ∨
      ∃ r s', (namexLoop true names k).run (act p) s = .done r s' ∧ s'.resultOf r = walkParent d dirs i names := by
  induction names generalizing s k i with
  | nil =>
    right
    obtain ⟨s', hr, -, -⟩ := h.calm.iput (p := p) h.toRefs
    refine ⟨none, s', ?_, rfl⟩
    rw [namexLoop, if_pos rfl, Prog.run_bind, hr]
    rfl
  | cons name rest ih =>
    obtain ⟨hname, hrest⟩ := List.forall_mem_cons.mp hnames
    by_cases hlast : rest = []
    · subst hlast
      exact .inr (h.last name)
    · rcases t.round (p := p) h hname (show ¬(true = true ∧ rest = []) from fun hc => hlast hc.2) with
        hpanic | ⟨hnone, s', hr⟩ | ⟨j, k', s', hj, hr, h'⟩
      · exact .inl hpanic
      · right
        refine ⟨none, s', hr, ?_⟩
        rw [walkParent_cons hlast, hnone]
        rfl
      · rw [hr, walkParent_cons hlast, hj]
        exact ih h' hrest

end

/-- Process `p`, with the inode `cwd` as its current directory, alone on a directory tree. -/
structure Tree (p : Pid) (s : State) (dirs : Nat → Dir) (cwd : Nat) : Prop where
  forest : Forest s.disk dirs
  calm : Calm s.disk none s
  root : (s.disk.inode rootino).kind ≠ .free ∧ (s.disk.inode rootino).nlink ≠ 0
  cwd : ∃ k, (s.proc p).cwd = some k ∧ (s.icache k).inum = cwd ∧ 0 < (s.icache k).ref ∧ (s.disk.inode cwd).kind ≠ .free

def startOf (cwd : Nat) (path : Path) : Nat := if path.head? = some slash then rootino else cwd

section
variable {dirs : Nat → Dir} {s : State} {p : Pid} {cwd : Nat}

theorem Tree.start (h : Tree p s dirs cwd) (path : Path) :
    ((namexStart path).run (act p) s = .panic .igetNoInodes ∧ s.Scarce) ∨
      ∃ k s', (namexStart path).run (act p) s = .done k s' ∧ At s.disk s s' k (startOf cwd path) := by
  rw [namexStart, startOf]
  split
  · rcases h.calm.iget (p := p) rootino with ⟨hpanic, hnone⟩ | ⟨k, s', hr, hcalm, hrefs, hfound⟩
    · exact .inl ⟨hpanic, fun k _ hk => absurd hk (hnone k)⟩
    · right
      obtain ⟨hinum, href⟩ := icache_of_refs hrefs k
      rw [if_pos rfl] at hinum href
      refine ⟨k, s', hr, ⟨hinum, by omega, h.root.1, .inl h.root.2⟩, hcalm, fun l hl => ?_⟩
      rw [(icache_of_refs hrefs l).2, hl]
      split
      · rename_i heq
        rw [← heq, hl]
        rfl
      · rfl
  · obtain ⟨k, hcwd, hinum, href, hkind⟩ := h.cwd
    right
    have hrun : idupCwd.run (act p) s = .done k (s.idup k) := by
      refine (Prog.run_op ..).trans ?_
      rw [act, hcwd]
      rfl
    refine ⟨k, _, hrun, ⟨?_, ?_, hkind, .inr ?_⟩, ?_, fun l hl => ?_⟩
    · rw [State.idup, setInode_self, hinum]
    · rw [State.idup, setInode_self]
      exact Int.lt_add_one_of_le href.le
    · rw [State.idup, setInode_self]
      exact Int.add_le_add_right href 1
    · exact h.calm.setInode (h.calm.lock k) (fun _ _ => Iff.rfl) fun _ => h.calm.copy k href
    · have hne : l ≠ k := by
        rintro rfl
        omega
      rw [State.idup, setInode_of_ne hne, hl, if_neg hne]

theorem segments_take {path : Path} {name : Name} (h : name ∈ segments path) : name.take dirsiz = name := by
  obtain ⟨s, -, rfl⟩ := List.mem_map.mp h
  rw [List.take_take, Nat.min_self]

/-- `skipelem` takes the parts of a path one after the other; `namei` leads to the inode that they lead to from the root or
    the current directory, and `nameiparent` to the directory that all but the last lead to. A call does not return only
    if it finds no free entry of the cache, of which there was then at most one. -/
theorem paths_follow (h : Tree p s dirs cwd) (path : Path) :
    Skips (cstring path) (segments (cstring path)) ∧
      (((namei path).run (act p) s = .panic .igetNoInodes ∧ s.Scarce) ∨
        ∃ r s', (namei path).run (act p) s = .done r s' ∧
          r.map (fun k => (s'.icache k).inum) = walk s.disk dirs (startOf cwd (cstring path)) (segments (cstring path))) ∧
      (((nameiparent path).run (act p) s = .panic .igetNoInodes ∧ s.Scarce) ∨
        ∃ r s', (nameiparent path).run (act p) s = .done r s' ∧
          s'.resultOf r = walkParent s.disk dirs (startOf cwd (cstring path)) (segments (cstring path))) := by
  have hnamex (parent : Bool) : (namex path parent).run (act p) s =
      ((namexStart (cstring path)).run (act p) s).bind fun k s =>
        (namexLoop parent (segments (cstring path)) k).run (act p) s := by
    rw [namex, Prog.run_bind, elements_segments (Nat.le_refl _)]
  have hnames : ∀ name ∈ segments (cstring path), name.take dirsiz = name := fun name hname => segments_take hname
  refine ⟨skips_segments _, ?_, ?_⟩
  · rw [namei, Prog.run_bind, hnamex]
    rcases h.start (cstring path) with ⟨hpanic, hscarce⟩ | ⟨k, s', hr, hat⟩
    · rw [hpanic]
      exact .inl ⟨rfl, hscarce⟩
    · rw [hr, Outcome.bind_done]
      rcases h.forest.run_namei (p := p) hat hnames with ⟨hpanic, hscarce⟩ | ⟨r, s'', hr', hwalk⟩
      · rw [hpanic]
        exact .inl ⟨rfl, hscarce⟩
      · rw [hr']
        refine .inr ⟨r.map Prod.fst, s'', rfl, ?_⟩
        rw [← hwalk, State.resultOf, Option.map_map, Option.map_map]
        rfl
  · rw [nameiparent, hnamex]
    rcases h.start (cstring path) with ⟨hpanic, hscarce⟩ | ⟨k, s', hr, hat⟩
    · rw [hpanic]
      exact .inl ⟨rfl, hscarce⟩
    · rw [hr, Outcome.bind_done]
      exact h.forest.run_nameiparent hat hnames

end

/-! ### A tree -/

/-- The bytes of directory `i`, 1 or 2: besides "." and ".." it has "a" or "b" for the next inode. -/
def nestedBytes (i : Nat) : List Byte :=
  direntOf i dot ++ direntOf 1 dotdot ++ direntOf (i + 1) [BitVec.ofNat 8 (0x60 + i)]

def nestedDir (i : Nat) : Dir := fun name =>
  if name = dot then some (0, i)
  else if name = dotdot then some (16, 1)
  else if name = [BitVec.ofNat 8 (0x60 + i)] then some (32, i + 1)
  else none

/-- The root is in block 10, the directory in it in block 11, and inode 3 is an empty file in that. All processes are in
    the root. -/
def nestedTree : State where
  disk := ⟨smallSb, fun i => ⟨if i = 1 ∨ i = 2 then .dir else if i = 3 then .file else .free, 0, 0, 1,
      if i = 3 then 0 else 48, fun r => if r = 0 ∧ i ≠ 3 then i + 9 else 0⟩, fun b => b ≤ 11,
    fun b x => (nestedBytes (b - 9)).getD x 0⟩
  icache := fun k => ⟨1, if k = 0 then 1 else 0, none, false, ⟨.free, 0, 0, 0, 0, fun _ => 0⟩⟩
  ftable := fun _ => ⟨.none, 0, false, false, 0, 0⟩
  proc := fun _ => ⟨.live, fun _ => none, some 0⟩
  outstanding := 0

section
variable {i r a : Nat}

theorem nestedTree_refers :
    Refers nestedTree.disk nestedTree.disk.inode i r a ↔ (i = 1 ∨ i = 2) ∧ r = 0 ∧ a = i + 9 := by
  constructor
  · rintro ⟨hi, -, ha, h0⟩
    have hr : r = 0 ∧ i ≠ 3 := by
      by_contra hne
      exact h0 (ha.symm.trans (by simp [Dinode.ref, nestedTree, hne]))
    have hi : i = 1 ∨ i = 2 := by
      by_contra hne
      exact hi (by simp [nestedTree, hne, hr.2])
    obtain ⟨rfl, h3⟩ := hr
    exact ⟨hi, rfl, by rw [← ha]; simp [Dinode.ref, nestedTree, h3]⟩
  · rintro ⟨rfl | rfl, rfl, rfl⟩
    · exact ⟨by decide, by decide, rfl, by decide⟩
    · exact ⟨by decide, by decide, rfl, by decide⟩

theorem nestedTree_represents (hi : i = 1 ∨ i = 2) :
    Represents ((nestedTree.disk.inode i).node nestedTree.disk.block) (nestedDir i) := by
  have hslots : (List.range 3).map ((nestedTree.disk.inode i).node nestedTree.disk.block).slot =
      [direntOf i dot, direntOf 1 dotdot, direntOf (i + 1) [BitVec.ofNat 8 (0x60 + i)]] := by
    rcases hi with rfl | rfl <;> decide +kernel
  obtain ⟨hslot0, hslot1, hslot2⟩ := by simpa [List.range_succ] using hslots
  have hnames : key dot = dot ∧ key dotdot = dotdot ∧
      key [BitVec.ofNat 8 (0x60 + i)] = [BitVec.ofNat 8 (0x60 + i)] := by
    rcases hi with rfl | rfl <;> decide
  have hinums : direntInum (direntOf i dot) = i ∧ direntInum (direntOf 1 dotdot) = 1 ∧
      direntInum (direntOf (i + 1) [BitVec.ofNat 8 (0x60 + i)]) = i + 1 ∧ i ≠ 0 := by
    rcases hi with rfl | rfl <;> decide
  have hsize : ((nestedTree.disk.inode i).node nestedTree.disk.block).size = 48 := by
    rcases hi with rfl | rfl <;> rfl
  refine ⟨by rcases hi with rfl | rfl <;> rfl, by rw [hsize]; rfl, by rw [hsize]; decide, fun {name off inum} => ?_⟩
  rw [hsize]
  constructor
  · intro h
    unfold nestedDir at h
    split_ifs at h with h0 h1 h2
    · cases h
      exact ⟨0, rfl, by decide, by rw [hslot0, hinums.1], hinums.2.2.2, by rw [hslot0, direntName_direntOf, hnames.1, h0]⟩
    · cases h
      exact ⟨1, rfl, by decide, by rw [hslot1, hinums.2.1], by decide, by rw [hslot1, direntName_direntOf, hnames.2.1, h1]⟩
    · cases h
      exact ⟨2, rfl, by decide, by rw [hslot2, hinums.2.2.1], by omega, by rw [hslot2, direntName_direntOf, hnames.2.2, h2]⟩
  · rintro ⟨k, rfl, hlt, rfl, -, rfl⟩
    have hlt : 16 * k < 48 := hlt
    obtain rfl | rfl | rfl : k = 0 ∨ k = 1 ∨ k = 2 := by omega
    · rw [hslot0, direntName_direntOf, hnames.1, hinums.1]
      rfl
    · rw [hslot1, direntName_direntOf, hnames.2.1, hinums.2.1]
      rfl
    · rw [hslot2, direntName_direntOf, hnames.2.2, hinums.2.2.1]
      rcases hi with rfl | rfl <;> rfl

theorem nestedTree_tree : Tree 0 nestedTree nestedDir 1 := by
  have hdirs {i : Nat} (h : (nestedTree.disk.inode i).kind = .dir) : i = 1 ∨ i = 2 := by
    by_contra hne
    by_cases h3 : i = 3 <;> simp [nestedTree, hne, h3] at h
  refine ⟨⟨⟨by decide, fun b hb => decide_eq_true ?_, fun h => ?_, fun h h' => ?_⟩, fun i bn hi hbn => ?_,
    fun i hi => nestedTree_represents (hdirs hi), fun {i name off j} hi hj => ?_⟩, ⟨rfl, fun k => ?_, fun k _ hv => ?_⟩,
    ⟨by decide, by decide⟩, 0, rfl, rfl, by decide, by decide⟩
  · have hb : b < 10 := hb
    omega
  · obtain ⟨rfl | rfl, -, rfl⟩ := nestedTree_refers.mp h <;> decide
  · obtain ⟨-, rfl, ha⟩ := nestedTree_refers.mp h
    obtain ⟨-, rfl, hb⟩ := nestedTree_refers.mp h'
    exact ⟨by omega, rfl⟩
  · have h3 : i ≠ 3 := by
      rintro rfl
      exact absurd hbn (Nat.not_lt_zero _)
    have hi : i = 1 ∨ i = 2 := by
      by_contra hne
      exact hi (by simp [nestedTree, hne, h3])
    have hbn : bn * 512 < 48 := by simpa [nestedTree, h3, bsize] using hbn
    obtain rfl : bn = 0 := by omega
    exact ⟨i + 9, nestedTree_refers.mpr ⟨hi, rfl, rfl⟩⟩
  · have hi := hdirs hi
    unfold nestedDir at hj
    obtain rfl | rfl | rfl : j = 1 ∨ j = 2 ∨ j = 3 := by
      split_ifs at hj <;> cases hj <;> omega
    all_goals exact ⟨by decide, by decide⟩
  · exact ⟨fun _ => by simp, fun _ => rfl⟩
  · cases hv

end

/-- The path `/a//b` leads to the file, and to the name `b` in the directory `/a`. -/
theorem paths_follow_nested :
    (∃ r s', (namei [slash, 0x61, slash, slash, 0x62]).run (act 0) nestedTree = .done r s' ∧
      r.map (fun k => (s'.icache k).inum) = some 3) ∧
    ∃ r s', (nameiparent [slash, 0x61, slash, slash, 0x62]).run (act 0) nestedTree = .done r s' ∧
      s'.resultOf r = some (2, [0x62]) := by
  have hroom : ¬nestedTree.Scarce := fun hscarce => absurd (hscarce 1 2 rfl rfl) (by decide)
  obtain ⟨-, hnamei, hparent⟩ := paths_follow nestedTree_tree [slash, 0x61, slash, slash, 0x62]
  obtain ⟨r, s', hr, hwalk⟩ := hnamei.resolve_left fun h => hroom h.2
  obtain ⟨r', s'', hr', hwalk'⟩ := hparent.resolve_left fun h => hroom h.2
  exact ⟨⟨r, s', hr, hwalk.trans (by decide)⟩, r', s'', hr', hwalk'.trans (by decide)⟩

end Xv6.Fs
