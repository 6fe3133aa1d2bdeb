import Xv6.Fs.Lives
import Xv6.Theorems.FileBytes
import Xv6.Theorems.FsRuns

/-! The lives of inodes on the disk, against a table of byte strings. Over any sequence of operations the bitmap marks
    exactly the blocks that inodes own, no block is owned twice, and the inodes on the disk are those in memory. -/

namespace Xv6.Fs
open Lib

/-! ### A table of files -/

/-- What an inode is, and what it holds, for inodes that are not free. -/
structure Table where
  kind : Nat → Kind
  bytes : Nat → List Byte

namespace Table

def locked {α : Type} (t : Table) (i : Nat) (op : Except Panic α) : Except Panic α :=
  if t.kind i = .free then .error .ilockNoType else op

/-- An operation on a table with `n` inodes. -/
def step (n : Nat) (t : Table) : LifeOp → Except Panic (LifeRet × Table)
  | .io op => t.locked op.inum (.ok (.io (filesStep t.bytes op).1, { t with bytes := (filesStep t.bytes op).2 }))
  | .ialloc dir =>
    match (List.range' 1 (n - 1)).find? fun i => t.kind i = .free with
    | some i => .ok (.inum i, ⟨Function.update t.kind i (if dir then .dir else .file), Function.update t.bytes i []⟩)
    | none => .error .iallocNoInodes
  | .itrunc i => t.locked i (.ok (.none, { t with bytes := Function.update t.bytes i [] }))
  | .setNlink i _ => t.locked i (.ok (.none, t))
  | .ifree i => t.locked i (.ok (.none, { t with kind := Function.update t.kind i .free }))

def run (n : Nat) : List LifeOp → Table → Except Panic (List LifeRet × Table)
  | [], t => .ok ([], t)
  | op :: ops, t => do
    let (r, t) ← t.step n op
    let (rs, t) ← run n ops t
    .ok (r :: rs, t)

end Table

/-! ### The invariant -/

/-- The blocks are owned once, marked exactly if owned and mapped up to the sizes, and the inodes on the disk are up to
    date. -/
structure Sound (s : Inodes) : Prop extends Owned s where
  tight : Tight s.disk s.mem
  synced : s.mem = s.disk.inode
  nodev : ∀ i, (s.mem i).kind ≠ .dev

/-- The inodes hold what the table says. -/
structure Sound.Holds (s : Inodes) (t : Table) : Prop extends Sound s where
  kind : ∀ i, (s.mem i).kind = t.kind i
  bytes : ∀ i, t.kind i ≠ .free → s.bytes i = t.bytes i

section
variable {s s' : Inodes} {t : Table} {i : Nat} {ip : Dinode} {α : Type} {op : Io} {r : IoRet}

theorem Sound.Holds.holdsBytes (h : Sound.Holds s t) : HoldsBytes s t.bytes :=
  ⟨h.toOwned, fun i hi => h.bytes i (h.kind i ▸ hi)⟩

theorem Sound.Holds.locked_free (h : Sound.Holds s t) (hi : t.kind i = .free) (op : Except Panic α) :
    s.locked i op = .error .ilockNoType :=
  if_pos ((h.kind i).trans hi)

theorem Sound.Holds.locked_of_ne (h : Sound.Holds s t) (hi : t.kind i ≠ .free) (op : Except Panic α) :
    s.locked i op = op :=
  if_neg fun hk => hi ((h.kind i).symm.trans hk)

theorem Sound.io (h : Sound s) (hop : (s.mem op.inum).kind ≠ .free) (hs : s.step op = .ok (r, s'))
    (howned : Owned s') (hkind : ∀ j, (s'.mem j).kind = (s.mem j).kind) : Sound s' := by
  have hnodev (j : Nat) : (s'.mem j).kind ≠ .dev := hkind j ▸ h.nodev j
  cases op with
  | readi i off n =>
    have hop : (s.mem i).kind ≠ .free := hop
    obtain ⟨⟨r', d', ip⟩, hread, hs⟩ := bind_eq_ok.mp hs
    cases hs
    obtain ⟨hreads, -⟩ := readi_node h.own hop hread
    obtain ⟨hd, hX⟩ := hreads.still h.dense
    refine ⟨howned, hreads.tight h.tight, ?_, hnodev⟩
    dsimp only
    rw [hX, hd, h.synced]
  | writei i src off =>
    have hop : (s.mem i).kind ≠ .free := hop
    obtain ⟨⟨r', d', ip⟩, hwrite, hs⟩ := bind_eq_ok.mp hs
    cases hs
    rcases writei_wrote h.own hop hwrite with ⟨-, rfl, rfl⟩ | ⟨-, -, hw⟩
    · rw [Function.update_eq_self]
      exact h
    · refine ⟨howned, hw.tight h.tight, ?_, hnodev⟩
      dsimp only
      rw [hw.inode]
      split
      · rw [h.synced]
      · -- A write that does not grow the file finds all its blocks there.
        rename_i hsmall
        rw [hw.still h.dense (Nat.not_lt.mp hsmall), Function.update_eq_self, h.synced]

theorem Sound.iupdate (h : Sound s) (hrefers : ∀ {j r a}, Refers s.disk (Function.update s.mem i ip) j r a ↔
    Refers s.disk s.mem j r a)
    (hsize : ip.kind ≠ .free → ip.size ≤ (s.mem i).size ∧ (s.mem i).kind ≠ .free ∨ ip.size = 0) (hdev : ip.kind ≠ .dev) :
    Sound (s.iupdate i ip) := by
  have hdisk {j r a : Nat} : Refers (s.disk.iupdate i ip) (Function.update s.mem i ip) j r a ↔ Refers s.disk s.mem j r a :=
    hrefers
  refine ⟨⟨own_of_refers h.own rfl rfl hdisk.mp, fun j bn hj hbn => ?_⟩, fun b hb hn hset => ?_, ?_, fun j => ?_⟩
  · have hold : (s.mem j).kind ≠ .free ∧ bn * bsize < (s.mem j).size := by
      rcases eq_or_ne j i with rfl | hji
      · dsimp only [Inodes.iupdate] at hj hbn
        rw [Function.update_self] at hj hbn
        rcases hsize hj with ⟨hle, hk⟩ | hz
        · exact ⟨hk, Nat.lt_of_lt_of_le hbn hle⟩
        · omega
      · dsimp only [Inodes.iupdate] at hj hbn
        rw [Function.update_of_ne hji] at hj hbn
        exact ⟨hj, hbn⟩
    obtain ⟨a, ha⟩ := h.dense j bn hold.1 hold.2
    exact ⟨a, hdisk.mpr ha⟩
  · obtain ⟨j, r, hr⟩ := h.tight b hb hn hset
    exact ⟨j, r, hdisk.mpr hr⟩
  · dsimp only [Inodes.iupdate, Disk.iupdate]
    rw [h.synced]
  · rcases eq_or_ne j i with rfl | hji
    · dsimp only [Inodes.iupdate]
      rwa [Function.update_self]
    · dsimp only [Inodes.iupdate]
      rw [Function.update_of_ne hji]
      exact h.nodev j

theorem refers_of_none (hold : ∀ {r a}, ¬Refers s.disk s.mem i r a) (hnew : ∀ {r a},
    ¬Refers s.disk (Function.update s.mem i ip) i r a)
    {j r a : Nat} : Refers s.disk (Function.update s.mem i ip) j r a ↔ Refers s.disk s.mem j r a := by
  rcases eq_or_ne j i with rfl | hji
  · exact iff_of_false hnew hold
  · unfold Refers
    rw [Function.update_of_ne hji]

theorem Sound.itrunc (h : Sound s) (hi : (s.mem i).kind ≠ .free) :
    ∃ d', s.itrunc i = .ok ⟨d', Function.update s.mem i (s.mem i).emptied⟩ ∧ d'.block = s.disk.block ∧ d'.sb = s.disk.sb ∧
      Sound ⟨d', Function.update s.mem i (s.mem i).emptied⟩ := by
  obtain ⟨d', htrunc, hsb, hblock, hinode, hown, htight⟩ := itrunc_node h.own hi
  refine ⟨d', bind_eq_ok.mpr ⟨_, htrunc, rfl⟩, hblock, hsb, ⟨hown, fun j bn hj hbn => ?_⟩, htight h.tight, ?_, fun j => ?_⟩
  · dsimp only at hj hbn ⊢
    rcases eq_or_ne j i with rfl | hji
    · rw [Function.update_self] at hbn
      exact absurd hbn (Nat.not_lt_zero _)
    · rw [Function.update_of_ne hji] at hj hbn
      obtain ⟨a, hk, hr, ha, h0⟩ := h.dense j bn hj hbn
      refine ⟨a, ?_⟩
      unfold Refers
      rw [Function.update_of_ne hji, hblock]
      exact ⟨hk, hr, ha, h0⟩
  · dsimp only
    rw [hinode, h.synced]
  · dsimp only
    rcases eq_or_ne j i with rfl | hji
    · rw [Function.update_self]
      exact h.nodev j
    · rw [Function.update_of_ne hji]
      exact h.nodev j

/-! ### Steps -/

theorem step_sb (hs : s.step op = .ok (r, s')) : s'.disk.sb = s.disk.sb := by
  cases op with
  | readi i off n =>
    obtain ⟨⟨r', d', ip⟩, hread, hs⟩ := bind_eq_ok.mp hs
    cases hs
    exact readi_sb hread
  | writei i src off =>
    obtain ⟨⟨r', d', ip⟩, hwrite, hs⟩ := bind_eq_ok.mp hs
    cases hs
    exact writei_sb hwrite

theorem Sound.Holds.update {d' : Disk} {kind : Kind} (bytes : List Byte) (h : Sound.Holds s t)
    (hsound : Sound ⟨d', Function.update s.mem i ip⟩) (hblock : d'.block = s.disk.block) (hkind : ip.kind = kind)
    (hbytes : kind ≠ .free → (ip.node s.disk.block).bytes = bytes) :
    Sound.Holds ⟨d', Function.update s.mem i ip⟩ ⟨Function.update t.kind i kind, Function.update t.bytes i bytes⟩ := by
  refine ⟨hsound, fun j => ?_, fun j hj => ?_⟩ <;> rcases eq_or_ne j i with rfl | hji
  · simpa using hkind
  · simpa [hji] using h.kind j
  · dsimp only [Inodes.bytes] at hj ⊢
    rw [Function.update_self] at hj
    rw [Function.update_self, Function.update_self, hblock, hbytes hj]
  · dsimp only [Inodes.bytes] at hj ⊢
    rw [Function.update_of_ne hji] at hj
    rw [Function.update_of_ne hji, Function.update_of_ne hji, hblock]
    exact h.bytes j hj

theorem bytes_of_size {x : Dinode} {block : Nat → Block} (h : x.size = 0) : (x.node block).bytes = [] := by
  rw [Node.bytes, Dinode.node, h]
  rfl

/-- Inodes do what a table does: the same error, or the same results, with blocks that are accounted for. -/
def Follows {α : Type} (n : Nat) (r : Except Panic (α × Inodes)) (r' : Except Panic (α × Table)) : Prop :=
  match r' with
  | .error e => r = .error e
  | .ok (ret, t) => ∃ s, r = .ok (ret, s) ∧ Sound.Holds s t ∧ s.disk.sb.ninodes = n

variable {n : Nat}

theorem Sound.Holds.step_io (h : Sound.Holds s t) (hn : s.disk.sb.ninodes = n) (op : Io) :
    s.lifeStep (.io op) = .error .ballocOutOfBlocks ∨ Follows n (s.lifeStep (.io op)) (t.step n (.io op)) := by
  by_cases hk : t.kind op.inum = .free
  · right
    rw [Table.step, Table.locked, if_pos hk]
    exact h.locked_free hk _
  · have hop : (s.mem op.inum).kind ≠ .free := h.kind op.inum ▸ hk
    rw [Table.step, Table.locked, if_neg hk, Inodes.lifeStep, h.locked_of_ne hk]
    rcases h.holdsBytes.step hop with hs | ⟨s', hs, hbytes, hkind⟩
    · left
      rw [hs]
      rfl
    · right
      refine ⟨s', by rw [hs]; rfl, ⟨h.toSound.io hop hs hbytes.toOwned hkind, fun j => ?_, fun j hj => ?_⟩, ?_⟩
      · exact (hkind j).trans (h.kind j)
      · exact hbytes.bytes j (by rw [hkind, h.kind]; exact hj)
      · rw [← hn, step_sb hs]

theorem Sound.Holds.step_ialloc (h : Sound.Holds s t) (hn : s.disk.sb.ninodes = n) (dir : Bool) :
    Follows n (s.lifeStep (.ialloc dir)) (t.step n (.ialloc dir)) := by
  have hkinds : (fun i => decide ((s.disk.inode i).kind = .free)) = fun i => decide (t.kind i = .free) :=
    funext fun i => by rw [← h.synced, h.kind]
  rw [Inodes.lifeStep, Inodes.ialloc, Table.step, hkinds, hn]
  cases hfind : (List.range' 1 (n - 1)).find? fun i => decide (t.kind i = .free) with
  | none => rfl
  | some i =>
    have hfree : t.kind i = .free := by simpa using List.find?_some hfind
    refine ⟨_, rfl, h.update [] ?_ rfl rfl fun _ => bytes_of_size rfl, hn⟩
    refine h.toSound.iupdate (refers_of_none (fun hr => hr.1 ((h.kind i).trans hfree)) fun hr => ?_) (fun _ => .inr rfl) ?_
    · have hzero := hr.2.2.1
      simp only [Function.update_self, Dinode.ref, if_true, ite_self] at hzero
      exact hr.2.2.2 hzero.symm
    · cases dir <;> nofun

theorem Sound.Holds.step_itrunc (h : Sound.Holds s t) (hn : s.disk.sb.ninodes = n) (i : Nat) :
    Follows n (s.lifeStep (.itrunc i)) (t.step n (.itrunc i)) := by
  by_cases hk : t.kind i = .free
  · rw [Table.step, Table.locked, if_pos hk]
    exact h.locked_free hk _
  · obtain ⟨d', htrunc, hblock, hsb, hsound⟩ := h.toSound.itrunc (i := i) (h.kind i ▸ hk)
    rw [Table.step, Table.locked, if_neg hk, Inodes.lifeStep, h.locked_of_ne hk, htrunc]
    have hnew := h.update [] hsound hblock (h.kind i) fun _ => bytes_of_size rfl
    rw [Function.update_eq_self] at hnew
    exact ⟨_, rfl, hnew, by rw [hsb, hn]⟩

theorem Sound.Holds.step_setNlink (h : Sound.Holds s t) (hn : s.disk.sb.ninodes = n) (i : Nat) (v : BitVec 16) :
    Follows n (s.lifeStep (.setNlink i v)) (t.step n (.setNlink i v)) := by
  by_cases hk : t.kind i = .free
  · rw [Table.step, Table.locked, if_pos hk]
    exact h.locked_free hk _
  · rw [Table.step, Table.locked, if_neg hk, Inodes.lifeStep, h.locked_of_ne hk]
    have hsound : Sound (s.iupdate i { s.mem i with nlink := v }) := by
      refine h.toSound.iupdate (fun {j r a} => ?_) (fun hf => .inl ⟨Nat.le_refl _, hf⟩) (h.nodev i)
      rcases eq_or_ne j i with rfl | hji
      · unfold Refers
        rw [Function.update_self]
        rfl
      · unfold Refers
        rw [Function.update_of_ne hji]
    have hnew := h.update (t.bytes i) hsound rfl (h.kind i) fun hf => h.bytes i hf
    rw [Function.update_eq_self, Function.update_eq_self] at hnew
    exact ⟨_, rfl, hnew, hn⟩

theorem Sound.Holds.step_ifree (h : Sound.Holds s t) (hn : s.disk.sb.ninodes = n) (i : Nat) :
    Follows n (s.lifeStep (.ifree i)) (t.step n (.ifree i)) := by
  by_cases hk : t.kind i = .free
  · rw [Table.step, Table.locked, if_pos hk]
    exact h.locked_free hk _
  · obtain ⟨d', htrunc, hblock, hsb, hsound⟩ := h.toSound.itrunc (i := i) (h.kind i ▸ hk)
    rw [Table.step, Table.locked, if_neg hk, Inodes.lifeStep, h.locked_of_ne hk, Inodes.ifree, htrunc]
    let ip : Dinode := { (s.mem i).emptied with kind := .free }
    have hfreed : Sound (Inodes.iupdate ⟨d', Function.update s.mem i (s.mem i).emptied⟩ i ip) :=
      hsound.iupdate (refers_of_none (fun {r a} hr => ?_) fun {r a} hr => ?_) (absurd rfl) fun hdev => by cases hdev
    · have hnew : Sound.Holds ⟨d'.iupdate i ip, Function.update s.mem i ip⟩ _ :=
        h.update (t.bytes i) (by simpa [Inodes.iupdate] using hfreed) hblock rfl (absurd rfl)
      rw [Function.update_eq_self] at hnew
      refine ⟨_, rfl, ?_, by rw [← hn, ← hsb]; rfl⟩
      simpa [Inodes.iupdate] using hnew
    · have hzero := hr.2.2.1
      simp only [Function.update_self, emptied_ref] at hzero
      exact hr.2.2.2 hzero.symm
    · exact hr.1 (by rw [Function.update_self])

theorem Sound.Holds.lifeStep (h : Sound.Holds s t) (hn : s.disk.sb.ninodes = n) (op : LifeOp) :
    s.lifeStep op = .error .ballocOutOfBlocks ∨ Follows n (s.lifeStep op) (t.step n op) := by
  cases op with
  | io op => exact h.step_io hn op
  | ialloc dir => exact .inr (h.step_ialloc hn dir)
  | itrunc i => exact .inr (h.step_itrunc hn i)
  | setNlink i v => exact .inr (h.step_setNlink hn i v)
  | ifree i => exact .inr (h.step_ifree hn i)

end

/-! ### Runs -/

section
variable {s s₁ : Inodes} {t t₁ : Table} {n : Nat} {op : LifeOp} {ops : List LifeOp} {r : LifeRet} {e : Panic}

theorem lifeRun_cons_error (h : s.lifeStep op = .error e) : s.lifeRun (op :: ops) = .error e :=
  bind_eq_error.mpr (.inl h)

theorem lifeRun_cons_ok (h : s.lifeStep op = .ok (r, s₁)) :
    s.lifeRun (op :: ops) = (s₁.lifeRun ops).map fun q => (r :: q.1, q.2) := by
  rw [Inodes.lifeRun, h]
  rfl

theorem Table.run_cons_error (h : t.step n op = .error e) : t.run n (op :: ops) = .error e :=
  bind_eq_error.mpr (.inl h)

theorem Table.run_cons_ok (h : t.step n op = .ok (r, t₁)) :
    t.run n (op :: ops) = (t₁.run n ops).map fun q => (r :: q.1, q.2) := by
  rw [Table.run, h]
  rfl

theorem Follows.map {α β : Type} {a : Except Panic (α × Inodes)} {b : Except Panic (α × Table)} (h : Follows n a b)
    (f : α → β) :
    Follows n (a.map fun q => (f q.1, q.2)) (b.map fun q => (f q.1, q.2)) := by
  cases b with
  | error e =>
    have h : a = .error e := h
    rw [h]
    rfl
  | ok q =>
    obtain ⟨s, rfl, hs⟩ := h
    exact ⟨s, rfl, hs⟩

end

/-- From a state whose blocks are accounted for, operations on inodes that do not run out of blocks return what they
    return on a table of byte strings, and leave a state whose blocks are accounted for. -/
theorem lives_accounted {s : Inodes} {t : Table} (h : Sound.Holds s t) (ops : List LifeOp)
    (hblocks : s.lifeRun ops ≠ .error .ballocOutOfBlocks) :
    Follows s.disk.sb.ninodes (s.lifeRun ops) (t.run s.disk.sb.ninodes ops) := by
  generalize hn : s.disk.sb.ninodes = n
  induction ops generalizing s t with
  | nil => exact ⟨s, rfl, h, hn⟩
  | cons op ops ih =>
    rcases h.lifeStep hn op with hs | hs
    · exact absurd (lifeRun_cons_error hs) hblocks
    · cases ht : t.step n op with
      | error e =>
        rw [ht] at hs
        rw [Table.run_cons_error ht]
        exact lifeRun_cons_error hs
      | ok p =>
        obtain ⟨r, t₁⟩ := p
        rw [ht] at hs
        obtain ⟨s₁, hs₁, h₁, hn₁⟩ := hs
        rw [lifeRun_cons_ok hs₁] at hblocks
        rw [lifeRun_cons_ok hs₁, Table.run_cons_ok ht]
        refine (ih h₁ (fun he => hblocks ?_) hn₁).map (r :: ·)
        rw [he]
        rfl

/-- The disk with no file at all. -/
def noFiles : Inodes :=
  ⟨⟨smallSb, fun _ => ⟨.free, 0, 0, 0, 0, fun _ => 0⟩, fun b => b < 10, fun _ _ => 0xFF⟩,
    fun _ => ⟨.free, 0, 0, 0, 0, fun _ => 0⟩⟩

theorem noFiles_holds : Sound.Holds noFiles ⟨fun _ => .free, fun _ => []⟩ := by
  have hnone : ∀ {i r a}, ¬Refers noFiles.disk noFiles.mem i r a := fun hr => hr.1 rfl
  refine ⟨⟨⟨⟨by decide, fun b hb => decide_eq_true hb, fun h => absurd h hnone, fun h => absurd h hnone⟩,
    fun i bn hi => absurd rfl hi⟩,
    fun b _ hn hset => ?_, rfl, nofun⟩, fun _ => rfl, fun i hi => absurd rfl hi⟩
  exact absurd (of_decide_eq_true hset) (Nat.not_lt.mpr hn)

/-- A file is written and freed, and its inode becomes a directory, which is empty. -/
theorem lives_accounted_again : ∃ s', noFiles.lifeRun [.ialloc false, .io (.writei 1 [1, 2, 3] 0), .ifree 1, .ialloc true,
      .io (.readi 1 0 10), .io (.writei 1 [7] 0), .io (.readi 1 0 10)] =
      .ok ([.inum 1, .io (.wrote (some 3)), .none, .inum 1, .io (.read (some [])), .io (.wrote (some 1)),
        .io (.read (some [7]))], s') ∧
    Sound s' := by
  have hok : (noFiles.lifeRun [.ialloc false, .io (.writei 1 [1, 2, 3] 0), .ifree 1, .ialloc true, .io (.readi 1 0 10),
      .io (.writei 1 [7] 0), .io (.readi 1 0 10)]).isOk = true := by decide +kernel
  obtain ⟨s', hrun, hholds, -⟩ := lives_accounted noFiles_holds _ fun he => by
    rw [he] at hok
    cases hok
  exact ⟨s', hrun, hholds.toSound⟩

/-! ### The programs of the system calls -/

section
variable {s : State} {p : Pid} {k : Slot} {X : Nat → Dinode} {kind : Kind}

theorem run_iallocLoop (l : List Nat) : (iallocLoop kind l).run (act p) s =
    (l.find? fun i => (s.disk.inode i).kind = .free).elim (.panic .iallocNoInodes) fun i =>
      State.iget { s with disk := s.disk.iupdate i ⟨kind, 0, 0, 0, 0, fun _ => 0⟩ } i := by
  induction l with
  | nil => rfl
  | cons i l ih =>
    have htry : (tryAlloc i kind).run (act p) s = s.tryAlloc i kind := Prog.run_op ..
    rw [iallocLoop, Prog.run_bind, htry, State.tryAlloc]
    by_cases hi : (s.disk.inode i).kind = .free
    · rw [if_pos hi, List.find?_cons_of_pos (by simpa using hi)]
      exact run_iget
    · rw [if_neg hi, List.find?_cons_of_neg (by simpa using hi)]
      exact ih

/-- `ialloc` does to the disk what `Inodes.ialloc` does, and takes an entry of the cache. -/
theorem run_ialloc (X : Nat → Dinode) :
    (∀ i t, Inodes.ialloc ⟨s.disk, X⟩ kind = .ok (i, t) →
      (ialloc kind).run (act p) s = State.iget { s with disk := t.disk } i) ∧
    ∀ e, Inodes.ialloc ⟨s.disk, X⟩ kind = .error e → (ialloc kind).run (act p) s = .panic e := by
  have hrun : (ialloc kind).run (act p) s = _ := run_iallocLoop (List.range' 1 (s.disk.sb.ninodes - 1))
  rw [hrun]
  unfold Inodes.ialloc
  cases (List.range' 1 (s.disk.sb.ninodes - 1)).find? _ with
  | none => exact ⟨nofun, fun e h => by cases h; rfl⟩
  | some i => exact ⟨fun i t h => by cases h; rfl, nofun⟩

/-- So does `iput` with the last reference to an inode without links, for `Inodes.ifree`. -/
theorem run_iput (hX : X (s.icache k).inum = (s.icache k).din) (href : (s.icache k).ref = 1)
    (hvalid : (s.icache k).valid = true) (hlink : (s.icache k).din.nlink = 0) :
    (∀ t, Inodes.ifree ⟨s.disk, X⟩ (s.icache k).inum = .ok t → (iput k).run (act p) s =
      .done () (State.setInode { s with disk := t.disk } k
        { s.icache k with din := t.mem (s.icache k).inum, valid := false, ref := 0 })) ∧
    ∀ e, Inodes.ifree ⟨s.disk, X⟩ (s.icache k).inum = .error e → (iput k).run (act p) s = .panic e := by
  have hrun : (iput k).run (act p) s = (do itrunc k; ifree k; iputDrop k : P Unit).run (act p) s := by
    rw [iput, Prog.run_bind, run_iputTest, State.iputTest, if_pos ⟨href, hvalid, hlink⟩]
    rfl
  have htrunc : (itrunc k).run (act p) s = s.withInode k
      ((s.disk.itrunc (s.icache k).inum (s.icache k).din).map fun r => ((), r.1, r.2)) := Prog.run_op ..
  rw [hrun, Prog.run_bind, htrunc]
  unfold Inodes.ifree Inodes.itrunc
  dsimp only
  rw [hX]
  cases s.disk.itrunc (s.icache k).inum (s.icache k).din with
  | error e => exact ⟨nofun, fun e h => by cases h; rfl⟩
  | ok r =>
    refine ⟨fun t h => ?_, nofun⟩
    cases h
    have hfree (u : State) : (ifree k).run (act p) u = .done () (State.setInode
        { u with disk := u.disk.iupdate (u.icache k).inum { (u.icache k).din with kind := .free } } k
        { u.icache k with din := { (u.icache k).din with kind := .free } }) := rfl
    have hdrop (u : State) : (iputDrop k).run (act p) u =
        .done () (u.setInode k { u.icache k with valid := false, ref := (u.icache k).ref - 1 }) := rfl
    rw [Except.map, State.withInode, Outcome.bind, Prog.run_bind, hfree, Outcome.bind, hdrop]
    simp [State.setInode, Inodes.iupdate, href]
end

end Xv6.Fs
