import Mathlib.Algebra.BigOperators.Fin
import Mathlib.Algebra.Order.BigOperators.Group.Finset
import Xv6.Fs.Writers
import Xv6.Lib.Sums
import Xv6.Theorems.FsContents

/-! Processes that write through one `struct file` lose nothing. The offset is read and moved on under the lock of the
    inode, so that each section appends its chunk where the last one ended. -/

namespace Xv6.Fs
open Lib

/-- The inode of an open file as it is in use. -/
def State.inodeOf (s : State) (f : FileIx) : Dinode :=
  let x := s.icache (s.ftable f).ip
  if x.valid then x.din else s.disk.inode x.inum

/-- File `f` is open for writing on a regular file whose lock is free; `X` gives the inodes as they are in use. -/
structure Shared (f : FileIx) (s : State) (X : Nat → Dinode) : Prop where
  type : (s.ftable f).type = .inode
  writable : (s.ftable f).writable = true
  ref : 0 < (s.icache (s.ftable f).ip).ref
  lock : (s.icache (s.ftable f).ip).lock = none
  copy : X (s.icache (s.ftable f).ip).inum = s.inodeOf f
  kind : (X (s.icache (s.ftable f).ip).inum).kind = .file
  own : Own s.disk X
  off : (s.ftable f).off ≤ (X (s.icache (s.ftable f).ip).inum).size

section
variable {f : FileIx} {s s' : State} {X : Nat → Dinode} {p : Pid} {addr : List Byte} {c : Nat} {d' : Disk} {off : Nat}
  {ip : Dinode} {src : List Byte} {a : Unit} {q : P Int} {n : Int} {e : Event}

/-- What a chunk of `src` does. -/
structure Appended (f : FileIx) (s : State) (X : Nat → Dinode) (src : List Byte) (s' : State) (X' : Nat → Dinode) :
    Prop where
  shared : Shared f s' X'
  off : (s'.ftable f).off = (s.ftable f).off + src.length
  inum : (s'.icache (s'.ftable f).ip).inum = (s.icache (s.ftable f).ip).inum
  node : (X' (s.icache (s.ftable f).ip).inum).node s'.disk.block =
    ((X (s.icache (s.ftable f).ip).inum).node s.disk.block).write src (s.ftable f).off

theorem writei_fits {d : Disk} {i : Nat} {x : Dinode} {r : Option Nat} (hoff : off ≤ x.size)
    (hfit : off + src.length ≤ maxfile * bsize) (h : d.writei i x src off = .ok (r, d', ip)) : r ≠ none := by
  unfold Disk.writei at h
  dsimp only at h
  have hbig : off + src.length < 2 ^ 32 := by
    simp only [maxfile, ndirect, nindirect, bsize] at hfit
    omega
  rw [if_neg (by omega), if_neg (by omega)] at h
  obtain ⟨⟨d1, ip1⟩, -, h⟩ := bind_eq_ok.mp h
  dsimp only at h
  split at h
  · cases h
    simp
  · cases h
    simp

theorem iunlock_done {k : Slot} (h : s.iunlock k = .done a s') :
    s' = s.setInode k { s.icache k with lock := none } := by
  unfold State.iunlock at h
  dsimp only at h
  split at h
  · cases h
  · cases h
    rfl

def Shared.locked (X : Nat → Dinode) (p : Pid) (x : Inode) : Inode :=
    { x with lock := some p, valid := true, din := X x.inum }

theorem Shared.ilock {s₁ s₂ : State} {b : Unit} (h : Shared f s X) (h₁ : s.acquiresleep p (s.ftable f).ip = .done a s₁)
    (h₂ : s₁.load (s.ftable f).ip = .done b s₂) :
    s₂ = s.setInode (s.ftable f).ip (Shared.locked X p (s.icache (s.ftable f).ip)) := by
  have hcopy := h.copy
  unfold State.inodeOf at hcopy
  dsimp only at hcopy
  unfold State.acquiresleep at h₁
  rw [if_neg (by have := h.ref; omega), if_pos h.lock] at h₁
  cases h₁
  unfold State.load at h₂
  simp only [State.setInode, Function.update_self] at h₂
  split at h₂
  · rename_i hv
    cases h₂
    rw [if_pos hv] at hcopy
    simp only [State.setInode, Shared.locked, hcopy, hv]
  · rename_i hv
    rw [if_neg hv] at hcopy
    rw [← hcopy, if_neg (by rw [h.kind]; simp)] at h₂
    cases h₂
    simp only [State.setInode, Shared.locked, Function.update_idem]

theorem Shared.write (h : Shared f s X)
    (hw : Wrote s.disk X (s.icache (s.ftable f).ip).inum src (s.ftable f).off d' ip)
    (hfile : s'.ftable f = { s.ftable f with off := (s.ftable f).off + src.length }) (hdisk : s'.disk = d')
    (hinode : s'.icache (s.ftable f).ip = { s.icache (s.ftable f).ip with lock := none, valid := true, din := ip }) :
    Appended f s X src s' (Function.update X (s.icache (s.ftable f).ip).inum ip) := by
  have hip : (s'.ftable f).ip = (s.ftable f).ip := by rw [hfile]
  have hinum : (s'.icache (s'.ftable f).ip).inum = (s.icache (s.ftable f).ip).inum := by rw [hip, hinode]
  have hself : Function.update X (s.icache (s.ftable f).ip).inum ip (s.icache (s.ftable f).ip).inum = ip :=
    Function.update_self ..
  refine ⟨⟨?_, ?_, ?_, ?_, ?_, ?_, ?_, ?_⟩, ?_, hinum, ?_⟩
  · rw [hfile]
    exact h.type
  · rw [hfile]
    exact h.writable
  · rw [hip, hinode]
    exact h.ref
  · rw [hip, hinode]
  · rw [hinum, hself, State.inodeOf, hip, hinode]
    rfl
  · rw [hinum, hself, hw.kind]
    exact h.kind
  · rw [hdisk]
    exact hw.own
  · rw [hinum, hself, hw.same, hfile]
    exact Nat.le_max_right _ _
  · rw [hfile]
  · rw [hself, hdisk]
    exact hw.node

theorem round {fin : Bool → P Int} (h : Shared f s X) (hne : addr ≠ [])
    (hfit : (s.ftable f).off + addr.length ≤ maxfile * bsize)
    (hr : (filewriteLoop f (c + 1) addr >>= fin).runUntil (act p) Op.unlocks s = .done q s') :
    q = ((do endOp; filewriteLoop f c (addr.drop filewriteMax)) >>= fin) ∧
        ∃ X', Appended f s X (addr.take filewriteMax) s' X' := by
  rw [filewriteLoop, if_neg hne] at hr
  obtain ⟨_, s₁, h₁, hr⟩ := Prog.runUntil_call rfl hr
  cases h₁
  obtain ⟨x, s₂, h₂, hr⟩ := Prog.runUntil_call rfl hr
  cases h₂
  obtain ⟨_, s₃, h₃, hr⟩ := Prog.runUntil_call rfl hr
  obtain ⟨_, s₄, h₄, hr⟩ := Prog.runUntil_call rfl hr
  have hs₄ :=
    Shared.ilock (s := { s with outstanding := s.outstanding + 1 }) ⟨h.type, h.writable, h.ref, h.lock, h.copy, h.kind,
      h.own, h.off⟩ h₃ h₄
  subst hs₄
  obtain ⟨off, s₅, h₅, hr⟩ := Prog.runUntil_call rfl hr
  cases h₅
  obtain ⟨ip, s₆, h₆, hr⟩ := Prog.runUntil_call rfl hr
  cases h₆
  -- A regular file is no device.
  dsimp only [Prog.bind, State.setInode, Shared.locked] at hr
  rw [Function.update_self, if_neg (by dsimp only; rw [h.kind]; simp)] at hr
  obtain ⟨r, s₇, h₇, hr⟩ := Prog.runUntil_call rfl hr
  dsimp only [act, State.withInode, State.setInode] at h₇
  rw [Function.update_self] at h₇
  split at h₇
  · rename_i a d' din hw
    cases h₇
    have hsrc : (addr.take filewriteMax).length ≤ addr.length := by
      rw [List.length_take]
      exact Nat.min_le_right _ _
    have hnone := writei_fits h.off (by omega) hw
    rcases writei_wrote h.own (by rw [h.kind]; simp) hw with ⟨hc, -, -⟩ | ⟨hlen, -, hwrote⟩
    · exact absurd hc hnone
    subst hlen
    have hpos : 0 < (addr.take filewriteMax).length := by
      rw [List.length_take]
      exact Nat.lt_min.mpr ⟨by decide, List.length_pos_iff.mpr hne⟩
    dsimp only [Prog.bind] at hr
    rw [if_pos hpos] at hr
    obtain ⟨_, s₈, h₈, hr⟩ := Prog.runUntil_call rfl hr
    cases h₈
    obtain ⟨_, h₉, hq⟩ := Prog.runUntil_stop rfl hr
    have hs' := iunlock_done h₉
    subst hs'
    refine ⟨?_, _, h.write hwrote ?_ rfl ?_⟩
    · have hdrop : addr.drop (addr.take filewriteMax).length = addr.drop filewriteMax := by
        rw [List.length_take, List.drop_eq_drop_iff]
        omega
      rw [hq, ← hdrop]
      dsimp only [Prog.bind]
      rw [if_neg (by simp)]
      rfl
    · simp only [State.setInode, State.setFile, Function.update_self]
    · simp only [State.setInode, State.setFile, Function.update_self]
  · cases h₇

/-! ### What a process still has to write -/

/-- The rest of a call after `iunlock`. -/
def afterUnlock (f : FileIx) (c : Nat) (addr : List Byte) (n : Int) : P Int :=
  (do endOp; filewriteLoop f c addr) >>= fun ok => pure (if ok then n else -1)

inductive Doing (f : FileIx) : P Int → List Byte → Prop
  | idle (n : Int) : Doing f (.ret n) []
  | called (addr : List Byte) : Doing f (filewrite f addr (-1)) addr
  | going (c : Nat) (addr : List Byte) (n : Int) (hc : addr.length ≤ c) : Doing f (afterUnlock f c addr n) addr

/-- A section writes nothing, if nothing is left, or the next chunk. -/
def Section (f : FileIx) (s : State) (X : Nat → Dinode) (addr : List Byte) (q : P Int) (s' : State) : Prop :=
  ∃ X', Appended f s X (addr.take filewriteMax) s' X' ∧ Doing f q (addr.drop filewriteMax)

theorem Shared.same (h : Shared f s X) (hdisk : s'.disk = s.disk) (hicache : s'.icache = s.icache)
    (hftable : s'.ftable = s.ftable) :
    Shared f s' X := by
  obtain ⟨h1, h2, h3, h4, h5, h6, h7, h8⟩ := h
  constructor <;> simp only [State.inodeOf, hdisk, hicache, hftable] <;> assumption

theorem Appended.nil (h : Shared f s X) (hdisk : s'.disk = s.disk) (hicache : s'.icache = s.icache)
    (hftable : s'.ftable = s.ftable) :
    Appended f s X [] s' X := by
  refine ⟨h.same hdisk hicache hftable, by rw [hftable]; rfl, by rw [hftable, hicache], ?_⟩
  rw [hdisk, Node.write, Node.mk.injEq]
  refine ⟨rfl, rfl, rfl, rfl, ?_, ?_⟩
  · exact (Nat.max_eq_left h.off).symm
  · funext pos
    rw [if_neg]
    simp only [List.length_nil]
    omega

theorem loop_section (h : Shared f s X) (hc : addr.length ≤ c)
    (hfit : (s.ftable f).off + addr.length ≤ maxfile * bsize)
    (hr : (filewriteLoop f c addr >>= fun ok => pure (if ok then n else -1)).runUntil (act p) Op.unlocks s = .done q s') :
    Section f s X addr q s' := by
  by_cases hne : addr = []
  · subst hne
    have hloop : filewriteLoop f c [] = pure true := by
      cases c with
      | zero => rfl
      | succ c => rw [filewriteLoop, if_pos rfl]
    rw [hloop] at hr
    cases hr
    exact ⟨X, .nil h rfl rfl rfl, .idle _⟩
  · cases c with
    | zero => exact absurd (List.length_eq_zero_iff.mp (Nat.le_zero.mp hc)) hne
    | succ c =>
      obtain ⟨hq, X', hX'⟩ := round h hne hfit hr
      refine ⟨X', hX', hq ▸ .going c _ n ?_⟩
      have hpos := List.length_pos_iff.mpr hne
      have hmax : 0 < filewriteMax := by decide
      rw [List.length_drop]
      omega

theorem doing_section {q' : P Int} (h : Shared f s X) (hd : Doing f q addr)
    (hfit : (s.ftable f).off + addr.length ≤ maxfile * bsize)
    (hr : q.runUntil (act p) Op.unlocks s = .done q' s') : Section f s X addr q' s' := by
  cases hd with
  | idle n =>
    cases hr
    exact ⟨X, .nil h rfl rfl rfl, .idle _⟩
  | called addr =>
    obtain ⟨x, s₁, h₁, hr⟩ := Prog.runUntil_call rfl hr
    cases h₁
    dsimp only [Prog.bind] at hr
    rw [if_neg (by rw [h.writable]; simp)] at hr
    simp only [h.type] at hr
    exact loop_section h le_rfl hfit hr
  | going c addr n hc =>
    obtain ⟨_, s₁, h₁, hr⟩ := Prog.runUntil_call rfl hr
    cases h₁
    have h' : Shared f { s with outstanding := s.outstanding - 1 } X := h.same rfl rfl rfl
    obtain ⟨X', hX', hq⟩ := loop_section h' hc hfit hr
    exact ⟨X', ⟨hX'.shared, hX'.off, hX'.inum, hX'.node⟩, hq⟩

theorem Doing.of_ret {rest : List Byte} (h : Doing f (.ret n) rest) : rest = [] := by
  generalize hq : (Prog.ret n : P Int) = q at h
  cases h with
  | idle => rfl
  | called | going => cases hq

/-! ### Chunks -/

/-- What one section wrote, for which call of its process. -/
structure Chunk where
  caller : Pid
  call : Nat
  bytes : List Byte

/-- The chunks of one call, put together. -/
def pieces (chunks : List Chunk) (p : Pid) (j : Nat) : List Byte :=
  (chunks.filter fun x => x.caller = p ∧ x.call = j).flatMap Chunk.bytes

theorem pieces_snoc (chunks : List Chunk) (x : Chunk) (p : Pid) (j : Nat) :
    pieces (chunks ++ [x]) p j = pieces chunks p j ++ if x.caller = p ∧ x.call = j then x.bytes else [] := by
  unfold pieces
  rw [List.filter_append, List.flatMap_append]
  congr 1
  by_cases hx : x.caller = p ∧ x.call = j
  · simp [hx]
  · simp [hx]

theorem pieces_unknown {chunks : List Chunk} {p : Pid} {j : Nat} (h : ∀ x ∈ chunks, x.caller = p → x.call < j) :
    pieces chunks p j = [] := by
  have : chunks.filter (fun x => x.caller = p ∧ x.call = j) = [] := by
    rw [List.filter_eq_nil_iff]
    intro x hx hc
    obtain ⟨hp, hj⟩ := of_decide_eq_true hc
    have := h x hx hp
    omega
  rw [pieces, this]
  rfl

theorem Node.read_write (x : Node) {a : Nat} (src : List Byte) (h : a ≤ off) :
    (x.write src off).read a (off + src.length - a) = x.read a (off - a) ++ src := by
  apply List.ext_getElem
  · simp only [Node.read, List.length_append, List.length_map, List.length_range]
    omega
  · intro t h1 h2
    simp only [Node.read, List.length_map, List.length_range] at h1
    simp only [Node.read, Node.write, List.getElem_map, List.getElem_range]
    by_cases ht : t < off - a
    · rw [if_neg (by omega), List.getElem_append_left (by simpa using ht)]
      simp
    · rw [if_pos (by omega), List.getElem_append_right (by simp; omega)]
      simp only [List.length_map, List.length_range]
      rw [List.getD_eq_getElem?_getD, List.getElem?_eq_getElem (by omega), Option.getD_some]
      congr 1
      omega

def Writers.total (m : Writers) : Nat := ∑ p, ((m.calls p).map List.length).sum

/-- The file from the first offset on is made of the chunks; `rest` is what the calls still have to write. -/
structure Appends (f : FileIx) (s₀ : State) (m : Writers) (chunks : List Chunk) (rest : Pid → List Byte) : Prop where
  region : ((m.fs.inodeOf f).node m.fs.disk.block).read (s₀.ftable f).off ((m.fs.ftable f).off - (s₀.ftable f).off) =
    chunks.flatMap Chunk.bytes
  off : (m.fs.ftable f).off = (s₀.ftable f).off + (chunks.flatMap Chunk.bytes).length
  chunk : ∀ x ∈ chunks, x.bytes ≠ [] ∧ x.bytes.length ≤ filewriteMax ∧ x.call < (m.calls x.caller).length
  order : chunks.Pairwise fun x y => x.caller = y.caller → x.call ≤ y.call
  once : ∀ p j buf, (m.calls p)[j]? = some buf →
    pieces chunks p j ++ (if j + 1 = (m.calls p).length then rest p else []) = buf
  sum : (m.fs.ftable f).off + ∑ p, (rest p).length = (s₀.ftable f).off + m.total

variable {m m' : Writers} {chunks : List Chunk} {rest : Pid → List Byte} {s₀ : State}

theorem sum_rest (rest : Pid → List Byte) (p : Pid) (b : List Byte) :
    (∑ x, (Function.update rest p b x).length) + (rest p).length = (∑ x, (rest x).length) + b.length :=
  sum_update_add (fun _ (b : List Byte) => b.length) rest (Finset.mem_univ p) b

theorem sum_calls (calls : Pid → List (List Byte)) (p : Pid) (addr : List Byte) :
    ∑ x, ((Function.update calls p (calls p ++ [addr]) x).map List.length).sum =
      (∑ x, ((calls x).map List.length).sum) + addr.length := by
  have := sum_update_add (fun _ (l : List (List Byte)) => (l.map List.length).sum) calls (Finset.mem_univ p)
    (calls p ++ [addr])
  simp only [List.map_append, List.map_cons, List.map_nil, List.sum_append, List.sum_cons, List.sum_nil] at this
  omega

theorem Appends.call {prog : Pid → P Int} (h : Appends f s₀ m chunks rest) (p : Pid) (hp : rest p = []) (addr : List Byte) :
    Appends f s₀ { m with prog, calls := Function.update m.calls p (m.calls p ++ [addr]) } chunks
        (Function.update rest p addr) := by
  refine ⟨h.region, h.off, fun x hx => ?_, h.order, fun q j buf hj => ?_, ?_⟩
  · obtain ⟨h1, h2, h3⟩ := h.chunk x hx
    refine ⟨h1, h2, ?_⟩
    dsimp only
    by_cases hq : x.caller = p
    · rw [hq, Function.update_self, List.length_append]
      rw [hq] at h3
      omega
    · rwa [Function.update_of_ne hq]
  · dsimp only at hj ⊢
    by_cases hq : q = p
    · subst hq
      rw [Function.update_self] at hj
      simp only [Function.update_self, List.length_append, List.length_singleton]
      by_cases hlt : j < (m.calls q).length
      · -- The last call before this one had nothing left to write.
        rw [List.getElem?_append_left hlt] at hj
        have hold := h.once q j buf hj
        rw [hp] at hold
        rw [if_neg (by omega)]
        simpa using hold
      · have hlen : j = (m.calls q).length := by
          have := List.getElem?_eq_some_iff.mp hj
          obtain ⟨hb, -⟩ := this
          rw [List.length_append, List.length_singleton] at hb
          omega
        subst hlen
        rw [List.getElem?_append_right le_rfl] at hj
        simp only [Nat.sub_self, List.getElem?_cons_zero, Option.some.injEq] at hj
        rw [if_pos rfl, pieces_unknown fun x hx hxq => hxq ▸ (h.chunk x hx).2.2, hj]
        rfl
    · rw [Function.update_of_ne hq] at hj
      simp only [Function.update_of_ne hq]
      exact h.once q j buf hj
  · have h1 := h.sum
    have h2 := sum_rest rest p addr
    have h3 := sum_calls m.calls p addr
    rw [hp, List.length_nil] at h2
    simp only [Writers.total] at h1 ⊢
    omega

theorem Appends.write (prog : Pid → P Int) {X X' : Nat → Dinode} {more : List Byte} (h : Appends f s₀ m chunks rest)
    (p : Pid)
    (hrest : rest p = src ++ more) (hcall : src ≠ [] → m.calls p ≠ []) (hlen : src.length ≤ filewriteMax)
    (hs : Shared f m.fs X) (ha : Appended f m.fs X src s' X') :
    ∃ chunks', Appends f s₀ { m with fs := s', prog } chunks' (Function.update rest p more) := by
  have hnode :
      (s'.inodeOf f).node s'.disk.block = ((m.fs.inodeOf f).node m.fs.disk.block).write src (m.fs.ftable f).off := by
    rw [← hs.copy, ← ha.shared.copy, ha.inum]
    exact ha.node
  have hoff := h.off
  have hregion : ((s'.inodeOf f).node s'.disk.block).read (s₀.ftable f).off ((s'.ftable f).off - (s₀.ftable f).off) =
      chunks.flatMap Chunk.bytes ++ src := by
    rw [hnode, ha.off, Node.read_write _ _ (by omega), h.region]
  have hsum : (s'.ftable f).off + ∑ x, (Function.update rest p more x).length = (s₀.ftable f).off + m.total := by
    have h1 := h.sum
    have h2 := sum_rest rest p more
    rw [hrest, List.length_append] at h2
    rw [ha.off]
    omega
  by_cases hne : src = []
  · subst hne
    have hmore : Function.update rest p more = rest := by
      rw [List.nil_append] at hrest
      rw [← hrest, Function.update_eq_self]
    refine ⟨chunks, ?_, ?_, h.chunk, h.order, ?_, hsum⟩
    · rw [hregion, List.append_nil]
    · rw [ha.off, hoff]
      rfl
    · rw [hmore]
      exact h.once
  · refine ⟨chunks ++ [⟨p, (m.calls p).length - 1, src⟩], ?_, ?_, fun x hx => ?_, ?_, fun q j buf hj => ?_, hsum⟩
    · rw [hregion, List.flatMap_append]
      simp
    · rw [ha.off, hoff, List.flatMap_append]
      simp
      omega
    · rcases List.mem_append.mp hx with hx | hx
      · exact h.chunk x hx
      · rw [List.mem_singleton.mp hx]
        have := List.length_pos_iff.mpr (hcall hne)
        exact ⟨hne, hlen, by dsimp only; omega⟩
    · rw [List.pairwise_append]
      refine ⟨h.order, List.pairwise_singleton _ _, fun x hx y hy hxy => ?_⟩
      rw [List.mem_singleton.mp hy] at hxy ⊢
      have := (h.chunk x hx).2.2
      rw [hxy] at this
      dsimp only at this ⊢
      omega
    · have hold := h.once q j buf hj
      dsimp only at hj ⊢
      rw [pieces_snoc]
      dsimp only
      have hpos := List.length_pos_iff.mpr (hcall hne)
      by_cases hq : q = p
      · subst hq
        rw [Function.update_self]
        by_cases hlast : j + 1 = (m.calls q).length
        · rw [if_pos hlast] at hold ⊢
          rw [if_pos ⟨rfl, by omega⟩, List.append_assoc, ← hrest]
          exact hold
        · rw [if_neg hlast] at hold ⊢
          rw [if_neg (by omega), List.append_assoc]
          exact hold
      · rw [Function.update_of_ne hq, if_neg (fun hc => hq hc.1.symm), List.append_nil]
        exact hold

/-! ### Runs -/

/-- The chunks so far, with what each process still has to write. -/
structure Writers.Going (f : FileIx) (s₀ : State) (m : Writers) (X : Nat → Dinode) (chunks : List Chunk) (rest : Pid →
    List Byte) :
    Prop where
  shared : Shared f m.fs X
  appends : Appends f s₀ m chunks rest
  doing : ∀ p, Doing f (m.prog p) (rest p)
  called : ∀ p, rest p ≠ [] → m.calls p ≠ []

theorem Writers.total_le (hm : m.step f e = some m') : m.total ≤ m'.total := by
  cases e with
  | call p addr =>
    simp only [step] at hm
    split at hm
    · cases hm
      have := sum_calls m.calls p addr
      simp only [total]
      omega
    · cases hm
  | run p =>
    simp only [step] at hm
    split at hm
    · cases hm
      exact le_rfl
    all_goals cases hm

theorem Writers.Going.step {X : Nat → Dinode} (h : Going f s₀ m X chunks rest) (hm : m.step f e = some m')
    (hfit : (s₀.ftable f).off + m'.total ≤ maxfile * bsize) : ∃ X chunks rest, Going f s₀ m' X chunks rest := by
  have hle := total_le hm
  cases e with
  | call p addr =>
    simp only [Writers.step] at hm
    split at hm
    · rename_i n hp
      cases hm
      have hrest : rest p = [] := (hp ▸ h.doing p).of_ret
      refine ⟨X, chunks, Function.update rest p addr, h.shared, h.appends.call p hrest addr, fun q => ?_, fun q hq => ?_⟩
      · by_cases hqp : q = p
        · subst hqp
          simp only [Function.update_self]
          exact .called addr
        · simp only [Function.update_of_ne hqp]
          exact h.doing q
      · by_cases hqp : q = p
        · subst hqp
          simp
        · simp only [Function.update_of_ne hqp] at hq ⊢
          exact h.called q hq
    · cases hm
  | run p =>
    simp only [Writers.step] at hm
    split at hm
    · rename_i q fs hrun
      cases hm
      have hsum := h.appends.sum
      have hp : (rest p).length ≤ ∑ x, (rest x).length :=
        Finset.single_le_sum (f := fun x => (rest x).length) (fun _ _ => Nat.zero_le _) (Finset.mem_univ p)
      obtain ⟨X', ha, hd⟩ := doing_section h.shared (h.doing p) (by omega) hrun
      have hsrc : rest p = (rest p).take filewriteMax ++ (rest p).drop filewriteMax := (List.take_append_drop ..).symm
      obtain ⟨chunks', hc⟩ := h.appends.write (Function.update m.prog p q) p hsrc
        (fun hne => h.called p fun hc => hne (by rw [hc]; rfl)) (List.length_take_le ..) h.shared ha
      refine ⟨X', chunks', _, ha.shared, hc, fun x => ?_, fun x hx => ?_⟩
      · by_cases hxp : x = p
        · subst hxp
          simp only [Function.update_self]
          exact hd
        · simp only [Function.update_of_ne hxp]
          exact h.doing x
      · by_cases hxp : x = p
        · subst hxp
          rw [Function.update_self] at hx
          exact h.called x fun hc => hx (by rw [hc]; rfl)
        · rw [Function.update_of_ne hxp] at hx
          exact h.called x hx
    all_goals cases hm

theorem Writers.start_going {X : Nat → Dinode} (h : Shared f s₀ X) : Going f s₀ (.start s₀) X [] fun _ => [] := by
  refine ⟨h, ⟨?_, rfl, nofun, List.Pairwise.nil, nofun, ?_⟩, fun _ => .idle 0, nofun⟩
  · simp [start, Node.read]
  · simp [start, total]

theorem Writers.run_going {X : Nat → Dinode} {tr : List (Writers × Event)} (hs : Shared f s₀ X)
    (hr : Run (OfStep (step f)) (start s₀) tr m) (hfit : (s₀.ftable f).off + m.total ≤ maxfile * bsize) :
    ∃ X chunks rest, Going f s₀ m X chunks rest := by
  induction hr with
  | nil => exact ⟨X, [], _, start_going hs⟩
  | snoc hr hm ih =>
    have hle := total_le hm
    obtain ⟨X, chunks, rest, h⟩ := ih (by omega)
    exact h.step hm hfit

end

/-- Processes write to one open file, section by section, as long as all of it fits. The file then holds chunks of the
    buffers in place of what was there from the first offset on, and when no call is on, all of them. -/
theorem shared_writes {f : FileIx} {s₀ : State} {X : Nat → Dinode} (hs : Shared f s₀ X) {m : Writers}
    {tr : List (Writers × Writers.Event)} (hr : Run (OfStep (Writers.step f)) (.start s₀) tr m)
    (hfit : (s₀.ftable f).off + m.total ≤ maxfile * bsize) :
    ∃ chunks rest, Appends f s₀ m chunks rest ∧ (∀ p n, m.prog p = .ret n → rest p = []) ∧
      ((∀ p, ∃ n, m.prog p = .ret n) → (m.fs.ftable f).off = (s₀.ftable f).off + m.total) := by
  obtain ⟨X, chunks, rest, h⟩ := Writers.run_going hs hr hfit
  have hret (p : Pid) (n : Int) (hp : m.prog p = .ret n) : rest p = [] := (hp ▸ h.doing p).of_ret
  refine ⟨chunks, rest, h.appends, hret, fun hall => ?_⟩
  have hrest (p : Pid) : (rest p).length = 0 := by
    obtain ⟨n, hp⟩ := hall p
    rw [hret p n hp]
    rfl
  have hsum := h.appends.sum
  simp only [hrest, Finset.sum_const_zero] at hsum
  omega

/-- An empty file, open in two processes. -/
def openFile : State where
  disk := ⟨⟨100, 90, 8, by decide⟩, fun i => ⟨if i = 1 then .file else .free, 0, 0, 1, 0, fun _ => 0⟩, fun b => b < 10,
    fun _ _ => 0⟩
  icache := fun _ => ⟨1, 1, none, false, ⟨.free, 0, 0, 0, 0, fun _ => 0⟩⟩
  ftable := fun _ => ⟨.inode, 2, true, true, 0, 0⟩
  proc := fun _ => ⟨.live, fun _ => none, none⟩
  outstanding := 0

theorem openFile_shared : Shared 0 openFile openFile.disk.inode := by
  refine ⟨rfl, rfl, by decide, rfl, rfl, rfl, ⟨by decide, ?_, ?_, ?_⟩, by decide⟩
  · intro b hb
    exact decide_eq_true hb
  · rintro i r a ⟨-, -, hr, ha⟩
    exact absurd (hr.symm.trans (by simp [Dinode.ref, openFile])) ha
  · rintro i r j q a ⟨-, -, hr, ha⟩ -
    exact absurd (hr.symm.trans (by simp [Dinode.ref, openFile])) ha

/-- The calls of two processes end. -/
theorem shared_writes_two : ∃ tr m, Run (OfStep (Writers.step 0)) (.start openFile) tr m ∧
    (openFile.ftable 0).off + m.total ≤ maxfile * bsize ∧ m.calls 0 = [[1, 2]] ∧ m.calls 1 = [[3]] ∧
    (m.fs.ftable 0).off = 3 ∧ ∃ chunks rest, Appends 0 openFile m chunks rest := by
  obtain ⟨tr, m, hr, -, hfit, h0, h1, h2⟩ := Run.exists_of_traceOf (f := Writers.step 0) (.start openFile)
    [.call 0 [1, 2], .call 1 [3], .run 1, .run 0, .run 1, .run 0]
    (fun _ m => (openFile.ftable 0).off + m.total ≤ maxfile * bsize ∧ m.calls 0 = [[1, 2]] ∧ m.calls 1 = [[3]] ∧
      (m.fs.ftable 0).off = 3)
    (by decide +kernel)
  obtain ⟨chunks, rest, h, -⟩ := shared_writes openFile_shared hr hfit
  exact ⟨tr, m, hr, hfit, h0, h1, h2, chunks, rest, h⟩

end Xv6.Fs
