import Xv6.Theorems.FileBytes
import Xv6.Theorems.FsRuns

/-! What `filewrite` returns for a regular file. The write is cut into chunks, each a `writei` of its own. A chunk that
    is refused ends the call with -1, and the chunks before it have been written. -/

namespace Xv6.Fs
open Lib

/-- File `f` is a regular file whose lock is free; `X` gives the inodes as they are in use. -/
structure Opened (f : FileIx) (s : State) (X : Nat → Dinode) : Prop where
  type : (s.ftable f).type = .inode
  ref : 0 < (s.icache (s.ftable f).ip).ref
  lock : (s.icache (s.ftable f).ip).lock = none
  copy : X (s.icache (s.ftable f).ip).inum = s.copyOf (s.ftable f).ip
  kind : (X (s.icache (s.ftable f).ip).inum).kind = .file
  own : Own s.disk X

def State.nodeOf (s : State) (f : FileIx) : Node := (s.copyOf (s.ftable f).ip).node s.disk.block

def State.offOf (s : State) (f : FileIx) : Nat := (s.ftable f).off

/-- The bytes are written, the offset is moved on and their number is returned, or -1 is returned and all is as before. -/
def Reports (f : FileIx) (s : State) (addr : List Byte) (r : Int) (s' : State) : Prop :=
  r = addr.length ∧ s'.nodeOf f = (if addr = [] then s.nodeOf f else (s.nodeOf f).write addr (s.offOf f)) ∧
      s'.offOf f = s.offOf f + addr.length ∨
    r = -1 ∧ s'.nodeOf f = s.nodeOf f ∧ s'.offOf f = s.offOf f

/-- The first chunk fits below the largest size of a file, and the whole write does not. -/
def Overflows (f : FileIx) (s : State) (n : Nat) : Prop :=
  (s.ftable f).writable = true ∧ s.offOf f ≤ (s.nodeOf f).size ∧ s.offOf f + filewriteMax ≤ maxfile * bsize ∧
    maxfile * bsize < s.offOf f + n

theorem Node.write_append (x : Node) (a b : List Byte) (off : Nat) :
    (x.write a off).write b (off + a.length) = x.write (a ++ b) off := by
  simp only [write, Node.mk.injEq, List.length_append, true_and]
  refine ⟨by omega, funext fun pos => ?_⟩
  by_cases hb : off + a.length ≤ pos ∧ pos < off + a.length + b.length
  · rw [if_pos hb, if_pos (by omega), List.getD_eq_getElem?_getD, List.getD_eq_getElem?_getD,
      List.getElem?_append_right (by omega)]
    congr 2
    omega
  · rw [if_neg hb]
    by_cases ha : off ≤ pos ∧ pos < off + a.length
    · rw [if_pos ha, if_pos (by omega), List.getD_eq_getElem?_getD, List.getD_eq_getElem?_getD,
        List.getElem?_append_left (by omega)]
    · rw [if_neg ha, if_neg (by omega)]

section
variable {f : FileIx} {s s' : State} {X : Nat → Dinode} {p : Pid} {addr : List Byte} {c : Nat} {d' : Disk} {ip : Dinode}
  {t : State} {a b : List Byte}

/-! ### One chunk -/

/-- The state after a chunk of `n` bytes. -/
def State.afterChunk (s : State) (f : FileIx) (disk : Disk) (din : Dinode) (n : Nat) : State :=
  let k := (s.ftable f).ip
  { s with
    disk
    icache := Function.update s.icache k { s.icache k with lock := none, valid := true, din }
    ftable := Function.update s.ftable f { s.ftable f with off := (s.ftable f).off + n } }

theorem Opened.node (h : Opened f s X) : s.nodeOf f = (X (s.icache (s.ftable f).ip).inum).node s.disk.block := by
  rw [State.nodeOf, ← h.copy]

theorem Opened.afterChunk (h : Opened f s X) (n : Nat) (hkind : ip.kind = .file)
    (hown : Own d' (Function.update X (s.icache (s.ftable f).ip).inum ip)) :
    Opened f (s.afterChunk f d' ip n) (Function.update X (s.icache (s.ftable f).ip).inum ip) ∧
      (s.afterChunk f d' ip n).nodeOf f = ip.node d'.block ∧ (s.afterChunk f d' ip n).offOf f = s.offOf f + n := by
  refine ⟨⟨?_, ?_, ?_, ?_, ?_, hown⟩, ?_, ?_⟩
  all_goals simp only [State.afterChunk, State.nodeOf, State.offOf, State.copyOf, Function.update_self, if_true]
  · exact h.type
  · exact h.ref
  · exact hkind

theorem Opened.chunk (h : Opened f s X) (hne : addr ≠ []) :
    (filewriteLoop f (c + 1) addr).run (act p) s =
      match s.disk.writei (s.icache (s.ftable f).ip).inum (X (s.icache (s.ftable f).ip).inum) (addr.take filewriteMax)
      (s.ftable f).off with
      | .error e => .panic e
      | .ok (none, d', ip) => .done false (s.afterChunk f d' ip 0)
      | .ok (some n, d', ip) =>
        if n ≠ (addr.take filewriteMax).length then .panic .shortFilewrite
        else (filewriteLoop f c (addr.drop n)).run (act p) (s.afterChunk f d' ip n) := by
  have hcopy :
    State.copyOf { s with outstanding := s.outstanding + 1 } (s.ftable f).ip = X (s.icache (s.ftable f).ip).inum :=
      h.copy.symm
  have hlock :=
    run_ilock (p := p) (s := { s with outstanding := s.outstanding + 1 }) h.ref h.lock (by rw [hcopy, h.kind]; simp)
  rw [filewriteLoop, if_neg hne]
  simp only [Prog.run_bind, run_beginOp, run_file, run_fileOff, Outcome.bind]
  rw [hlock]
  dsimp only
  rw [run_writei (by rw [locked_self, hcopy]; dsimp only; rw [h.kind]; simp), locked_self, hcopy]
  simp only [locked_disk, locked_ftable, State.withInode]
  cases s.disk.writei (s.icache (s.ftable f).ip).inum (X (s.icache (s.ftable f).ip).inum) (addr.take filewriteMax)
    (s.ftable f).off with
  | error e => rfl
  | ok r =>
    obtain ⟨r, d', ip⟩ := r
    cases r with
    | none =>
      simp only [Prog.run_bind]
      rw [run_iunlock_locked (by simpa [State.setInode] using h.ref) (by simp [State.setInode])]
      simp only [Outcome.bind, run_endOp, Prog.run_pure, State.setInode, State.locked, State.afterChunk,
        Function.update_self,
        Function.update_idem, Function.update_eq_self, Nat.add_zero, Int.add_sub_cancel]
    | some n =>
      dsimp only
      split
      · simp only [Prog.run_bind, run_addOff, Outcome.bind]
        rw [run_iunlock_locked (by simpa [State.setInode, State.setFile] using h.ref)
          (by simp [State.setInode, State.setFile])]
        simp only [run_endOp, State.setInode, State.setFile, State.locked, State.afterChunk, Function.update_self,
          Function.update_idem, Int.add_sub_cancel, ne_eq]
        split <;> rfl
      · rename_i hn
        obtain rfl : n = 0 := Nat.eq_zero_of_not_pos hn
        simp only [Prog.run_bind]
        rw [run_iunlock_locked (by simpa [State.setInode] using h.ref) (by simp [State.setInode])]
        simp only [Outcome.bind, run_endOp, State.setInode, State.locked, State.afterChunk, Function.update_self,
          Function.update_idem, Function.update_eq_self, Nat.add_zero, Int.add_sub_cancel, ne_eq]
        split <;> rfl

theorem Opened.size (h : Opened f s X) : (s.nodeOf f).size = (X (s.icache (s.ftable f).ip).inum).size := by
  rw [h.node]
  rfl

theorem Opened.allocated (h : Opened f s X) : (X (s.icache (s.ftable f).ip).inum).kind ≠ .free := by
  rw [h.kind]
  simp

theorem Opened.chunk_refused (h : Opened f s X) (hne : addr ≠ [])
    (hrefused : Refused (s.nodeOf f).size (s.offOf f) (addr.take filewriteMax).length) :
    ∃ s', (filewriteLoop f (c + 1) addr).run (act p) s = .done false s' ∧ s'.nodeOf f = s.nodeOf f ∧
        s'.offOf f = s.offOf f := by
  have hw := h.own.writei h.allocated (addr.take filewriteMax) (s.ftable f).off
  rw [if_pos (h.size ▸ hrefused)] at hw
  obtain ⟨-, hnode, hoff⟩ := h.afterChunk 0 h.kind (by rw [Function.update_eq_self]; exact h.own)
  refine ⟨_, ?_, hnode.trans h.node.symm, hoff⟩
  rw [h.chunk hne, hw]

theorem Opened.chunk_wrote (h : Opened f s X) (hne : addr ≠ [])
    (hw : s.disk.writei (s.icache (s.ftable f).ip).inum (X (s.icache (s.ftable f).ip).inum) (addr.take filewriteMax)
      (s.ftable f).off =
      .ok (some (addr.take filewriteMax).length, d', ip))
    (hwrote : Wrote s.disk X (s.icache (s.ftable f).ip).inum (addr.take filewriteMax) (s.ftable f).off d' ip) :
    ∃ s' X', (filewriteLoop f (c + 1) addr).run (act p) s =
        (filewriteLoop f c (addr.drop (addr.take filewriteMax).length)).run (act p) s' ∧
      Opened f s' X' ∧ s'.nodeOf f = (s.nodeOf f).write (addr.take filewriteMax) (s.offOf f) ∧
      s'.offOf f = s.offOf f + (addr.take filewriteMax).length := by
  obtain ⟨h', hnode, hoff⟩ := h.afterChunk (addr.take filewriteMax).length (hwrote.kind.trans h.kind) hwrote.own
  rw [hwrote.node, ← h.node] at hnode
  refine ⟨_, _, ?_, h', hnode, hoff⟩
  rw [h.chunk hne, hw]
  exact if_neg (fun h => h rfl)

/-! ### All chunks -/

/-- How the loop ends, with what it returns. -/
structure Wrote.All (f : FileIx) (s : State) (addr : List Byte) (s' : State) : Prop where
  node : s'.nodeOf f = if addr = [] then s.nodeOf f else (s.nodeOf f).write addr (s.offOf f)
  off : s'.offOf f = s.offOf f + addr.length
  fits : addr ≠ [] → s.offOf f + addr.length ≤ maxfile * bsize

/-- The loop is stopped by a chunk that is refused, which may be the first one. -/
structure Stopped (f : FileIx) (s : State) (addr : List Byte) (s' : State) : Prop where
  first : Refused (s.nodeOf f).size (s.offOf f) (addr.take filewriteMax).length →
    s'.nodeOf f = s.nodeOf f ∧ s'.offOf f = s.offOf f
  later : ¬Refused (s.nodeOf f).size (s.offOf f) (addr.take filewriteMax).length →
    s.offOf f < s'.offOf f ∧ maxfile * bsize < s.offOf f + addr.length

theorem Wrote.All.after (hall : Wrote.All f t b s') (ha : a ≠ [])
    (hnode : t.nodeOf f = (s.nodeOf f).write a (s.offOf f)) (hoff : t.offOf f = s.offOf f + a.length)
    (hfits : s.offOf f + a.length ≤ maxfile * bsize) : Wrote.All f s (a ++ b) s' := by
  refine ⟨?_, ?_, fun _ => ?_⟩
  · rw [if_neg (List.append_ne_nil_of_left_ne_nil ha b), hall.node, hnode, hoff, Node.write_append]
    split
    · rename_i hb
      rw [hb, List.append_nil]
    · rfl
  · rw [hall.off, hoff, List.length_append, Nat.add_assoc]
  · rw [List.length_append, ← Nat.add_assoc, ← hoff]
    by_cases hb : b = []
    · rw [hb, hoff]
      exact hfits
    · exact hall.fits hb

/-- The chunk `a` has been written, and a chunk of the rest is refused: it is not too far behind the end. -/
theorem Stopped.after (hstop : Stopped f t b s') (ha : a ≠ [])
    (hnode : t.nodeOf f = (s.nodeOf f).write a (s.offOf f)) (hoff : t.offOf f = s.offOf f + a.length) :
    s.offOf f < s'.offOf f ∧ maxfile * bsize < s.offOf f + (a ++ b).length := by
  have hpos := List.length_pos_iff.mpr ha
  rw [List.length_append]
  by_cases hnext : Refused (t.nodeOf f).size (t.offOf f) (b.take filewriteMax).length
  · obtain ⟨-, hsame⟩ := hstop.first hnext
    have hsize : s.offOf f + a.length ≤ (t.nodeOf f).size := by
      rw [hnode]
      exact Nat.le_max_right ..
    have htake : (b.take filewriteMax).length ≤ b.length := (List.take_prefix ..).length_le
    have hmax : maxfile * bsize = 71680 := rfl
    unfold Refused at hnext
    omega
  · obtain ⟨hmore, hbig⟩ := hstop.later hnext
    omega

theorem Opened.loop (h : Opened f s X) (hc : addr.length ≤ c) :
    (filewriteLoop f c addr).run (act p) s = .panic .ballocOutOfBlocks ∨
      (∃ s', (filewriteLoop f c addr).run (act p) s = .done true s' ∧ Wrote.All f s addr s') ∨
      ∃ s', (filewriteLoop f c addr).run (act p) s = .done false s' ∧ Stopped f s addr s' := by
  induction c generalizing s X addr with
  | zero =>
    obtain rfl := List.length_eq_zero_iff.mp (Nat.le_zero.mp hc)
    exact .inr (.inl ⟨s, rfl, (if_pos rfl).symm, rfl, fun h => absurd rfl h⟩)
  | succ c ih =>
    by_cases hne : addr = []
    · subst hne
      exact .inr (.inl ⟨s, rfl, (if_pos rfl).symm, rfl, fun h => absurd rfl h⟩)
    by_cases hrefused : Refused (s.nodeOf f).size (s.offOf f) (addr.take filewriteMax).length
    · obtain ⟨s', hr, hsame⟩ := h.chunk_refused hne hrefused
      exact .inr (.inr ⟨s', hr, fun _ => hsame, fun hnot => absurd hrefused hnot⟩)
    · have hw := h.own.writei h.allocated (addr.take filewriteMax) (s.ftable f).off
      rw [if_neg (h.size ▸ hrefused)] at hw
      rcases hw with hw | ⟨d', ip, hw, hwrote⟩
      · left
        rw [h.chunk hne, hw]
      obtain ⟨t, X', hround, h', hnode, hoff⟩ := h.chunk_wrote hne hw hwrote
      rw [hround]
      have hchunk : addr.take filewriteMax ≠ [] := fun hnil => hne ((List.take_eq_nil_iff.mp hnil).resolve_left (by decide))
      have hpos := List.length_pos_iff.mpr hchunk
      have hfits : s.offOf f + (addr.take filewriteMax).length ≤ maxfile * bsize := by
        by_contra hbig
        exact hrefused (.inr (.inr (Nat.lt_of_not_le hbig)))
      have hsplit : addr.take filewriteMax ++ addr.drop (addr.take filewriteMax).length = addr :=
        List.prefix_iff_eq_append.mp (List.take_prefix ..)
      have hrest : (addr.drop (addr.take filewriteMax).length).length ≤ c := by
        rw [List.length_drop]
        omega
      rcases ih h' hrest with hr | ⟨s', hr, hall⟩ | ⟨s', hr, hstop⟩
      · exact .inl hr
      · have hall := hall.after hchunk hnode hoff hfits
        rw [hsplit] at hall
        exact .inr (.inl ⟨s', hr, hall⟩)
      · have hstop := hstop.after hchunk hnode hoff
        rw [hsplit] at hstop
        exact .inr (.inr ⟨s', hr, fun hc => absurd hc hrefused, fun _ => hstop⟩)

end

/-! ### filewrite -/

variable {f : FileIx} {s : State} {X : Nat → Dinode} {r : Nat}

theorem Opened.run_filewrite (h : Opened f s X) (p : Pid) (addr : List Byte) (env : Int) :
    (filewrite f addr env).run (act p) s =
      if (s.ftable f).writable = false then .done (-1 : Int) s
      else ((filewriteLoop f addr.length addr).run (act p) s).bind fun ok s =>
          .done (if ok then (addr.length : Int) else -1) s := by
  unfold filewrite
  rw [Prog.run_bind, run_file, Outcome.bind]
  split
  · rfl
  · rw [h.type]
    exact Prog.run_bind ..

/-- If the disk does not run out of blocks, `filewrite` reports what it wrote exactly if the write does not overflow the
    file behind its first chunk. -/
theorem filewrite_reports_iff {f : FileIx} {s : State} {X : Nat → Dinode} (h : Opened f s X) (p : Pid) (addr : List Byte)
    (env : Int)
    (hblocks : (filewrite f addr env).run (act p) s ≠ .panic .ballocOutOfBlocks) :
    ∃ r s', (filewrite f addr env).run (act p) s = .done r s' ∧ (Reports f s addr r s' ↔ ¬Overflows f s addr.length) := by
  have hmax : maxfile * bsize = 71680 := rfl
  have hchunk : filewriteMax = 6656 := rfl
  rw [h.run_filewrite] at hblocks ⊢
  split at hblocks
  · rename_i hw
    refine ⟨-1, s, if_pos hw, fun _ hover => ?_, fun _ => .inr ⟨rfl, rfl, rfl⟩⟩
    cases hw.symm.trans hover.1
  · rename_i hw
    rw [if_neg hw]
    rcases h.loop (p := p) (Nat.le_refl addr.length) with hr | ⟨s', hr, hall⟩ | ⟨s', hr, hstop⟩
    · rw [hr] at hblocks
      exact absurd rfl hblocks
    · rw [hr]
      refine ⟨_, s', rfl, fun _ hover => ?_, fun _ => .inl ⟨if_pos rfl, hall.node, hall.off⟩⟩
      obtain ⟨-, -, hfirst, hbig⟩ := hover
      by_cases hne : addr = []
      · subst hne
        rw [List.length_nil] at hbig
        omega
      · have := hall.fits hne
        omega
    · rw [hr]
      have htake : (addr.take filewriteMax).length = min filewriteMax addr.length := List.length_take
      refine ⟨_, s', rfl, ?_⟩
      by_cases hfirst : Refused (s.nodeOf f).size (s.offOf f) (addr.take filewriteMax).length
      · refine ⟨fun _ hover => ?_, fun _ => .inr ⟨if_neg (by simp), hstop.first hfirst⟩⟩
        obtain ⟨-, hoff, hfits, -⟩ := hover
        unfold Refused at hfirst
        omega
      · obtain ⟨hmore, hbig⟩ := hstop.later hfirst
        refine ⟨?_, fun hover => absurd ⟨by simpa using hw, ?_⟩ hover⟩
        · rintro (⟨hret, -⟩ | ⟨-, -, hsame⟩)
          · rw [if_neg (by simp)] at hret
            omega
          · omega
        · unfold Refused at hfirst
          omega

/-! ### A full file -/

/-- File 0 is a file of the largest size, in the blocks from 100 on, and its offset is a chunk below that size. -/
def fullFile : State where
  disk :=
    ⟨⟨1000, 900, 8, by decide⟩, fun i => ⟨if i = 1 then .file else .free, 0, 0, 1, maxfile * bsize, fun r => 100 + r⟩,
      fun b => b < 241,
      fun b x => if b = 112 ∧ x % 4 = 0 then BitVec.ofNat 8 (113 + x / 4) else 0⟩
  icache := fun k => ⟨1, if k = 0 then 1 else 0, none, false, ⟨.free, 0, 0, 0, 0, fun _ => 0⟩⟩
  ftable :=
    fun f => ⟨if f = 0 then .inode else .none, if f = 0 then 1 else 0, true, true, 0, maxfile * bsize - filewriteMax⟩
  proc := fun _ => ⟨.live, fun _ => none, none⟩
  outstanding := 0

theorem fullFile_ref (hr : r < nrefs) : (fullFile.disk.inode 1).ref fullFile.disk.block r = 100 + r := by
  unfold Dinode.ref
  split
  · rfl
  · rename_i hgt
    simp only [fullFile, word, nrefs, ndirect, nindirect] at hr hgt ⊢
    have h0 : 4 * (r - 13) % 4 = 0 := by omega
    have h1 : (4 * (r - 13) + 1) % 4 ≠ 0 := by omega
    have h2 : (4 * (r - 13) + 2) % 4 ≠ 0 := by omega
    have h3 : (4 * (r - 13) + 3) % 4 ≠ 0 := by omega
    simp [h0]
    omega

theorem fullFile_refers {i a : Nat} : Refers fullFile.disk fullFile.disk.inode i r a ↔ i = 1 ∧ r < nrefs ∧ a = 100 + r := by
  constructor
  · rintro ⟨hi, hr, ha, -⟩
    have h1 : i = 1 := eq_of_allocated hi
    subst h1
    exact ⟨rfl, hr, ha.symm.trans (fullFile_ref hr)⟩
  · rintro ⟨rfl, hr, rfl⟩
    exact ⟨by decide, hr, fullFile_ref hr, by omega⟩

theorem fullFile_own : Own fullFile.disk fullFile.disk.inode := by
  refine ⟨by decide, fun b hb => decide_eq_true ?_, fun h => ?_, fun h h' => ?_⟩
  · have hb : b < 100 := hb
    omega
  · obtain ⟨-, hr, rfl⟩ := fullFile_refers.mp h
    simp only [nrefs, ndirect, nindirect] at hr
    exact ⟨Nat.le_add_right 100 _, (by omega : 100 + _ < 1000), decide_eq_true (by omega)⟩
  · obtain ⟨rfl, -, rfl⟩ := fullFile_refers.mp h
    obtain ⟨rfl, -, ha⟩ := fullFile_refers.mp h'
    exact ⟨rfl, by omega⟩

theorem fullFile_dense : Dense fullFile.disk fullFile.disk.inode := by
  intro i bn hi hbn
  have h1 : i = 1 := eq_of_allocated hi
  have hbn : bn * bsize < maxfile * bsize := hbn
  exact ⟨_, fullFile_refers.mpr ⟨h1, refOf_lt (Nat.lt_of_mul_lt_mul_right hbn), rfl⟩⟩

theorem fullFile_opened : Opened 0 fullFile fullFile.disk.inode := ⟨rfl, by decide, rfl, rfl, rfl, fullFile_own⟩

/-- One byte is written. -/
theorem filewrite_reports_one : ∃ r s', (filewrite 0 [7] (-1)).run (act 0) fullFile = .done r s' ∧
    Reports 0 fullFile [7] r s' := by
  have hdone : (match (filewrite 0 [7] (-1)).run (act 0) fullFile with | .done .. => true | _ => false) =
    true := by decide +kernel
  obtain ⟨r, s', hr, hiff⟩ := filewrite_reports_iff fullFile_opened 0 [7] (-1) (fun h => by
    rw [h] at hdone
    cases hdone)
  exact ⟨r, s', hr, hiff.mpr fun hover => absurd hover.2.2.2 (by decide)⟩

/-- A write that ends behind the largest size, with its first chunk just below that size, writes the chunk. -/
theorem Opened.keeps_chunk (h : Opened f s X) (hd : Dense s.disk X) (p : Pid) (env : Int)
    (hwritable : (s.ftable f).writable = true) {addr : List Byte} (hlen : filewriteMax < addr.length)
    (hoff : s.offOf f + filewriteMax = maxfile * bsize) (hsize : (s.nodeOf f).size = maxfile * bsize) :
    ∃ s', (filewrite f addr env).run (act p) s = .done (-1) s' ∧
      s'.nodeOf f = (s.nodeOf f).write (addr.take filewriteMax) (s.offOf f) ∧
      s'.offOf f = s.offOf f + filewriteMax := by
  have hne : addr ≠ [] := List.length_pos_iff.mp (Nat.zero_lt_of_lt hlen)
  have htake : (addr.take filewriteMax).length = filewriteMax := by rw [List.length_take, Nat.min_eq_left hlen.le]
  have hdrop :
    (addr.drop (addr.take filewriteMax).length).length = addr.length - filewriteMax := by rw [List.length_drop, htake]
  have hend : (s.ftable f).off + (addr.take filewriteMax).length = maxfile * bsize := htake.symm ▸ hoff
  obtain ⟨c, hc⟩ : ∃ c, addr.length = c + 2 := ⟨addr.length - 2, by
    have : filewriteMax = 6656 := rfl
    omega⟩
  obtain ⟨d', ip, hw, hwrote⟩ := hd.writei h.own h.allocated (hend.trans (hsize.symm.trans h.size)).le hend.le
  obtain ⟨t, X', hround, h', hnode, hoff'⟩ := h.chunk_wrote (p := p) (c := c + 1) hne hw hwrote
  have hrest : addr.drop (addr.take filewriteMax).length ≠ [] := List.length_pos_iff.mp (by omega)
  obtain ⟨s', hr, hnode', hoff''⟩ := h'.chunk_refused (p := p) (c := c) hrest (by
    refine .inr (.inr ?_)
    rw [hoff', htake, hoff, List.length_take]
    exact Nat.lt_add_of_pos_right (Nat.lt_min.mpr ⟨by decide, by rw [List.length_drop]; omega⟩))
  refine ⟨s', ?_, hnode'.trans hnode, hoff''.trans (htake ▸ hoff')⟩
  rw [h.run_filewrite, if_neg (by rw [hwritable]; simp), hc, hround, hr]
  rfl

/-- One byte more than a chunk does not fit: the chunk is written, the offset is moved on and -1 is returned. -/
theorem filewrite_keeps_chunk : ∃ s', (filewrite 0 (List.replicate 6657 1) (-1)).run (act 0) fullFile = .done (-1) s' ∧
    s'.offOf 0 = fullFile.offOf 0 + 6656 ∧ (fullFile.nodeOf 0).content 65024 = 0 ∧ (s'.nodeOf 0).content 65024 = 1 ∧
      ¬Reports 0 fullFile (List.replicate 6657 1) (-1) s' := by
  obtain ⟨s', hr, hnode, hoff⟩ := fullFile_opened.keeps_chunk (p := 0) fullFile_dense (-1) rfl
    (show filewriteMax < (List.replicate 6657 (1 : Byte)).length from Nat.lt_of_lt_of_eq
      (by decide) List.length_replicate.symm) rfl rfl
  refine ⟨s', hr, hoff, by decide +kernel, ?_, ?_⟩
  · have hsrc : (List.replicate 6657 (1 : Byte)).take filewriteMax = List.replicate 6656 1 := List.take_replicate
    have hat : fullFile.offOf 0 = 65024 := rfl
    rw [hnode, hsrc, hat, Node.write]
    dsimp only
    rw [if_pos ⟨Nat.le_refl _, by rw [List.length_replicate]; decide⟩, List.getD_eq_getElem?_getD, Nat.sub_self,
      List.getElem?_replicate_of_lt (by decide), Option.getD_some]
  · rintro (⟨hret, -⟩ | ⟨-, -, hsame⟩)
    · omega
    · rw [hsame] at hoff
      exact absurd hoff (by decide)

end Xv6.Fs
