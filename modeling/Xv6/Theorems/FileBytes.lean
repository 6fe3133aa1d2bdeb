import Xv6.Fs.Inodes
import Xv6.Theorems.FsContents

/-! Files as byte strings. Where every block below the size is mapped, `readi` changes nothing; `writei` is refused, or it
    runs out of blocks, or it writes, and it changes its own file only. -/

namespace Xv6.Fs
open Lib

/-! ### Byte strings -/

/-- `readi` of a byte string. -/
def readBytes (b : List Byte) (off n : Nat) : Option (List Byte) :=
  if off > b.length ∨ off + n ≥ 2 ^ 32 then none else some ((b.drop off).take n)

def Refused (size off n : Nat) : Prop := off > size ∨ off + n ≥ 2 ^ 32 ∨ off + n > maxfile * bsize

instance (size off n : Nat) : Decidable (Refused size off n) := inferInstanceAs (Decidable (_ ∨ _))

/-- `writei` to a byte string. -/
def writeBytes (b src : List Byte) (off : Nat) : Option (List Byte) :=
  if Refused b.length off src.length then none else some (b.take off ++ src ++ b.drop (off + src.length))

/-- A call on files that are byte strings. -/
def filesStep (b : Nat → List Byte) : Io → IoRet × (Nat → List Byte)
  | .readi i off n => (.read (readBytes (b i) off n), b)
  | .writei i src off =>
    match writeBytes (b i) src off with
    | none => (.wrote none, b)
    | some c => (.wrote (some src.length), Function.update b i c)

def filesRun : List Io → (Nat → List Byte) → List IoRet × (Nat → List Byte)
  | [], b => ([], b)
  | op :: ops, b =>
    let (r, b) := filesStep b op
    let (rs, b) := filesRun ops b
    (r :: rs, b)

namespace Node

def bytes (x : Node) : List Byte := x.read 0 x.size

@[simp] theorem length_read (x : Node) (off n : Nat) : (x.read off n).length = n := by
  rw [read, List.length_map, List.length_range]

@[simp] theorem length_bytes (x : Node) : x.bytes.length = x.size := x.length_read 0 x.size

variable {off n t : Nat}

theorem getElem?_read (x : Node) (h : t < n) : (x.read off n)[t]? = some (x.content (off + t)) := by
  rw [read, List.getElem?_map, List.getElem?_range h]
  rfl

theorem getElem?_bytes (x : Node) (h : t < x.size) : x.bytes[t]? = some (x.content t) := by
  rw [bytes, x.getElem?_read h, Nat.zero_add]

theorem read_eq_bytes (x : Node) (h : off + n ≤ x.size) : x.read off n = (x.bytes.drop off).take n := by
  refine List.ext_getElem? fun t => ?_
  by_cases ht : t < n
  · rw [x.getElem?_read ht, List.getElem?_take_of_lt ht, List.getElem?_drop, x.getElem?_bytes (by omega)]
  · rw [List.getElem?_eq_none (by rw [length_read]; omega), List.getElem?_take_eq_none (by omega)]

theorem readi_eq_bytes (x : Node) (off n : Nat) : x.readi off n = readBytes x.bytes off n := by
  rw [readi, readBytes, length_bytes]
  split
  · rfl
  · rename_i hin
    rw [x.read_eq_bytes (by split <;> omega)]
    split
    · have hlen : (x.bytes.drop off).length = x.size - off := by rw [List.length_drop, length_bytes]
      rw [List.take_of_length_le (Nat.le_of_eq hlen), List.take_of_length_le (by omega)]
    · rfl

theorem write_bytes (x : Node) (src : List Byte) (h : off ≤ x.size) :
    (x.write src off).bytes = x.bytes.take off ++ src ++ x.bytes.drop (off + src.length) := by
  have hlen : (x.bytes.take off).length = off := by rw [List.length_take, length_bytes, Nat.min_eq_left h]
  have hsize : (x.write src off).size = max x.size (off + src.length) := rfl
  refine List.ext_getElem? fun t => ?_
  by_cases ht : t < (x.write src off).size
  · rw [getElem?_bytes _ ht]
    dsimp only [write]
    split
    · rename_i hin
      rw [List.append_assoc, List.getElem?_append_right (by omega), hlen, List.getElem?_append_left (by omega),
        List.getD_eq_getElem?_getD, List.getElem?_eq_getElem (by omega), Option.getD_some]
    · rename_i hout
      rw [← x.getElem?_bytes (by omega)]
      by_cases hlt : t < off
      · rw [List.append_assoc, List.getElem?_append_left (by omega), List.getElem?_take_of_lt hlt]
      · rw [List.getElem?_append_right (by rw [List.length_append]; omega), List.getElem?_drop, List.length_append, hlen]
        congr 1
        omega
  · rw [List.getElem?_eq_none (by rw [length_bytes]; omega), List.getElem?_eq_none]
    simp only [List.length_append, List.length_drop, length_bytes, hlen]
    omega

end Node

/-! ### readi and writei -/

section
variable {d d' : Disk} {X : Nat → Dinode} {i off : Nat} {x ip : Dinode} {e : Panic}

theorem bmap_error {bn : Nat} (hbn : bn < maxfile) (h : d.bmap x bn = .error e) : e = .ballocOutOfBlocks := by
  have balloc_error : ∀ {d : Disk}, d.balloc = .error e → e = .ballocOutOfBlocks := by
    intro d h
    unfold Disk.balloc at h
    split at h
    · cases h
    · cases h
      rfl
  have indirect_error (h : d.indirect x = .error e) : e = .ballocOutOfBlocks := by
    unfold Disk.indirect at h
    split at h
    · rcases bind_eq_error.mp h with h | ⟨_, -, h⟩
      · exact balloc_error h
      · cases h
    · cases h
  unfold Disk.bmap at h
  split at h
  · split at h
    · rcases bind_eq_error.mp h with h | ⟨_, -, h⟩
      · exact balloc_error h
      · cases h
    · cases h
  · split at h
    · rcases bind_eq_error.mp h with h | ⟨_, -, h⟩
      · exact indirect_error h
      · dsimp only at h
        split at h
        · rcases bind_eq_error.mp h with h | ⟨_, -, h⟩
          · exact balloc_error h
          · cases h
        · cases h
    · simp only [maxfile] at hbn
      omega

theorem Dense.bmap (hd : Dense d X) (hi : (X i).kind ≠ .free) (bn : Nat) (hbn : bn * bsize < (X i).size) :
    ∃ a, d.bmap (X i) bn = .ok (a, d, X i) := by
  obtain ⟨a, ha⟩ := hd i bn hi hbn
  refine ⟨a, bmap_of_refers ha ?_⟩
  have hlt := ha.2.1
  simp only [refOf, nrefs, maxfile] at hlt ⊢
  split at hlt <;> omega

theorem Dense.readiLoop (hd : Dense d X) (hi : (X i).kind ≠ .free) (c off n : Nat) (hn : off + n ≤ (X i).size) :
    ∃ bytes, Disk.readiLoop c d (X i) off n = .ok (bytes, d, X i) := by
  induction c generalizing off n with
  | zero => exact ⟨[], rfl⟩
  | succ c ih =>
    rw [Disk.readiLoop]
    split
    · exact ⟨[], rfl⟩
    · rename_i h0
      obtain ⟨a, ha⟩ := hd.bmap hi (off / bsize) (by simp only [bsize]; omega)
      obtain ⟨rest, hrest⟩ := ih (off + min n (bsize - off % bsize)) (n - min n (bsize - off % bsize)) (by omega)
      exact ⟨_, bind_eq_ok.mpr ⟨_, ha, bind_eq_ok.mpr ⟨_, hrest, rfl⟩⟩⟩

theorem Dense.readi (own : Own d X) (hd : Dense d X) (hi : (X i).kind ≠ .free) (off n : Nat) :
    d.readi (X i) off n = .ok (readBytes ((X i).node d.block).bytes off n, d, X i) := by
  obtain ⟨r, hr⟩ : ∃ r, d.readi (X i) off n = .ok (r, d, X i) := by
    unfold Disk.readi
    split
    · exact ⟨none, rfl⟩
    · obtain ⟨bytes, hb⟩ := hd.readiLoop hi (rounds off (if off + n > (X i).size then (X i).size - off else n)) off
        (if off + n > (X i).size then (X i).size - off else n) (by split <;> omega)
      exact ⟨some bytes, bind_eq_ok.mpr ⟨_, hb, rfl⟩⟩
  rw [hr, (readi_node own hi hr).2, Node.readi_eq_bytes]

theorem writeiLoop_error {c : Nat} {src : List Byte} (hfit : off + src.length ≤ maxfile * bsize)
    (h : Disk.writeiLoop c d x src off = .error e) : e = .ballocOutOfBlocks := by
  induction c generalizing d x src off with
  | zero => cases h
  | succ c ih =>
    rw [Disk.writeiLoop] at h
    split at h
    · cases h
    · rename_i hne
      have hlen : 0 < src.length := List.length_pos_iff.mpr hne
      rcases bind_eq_error.mp h with h | ⟨⟨bp, d1, ip1⟩, -, h⟩
      · refine bmap_error ?_ h
        simp only [maxfile, ndirect, nindirect, bsize] at hfit ⊢
        omega
      · exact ih (by rw [List.length_drop]; omega) h

theorem Dense.writeiLoop (own : Own d X) (hd : Dense d X) (hi : (X i).kind ≠ .free) (c : Nat) (src : List Byte) (off : Nat)
    (hoff : off + src.length ≤ (X i).size) : ∃ d', Disk.writeiLoop c d (X i) src off = .ok (d', X i) := by
  induction c generalizing d src off with
  | zero => exact ⟨d, rfl⟩
  | succ c ih =>
    rw [Disk.writeiLoop]
    split
    · exact ⟨d, rfl⟩
    · rename_i hne
      have hlen : 0 < src.length := List.length_pos_iff.mpr hne
      have hbn : off / bsize * bsize < (X i).size := by
        simp only [bsize]
        omega
      obtain ⟨a, ha⟩ := hd.bmap hi (off / bsize) hbn
      obtain ⟨-, -, hr⟩ := own.bmap_reads hi ha hbn
      rw [Function.update_eq_self] at hr
      obtain ⟨hg, -, -⟩ :=
        own.write_block (fun x => if off % bsize ≤ x ∧ x < off % bsize + min src.length (bsize - off % bsize) then
        src.getD (x - off % bsize) 0 else d.block a x) hr
      obtain ⟨d', hd'⟩ :=
        ih hg.own (hg.dense hd) (src.drop (min src.length (bsize - off % bsize)))
          (off + min src.length (bsize - off % bsize))
        (by rw [List.length_drop]; omega)
      exact ⟨d', bind_eq_ok.mpr ⟨_, ha, hd'⟩⟩

theorem Own.writei (own : Own d X) (hi : (X i).kind ≠ .free) (src : List Byte) (off : Nat) :
    if Refused (X i).size off src.length then d.writei i (X i) src off = .ok (none, d, X i)
    else d.writei i (X i) src off = .error .ballocOutOfBlocks ∨
      ∃ d' ip, d.writei i (X i) src off = .ok (some src.length, d', ip) ∧ Wrote d X i src off d' ip := by
  split
  · rename_i hrefused
    unfold Disk.writei
    dsimp only
    rcases hrefused with h | h | h
    · rw [if_pos (.inl h)]
    · rw [if_pos (.inr h)]
    · by_cases h1 : off > (X i).size ∨ off + src.length ≥ 2 ^ 32
      · rw [if_pos h1]
      · rw [if_neg h1, if_pos h]
  · rename_i hrefused
    simp only [Refused, not_or] at hrefused
    obtain ⟨h1, h2, h3⟩ := hrefused
    cases hw : d.writei i (X i) src off with
    | error e =>
      left
      unfold Disk.writei at hw
      dsimp only at hw
      rw [if_neg (not_or.mpr ⟨h1, h2⟩), if_neg h3] at hw
      rcases bind_eq_error.mp hw with hw | ⟨⟨d1, ip1⟩, -, hw⟩
      · rw [writeiLoop_error (Nat.not_lt.mp h3) hw]
      · dsimp only at hw
        split at hw <;> cases hw
    | ok r =>
      right
      obtain ⟨r, d', ip⟩ := r
      rcases writei_wrote own hi hw with ⟨rfl, -, -⟩ | ⟨rfl, -, hwrote⟩
      · unfold Disk.writei at hw
        dsimp only at hw
        rw [if_neg (not_or.mpr ⟨h1, h2⟩), if_neg h3] at hw
        obtain ⟨⟨d1, ip1⟩, -, hw⟩ := bind_eq_ok.mp hw
        dsimp only at hw
        split at hw <;> cases hw
      · exact ⟨d', ip, rfl, hwrote⟩

theorem Dense.writei (own : Own d X) (hd : Dense d X) (hi : (X i).kind ≠ .free) {src : List Byte}
    (hoff : off + src.length ≤ (X i).size)
    (hmax : off + src.length ≤ maxfile * bsize) :
    ∃ d' ip, d.writei i (X i) src off = .ok (some src.length, d', ip) ∧ Wrote d X i src off d' ip := by
  have hbig : off + src.length < 2 ^ 32 := Nat.lt_of_le_of_lt hmax (by decide)
  have hw := own.writei hi src off
  rw [if_neg (by unfold Refused; omega)] at hw
  rcases hw with hw | hw
  · obtain ⟨d', hloop⟩ := hd.writeiLoop own hi (rounds off src.length) src off hoff
    unfold Disk.writei at hw
    dsimp only at hw
    rw [if_neg (by omega), if_neg (by omega), hloop] at hw
    rcases bind_eq_error.mp hw with hw | ⟨⟨d1, ip1⟩, -, hw⟩
    · cases hw
    · dsimp only at hw
      split at hw <;> cases hw
  · exact hw

end

/-! ### Runs -/

/-- No block is owned twice, and every block below the size of an inode is mapped. -/
structure Owned (s : Inodes) : Prop where
  own : Own s.disk s.mem
  dense : Dense s.disk s.mem

def Inodes.bytes (s : Inodes) (i : Nat) : List Byte := ((s.mem i).node s.disk.block).bytes

/-- The inodes hold the byte strings. -/
structure HoldsBytes (s : Inodes) (b : Nat → List Byte) : Prop extends Owned s where
  bytes : ∀ i, (s.mem i).kind ≠ .free → s.bytes i = b i

theorem Owned.holdsBytes {s : Inodes} (h : Owned s) : HoldsBytes s s.bytes := ⟨h, fun _ _ => rfl⟩

section
variable {s : Inodes} {b : Nat → List Byte}

theorem HoldsBytes.wrote {i off : Nat} {src : List Byte} {d' : Disk} {ip : Dinode} (h : HoldsBytes s b)
    (hi : (s.mem i).kind ≠ .free)
    (hoff : off ≤ (s.mem i).size) (hwrote : Wrote s.disk s.mem i src off d' ip) :
    HoldsBytes ⟨d', Function.update s.mem i ip⟩
        (Function.update b i ((b i).take off ++ src ++ (b i).drop (off + src.length))) := by
  refine ⟨⟨hwrote.own, hwrote.dense hoff h.dense⟩, fun j hj => ?_⟩
  rcases eq_or_ne j i with rfl | hji
  · dsimp only [Inodes.bytes]
    rw [Function.update_self, Function.update_self, hwrote.node, Node.write_bytes _ _ hoff, ← h.bytes j hi]
    rfl
  · dsimp only [Inodes.bytes] at hj ⊢
    rw [Function.update_of_ne hji] at hj
    rw [Function.update_of_ne hji, Function.update_of_ne hji, hwrote.others j hj hji, ← h.bytes j hj]
    rfl

theorem HoldsBytes.step (h : HoldsBytes s b) {op : Io} (hop : (s.mem op.inum).kind ≠ .free) :
    s.step op = .error .ballocOutOfBlocks ∨
      ∃ s', s.step op = .ok ((filesStep b op).1, s') ∧ HoldsBytes s' (filesStep b op).2 ∧
          ∀ j, (s'.mem j).kind = (s.mem j).kind := by
  cases op with
  | readi i off n =>
    have hop : (s.mem i).kind ≠ .free := hop
    right
    refine ⟨s, ?_, h, fun _ => rfl⟩
    rw [filesStep, ← h.bytes i hop, Inodes.step, h.dense.readi h.own hop off n]
    refine congrArg (fun mem => Except.ok (_, (⟨s.disk, mem⟩ : Inodes))) ?_
    exact Function.update_eq_self ..
  | writei i src off =>
    have hop : (s.mem i).kind ≠ .free := hop
    have hsize : (b i).length = (s.mem i).size := by
      rw [← h.bytes i hop]
      exact Node.length_bytes _
    have hw := h.own.writei hop src off
    rw [filesStep, writeBytes, hsize]
    split at hw
    · rename_i hrefused
      right
      refine ⟨s, ?_, ?_, fun _ => rfl⟩
      · rw [if_pos hrefused, Inodes.step, hw]
        refine congrArg (fun mem => Except.ok (_, (⟨s.disk, mem⟩ : Inodes))) ?_
        exact Function.update_eq_self ..
      · rw [if_pos hrefused]
        exact h
    · rename_i hrefused
      rcases hw with hw | ⟨d', ip, hw, hwrote⟩
      · left
        rw [Inodes.step, hw]
        rfl
      · right
        have hoff : off ≤ (s.mem i).size := Nat.not_lt.mp fun hlt => hrefused (.inl hlt)
        rw [if_neg hrefused, Inodes.step, hw]
        refine ⟨_, rfl, h.wrote hop hoff hwrote, fun j => ?_⟩
        dsimp only
        rcases eq_or_ne j i with rfl | hji
        · rw [Function.update_self, hwrote.kind]
        · rw [Function.update_of_ne hji]

theorem HoldsBytes.run (h : HoldsBytes s b) {ops : List Io} (hops : ∀ op ∈ ops, (s.mem op.inum).kind ≠ .free) :
    s.run ops = .error .ballocOutOfBlocks ∨
      ∃ s', s.run ops = .ok ((filesRun ops b).1, s') ∧ HoldsBytes s' (filesRun ops b).2 ∧
          ∀ j, (s'.mem j).kind = (s.mem j).kind := by
  induction ops generalizing s b with
  | nil => exact .inr ⟨s, rfl, h, fun _ => rfl⟩
  | cons op ops ih =>
    obtain ⟨hop, hops⟩ := List.forall_mem_cons.mp hops
    rcases h.step hop with hs | ⟨s', hs, h', hkind⟩
    · left
      rw [Inodes.run, hs]
      rfl
    · rcases ih h' fun op hmem => (hkind op.inum).symm ▸ hops op hmem with hr | ⟨s'', hr, h'', hkind'⟩
      · left
        exact bind_eq_error.mpr (.inr ⟨_, hs, bind_eq_error.mpr (.inl hr)⟩)
      · right
        refine ⟨s'', ?_, h'', fun j => (hkind' j).trans (hkind j)⟩
        exact bind_eq_ok.mpr ⟨_, hs, bind_eq_ok.mpr ⟨_, hr, rfl⟩⟩

end

/-- Calls of `readi` and `writei` on files and directories that do not run out of blocks return what they return on byte
    strings, and every file is left as the byte string is. -/
theorem files_bytes {s : Inodes} (h : Owned s) {ops : List Io}
    (hops : ∀ op ∈ ops, (s.mem op.inum).kind = .file ∨ (s.mem op.inum).kind = .dir)
    (hblocks : s.run ops ≠ .error .ballocOutOfBlocks) :
    ∃ s', s.run ops = .ok ((filesRun ops s.bytes).1, s') ∧ Owned s' ∧
      ∀ i, (s.mem i).kind ≠ .free → s'.bytes i = (filesRun ops s.bytes).2 i := by
  have hfree : ∀ op ∈ ops, (s.mem op.inum).kind ≠ .free := by
    intro op hmem hk
    rcases hops op hmem with hf | hf
    · cases hk.symm.trans hf
    · cases hk.symm.trans hf
  rcases h.holdsBytes.run hfree with hr | ⟨s', hr, h', hkind⟩
  · exact absurd hr hblocks
  · exact ⟨s', hr, h'.toOwned, fun i hi => h'.bytes i ((hkind i).symm ▸ hi)⟩

theorem eq_of_allocated {kind : Kind} {i j : Nat} (h : (if i = j then kind else .free) ≠ .free) : i = j := by
  by_contra hne
  exact h (if_neg hne)

def smallSb : Superblock := ⟨200, 190, 8, by decide⟩

/-- Inode 1 is an empty file. -/
def emptyFile : Inodes :=
  ⟨⟨smallSb, fun _ => ⟨.free, 0, 0, 0, 0, fun _ => 0⟩, fun b => b < 10, fun _ _ => 0⟩,
    fun i => ⟨if i = 1 then .file else .free, 0, 0, 1, 0, fun _ => 0⟩⟩

theorem emptyFile_owned : Owned emptyFile := by
  have hnone : ∀ {i r a}, ¬Refers emptyFile.disk emptyFile.mem i r a := by
    rintro i r a ⟨-, -, hr, ha⟩
    exact ha (hr.symm.trans (by simp [Dinode.ref, emptyFile]))
  refine ⟨⟨by decide, fun b hb => decide_eq_true hb, fun h => absurd h hnone, fun h => absurd h hnone⟩, ?_⟩
  intro i bn _ hbn
  exact absurd hbn (Nat.not_lt_zero _)

/-- Three bytes are written, one of them is written again, a write is refused, and all is read. -/
theorem files_bytes_three : ∃ s',
    emptyFile.run [.writei 1 [1, 2, 3] 0, .writei 1 [4] 1, .writei 1 [5] 4, .readi 1 0 10] =
      .ok ([.wrote (some 3), .wrote (some 1), .wrote none, .read (some [1, 4, 3])], s') ∧ Owned s' := by
  have hops : ∀ op ∈ [Io.writei 1 [1, 2, 3] 0, .writei 1 [4] 1, .writei 1 [5] 4, .readi 1 0 10],
      (emptyFile.mem op.inum).kind = .file ∨ (emptyFile.mem op.inum).kind = .dir := by decide
  have hok : (emptyFile.run [.writei 1 [1, 2, 3] 0, .writei 1 [4] 1, .writei 1 [5] 4, .readi 1 0 10]).isOk =
    true := by decide +kernel
  obtain ⟨s', hrun, howned, -⟩ := files_bytes emptyFile_owned hops fun h => by
    rw [h] at hok
    cases hok
  exact ⟨s', hrun, howned⟩

end Xv6.Fs
