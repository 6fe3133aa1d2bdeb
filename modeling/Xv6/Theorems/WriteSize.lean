import Mathlib.Data.List.Dedup
import Xv6.Fs.Logged
import Xv6.Fs.Mkfs
import Xv6.Theorems.FsContents

/-! How many blocks a transaction of `filewrite` logs. The rounds that allocate share the block of the bitmap, and those
    beyond the direct blocks the indirect block. `filewrite` makes its transactions as long as the log, though `begin_op`
    has reserved `MAXOPBLOCKS` blocks only. -/

namespace Xv6.Fs.Logged
open Lib

section
variable {A : Layout} {d d' : Disk} {X : Nat → Dinode} {x ip : Dinode} {i a b bn c off n inum : Nat} {src : List Byte}
  {block : Nat → Block} {m : Nat} {P : Prop} {y : Dinode}

/-! ### One block -/

theorem balloc_log (hone : d.sb.size ≤ bpb) (h : d.balloc = .ok (a, d')) : balloc A d = [A.bmapstart, a] := by
  have hlt := (balloc_ok h).2.1
  rw [balloc, h]
  simp only [bblock, Nat.div_eq_of_lt (Nat.lt_of_lt_of_le hlt hone), Nat.zero_add]

/-- What is logged for block `bn` of a file, whose inode was `x` before and is `y` afterwards. -/
def Logs (A : Layout) (x : Dinode) (block : Nat → Block) (y : Dinode) (block' : Nat → Block) (bn b : Nat) : Prop :=
  b = y.ref block' (refOf bn) ∨
    x.ref block (refOf bn) = 0 ∧ (b = A.bmapstart ∨ ndirect ≤ bn ∧ b = y.addrs ndirect)

theorem ref_direct (hbn : bn < ndirect) : x.ref block (refOf bn) = x.addrs bn := by
  rw [refOf, if_pos hbn, Dinode.ref, if_pos (Nat.le_of_lt hbn)]

theorem ref_indirect (hbn : ¬bn < ndirect) : x.ref block (refOf bn) =
    if x.addrs ndirect = 0 then 0 else word (block (x.addrs ndirect)) (bn - ndirect) := by
  rw [refOf, if_neg hbn, Dinode.ref, if_neg (by omega), Nat.add_sub_add_right]

theorem indirect_log (hone : d.sb.size ≤ bpb) (h : d.indirect x = .ok (d', ip)) :
    d'.sb = d.sb ∧ if x.addrs ndirect = 0 then
      balloc A d = [A.bmapstart, ip.addrs ndirect] ∧ ∀ j, word (d'.block (ip.addrs ndirect)) j = 0
    else d' = d ∧ ip = x := by
  unfold Disk.indirect at h
  split at h
  · rename_i h0
    obtain ⟨⟨a, e⟩, hb, h⟩ := bind_eq_ok.mp h
    cases h
    have hlog : balloc A d = _ := balloc_log hone hb
    obtain ⟨-, -, rfl⟩ := balloc_ok hb
    simp only [if_pos h0, hlog, Function.update_self, word_zero, implies_true, and_self]
  · rename_i h0
    cases h
    rw [if_neg h0]
    exact ⟨rfl, rfl, rfl⟩

theorem bmap_log (hone : d.sb.size ≤ bpb) (h : d.bmap x bn = .ok (a, d', ip)) :
    b ∈ bmap A d x bn ++ [a] ↔ b = a ∨ x.ref d.block (refOf bn) = 0 ∧
        (b = A.bmapstart ∨ ndirect ≤ bn ∧ b = ip.addrs ndirect) := by
  unfold Disk.bmap at h
  unfold bmap
  split at h
  · rename_i hbn
    rw [if_pos hbn, ref_direct hbn]
    split at h
    · rename_i h0
      obtain ⟨⟨a', e⟩, hb, h⟩ := bind_eq_ok.mp h
      cases h
      rw [if_pos h0, balloc_log hone hb]
      simp only [List.mem_append, List.mem_cons, List.not_mem_nil, or_false, h0, true_and, Nat.not_le.mpr hbn, false_and]
      tauto
    · rename_i h0
      cases h
      simp [h0]
  · rename_i hbn
    have hle := Nat.not_lt.mp hbn
    rw [if_neg hbn, ref_indirect hbn]
    split at h
    swap
    · cases h
    obtain ⟨⟨e, y⟩, hind, h⟩ := bind_eq_ok.mp h
    obtain ⟨hsb, hnew⟩ := indirect_log (A := A) hone hind
    rw [hind]
    dsimp only at h ⊢
    split at h
    · rename_i hword
      obtain ⟨⟨a', e'⟩, hb, h⟩ := bind_eq_ok.mp h
      cases h
      rw [if_pos hword, balloc_log (hsb ▸ hone) hb]
      split_ifs at hnew ⊢ with h0
      · rw [hnew.1]
        simp only [List.mem_append, List.mem_cons, List.not_mem_nil, or_false, true_and, hle]
        tauto
      · obtain ⟨rfl, rfl⟩ := hnew
        simp only [List.nil_append, List.mem_append, List.mem_cons, List.not_mem_nil, or_false, hword, true_and, hle]
        tauto
    · rename_i hword
      cases h
      rw [if_neg hword]
      split_ifs at hnew ⊢ with h0
      · exact absurd (hnew.2 _) hword
      · obtain ⟨rfl, rfl⟩ := hnew
        simp [hword]

/-! ### The loop -/

def Overlaps (off n bn : Nat) : Prop := off / bsize ≤ bn ∧ bn * bsize < off + n ∧ n ≠ 0

theorem not_overlaps_nil {P : Nat → Prop} (h : src = []) : ¬∃ bn, Overlaps off src.length bn ∧ P bn := by
  rintro ⟨bn, hbn, -⟩
  exact hbn.2.2 (by rw [h, List.length_nil])

theorem overlaps_round (hm : m = min n (bsize - off % bsize)) (hn : 0 < n) :
    Overlaps off n bn ↔ bn = off / bsize ∨ Overlaps (off + m) (n - m) bn := by
  simp only [Overlaps, bsize] at *
  omega

theorem overlaps_rest (hm : m = min n (bsize - off % bsize)) (h : Overlaps (off + m) (n - m) bn)
    (hmax : off + n ≤ maxfile * bsize) : bn ≠ off / bsize ∧ bn < maxfile := by
  simp only [Overlaps, bsize, maxfile, ndirect, nindirect] at *
  omega

theorem writeiLoop_one (hne : src ≠ []) (h : d.bmap x (off / bsize) = .ok (a, d', ip)) :
    Disk.writeiLoop 1 d x src off = .ok
      ({ d' with block := Function.update d'.block a (fun y =>
          if off % bsize ≤ y ∧ y < off % bsize + min src.length (bsize - off % bsize) then src.getD (y - off % bsize) 0
          else d'.block a y) }, ip) := by
  rw [Disk.writeiLoop, if_neg hne, h]
  rfl

theorem writeiLoop_log (own : Own d X) (hi : (X i).kind ≠ .free) (hone : d.sb.size ≤ bpb)
    (hmax : off + src.length ≤ maxfile * bsize) (h : Disk.writeiLoop c d (X i) src off = .ok (d', ip))
    (hc : src = [] ∨ rounds off src.length ≤ c) :
    b ∈ writeiLoop A c d (X i) src off ↔
      ∃ bn, Overlaps off src.length bn ∧ Logs A (X i) d.block ip d'.block bn b := by
  induction c generalizing d X off src with
  | zero =>
    exact iff_of_false List.not_mem_nil (not_overlaps_nil (eq_nil_of_rounds hc))
  | succ c ih =>
    rw [Disk.writeiLoop] at h
    split at h
    · rename_i h0
      rw [writeiLoop, if_pos h0]
      exact iff_of_false List.not_mem_nil (not_overlaps_nil h0)
    rename_i hne
    obtain ⟨⟨bp, d1, ip1⟩, hb, h⟩ := bind_eq_ok.mp h
    dsimp only at h
    obtain ⟨hg, -, hbn, hr, hkept⟩ := own.bmap hi hb
    have hself : Function.update X i ip1 i = ip1 := Function.update_self ..
    have hi1 : (Function.update X i ip1 i).kind ≠ .free := hg.kind.symm ▸ hi
    have hlen : 0 < src.length := List.length_pos_iff.mpr hne
    rw [writeiLoop, if_neg hne, hb, writeiLoop_one hne hb]
    dsimp only
    generalize hm : min src.length (bsize - off % bsize) = m at h ⊢
    generalize (fun x => if off % bsize ≤ x ∧ x < off % bsize + m then src.getD (x - off % bsize) 0 else d1.block bp x) =
      data at h ⊢
    obtain ⟨hg', -, -⟩ := hg.own.write_block data hr
    have href := hg.own.ref_write data hr hi1
    have hdrop : (src.drop m).length = src.length - m := List.length_drop
    have hc' : src.drop m = [] ∨ rounds (off + m) (src.drop m).length ≤ c := by
      rw [← List.length_eq_zero_iff, hdrop]
      exact rounds_rest hm.symm hlen (hc.resolve_left hne)
    rw [hself] at href
    have hrest := ih hg'.own hi1 (hg'.sb.trans hg.sb ▸ hone) (by rw [hdrop]; omega) (hself.symm ▸ h) hc'
    have hloop := (writeiLoop_node hg'.own hi1 (hself.symm ▸ h) hc').grows
    rw [hself, hdrop] at hrest
    rw [Function.update_idem] at hloop
    -- The numbers that the first round has found stay.
    have hkeep {q v : Nat} (hq : Refers d1 (Function.update X i ip1) i q v) : ip.ref d'.block q = v := by
      have hend := (hloop.refers (hg'.refers hq)).2.2.1
      rwa [Function.update_self] at hend
    rw [List.mem_append, bmap_log hone hb, hrest]
    have hfirst : (b = bp ∨ (X i).ref d.block (refOf (off / bsize)) = 0 ∧
        (b = A.bmapstart ∨ ndirect ≤ off / bsize ∧ b = ip1.addrs ndirect)) ↔
        Logs A (X i) d.block ip d'.block (off / bsize) b := by
      rw [Logs, hkeep hr]
      refine or_congr_right (and_congr_right fun _ => or_congr_right (and_congr_right fun hle => ?_))
      have hind : ip1.addrs ndirect ≠ 0 := by
        intro h0
        have hzero := hr.2.2
        rw [hself, ref_indirect (Nat.not_lt.mpr hle), if_pos h0] at hzero
        exact hzero.2 hzero.1.symm
      have hend := hkeep (refers_ndirect (d := d1) hi1 (hself.symm ▸ hind))
      rw [ref_ndirect, hself] at hend
      rw [hend]
    rw [hfirst]
    have hothers (bn : Nat) (hbn : Overlaps (off + m) (src.length - m) bn) :
        Logs A ip1 (Function.update d1.block bp data) ip d'.block bn b ↔ Logs A (X i) d.block ip d'.block bn b := by
      obtain ⟨hne, hlt⟩ := overlaps_rest hm.symm hbn hmax
      rw [Logs, Logs, href, hkept bn hlt hne]
    constructor
    · rintro (hl | ⟨bn, hbn, hl⟩)
      · exact ⟨_, (overlaps_round hm.symm hlen).mpr (.inl rfl), hl⟩
      · exact ⟨bn, (overlaps_round hm.symm hlen).mpr (.inr hbn), (hothers bn hbn).mp hl⟩
    · rintro ⟨bn, hbn, hl⟩
      rcases (overlaps_round hm.symm hlen).mp hbn with rfl | hbn
      · exact .inl hl
      · exact .inr ⟨bn, hbn, (hothers bn hbn).mpr hl⟩

/-! ### The number of blocks -/

/-- The blocks of a file that a write of `n` bytes at `off` overlaps. -/
def overlapped (off n : Nat) : List Nat := List.range' (off / bsize) (rounds off n)

theorem mem_overlapped (hn : n ≠ 0) : bn ∈ overlapped off n ↔ Overlaps off n bn := by
  rw [overlapped, List.mem_range'_1]
  simp only [Overlaps, rounds, bsize]
  omega

/-- The data blocks, the bitmap if one of them is missing, the indirect block if one is missing beyond the direct
    blocks, and the inode's block if the file grows. -/
def Transaction.blocks (t : Transaction) : Nat :=
  if t.off > t.ip.size ∨ t.off + t.n > maxfile * bsize then 0
  else
    rounds t.off t.n
      + (if ∃ bn ∈ overlapped t.off t.n, t.ip.ref t.disk.block (refOf bn) = 0 then 1 else 0)
      + (if ∃ bn ∈ overlapped t.off t.n, t.ip.ref t.disk.block (refOf bn) = 0 ∧ ndirect ≤ bn then 1 else 0)
      + if t.off + t.n > t.ip.size then 1 else 0

/-- The bitmap is one block, behind the inodes and before the data. -/
structure Layout.On (A : Layout) (d : Disk) (inum : Nat) : Prop where
  one : d.sb.size ≤ bpb
  inode : iblock A inum < A.bmapstart
  bitmap : A.bmapstart < d.sb.nmeta

/-- The blocks that the write of an inode logs, each once: `x` is the inode before, and `y` after it. -/
def distinct (A : Layout) (x : Dinode) (block : Nat → Block) (y : Dinode) (block' : Nat → Block) (inum off n : Nat) :
    List Nat :=
  (overlapped off n).map (fun bn => y.ref block' (refOf bn))
    ++ (if ∃ bn ∈ overlapped off n, x.ref block (refOf bn) = 0 then [A.bmapstart] else [])
    ++ (if ∃ bn ∈ overlapped off n, x.ref block (refOf bn) = 0 ∧ ndirect ≤ bn then [y.addrs ndirect] else [])
    ++ if off + n > x.size then [iblock A inum] else []

theorem mem_ite_singleton [Decidable P] : b ∈ (if P then [a] else []) ↔ P ∧ b = a := by
  split_ifs with h <;> simp [h]

theorem mem_distinct {block' : Nat → Block} (hn : n ≠ 0) : b ∈ distinct A x block y block' inum off n ↔
    (∃ bn, Overlaps off n bn ∧ Logs A x block y block' bn b) ∨ off + n > x.size ∧ b = iblock A inum := by
  simp only [distinct, List.mem_append, List.mem_map, mem_ite_singleton, mem_overlapped hn, Logs]
  refine or_congr_left ⟨?_, ?_⟩
  · rintro ((⟨bn, hbn, rfl⟩ | ⟨⟨bn, hbn, h0⟩, rfl⟩) | ⟨⟨bn, hbn, h0, hle⟩, rfl⟩)
    · exact ⟨bn, hbn, .inl rfl⟩
    · exact ⟨bn, hbn, .inr ⟨h0, .inl rfl⟩⟩
    · exact ⟨bn, hbn, .inr ⟨h0, .inr ⟨hle, rfl⟩⟩⟩
  · rintro ⟨bn, hbn, rfl | ⟨h0, rfl | ⟨hle, rfl⟩⟩⟩
    · exact .inl (.inl ⟨bn, hbn, rfl⟩)
    · exact .inl (.inr ⟨⟨bn, hbn, h0⟩, rfl⟩)
    · exact .inr ⟨⟨bn, hbn, h0, hle⟩, rfl⟩

theorem nodup_ite_singleton [Decidable P] : (if P then [a] else []).Nodup := by
  split_ifs <;> simp

theorem length_ite_singleton [Decidable P] : (if P then [a] else []).length = if P then 1 else 0 := by
  split_ifs <;> rfl

theorem distinct_nodup (own : Own d (Function.update X i y)) (hA : Layout.On A d i)
    (hdata : ∀ bn ∈ overlapped off n, Refers d (Function.update X i y) i (refOf bn) (y.ref d.block (refOf bn)))
    (block : Nat → Block) : (distinct A x block y d.block i off n).Nodup := by
  have hself : Function.update X i y i = y := Function.update_self ..
  have hind {bn : Nat} (hbn : bn ∈ overlapped off n) (hle : ndirect ≤ bn) :
      Refers d (Function.update X i y) i ndirect (y.addrs ndirect) := by
    have h0 : y.addrs ndirect ≠ 0 := by
      intro h0
      refine (hdata bn hbn).2.2.2 ?_
      rw [ref_indirect (Nat.not_lt.mpr hle), if_pos h0]
    have := refers_ndirect (d := d) (hdata bn hbn).1 (hself.symm ▸ h0)
    rwa [hself] at this
  have hinode := hA.inode
  have hbitmap := hA.bitmap
  refine List.nodup_append.mpr ⟨List.nodup_append.mpr ⟨List.nodup_append.mpr ⟨?_, nodup_ite_singleton, ?_⟩,
    nodup_ite_singleton, ?_⟩, nodup_ite_singleton, ?_⟩
  · refine List.Nodup.map_on (fun bn hbn bn' hbn' heq => ?_) List.nodup_range'
    exact refOf_inj (own.once (hdata bn hbn) (heq ▸ hdata bn' hbn')).2
  · rintro _ hv _ hw rfl
    obtain ⟨bn, hbn, rfl⟩ := List.mem_map.mp hv
    have := (own.taken (hdata bn hbn)).1
    have := (mem_ite_singleton.mp hw).2
    omega
  · rintro v hv _ hw rfl
    obtain ⟨⟨bn, hbn, -, hle⟩, rfl⟩ := mem_ite_singleton.mp hw
    rcases List.mem_append.mp hv with hv | hv
    · obtain ⟨bn', hbn', heq⟩ := List.mem_map.mp hv
      exact refOf_ne (own.once (heq ▸ hdata bn' hbn') (hind hbn hle)).2
    · have := (own.taken (hind hbn hle)).1
      have := (mem_ite_singleton.mp hv).2
      omega
  · rintro v hv _ hw rfl
    obtain ⟨-, rfl⟩ := mem_ite_singleton.mp hw
    rcases List.mem_append.mp hv with hv | hv
    · rcases List.mem_append.mp hv with hv | hv
      · obtain ⟨bn, hbn, heq⟩ := List.mem_map.mp hv
        have := (own.taken (hdata bn hbn)).1
        omega
      · have := (mem_ite_singleton.mp hv).2
        omega
    · obtain ⟨⟨bn, hbn, -, hle⟩, heq⟩ := mem_ite_singleton.mp hv
      have := (own.taken (hind hbn hle)).1
      omega

theorem writei_log {r : Option Nat} {others : Nat → List Nat × Nat} {log : List Nat} (own : Own d X)
    (hi : (X i).kind ≠ .free)
    (hA : Layout.On A d i) (hne : src ≠ []) (h : d.writei i (X i) src off = .ok (r, d', ip)) :
    (writei A d i (X i) src off).dedup.length =
      Transaction.blocks ⟨⟨d, X i, off, others⟩, src.length, log⟩ := by
  have hn : src.length ≠ 0 := mt List.length_eq_zero_iff.mp hne
  unfold Transaction.blocks
  rw [writei, h]
  unfold Disk.writei at h
  dsimp only at h ⊢
  split at h
  · rename_i hout
    cases h
    rw [if_pos (by simp only [maxfile, ndirect, nindirect, bsize]; omega)]
    rfl
  rename_i hin
  split at h
  · rename_i hout
    cases h
    rw [if_pos (.inr hout)]
    rfl
  rename_i hmax
  rw [Nat.not_lt] at hmax
  obtain ⟨⟨e, y⟩, hloop, h⟩ := bind_eq_ok.mp h
  obtain rfl : r = some src.length := by
    dsimp only at h
    split at h <;> cases h <;> rfl
  have hwrote := writeiLoop_node own hi hloop (.inr (Nat.le_refl _))
  have hdata (bn : Nat) (hbn : bn ∈ overlapped off src.length) :
      Refers e (Function.update X i y) i (refOf bn) (y.ref e.block (refOf bn)) := by
    have hover := (mem_overlapped hn).mp hbn
    obtain ⟨a, ha⟩ := hwrote.mapped bn hover.1 hover.2.1 hne
    have heq := ha.2.2.1
    rw [Function.update_self] at heq
    exact heq ▸ ha
  have hnodup :=
    distinct_nodup (x := X i) hwrote.grows.own ⟨hwrote.grows.sb ▸ hA.one, hA.inode, hwrote.grows.sb ▸ hA.bitmap⟩
    hdata d.block
  have hmem (b : Nat) : b ∈ (writeiLoop A (rounds off src.length) d (X i) src off ++
      if src.length > 0 ∧ off + src.length > (X i).size then [iblock A i] else []).dedup ↔
      b ∈ distinct A (X i) d.block y e.block i off src.length := by
    rw [List.mem_dedup, List.mem_append, mem_ite_singleton, writeiLoop_log own hi hA.one hmax hloop (.inr (Nat.le_refl _)),
      mem_distinct hn, and_iff_right (Nat.pos_of_ne_zero hn)]
  have hperm := (List.perm_ext_iff_of_nodup (List.nodup_dedup _) hnodup).mpr hmem
  dsimp only
  rw [hperm.length_eq, if_neg (by omega), distinct]
  simp only [List.length_append, List.length_map, length_ite_singleton]
  rw [overlapped, List.length_range']

theorem filewriteLoop_writei {found : List Found} {addr : List Byte} {t : Transaction}
    (ht : t ∈ filewriteLoop A inum found addr) :
    t.toFound ∈ found ∧ ∃ src r, src ≠ [] ∧ src.length = t.n ∧ t.log = writei A t.disk inum t.ip src t.off ∧
      t.disk.writei inum t.ip src t.off = .ok r := by
  induction found generalizing addr with
  | nil => cases ht
  | cons f found ih =>
    rw [filewriteLoop] at ht
    split at ht
    · cases ht
    rename_i hne
    dsimp only at ht
    split at ht
    swap
    · cases ht
    rename_i r d' y lh hw hlog
    rcases List.mem_cons.mp ht with rfl | ht
    · refine ⟨List.mem_cons_self .., addr.take filewriteMax, _, ?_, rfl, rfl, hw⟩
      rw [Ne, List.take_eq_nil_iff, not_or]
      exact ⟨by decide, hne⟩
    · split at ht
      · cases ht
      · split at ht
        · cases ht
        · exact (ih ht).imp_left (List.mem_cons_of_mem _)

end

/-- A transaction of `filewrite` logs as many blocks as what it finds says, so that it fits its reservation exactly if
    these are at most `MAXOPBLOCKS`. -/
theorem filewrite_fits {A : Layout} {inum : Nat} {found : List Found} {addr : List Byte} {t : Transaction}
    (ht : t ∈ filewriteLoop A inum found addr) {X : Nat → Dinode} (own : Own t.disk X) (hX : X inum = t.ip)
    (hkind : t.ip.kind ≠ .free) (hA : Layout.On A t.disk inum) :
    t.log.dedup.length = t.blocks ∧ (t.log.dedup.length ≤ maxopblocks ↔ t.blocks ≤ maxopblocks) := by
  obtain ⟨-, src, r, hne, hn, hlog, hw⟩ := filewriteLoop_writei ht
  have hcount : t.log.dedup.length = t.blocks := by
    rw [hlog]
    obtain ⟨⟨d, ip, off, others⟩, n, log⟩ := t
    subst hX hn
    exact writei_log own hkind hA hne hw
  exact ⟨hcount, by rw [hcount]⟩

def emptyDisk : Disk := ⟨mkfsSuperblock, fun _ => ⟨.free, 0, 0, 0, 0, fun _ => 0⟩, fun b => b < nmeta, fun _ _ => 0⟩

def emptyFile : Dinode := ⟨.file, 0, 0, 1, 0, fun _ => 0⟩

/-- An empty file on the empty disk, when no other operation runs. -/
def emptyFound : Found := ⟨emptyDisk, emptyFile, 0, fun _ => ([], 1)⟩

def mkfsLayout : Layout := ⟨inodestart, bmapstart, logsize⟩

/-- A `write` of 6656 bytes to an empty file is one transaction, of 13 data blocks, the bitmap, the indirect block and the
    inode. -/
theorem filewrite_overruns : ∃ t ∈ filewriteLoop mkfsLayout 5 [emptyFound] (List.replicate 6656 1),
    t.log.dedup.length = 16 ∧ maxopblocks < t.log.dedup.length := by
  have hrun : (filewriteLoop mkfsLayout 5 [emptyFound] (List.replicate 6656 1)).any (fun t => t.log.dedup.length == 16) =
      true := by
    decide +kernel
  obtain ⟨t, ht, hP⟩ := List.any_eq_true.mp hrun
  rw [beq_iff_eq] at hP
  exact ⟨t, ht, hP, by rw [hP]; decide⟩

/-- The inodes of the empty disk, of which the file is in use. -/
def emptyInodes (j : Nat) : Dinode := if j = 5 then emptyFile else ⟨.free, 0, 0, 0, 0, fun _ => 0⟩

theorem emptyDisk_own : Own emptyDisk emptyInodes := by
  have hnone {i r a : Nat} : ¬Refers emptyDisk emptyInodes i r a := by
    rintro ⟨-, -, href, h0⟩
    refine h0 (href.symm.trans ?_)
    unfold emptyInodes
    split <;> simp [Dinode.ref, emptyFile]
  exact ⟨by decide, fun b hb => decide_eq_true hb, fun h => absurd h hnone, fun h => absurd h hnone⟩

/-- 4096 bytes fit, and use the reservation up: 8 data blocks, the bitmap and the inode. -/
theorem filewrite_fits_eight : ∃ t ∈ filewriteLoop mkfsLayout 5 [emptyFound] (List.replicate 4096 1),
    t.n = 4096 ∧ t.log.dedup.length = maxopblocks := by
  have hrun :
    (filewriteLoop mkfsLayout 5 [emptyFound] (List.replicate 4096 1)).any (fun t =>
      t.blocks == maxopblocks && t.n == 4096) =
      true := by decide +kernel
  obtain ⟨t, ht, hP⟩ := List.any_eq_true.mp hrun
  simp only [Bool.and_eq_true, beq_iff_eq] at hP
  have hfound := List.mem_singleton.mp (filewriteLoop_writei ht).1
  have hdisk : t.disk = emptyDisk := congrArg Found.disk hfound
  have hip : t.ip = emptyFile := congrArg Found.ip hfound
  have hcount := (filewrite_fits ht (X := emptyInodes) (hdisk ▸ emptyDisk_own) hip.symm (by rw [hip]; decide)
    (hdisk ▸ ⟨by decide, by decide, by decide⟩)).1
  exact ⟨t, ht, hP.2, hcount.trans hP.1⟩

end Xv6.Fs.Logged
