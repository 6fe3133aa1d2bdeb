import Mathlib.Data.List.GetD
import Xv6.Fs.Mkfs
import Xv6.Theorems.FsContents

/-! The image that `mkfs` makes. Where the blocks suffice, `iappend` writes what `writei` of the kernel writes at the end
    of a file; so every image on the way is a disk as the kernel keeps it, with the files that have been added. -/

namespace Xv6.Fs
open Lib

/-- The node holds exactly these bytes. -/
structure Node.Holds (x : Node) (bytes : List Byte) : Prop where
  size : x.size = bytes.length
  content : ∀ pos < bytes.length, x.content pos = bytes.getD pos 0

theorem Node.Holds.append {x : Node} {bytes : List Byte} (h : x.Holds bytes) (src : List Byte) :
    (x.write src x.size).Holds (bytes ++ src) := by
  refine ⟨?_, fun pos hpos => ?_⟩
  · simp only [Node.write, h.size, List.length_append]
    omega
  · rw [List.length_append] at hpos
    simp only [Node.write, h.size]
    by_cases hold : pos < bytes.length
    · rw [if_neg (by omega), h.content pos hold, List.getD_append _ _ _ _ hold]
    · rw [if_pos (by omega), List.getD_append_right _ _ _ _ (by omega)]

namespace Image
variable {m m' m'' : Image} {X : Nat → Dinode} {din din' : Dinode} {inum x bn c off : Nat} {p : List Byte} {i r b : Nat}
  {kind : Kind} {name : Name} {f : Name × List Byte} {files : List (Name × List Byte)}

/-! ### What changes -/

/-- Blocks have been allocated and written, nothing else. -/
structure Extends (m m' : Image) : Prop where
  freeblock : m.freeblock ≤ m'.freeblock
  inode : m'.inode = m.inode
  freeinode : m'.freeinode = m.freeinode

theorem Extends.trans (h : Extends m m') (h' : Extends m' m'') : Extends m m'' :=
  ⟨h.freeblock.trans h'.freeblock, h'.inode.trans h.inode, h'.freeinode.trans h.freeinode⟩

theorem bmap_extends (h : m.bmap din bn = (x, m', din')) : Extends m m' ∧ din'.size = din.size := by
  unfold bmap at h
  split at h
  · split at h
    · cases h
      exact ⟨⟨Nat.le_succ _, rfl, rfl⟩, rfl⟩
    · cases h
      exact ⟨⟨Nat.le_refl _, rfl, rfl⟩, rfl⟩
  · split at h
    rename_i m₁ din₁ hind
    have h₁ : Extends m m₁ ∧ din₁.size = din.size := by
      split at hind
      · cases hind
        exact ⟨⟨Nat.le_succ _, rfl, rfl⟩, rfl⟩
      · cases hind
        exact ⟨⟨Nat.le_refl _, rfl, rfl⟩, rfl⟩
    dsimp only at h
    split at h
    · cases h
      exact ⟨h₁.1.trans ⟨Nat.le_succ _, rfl, rfl⟩, h₁.2⟩
    · cases h
      exact h₁

theorem iappendLoop_extends (h : iappendLoop c m din p off = some (m', din')) : Extends m m' ∧ din'.size = din.size := by
  induction c generalizing m din p off with
  | zero =>
    cases h
    exact ⟨⟨Nat.le_refl _, rfl, rfl⟩, rfl⟩
  | succ c ih =>
    unfold iappendLoop at h
    split at h
    · cases h
      exact ⟨⟨Nat.le_refl _, rfl, rfl⟩, rfl⟩
    · split at h
      · cases h
      · obtain ⟨hbmap, hsize⟩ : Extends m (m.bmap din (off / bsize)).2.1 ∧ (m.bmap din (off / bsize)).2.2.size = din.size :=
          bmap_extends rfl
        obtain ⟨hrest, hrestSize⟩ := ih h
        refine ⟨hbmap.trans ⟨hrest.freeblock, hrest.inode, hrest.freeinode⟩, hrestSize.trans hsize⟩

/-! ### The kernel's functions on the image -/

def Fresh (m : Image) : Prop := ∀ b, m.freeblock ≤ b → m.block b = fun _ => 0

theorem balloc_disk (hf : m.Fresh) (hlt : m.freeblock < fssize) :
    m.disk.balloc = .ok (m.freeblock, { m with freeblock := m.freeblock + 1 }.disk) := by
  have hfind : ((List.range m.disk.sb.size).find? fun b => !m.disk.bitmap b) = some m.freeblock := by
    rw [List.find?_range_eq_some]
    refine ⟨by simp [disk], List.mem_range.mpr hlt, fun b hb => ?_⟩
    simpa [disk] using hb
  have hbitmap : Function.update m.disk.bitmap m.freeblock true = { m with freeblock := m.freeblock + 1 }.disk.bitmap := by
    funext b
    rcases eq_or_ne b m.freeblock with rfl | hne
    · simp [disk]
    · rw [Function.update_of_ne hne]
      simp only [disk, decide_eq_decide]
      omega
  have hblock : Function.update m.disk.block m.freeblock (fun _ => 0) = m.block := by
    rw [← hf m.freeblock (Nat.le_refl _)]
    exact Function.update_eq_self ..
  unfold Disk.balloc
  rw [hfind]
  dsimp only
  rw [hbitmap, hblock]
  rfl

theorem fresh_update {data : Block} (hf : m.Fresh) (hx : x < m.freeblock) :
    { m with block := Function.update m.block x data }.Fresh := by
  intro b hb
  exact (Function.update_of_ne (Nat.ne_of_gt (Nat.lt_of_lt_of_le hx hb)) ..).trans (hf b hb)

theorem fresh_next (hf : m.Fresh) : { m with freeblock := m.freeblock + 1 }.Fresh := fun b hb => hf b (Nat.le_of_succ_le hb)

theorem indirect_disk (hf : m.Fresh) (hind : din.addrs ndirect < m.freeblock) (h0 : 0 < m.freeblock)
    (h : (if din.addrs ndirect = 0 then
        ({ m with freeblock := m.freeblock + 1 }, { din with addrs := Function.update din.addrs ndirect m.freeblock })
      else (m, din)) = (m', din')) (hfit : m'.freeblock ≤ fssize) :
    m.disk.indirect din = .ok (m'.disk, din') ∧ m'.Fresh ∧ din'.addrs ndirect < m'.freeblock ∧ 0 < m'.freeblock := by
  unfold Disk.indirect
  split at h
  · rename_i hnone
    cases h
    rw [if_pos hnone, balloc_disk hf hfit]
    refine ⟨rfl, fresh_next hf, ?_, Nat.succ_pos _⟩
    simp
  · rename_i hsome
    cases h
    rw [if_neg hsome]
    exact ⟨rfl, hf, hind, h0⟩

theorem bmap_disk (hf : m.Fresh) (hind : din.addrs ndirect < m.freeblock) (h0 : 0 < m.freeblock) (hbn : bn < maxfile)
    (h : m.bmap din bn = (x, m', din')) (hfit : m'.freeblock ≤ fssize) :
    m.disk.bmap din bn = .ok (x, m'.disk, din') ∧ m'.Fresh := by
  unfold bmap at h
  unfold Disk.bmap
  split at h
  · rename_i hdirect
    rw [if_pos hdirect]
    split at h
    · rename_i hnone
      cases h
      rw [if_pos hnone, balloc_disk hf hfit]
      exact ⟨rfl, fresh_next hf⟩
    · rename_i hsome
      cases h
      rw [if_neg hsome]
      exact ⟨rfl, hf⟩
  · rename_i hdirect
    have hlt : bn - ndirect < nindirect := by
      simp only [maxfile] at hbn
      omega
    rw [if_neg hdirect, if_pos hlt]
    split at h
    rename_i m₁ din₁ hget
    dsimp only at h
    split at h
    · rename_i hnone
      cases h
      obtain ⟨hget, hf₁, hind₁, h0₁⟩ := indirect_disk hf hind h0 hget (Nat.le_of_succ_le hfit)
      have hword : word (m₁.disk.block (din'.addrs ndirect)) (bn - ndirect) = 0 := hnone
      rw [hget]
      simp only [bind, Except.bind, if_pos hword, balloc_disk hf₁ hfit]
      exact ⟨rfl, fresh_update (fresh_next hf₁) (Nat.lt_succ_of_lt hind₁)⟩
    · rename_i hsome
      cases h
      obtain ⟨hget, hf₁, hind₁, h0₁⟩ := indirect_disk hf hind h0 hget hfit
      have hword : word (m'.disk.block (din'.addrs ndirect)) (bn - ndirect) ≠ 0 := hsome
      rw [hget]
      simp only [bind, Except.bind, if_neg hword]
      exact ⟨rfl, hf₁⟩

theorem freeblock_pos (own : Own m.disk X) : 0 < m.freeblock := by
  have := own.reserved 0 own.pos
  simpa [disk] using this

theorem lt_freeblock (own : Own m.disk X) (hr : Refers m.disk X i r b) : b < m.freeblock := by
  have := (own.taken hr).2.2
  simpa [disk] using this

theorem indirect_lt (own : Own m.disk X) (hi : (X i).kind ≠ .free) : (X i).addrs ndirect < m.freeblock := by
  by_cases h0 : (X i).addrs ndirect = 0
  · rw [h0]
    exact freeblock_pos own
  · exact lt_freeblock own (refers_ndirect hi h0)

theorem iappendLoop_disk (own : Own m.disk X) (hX : X inum = din) (hi : din.kind ≠ .free) (hf : m.Fresh)
    (h : iappendLoop c m din p off = some (m', din')) (hfit : m'.freeblock ≤ fssize) :
    Disk.writeiLoop c m.disk din p off = .ok (m'.disk, din') ∧ m'.Fresh := by
  induction c generalizing m X din p off with
  | zero =>
    cases h
    exact ⟨rfl, hf⟩
  | succ c ih =>
    unfold iappendLoop at h
    unfold Disk.writeiLoop
    split at h
    · rename_i hp
      cases h
      rw [if_pos hp]
      exact ⟨rfl, hf⟩
    · rename_i hp
      rw [if_neg hp]
      split at h
      · cases h
      · rename_i hbn
        rcases hbmap : m.bmap din (off / bsize) with ⟨x, m₁, din₁⟩
        rw [hbmap] at h
        dsimp only at h
        have hext := (iappendLoop_extends h).1
        have hi' : (X inum).kind ≠ .free := hX.symm ▸ hi
        obtain ⟨hkernel, hf₁⟩ := bmap_disk hf (hX ▸ indirect_lt own hi') (freeblock_pos own) (not_not.mp hbn) hbmap
          (hext.freeblock.trans hfit)
        obtain ⟨hgrows, -, -, hr, -⟩ := own.bmap hi' (hX.symm ▸ hkernel)
        have hlt := lt_freeblock hgrows.own hr
        have hkind : din₁.kind ≠ .free := by
          have := hr.1
          rwa [Function.update_self] at this
        rw [hkernel]
        simp only [bind, Except.bind]
        exact ih (hgrows.own.write_block _ hr).1.own (Function.update_self ..) hkind (fresh_update hf₁ hlt) h

theorem iappendLoop_fits (h : iappendLoop c m din p off = some (m', din')) (hc : rounds off p.length ≤ c) (hp : p ≠ []) :
    off + p.length ≤ maxfile * bsize := by
  induction c generalizing m din p off with
  | zero =>
    have hpos := List.length_pos_of_ne_nil hp
    simp only [rounds, bsize] at hc
    omega
  | succ c ih =>
    unfold iappendLoop at h
    rw [if_neg hp] at h
    split at h
    · cases h
    · rename_i hbn
      dsimp only at h
      by_cases hlast : p.length ≤ bsize - off % bsize
      · simp only [bsize, maxfile] at *
        omega
      · have hrest : p.drop (min p.length (bsize - off % bsize)) ≠ [] := by
          rw [Ne, List.drop_eq_nil_iff]
          omega
        have hlen := List.length_drop (i := min p.length (bsize - off % bsize)) (l := p)
        have := ih h (by rw [hlen]; simp only [rounds, bsize] at *; omega) hrest
        rw [hlen] at this
        omega

theorem iappendLoop_some (hfits : off + p.length ≤ maxfile * bsize) : ∃ r, iappendLoop c m din p off = some r := by
  induction c generalizing m din p off with
  | zero => exact ⟨_, rfl⟩
  | succ c ih =>
    unfold iappendLoop
    split
    · exact ⟨_, rfl⟩
    · rename_i hp
      have hpos := List.length_pos_of_ne_nil hp
      rw [if_neg]
      · apply ih
        rw [List.length_drop]
        omega
      · simp only [bsize, maxfile] at *
        omega

theorem iappend_writei (own : Own m.disk m.inode) (hi : (m.inode inum).kind ≠ .free) (hf : m.Fresh) (hp : p ≠ [])
    (h : m.iappend inum p = some m') (hfit : m'.freeblock ≤ fssize) :
    m.disk.writei inum (m.inode inum) p (m.inode inum).size = .ok (some p.length, m'.disk, m'.inode inum) ∧ m'.Fresh ∧
      m'.inode = Function.update m.inode inum (m'.inode inum) ∧ m'.freeinode = m.freeinode := by
  obtain ⟨⟨m₁, din₁⟩, hloop, rfl⟩ := Option.map_eq_some_iff.mp h
  have hpos := List.length_pos_of_ne_nil hp
  have hle := iappendLoop_fits hloop (Nat.le_refl _) hp
  obtain ⟨hext, hsize⟩ := iappendLoop_extends hloop
  obtain ⟨hkernel, hf₁⟩ := iappendLoop_disk own rfl hi hf hloop hfit
  have hinode : Function.update m₁.inode inum { din₁ with size := din₁.size + p.length } inum = _ := Function.update_self ..
  dsimp only
  refine ⟨?_, hf₁, ?_, hext.freeinode⟩
  · unfold Disk.writei
    dsimp only
    rw [if_neg (by simp only [maxfile, ndirect, nindirect, bsize] at hle; omega), if_neg (by omega), hkernel]
    simp only [bind, Except.bind]
    rw [if_pos ⟨hpos, by omega⟩, hinode, hsize]
    rfl
  · rw [hinode, hext.inode]

theorem bmap_behind {fbn : Nat} (hbn : bn < ndirect) (hne : bn ≠ fbn) : (m.bmap din fbn).2.2.addrs bn = din.addrs bn := by
  unfold bmap
  split
  · split
    · exact Function.update_of_ne hne ..
    · rfl
  · split
    rename_i m₁ din₁ hind
    have h₁ : din₁.addrs bn = din.addrs bn := by
      split at hind
      · cases hind
        exact Function.update_of_ne (Nat.ne_of_lt hbn) ..
      · cases hind
        rfl
    dsimp only
    split
    · exact h₁
    · exact h₁

theorem iappendLoop_behind (h : iappendLoop c m din p off = some (m', din')) (hbn : bn < ndirect)
    (hend : off + p.length ≤ bn * bsize) : din'.addrs bn = din.addrs bn := by
  induction c generalizing m din p off with
  | zero =>
    cases h
    rfl
  | succ c ih =>
    unfold iappendLoop at h
    split at h
    · cases h
      rfl
    rename_i hp
    split at h
    · cases h
    have hpos := List.length_pos_of_ne_nil hp
    have hne : bn ≠ off / bsize := by
      simp only [bsize] at hend ⊢
      omega
    refine (ih h ?_).trans (bmap_behind hbn hne)
    rw [List.length_drop]
    omega

theorem iappend_behind (h : m.iappend inum p = some m') (hbn : bn < ndirect) (hend : (m'.inode inum).size ≤ bn * bsize) :
    (m'.inode inum).addrs bn = (m.inode inum).addrs bn := by
  obtain ⟨⟨m₁, din₁⟩, hloop, rfl⟩ := Option.map_eq_some_iff.mp h
  dsimp only at hend ⊢
  rw [Function.update_self] at hend ⊢
  dsimp only at hend
  rw [(iappendLoop_extends hloop).2] at hend
  have hkept := iappendLoop_behind hloop hbn hend
  exact hkept

/-! ### What every image satisfies -/

def node (m : Image) (i : Nat) : Node := (m.inode i).node m.block

structure Good (m : Image) : Prop where
  own : Own m.disk m.inode
  tight : Tight m.disk m.inode
  dense : Dense m.disk m.inode
  fresh : m.Fresh
  inodes : ∀ i, (m.inode i).kind ≠ .free ↔ 1 ≤ i ∧ i < m.freeinode
  behind : ∀ i bn, bn < ndirect → (m.inode i).size ≤ bn * bsize → (m.inode i).addrs bn = 0

theorem good_empty : Good empty where
  own := by
    refine ⟨by decide, fun b hb => ?_, fun hr => absurd rfl hr.1, fun hr => absurd rfl hr.1⟩
    exact decide_eq_true (hb : b < nmeta)
  tight b _ hb hset := by
    have hge : nmeta ≤ b := hb
    have hlt : b < nmeta := of_decide_eq_true hset
    omega
  dense _ _ hi := absurd rfl hi
  fresh _ _ := rfl
  inodes i := by
    have hfree : (empty.freeinode : Nat) = 1 := rfl
    rw [hfree]
    simp only [empty, ne_eq, not_true_eq_false, false_iff]
    omega
  behind _ _ _ _ := rfl

theorem refers_ialloc (h : Good m) :
    Refers (m.ialloc kind).2.disk (m.ialloc kind).2.inode i r b ↔ Refers m.disk m.inode i r b := by
  by_cases hi : i = m.freeinode
  · subst hi
    constructor
    · rintro ⟨-, -, hr, h0⟩
      have hzero : (Function.update m.inode m.freeinode ⟨kind, 0, 0, 1, 0, fun _ => 0⟩ m.freeinode).ref m.block r = 0 := by
        rw [Function.update_self, Dinode.ref]
        split <;> rfl
      exact absurd (hr.symm.trans hzero) h0
    · rintro ⟨hk, -⟩
      exact absurd ((h.inodes _).mp hk).2 (Nat.lt_irrefl _)
  · have hsame : (m.ialloc kind).2.inode i = m.inode i := Function.update_of_ne hi ..
    unfold Refers
    rw [hsame]
    rfl

theorem ialloc_good (h : Good m) (hkind : kind ≠ .free) (hpos : 1 ≤ m.freeinode) : Good (m.ialloc kind).2 where
  own := own_of_refers h.own rfl rfl fun hr => (refers_ialloc h).mp hr
  tight b hb hn hset := by
    obtain ⟨i, r, hr⟩ := h.tight b hb hn hset
    exact ⟨i, r, (refers_ialloc h).mpr hr⟩
  dense i bn hi hbn := by
    by_cases hnew : i = m.freeinode
    · subst hnew
      have hsize : ((m.ialloc kind).2.inode m.freeinode).size = 0 := by simp [ialloc]
      omega
    · have hsame : (m.ialloc kind).2.inode i = m.inode i := Function.update_of_ne hnew ..
      rw [hsame] at hi hbn
      obtain ⟨a, ha⟩ := h.dense i bn hi hbn
      exact ⟨a, (refers_ialloc h).mpr ha⟩
  fresh := h.fresh
  inodes i := by
    have hfree : (m.ialloc kind).2.freeinode = m.freeinode + 1 := rfl
    rw [hfree]
    by_cases hnew : i = m.freeinode
    · subst hnew
      have hk : ((m.ialloc kind).2.inode m.freeinode).kind = kind := by simp [ialloc]
      rw [hk]
      simp [hkind, hpos]
    · have hsame : (m.ialloc kind).2.inode i = m.inode i := Function.update_of_ne hnew ..
      rw [hsame, h.inodes i]
      omega
  behind i bn hbn hend := by
    by_cases hnew : i = m.freeinode
    · subst hnew
      simp [ialloc]
    · have hsame : (m.ialloc kind).2.inode i = m.inode i := Function.update_of_ne hnew ..
      rw [hsame] at hend ⊢
      exact h.behind i bn hbn hend

theorem ialloc_node (hi : i ≠ m.freeinode) : (m.ialloc kind).2.node i = m.node i := by
  have hsame : (m.ialloc kind).2.inode i = m.inode i := Function.update_of_ne hi ..
  unfold node
  rw [hsame]
  rfl

theorem ialloc_new (m : Image) (kind : Kind) : ((m.ialloc kind).2.node m.freeinode).kind = kind ∧
    ((m.ialloc kind).2.node m.freeinode).Holds [] := by
  have hnew : (m.ialloc kind).2.inode m.freeinode = ⟨kind, 0, 0, 1, 0, fun _ => 0⟩ := Function.update_self ..
  unfold node
  rw [hnew]
  exact ⟨rfl, rfl, fun pos hpos => absurd hpos (Nat.not_lt_zero _)⟩

/-- Bytes have been written behind the contents of an inode. -/
structure Appended (m : Image) (inum : Nat) (bytes : List Byte) (m' : Image) : Prop where
  good : Good m'
  freeinode : m'.freeinode = m.freeinode
  kind : (m'.node inum).kind = (m.node inum).kind
  holds : ∀ old, (m.node inum).Holds old → (m'.node inum).Holds (old ++ bytes)
  others : ∀ i, i ≠ inum → (m.inode i).kind ≠ .free → m'.node i = m.node i

theorem iappend_appended (h : Good m) (hi : (m.inode inum).kind ≠ .free) (hp : p ≠ []) (ha : m.iappend inum p = some m')
    (hfit : m'.freeblock ≤ fssize) : Appended m inum p m' := by
  obtain ⟨hkernel, hf, hinode, hfreeinode⟩ := iappend_writei h.own hi h.fresh hp ha hfit
  obtain ⟨hnone, -⟩ | ⟨-, -, hw⟩ := writei_wrote h.own hi hkernel
  · cases hnone
  have hown := hw.own
  have htight := hw.tight h.tight
  have hdense := hw.dense (Nat.le_refl _) h.dense
  rw [← hinode] at hown htight hdense
  refine ⟨⟨hown, htight, hdense, hf, fun i => ?_, fun i bn hbn hend => ?_⟩, hfreeinode, hw.kind, fun old hold => ?_,
    fun i hne hk => ?_⟩
  · rw [hfreeinode, ← h.inodes i]
    by_cases heq : i = inum
    · rw [heq, hw.kind]
    · rw [hinode, Function.update_of_ne heq]
  · by_cases heq : i = inum
    · subst heq
      have hsize : (m'.inode i).size = (m.inode i).size + p.length := by
        obtain ⟨⟨m₁, din₁⟩, hloop, rfl⟩ := Option.map_eq_some_iff.mp ha
        dsimp only
        rw [Function.update_self, (iappendLoop_extends hloop).2]
      rw [iappend_behind ha hbn hend]
      exact h.behind i bn hbn (by omega)
    · rw [hinode, Function.update_of_ne heq] at hend ⊢
      exact h.behind i bn hbn hend
  · have hnode : m'.node inum = (m.node inum).write p (m.node inum).size := hw.node
    rw [hnode]
    exact hold.append p
  · have hsame : m'.inode i = m.inode i := by rw [hinode, Function.update_of_ne hne]
    unfold node
    rw [hsame]
    exact hw.others i hk hne

theorem Appended.trans {a b : List Byte} (h : Appended m inum a m') (h' : Appended m' inum b m'') :
    Appended m inum (a ++ b) m'' := by
  refine ⟨h'.good, h'.freeinode.trans h.freeinode, h'.kind.trans h.kind, fun old hold => ?_, fun i hne hk => ?_⟩
  · rw [← List.append_assoc]
    exact h'.holds _ (h.holds old hold)
  · have hk' : (m'.inode i).kind ≠ .free := by
      have hsame := congrArg Node.kind (h.others i hne hk)
      exact fun hfree => hk (hsame.symm.trans hfree)
    exact (h'.others i hne hk').trans (h.others i hne hk)

theorem Appended.refl (h : Good m) : Appended m inum [] m :=
  ⟨h, rfl, rfl, fun old hold => by rwa [List.append_nil], fun _ _ _ => rfl⟩

theorem iappend_freeblock (h : m.iappend inum p = some m') : m.freeblock ≤ m'.freeblock := by
  obtain ⟨⟨m₁, din₁⟩, hloop, rfl⟩ := Option.map_eq_some_iff.mp h
  exact (iappendLoop_extends hloop).1.freeblock

theorem foldlM_freeblock {α : Type} {f : Image → α → Option Image}
    (hf : ∀ m a m', f m a = some m' → m.freeblock ≤ m'.freeblock) {l : List α} (h : l.foldlM f m = some m') :
    m.freeblock ≤ m'.freeblock := by
  induction l generalizing m with
  | nil =>
    cases h
    exact Nat.le_refl _
  | cons a l ih =>
    rw [List.foldlM_cons] at h
    obtain ⟨m₁, h₁, h⟩ := Option.bind_eq_some_iff.mp h
    exact (hf m a m₁ h₁).trans (ih h)

theorem pieces_appended (h : Good m) (hi : (m.inode inum).kind ≠ .free) (hc : p.length ≤ c)
    (hfold : (pieces c p).foldlM (fun m p => m.iappend inum p) m = some m') (hfit : m'.freeblock ≤ fssize) :
    Appended m inum p m' := by
  induction c generalizing m p with
  | zero =>
    obtain rfl := List.eq_nil_of_length_eq_zero (Nat.le_zero.mp hc)
    cases hfold
    exact .refl h
  | succ c ih =>
    unfold pieces at hfold
    split at hfold
    · rename_i hp
      subst hp
      cases hfold
      exact .refl h
    · rename_i hp
      have hpos := List.length_pos_of_ne_nil hp
      have htake : p.take bsize ≠ [] := by
        rw [Ne, List.take_eq_nil_iff, not_or]
        exact ⟨by decide, hp⟩
      rw [List.foldlM_cons] at hfold
      obtain ⟨m₁, hfirst, hrest⟩ := Option.bind_eq_some_iff.mp hfold
      have hmono := foldlM_freeblock (fun _ _ _ h => iappend_freeblock h) hrest
      have hap := iappend_appended h hi htake hfirst (hmono.trans hfit)
      have hi₁ : (m₁.inode inum).kind ≠ .free := fun hfree => hi (hap.kind.symm.trans hfree)
      have hlen : (p.drop bsize).length ≤ c := by
        rw [List.length_drop]
        simp only [bsize]
        omega
      have := hap.trans (ih hap.good hi₁ hlen hrest)
      rwa [List.take_append_drop] at this

/-! ### The files -/

/-- The entries of the root directory. -/
def entries (files : List (Name × List Byte)) : List Byte :=
  dirent rootino dot ++ dirent rootino dotdot ++ (files.zipIdx 2).flatMap fun f => dirent f.2 f.1.1

/-- The image with the files that have been added. -/
structure Built (m : Image) (files : List (Name × List Byte)) : Prop extends Good m where
  freeinode : m.freeinode = files.length + 2
  rootKind : (m.node rootino).kind = .dir
  root : (m.node rootino).Holds (entries files)
  file : ∀ k f, files[k]? = some f → (m.node (k + 2)).Holds f.2

theorem dirent_ne_nil {inum : Nat} : dirent inum name ≠ [] := by simp [dirent]

theorem addFile_freeblock (h : m.addFile f = some m') : m.freeblock ≤ m'.freeblock := by
  obtain ⟨m₁, hroot, hfold⟩ := Option.bind_eq_some_iff.mp h
  exact (iappend_freeblock hroot).trans (foldlM_freeblock (fun _ _ _ h => iappend_freeblock h) hfold)

theorem Built.addFile (h : Built m files) (ha : m.addFile f = some m')
    (hfit : m'.freeblock ≤ fssize) : Built m' (files ++ [f]) := by
  obtain ⟨m₁, hroot, hfold⟩ := Option.bind_eq_some_iff.mp ha
  have hmono := foldlM_freeblock (fun _ _ _ h => iappend_freeblock h) hfold
  have hfree := h.freeinode
  have halloc : Good (m.ialloc .file).2 := ialloc_good h.toGood (by decide) (by omega)
  have hused (i : Nat) (hi : 1 ≤ i ∧ i < m.freeinode + 1) : ((m.ialloc .file).2.inode i).kind ≠ .free :=
    (halloc.inodes i).mpr hi
  have hap :=
    iappend_appended halloc (hused rootino ⟨by decide, by simp only [rootino]; omega⟩) dirent_ne_nil hroot
      (hmono.trans hfit)
  have hnew : (m₁.inode m.freeinode).kind ≠ .free := by
    rw [hap.good.inodes, hap.freeinode]
    exact ⟨by omega, Nat.lt_succ_self _⟩
  have hap' := pieces_appended hap.good hnew (Nat.le_refl _) hfold hfit
  -- The nodes of the new file, of the root directory and of the other files.
  have hrootNe : rootino ≠ m.freeinode := by simp only [rootino]; omega
  have hrootNode : m'.node rootino = m₁.node rootino :=
    hap'.others rootino hrootNe
      (by rw [hap.good.inodes, hap.freeinode]; exact ⟨by decide, by simp only [ialloc, rootino]; omega⟩)
  refine ⟨hap'.good, ?_, ?_, ?_, fun k g hk => ?_⟩
  · rw [hap'.freeinode, hap.freeinode, List.length_append]
    simp only [ialloc, hfree, List.length_singleton]
  · rw [hrootNode, hap.kind, ialloc_node hrootNe]
    exact h.rootKind
  · have hentries : entries (files ++ [f]) = entries files ++ dirent m.freeinode f.1 := by
      simp [entries, List.zipIdx_append, hfree, Nat.add_comm]
    rw [hrootNode, hentries]
    refine hap.holds _ ?_
    rw [ialloc_node hrootNe]
    exact h.root
  · by_cases hlast : k + 2 = m.freeinode
    · have hk' : k = files.length := by omega
      have hg : g = f := by simpa [hk'] using hk.symm
      subst hg
      rw [hlast]
      have hempty : (m₁.node m.freeinode).Holds [] := by
        rw [hap.others _ hrootNe.symm (hused _ ⟨by omega, Nat.lt_succ_self _⟩)]
        exact (ialloc_new m .file).2
      exact hap'.holds [] hempty
    · have hlt : k < files.length := by
        have := (List.getElem?_eq_some_iff.mp hk).1
        rw [List.length_append, List.length_singleton] at this
        omega
      have hkept : ((m.ialloc .file).2.inode (k + 2)).kind ≠ .free := hused _ ⟨by omega, by omega⟩
      rw [List.getElem?_append_left hlt] at hk
      have hkroot : k + 2 ≠ rootino := by simp only [rootino]; omega
      rw [hap'.others _ hlast (by rw [hap.good.inodes, hap.freeinode]; exact ⟨by omega, by simp only [ialloc]; omega⟩),
        hap.others _ hkroot hkept, ialloc_node hlast]
      exact h.file k g hk

theorem Built.addFiles {rest : List (Name × List Byte)} (h : Built m files) (ha : rest.foldlM Image.addFile m = some m')
    (hfit : m'.freeblock ≤ fssize) : Built m' (files ++ rest) := by
  induction rest generalizing m files with
  | nil =>
    cases ha
    rwa [List.append_nil]
  | cons f rest ih =>
    rw [List.foldlM_cons] at ha
    obtain ⟨m₁, hfirst, hrest⟩ := Option.bind_eq_some_iff.mp ha
    have hmono := foldlM_freeblock (fun _ _ _ h => addFile_freeblock h) hrest
    have := ih (h.addFile hfirst (hmono.trans hfit)) hrest
    rwa [List.append_assoc, List.singleton_append] at this

theorem build_built (h : build files = some m) (hfit : m.freeblock ≤ fssize) : Built m files := by
  simp only [build, bind, Option.bind_eq_some_iff] at h
  obtain ⟨m₁, h₁, m₂, h₂, h⟩ := h
  have hmono := foldlM_freeblock (fun _ _ _ h => addFile_freeblock h) h
  have hmono₂ := iappend_freeblock h₂
  have halloc : Good (empty.ialloc .dir).2 := ialloc_good good_empty (by decide) (Nat.le_refl _)
  have hroot : ((empty.ialloc .dir).2.inode rootino).kind ≠ .free :=
    (halloc.inodes _).mpr ⟨Nat.le_refl _, Nat.lt_succ_self _⟩
  have hap := iappend_appended halloc hroot dirent_ne_nil h₁ ((hmono₂.trans hmono).trans hfit)
  have hroot₁ : (m₁.inode rootino).kind ≠ .free := fun hfree => hroot (hap.kind.symm.trans hfree)
  have hboth := hap.trans (iappend_appended hap.good hroot₁ dirent_ne_nil h₂ (hmono.trans hfit))
  have hnew := ialloc_new empty .dir
  have hstart : Built m₂ [] := by
    refine ⟨hboth.good, hboth.freeinode, hboth.kind.trans hnew.1, ?_, fun k f hk => ?_⟩
    · have := hboth.holds [] hnew.2
      simpa [entries] using this
    · simp at hk
  exact hstart.addFiles h hfit

theorem length_dirent {inum : Nat} : (dirent inum name).length = direntSize := by simp [dirent]

theorem length_entries : (entries files).length = direntSize * (files.length + 2) := by
  have hall : ∀ k, ((files.zipIdx k).flatMap fun f => dirent f.2 f.1.1).length = direntSize * files.length := by
    intro k
    rw [List.length_flatMap]
    simp [length_dirent, Nat.mul_comm]
  rw [entries, List.length_append, List.length_append, length_dirent, length_dirent, hall]
  simp only [direntSize]
  omega

theorem refers_fixRoot : Refers m.fixRoot.disk m.fixRoot.inode i r b ↔ Refers m.disk m.inode i r b := by
  have h := refers_resize (d := m.disk) (X := m.inode) (i := rootino) (x := m.inode rootino) (a := i) (r := r) (b := b)
    (n := ((m.inode rootino).size / bsize + 1) * bsize)
  rwa [Function.update_eq_self] at h

theorem fixRoot_root : m.fixRoot.inode rootino =
    { m.inode rootino with size := ((m.inode rootino).size / bsize + 1) * bsize } := by
  unfold fixRoot
  dsimp only
  rw [Function.update_self]

theorem fixRoot_of_ne (hi : i ≠ rootino) : m.fixRoot.inode i = m.inode i := Function.update_of_ne hi ..

theorem fixRoot_kind : (m.fixRoot.inode i).kind = (m.inode i).kind := by
  by_cases hi : i = rootino
  · rw [hi, fixRoot_root]
  · rw [fixRoot_of_ne hi]

theorem disk_nmeta : m.disk.sb.nmeta = nmeta := by
  have h : mkfsSuperblock.nmeta = nmeta := by decide
  exact h

end Image

theorem balloc_bit {used : Nat} {buf : Block} (h : balloc used = some buf) (b : Nat) :
    bitmapBit buf b = decide (b < used) := by
  unfold balloc at h
  split at h
  · cases h
  obtain rfl := Option.some.inj h
  clear h
  induction used with
  | zero => simp [bitmapBit]
  | succ used ih =>
    rw [List.range_succ, List.foldl_append, List.foldl_cons, List.foldl_nil]
    have hih := ih (by omega)
    unfold bitmapBit at hih ⊢
    generalize (List.range used).foldl _ _ = buf at hih ⊢
    by_cases hbyte : b / 8 = used / 8
    · rw [hbyte, Function.update_self, BitVec.getLsbD_or, ← hbyte, hih]
      have hbit : (1#8 <<< (used % 8)).getLsbD (b % 8) = decide (b = used) := by
        rw [← BitVec.twoPow_eq, BitVec.getLsbD_twoPow, decide_eq_true (Nat.mod_lt _ (by decide)), Bool.true_and]
        exact decide_eq_decide.mpr ⟨fun h => by omega, fun h => by rw [h]⟩
      rw [hbit, ← Bool.decide_or]
      exact decide_eq_decide.mpr (by omega)
    · rw [Function.update_of_ne hbyte, hih]
      exact decide_eq_decide.mpr (by omega)

variable {inputs : List Input} {m : Image} {files : List (Name × List Byte)}

theorem mkfsMain_build (hslash : ∀ f ∈ inputs, 0x2F ∉ f.arg)
    (hbuild : Image.build (inputs.map fun f => (f.name, f.contents)) = some m) (hfit : m.freeblock ≤ fssize) :
    mkfsMain inputs = some m.fixRoot.disk := by
  have hused : balloc m.freeblock = some _ := if_neg (by simp only [fssize, bsize] at hfit ⊢; omega)
  unfold mkfsMain
  rw [if_neg (by simpa using hslash), hbuild, Option.bind_some, if_pos hfit, hused, Option.map_some]
  refine congrArg some ?_
  rw [show bitmapBit _ = m.fixRoot.disk.bitmap from funext fun b => balloc_bit hused b]

theorem mkfsMain_eq {d : Disk} (h : mkfsMain inputs = some d) :
    ∃ m, Image.build (inputs.map fun f => (f.name, f.contents)) = some m ∧ m.freeblock ≤ fssize ∧ d = m.fixRoot.disk := by
  have hd := h
  unfold mkfsMain at h
  split at h
  · cases h
  · rename_i hslash
    obtain ⟨m, hbuild, h⟩ := Option.bind_eq_some_iff.mp h
    split at h
    · rename_i hfit
      have hmain := mkfsMain_build (by simpa using hslash) hbuild hfit
      exact ⟨m, hbuild, hfit, Option.some.inj (hd.symm.trans hmain)⟩
    · cases h

/-! ### The images that are well formed -/

/-- An image with the inodes below `freeinode` and the blocks below `freeblock`. -/
structure WellFormed (d : Disk) (freeinode freeblock : Nat) : Prop where
  blocks : ∀ b, nmeta ≤ b → b < freeblock → b < fssize
  inodes : ∀ i, (d.inode i).kind ≠ .free ↔ 1 ≤ i ∧ i < freeinode
  region : ∀ i, 1 ≤ i → i < freeinode → i < ninodes ∧ inodestart ≤ iblock i ∧ iblock i < bmapstart
  allocated : ∀ i r b, Refers d d.inode i r b → nmeta ≤ b ∧ b < freeblock
  once : ∀ b, nmeta ≤ b → b < freeblock → ∃! x : Nat × Nat, Refers d d.inode x.1 x.2 b
  bitmap : ∀ b, d.bitmap b = true ↔ b < freeblock
  mapped : ∀ i bn, (d.inode i).kind ≠ .free → bn < ((d.inode i).size + bsize - 1) / bsize →
    ∃ b, Refers d d.inode i (refOf bn) b

theorem Image.Built.size_root (hb : m.Built files) :
    (m.inode rootino).size = direntSize * (files.length + 2) :=
  hb.root.size.trans Image.length_entries

theorem Image.size_fixRoot (m : Image) :
    (m.fixRoot.disk.inode rootino).size = ((m.inode rootino).size / bsize + 1) * bsize :=
  congrArg Dinode.size Image.fixRoot_root

theorem Image.Built.wellFormed (hb : m.Built files) (hfit : m.freeblock ≤ fssize)
    (hinodes : files.length + 2 ≤ ninodes) (hroot : (files.length + 2) % 32 ≠ 0) :
    WellFormed m.fixRoot.disk m.freeinode m.freeblock := by
  have hfree := hb.freeinode
  refine ⟨fun b _ hlt => hlt.trans_le hfit, fun i => ?_, fun i _ hlt => ?_, fun i r b hr => ?_, fun b hge hlt => ?_,
    fun b => ?_,
    fun i bn hi hbn => ?_⟩
  · rw [← hb.inodes i]
    exact not_congr (by rw [← Image.fixRoot_kind]; rfl)
  · have hi : i < ninodes := by omega
    refine ⟨hi, Nat.le_add_left _ _, ?_⟩
    simp only [iblock, bmapstart, inodestart, logsize, ninodes] at hi ⊢
    omega
  · have hr := Image.refers_fixRoot.mp hr
    have hge := (hb.own.taken hr).1
    rw [Image.disk_nmeta] at hge
    exact ⟨hge, Image.lt_freeblock hb.own hr⟩
  · rw [← Image.disk_nmeta] at hge
    obtain ⟨i, r, hr⟩ := hb.tight b (hlt.trans_le hfit) hge (decide_eq_true hlt)
    refine ⟨(i, r), Image.refers_fixRoot.mpr hr, ?_⟩
    rintro ⟨j, q⟩ hq
    obtain ⟨rfl, rfl⟩ := hb.own.once (Image.refers_fixRoot.mp hq) hr
    rfl
  · exact decide_eq_true_iff
  · have hkind : (m.inode i).kind ≠ .free := by
      rw [← Image.fixRoot_kind]
      exact hi
    have hin : bn * bsize < (m.inode i).size := by
      by_cases hrooti : i = rootino
      · -- The rounded size has one more block than the entries fill.
        subst hrooti
        rw [Image.size_fixRoot, hb.size_root] at hbn
        rw [hb.size_root]
        simp only [bsize, direntSize] at hbn ⊢
        omega
      · have hsame : m.fixRoot.disk.inode i = m.inode i := Function.update_of_ne hrooti ..
        rw [hsame] at hbn
        simp only [bsize] at hbn ⊢
        omega
    obtain ⟨b, hr⟩ := hb.dense i bn hkind hin
    exact ⟨b, Image.refers_fixRoot.mpr hr⟩

/-- The image is well formed if and only if the inode numbers suffice and the entries of the root directory do not end at
    the end of a block. -/
theorem mkfs_wellFormed {inputs : List Input} {d : Disk} (h : mkfsMain inputs = some d) :
    ∃ m, Image.build (inputs.map fun f => (f.name, f.contents)) = some m ∧ d = m.fixRoot.disk ∧
      (WellFormed d m.freeinode m.freeblock ↔ inputs.length + 2 ≤ ninodes ∧ (inputs.length + 2) % 32 ≠ 0) := by
  obtain ⟨m, hbuild, hfit, rfl⟩ := mkfsMain_eq h
  have hb := Image.build_built hbuild hfit
  have hfree := hb.freeinode
  have hsize := hb.size_root
  rw [List.length_map] at hfree hsize
  refine ⟨m, hbuild, rfl, fun hwell => ?_, fun hc => hb.wellFormed hfit (by rw [List.length_map]; exact hc.1)
    (by rw [List.length_map]; exact hc.2)⟩
  have hinodes : inputs.length + 2 ≤ ninodes := by
    have hlast := (hwell.region (inputs.length + 1) (by omega) (by omega)).1
    omega
  refine ⟨hinodes, fun hfull => ?_⟩
  -- The last block below the rounded size is not mapped.
  obtain ⟨b, hr⟩ :=
    hwell.mapped rootino ((inputs.length + 2) / 32) ((hwell.inodes _).mpr ⟨by decide, by simp only [rootino]; omega⟩)
    (by rw [Image.size_fixRoot, hsize]; simp only [bsize, direntSize]; omega)
  obtain ⟨-, -, href, h0⟩ := Image.refers_fixRoot.mp hr
  have hdirect : (inputs.length + 2) / 32 < ndirect := by
    simp only [ninodes, ndirect] at hinodes ⊢
    omega
  rw [refOf, if_pos hdirect, Dinode.ref, if_pos (by omega)] at href
  refine h0 (href.symm.trans (hb.behind rootino _ hdirect ?_))
  rw [hsize]
  simp only [bsize, direntSize]
  omega

def emptyInput : Input := ⟨[0x61], by decide, []⟩

/-- The entries of 30 files fill the block of the root directory, and the rounded size has a second one. -/
theorem second_block_unmapped : ∃ m, Image.build ((List.replicate 30 emptyInput).map fun f => (f.name, f.contents)) =
    some m ∧
    mkfsMain (List.replicate 30 emptyInput) = some m.fixRoot.disk ∧ (m.fixRoot.disk.inode rootino).size = 2 * bsize ∧
    ¬∃ b, Refers m.fixRoot.disk m.fixRoot.disk.inode rootino (refOf 1) b := by
  have hrun : ((Image.build ((List.replicate 30 emptyInput).map fun f => (f.name, f.contents))).any fun m =>
      decide (m.freeblock ≤ fssize ∧ (m.inode rootino).size = bsize ∧ (m.inode rootino).addrs 1 = 0)) =
        true := by decide +kernel
  obtain ⟨m, hbuild, hm⟩ := (Option.any_eq_true _ _).mp hrun
  obtain ⟨hfit, hsize, haddr⟩ := of_decide_eq_true hm
  refine ⟨m, hbuild, ?_, ?_, ?_⟩
  · exact mkfsMain_build (by decide) hbuild hfit
  · rw [Image.size_fixRoot, hsize]
    decide
  · rintro ⟨b, hr⟩
    obtain ⟨-, -, href, h0⟩ := Image.refers_fixRoot.mp hr
    exact h0 (href.symm.trans haddr)

theorem mkfs_wellFormed_one : ∃ d m, mkfsMain [⟨[0x5F, 0x61], by decide, [7]⟩] = some d ∧
    Image.build [([0x61], [7])] = some m ∧ d = m.fixRoot.disk ∧ WellFormed d m.freeinode m.freeblock := by
  have hrun : (mkfsMain [⟨[0x5F, 0x61], by decide, [7]⟩]).isSome = true := by decide +kernel
  obtain ⟨d, hd⟩ := Option.isSome_iff_exists.mp hrun
  obtain ⟨m, hbuild, heq, hwell⟩ := mkfs_wellFormed hd
  exact ⟨d, m, hd, hbuild, heq, hwell.mpr (by decide)⟩

end Xv6.Fs
