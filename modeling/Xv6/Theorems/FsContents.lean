import Xv6.Theorems.FsBlocks

/-! Inodes as what they hold. A node is an inode with its contents in place of its block numbers. Reading and the
    loops over directories depend on the node only and change no node; a write changes its own node only, and as
    one write. -/

namespace Xv6.Fs
open Lib

/-- An inode with its contents. -/
structure Node where
  kind : Kind
  major : BitVec 16
  minor : BitVec 16
  nlink : BitVec 16
  size : Nat
  content : Nat → Byte

def Dinode.node (x : Dinode) (block : Nat → Block) : Node :=
  ⟨x.kind, x.major, x.minor, x.nlink, x.size, x.content block⟩

namespace Node

def read (x : Node) (off n : Nat) : List Byte := (List.range n).map fun t => x.content (off + t)

def readi (x : Node) (off n : Nat) : Option (List Byte) :=
  if off > x.size ∨ off + n ≥ 2 ^ 32 then none else some (x.read off (if off + n > x.size then x.size - off else n))

def write (x : Node) (src : List Byte) (off : Nat) : Node :=
  { x with
    size := max x.size (off + src.length)
    content := fun pos => if off ≤ pos ∧ pos < off + src.length then src.getD (pos - off) 0 else x.content pos }

def readDirent (x : Node) (e : Panic) (off : Nat) : Except Panic (List Byte) :=
  match x.readi off direntSize with
  | some de => if de.length = direntSize then .ok de else .error e
  | none => .error e

def findDirent (x : Node) (e : Panic) (P : List Byte → Bool) : Nat → Nat → Except Panic (Nat × Option (List Byte))
  | 0, off => .ok (off, none)
  | c + 1, off =>
    if off < x.size then do
      let de ← x.readDirent e off
      if P de then .ok (off, some de) else x.findDirent e P c (off + direntSize)
    else .ok (off, none)

def findDirentFrom (x : Node) (e : Panic) (P : List Byte → Bool) (off : Nat) : Except Panic (Nat × Option (List Byte)) :=
  x.findDirent e P ((x.size + direntSize - 1) / direntSize) off

def dirlookup (x : Node) (name : Name) : Except Panic (Option (Nat × Nat)) :=
  if x.kind ≠ .dir then .error .dirlookupNotDir
  else do
    let (off, de) ← x.findDirentFrom .dirlinkRead (fun de => direntInum de ≠ 0 ∧ direntName de = name.take dirsiz) 0
    .ok (de.map fun de => (off, direntInum de))

def dirlinkScan (x : Node) : Except Panic Nat := do
  let (off, _) ← x.findDirentFrom .dirlinkRead (fun de => direntInum de = 0) 0
  .ok off

end Node

section
variable {d d' : Disk} {X X' : Nat → Dinode} {i a : Nat} {ip : Dinode} {e : Disk} {Y : Nat → Dinode}
  {bn pos c off n m : Nat} {x : Node} {src : List Byte}

/-! ### Reading -/

/-- Blocks may have been allocated, but all nodes are the same. -/
structure SameNodes (d : Disk) (X : Nat → Dinode) (d' : Disk) (X' : Nat → Dinode) : Prop extends Grows d X d' X' where
  node : ∀ j, (X j).kind ≠ .free → (X' j).node d'.block = (X j).node d.block

theorem SameNodes.refl (own : Own d X) : SameNodes d X d X := ⟨.refl own, fun _ _ => rfl⟩

theorem SameNodes.trans (h : SameNodes d X d' X') (h' : SameNodes d' X' e Y) :
    SameNodes d X e Y :=
  ⟨h.toGrows.trans h'.toGrows, fun j hj => (h'.node j (h.kind.symm ▸ hj)).trans (h.node j hj)⟩

theorem Grows.sameNodes (h : Grows d X d' X')
    (hc : ∀ j, (X j).kind ≠ .free → (X' j).content d'.block = (X j).content d.block) : SameNodes d X d' X' := by
  refine ⟨h, fun j hj => ?_⟩
  rw [Dinode.node, Dinode.node, hc j hj, h.same j]

theorem Own.bmap_node (own : Own d X) (hi : (X i).kind ≠ .free) (h : d.bmap (X i) bn = .ok (a, d', ip)) :
    SameNodes d X d' (Function.update X i ip) ∧ bn < maxfile ∧ Refers d' (Function.update X i ip) i (refOf bn) a := by
  obtain ⟨hg, hc, hbn, hr, -⟩ := own.bmap hi h
  exact ⟨hg.sameNodes hc, hbn, hr⟩

/-- What reading may do. Where no block is missing it does nothing. -/
structure Reads (d : Disk) (X : Nat → Dinode) (d' : Disk) (X' : Nat → Dinode) : Prop extends SameNodes d X d' X' where
  still : Dense d X → d' = d ∧ X' = X

theorem Reads.refl (own : Own d X) : Reads d X d X := ⟨.refl own, fun _ => ⟨rfl, rfl⟩⟩

theorem Reads.trans (h : Reads d X d' X') (h' : Reads d' X' e Y) : Reads d X e Y := by
  refine ⟨h.toSameNodes.trans h'.toSameNodes, fun hd => ?_⟩
  obtain ⟨rfl, rfl⟩ := h.still hd
  exact h'.still hd

theorem Own.bmap_reads (own : Own d X) (hi : (X i).kind ≠ .free) (h : d.bmap (X i) bn = .ok (a, d', ip))
    (hbn : bn * bsize < (X i).size) :
    Reads d X d' (Function.update X i ip) ∧ bn < maxfile ∧ Refers d' (Function.update X i ip) i (refOf bn) a := by
  obtain ⟨hs, hmax, hr⟩ := own.bmap_node hi h
  refine ⟨⟨hs, fun hd => ?_⟩, hmax, hr⟩
  obtain ⟨b, hb⟩ := hd i bn hi hbn
  rw [bmap_of_refers hb hmax] at h
  cases h
  exact ⟨rfl, Function.update_eq_self ..⟩

theorem content_of_refers (h : Refers d X i (refOf (pos / bsize)) a) (hpos : pos / bsize < maxfile) :
    (X i).content d.block pos = d.block a (pos % bsize) := by
  obtain ⟨-, -, rfl, h0⟩ := h
  rw [Dinode.content, if_pos ⟨hpos, h0⟩]

theorem add_within_block (off : Nat) {t : Nat} (h : t < bsize - off % bsize) :
    (off + t) / bsize = off / bsize ∧ (off + t) % bsize = off % bsize + t := by
  simp only [bsize] at h ⊢
  omega

theorem readiLoop_node {bytes : List Byte} (own : Own d X) (hi : (X i).kind ≠ .free)
    (h : Disk.readiLoop c d (X i) off n = .ok (bytes, d', ip)) (hc : n = 0 ∨ rounds off n ≤ c)
    (hn : off + n ≤ (X i).size) :
    Reads d X d' (Function.update X i ip) ∧ bytes = ((X i).node d.block).read off n := by
  induction c generalizing d X off n bytes d' with
  | zero =>
    have h0 : n = 0 := by
      simp only [rounds, bsize] at hc
      omega
    cases h
    subst h0
    rw [Function.update_eq_self]
    exact ⟨.refl own, rfl⟩
  | succ c ih =>
    rw [Disk.readiLoop] at h
    split at h
    · rename_i h0
      cases h
      subst h0
      rw [Function.update_eq_self]
      exact ⟨.refl own, rfl⟩
    · rename_i h0
      obtain ⟨⟨bp, d1, ip1⟩, hb, h⟩ := bind_eq_ok.mp h
      obtain ⟨⟨rest, d2, ip2⟩, hrest, h⟩ := bind_eq_ok.mp h
      cases h
      obtain ⟨hs, hmax, hr⟩ := own.bmap_reads hi hb (by simp only [bsize]; omega)
      have hself : Function.update X i ip1 i = ip1 := Function.update_self ..
      have hi1 : (Function.update X i ip1 i).kind ≠ .free := hs.kind.symm ▸ hi
      obtain ⟨hs', hbytes⟩ := ih hs.own hi1 (hself.symm ▸ hrest) (by
        simp only [rounds, bsize] at hc ⊢
        omega) (by rw [hs.size]; omega)
      rw [Function.update_idem] at hs'
      refine ⟨hs.trans hs', ?_⟩
      rw [hbytes, hs.node i hi]
      -- The bytes of the first round are the contents up to the end of the block.
      have hfirst : (List.range (min n (bsize - off % bsize))).map (fun x => d1.block bp (off % bsize + x)) =
          ((X i).node d.block).read off (min n (bsize - off % bsize)) := by
        refine List.map_congr_left fun t ht => ?_
        have ht := List.mem_range.mp ht
        obtain ⟨hdiv, hmod⟩ := add_within_block off (t := t) (by omega)
        rw [← hs.node i hi]
        exact ((content_of_refers (hdiv ▸ hr) (hdiv ▸ hmax)).trans (by rw [hmod])).symm
      rw [hfirst]
      simp only [Node.read]
      conv_rhs => rw [show n = min n (bsize - off % bsize) + (n - min n (bsize - off % bsize)) by omega, List.range_add,
        List.map_append, List.map_map]
      congr 1
      refine List.map_congr_left fun t _ => ?_
      rw [Function.comp_apply, Nat.add_assoc]

theorem readi_node {r : Option (List Byte)} (own : Own d X) (hi : (X i).kind ≠ .free)
    (h : d.readi (X i) off n = .ok (r, d', ip)) :
    Reads d X d' (Function.update X i ip) ∧ r = ((X i).node d.block).readi off n := by
  unfold Disk.readi at h
  split at h
  · rename_i hout
    cases h
    rw [Function.update_eq_self]
    exact ⟨.refl own, (if_pos hout).symm⟩
  · rename_i hout
    obtain ⟨⟨bytes, d1, ip1⟩, hb, h⟩ := bind_eq_ok.mp h
    cases h
    obtain ⟨hs, rfl⟩ := readiLoop_node own hi hb (.inr (Nat.le_refl _)) (by split <;> omega)
    exact ⟨hs, (if_neg hout).symm⟩

/-! ### Writing -/

theorem Own.ref_write {j : Nat} (own : Own d X) (data : Block) (hr : Refers d X i (refOf bn) a) (hj : (X j).kind ≠ .free)
    (q : Nat) : (X j).ref (Function.update d.block a data) q = (X j).ref d.block q := by
  refine ref_congr fun h0 => Function.update_of_ne ?_ _ _
  rintro rfl
  exact refOf_ne (own.once hr (refers_ndirect hj h0)).2

theorem Own.write_block (own : Own d X) (data : Block) (hr : Refers d X i (refOf bn) a) :
    Grows d X { d with block := Function.update d.block a data } X ∧
      (∀ j, (X j).kind ≠ .free → j ≠ i →
        (X j).content (Function.update d.block a data) = (X j).content d.block) ∧
      ∀ pos, (X i).content (Function.update d.block a data) pos =
        if pos / bsize = bn ∧ bn < maxfile then data (pos % bsize) else (X i).content d.block pos := by
  have href : ∀ j q, (X j).kind ≠ .free → (X j).ref (Function.update d.block a data) q = (X j).ref d.block q :=
    fun j q hj => own.ref_write data hr hj q
  have hrefers : ∀ j q b, Refers { d with block := Function.update d.block a data } X j q b ↔ Refers d X j q b := by
    intro j q b
    exact and_congr_right fun hj => by rw [href j q hj]
  refine ⟨⟨rfl, rfl, ⟨own.pos, own.reserved, fun h => own.taken ((hrefers _ _ _).mp h),
    fun h h' => own.once ((hrefers _ _ _).mp h) ((hrefers _ _ _).mp h')⟩, fun _ => rfl, (hrefers _ _ _).mpr,
    fun ht b hb hn hset => (ht b hb hn hset).imp fun j => Exists.imp fun q => (hrefers j q b).mpr⟩, ?_, ?_⟩
  · intro j hj hji
    refine content_eq { d with block := Function.update d.block a data } X
      (fun c _ hne => absurd (href j _ hj) hne) fun c hc h0 => Function.update_of_ne (fun heq => hji ?_) _ _
    exact (own.once ⟨hj, refOf_lt hc, heq, heq ▸ h0⟩ hr).1
  · intro pos
    simp only [Dinode.content, href i _ hr.1]
    by_cases hbn : pos / bsize = bn
    · subst hbn
      have ha := hr.2.2.1
      by_cases hmax : pos / bsize < maxfile
      · rw [if_pos ⟨hmax, ha ▸ hr.2.2.2⟩, if_pos ⟨rfl, hmax⟩, ha, Function.update_self]
      · rw [if_neg (fun h => hmax h.1), if_neg (fun h => hmax h.2), if_neg (fun h => hmax h.1)]
    · rw [if_neg (c := _ ∧ bn < maxfile) (fun h => hbn h.1)]
      split
      · rename_i h
        rw [Function.update_of_ne]
        intro heq
        exact hbn (refOf_inj (own.once ⟨hr.1, refOf_lt h.1, heq, heq ▸ h.2⟩ hr).2)
      · rfl

theorem write_split (hm : m = min src.length (bsize - off % bsize)) :
    (x.write src off).content pos =
      if off + m ≤ pos ∧ pos < off + src.length then (src.drop m).getD (pos - (off + m)) 0
      else if pos / bsize = off / bsize then
        if off % bsize ≤ pos % bsize ∧ pos % bsize < off % bsize + m then src.getD (pos % bsize - off % bsize) 0
        else x.content pos
      else x.content pos := by
  simp only [Node.write]
  by_cases h1 : off + m ≤ pos ∧ pos < off + src.length
  · rw [if_pos h1, if_pos (by omega), List.getD_eq_getElem?_getD, List.getD_eq_getElem?_getD, List.getElem?_drop]
    congr 2
    omega
  · rw [if_neg h1]
    by_cases h2 : off ≤ pos ∧ pos < off + src.length
    · have hlt : pos < off + m := by omega
      obtain ⟨hdiv, hmod⟩ := add_within_block off (t := pos - off) (by omega)
      rw [show off + (pos - off) = pos by omega] at hdiv hmod
      rw [if_pos h2, if_pos hdiv, if_pos (by omega)]
      congr 1
      omega
    · rw [if_neg h2]
      split
      · rename_i hdiv
        rw [if_neg]
        simp only [bsize] at hdiv hm ⊢
        omega
      · rfl

theorem write_nil (x : Node) (off : Nat) : (x.write [] off).content = x.content := by
  funext pos
  exact if_neg (by simp only [List.length_nil]; omega)

theorem write_round {y : Node} (hm : m = min src.length (bsize - off % bsize))
    (hy : ∀ pos, y.content pos =
      if pos / bsize = off / bsize then
        if off % bsize ≤ pos % bsize ∧ pos % bsize < off % bsize + m then src.getD (pos % bsize - off % bsize) 0
          else x.content pos
      else x.content pos) :
    (y.write (src.drop m) (off + m)).content = (x.write src off).content := by
  funext pos
  refine Eq.trans ?_ (write_split hm).symm
  have hdrop : (src.drop m).length = src.length - m := List.length_drop
  simp only [Node.write]
  rw [hdrop]
  by_cases h1 : off + m ≤ pos ∧ pos < off + src.length
  · rw [if_pos h1, if_pos (by omega)]
  · rw [if_neg h1, if_neg (by omega)]
    exact hy pos

theorem block_of_rest (hm : m = min n (bsize - off % bsize)) (hbn : off / bsize ≤ bn) (hlt : bn * bsize < off + n)
    (hne : bn ≠ off / bsize) : (off + m) / bsize ≤ bn ∧ bn * bsize < off + m + (n - m) ∧ n - m ≠ 0 := by
  simp only [bsize] at *
  omega

theorem eq_nil_of_rounds (hc : src = [] ∨ rounds off src.length ≤ 0) : src = [] := by
  rcases hc with hc | hc
  · exact hc
  · rw [← List.length_eq_zero_iff]
    simp only [rounds, bsize] at hc
    omega

theorem rounds_rest (hm : m = min n (bsize - off % bsize)) (hn : 0 < n) (hc : rounds off n ≤ c + 1) :
    n - m = 0 ∨ rounds (off + m) (n - m) ≤ c := by
  simp only [rounds, bsize] at *
  omega

/-- The loop of `writei` has written `src` to inode `i`, from `off` on. -/
structure LoopWrote (d : Disk) (X : Nat → Dinode) (i : Nat) (src : List Byte) (off : Nat) (d' : Disk) (ip : Dinode) :
    Prop where
  grows : Grows d X d' (Function.update X i ip)
  others : ∀ j, (X j).kind ≠ .free → j ≠ i → (X j).content d'.block = (X j).content d.block
  content : ip.content d'.block = (((X i).node d.block).write src off).content
  mapped : ∀ bn, off / bsize ≤ bn → bn * bsize < off + src.length → src ≠ [] →
    ∃ a, Refers d' (Function.update X i ip) i (refOf bn) a

theorem LoopWrote.nil (own : Own d X) (off : Nat) : LoopWrote d X i [] off d (X i) where
  grows := by
    rw [Function.update_eq_self]
    exact .refl own
  others := fun _ _ _ => rfl
  content := (write_nil ((X i).node d.block) off).symm
  mapped := fun _ _ _ h => absurd rfl h

theorem writeiLoop_node (own : Own d X) (hi : (X i).kind ≠ .free)
    (h : Disk.writeiLoop c d (X i) src off = .ok (d', ip)) (hc : src = [] ∨ rounds off src.length ≤ c) :
    LoopWrote d X i src off d' ip := by
  induction c generalizing d X off src d' with
  | zero =>
    cases h
    obtain rfl := eq_nil_of_rounds hc
    exact .nil own off
  | succ c ih =>
    rw [Disk.writeiLoop] at h
    split at h
    · rename_i h0
      cases h
      subst h0
      exact .nil own off
    · rename_i hne
      obtain ⟨⟨bp, d1, ip1⟩, hb, h⟩ := bind_eq_ok.mp h
      dsimp only at h
      obtain ⟨hs, hmax, hr⟩ := own.bmap_node hi hb
      have hself : Function.update X i ip1 i = ip1 := Function.update_self ..
      have hi1 : (Function.update X i ip1 i).kind ≠ .free := hs.kind.symm ▸ hi
      have hlen : 0 < src.length := List.length_pos_iff.mpr hne
      generalize hm : min src.length (bsize - off % bsize) = m at h
      generalize hdata :
        (fun x => if off % bsize ≤ x ∧ x < off % bsize + m then src.getD (x - off % bsize) 0 else d1.block bp x) = data at h
      obtain ⟨hg, hother, hcont⟩ := hs.own.write_block data hr
      have hdrop : (src.drop m).length = src.length - m := List.length_drop
      obtain ⟨hg', hother', hcont', hmap⟩ := ih hg.own hi1 (hself.symm ▸ h) (by
        rw [← List.length_eq_zero_iff, hdrop]
        exact rounds_rest hm.symm hlen (hc.resolve_left hne))
      rw [Function.update_idem] at hg' hmap
      refine ⟨hs.toGrows.trans (hg.trans hg'), fun j hj hji => ?_, ?_, fun bn hbn hlt _ => ?_⟩
      · have hX : Function.update X i ip1 j = X j := Function.update_of_ne hji _ _
        have h1 := hother' j (hX.symm ▸ hj) hji
        have h2 := hother j (hX.symm ▸ hj) hji
        have h3 := congrArg Node.content (hs.node j hj)
        rw [hX] at h1 h2 h3
        exact h1.trans (h2.trans h3)
      · have hnode := congrArg Node.content (hs.node i hi)
        rw [hcont']
        refine write_round hm.symm fun pos => (hcont pos).trans ?_
        by_cases h2 : pos / bsize = off / bsize
        · rw [if_pos ⟨h2, hmax⟩, if_pos h2, ← hdata]
          dsimp only
          split
          · rfl
          · rw [← hnode]
            exact (content_of_refers (h2 ▸ hr) (h2 ▸ hmax)).symm
        · rw [if_neg (fun h => h2 h.1), if_neg h2]
          exact congrFun hnode pos
      · by_cases h1 : bn = off / bsize
        · exact ⟨bp, hg'.refers (hg.refers (h1 ▸ hr))⟩
        · obtain ⟨hlo, hhi, hrest⟩ := block_of_rest hm.symm hbn hlt h1
          refine hmap bn hlo (by rwa [hdrop]) fun h2 => hrest ?_
          rw [← hdrop, h2, List.length_nil]

theorem writeiLoop_still (own : Own d X) (hi : (X i).kind ≠ .free)
    (h : Disk.writeiLoop c d (X i) src off = .ok (d', ip)) (hd : Dense d X) (hoff : off + src.length ≤ (X i).size) :
    ip = X i := by
  induction c generalizing d off src d' with
  | zero =>
    cases h
    rfl
  | succ c ih =>
    rw [Disk.writeiLoop] at h
    split at h
    · cases h
      rfl
    · rename_i hne
      have hlen : 0 < src.length := List.length_pos_iff.mpr hne
      obtain ⟨⟨bp, d1, ip1⟩, hb, hloop⟩ := bind_eq_ok.mp h
      dsimp only at hloop
      obtain ⟨hs, -, hr⟩ := own.bmap_reads hi hb (by simp only [bsize]; omega)
      obtain ⟨hd1, hX⟩ := hs.still hd
      have hip : ip1 = X i := by rw [← hX, Function.update_self]
      rw [hX, hd1] at hr
      rw [hip, hd1] at hloop
      obtain ⟨hg, -, -⟩ := own.write_block _ hr
      exact ih hg.own hloop (hg.dense hd) (by rw [List.length_drop]; omega)

/-- What a write of `src` at `off` of inode `i` does. -/
structure Wrote (d : Disk) (X : Nat → Dinode) (i : Nat) (src : List Byte) (off : Nat) (d' : Disk) (ip : Dinode) : Prop where
  sb : d'.sb = d.sb
  inode : d'.inode = if (X i).size < off + src.length then Function.update d.inode i ip else d.inode
  own : Own d' (Function.update X i ip)
  same : ip = { X i with addrs := ip.addrs, size := max (X i).size (off + src.length) }
  others : ∀ j, (X j).kind ≠ .free → j ≠ i → (X j).node d'.block = (X j).node d.block
  node : ip.node d'.block = ((X i).node d.block).write src off
  tight : Tight d X → Tight d' (Function.update X i ip)
  refers : ∀ {j r a}, Refers d X j r a → Refers d' (Function.update X i ip) j r a
  mapped : ∀ bn, off / bsize ≤ bn → bn * bsize < off + src.length → src ≠ [] →
    ∃ a, Refers d' (Function.update X i ip) i (refOf bn) a
  still : Dense d X → off + src.length ≤ (X i).size → ip = X i

theorem refers_resize {r b : Nat} {x : Dinode} :
    Refers d (Function.update X i { x with size := n }) a r b ↔ Refers d (Function.update X i x) a r b := by
  unfold Refers
  rcases eq_or_ne a i with rfl | hne
  · simp only [Function.update_self]
    rfl
  · simp only [Function.update_of_ne hne]

theorem own_of_refers (own : Own d X) (hsb : d'.sb = d.sb) (hbit : d'.bitmap = d.bitmap)
    (hr : ∀ {j r b}, Refers d' X' j r b → Refers d X j r b) : Own d' X' where
  pos := hsb ▸ own.pos
  reserved := by
    rw [hsb, hbit]
    exact own.reserved
  taken h := by
    rw [hsb, hbit]
    exact own.taken (hr h)
  once h h' := own.once (hr h) (hr h')

theorem writei_wrote {r : Option Nat} (own : Own d X) (hi : (X i).kind ≠ .free)
    (h : d.writei i (X i) src off = .ok (r, d', ip)) :
    r = none ∧ d' = d ∧ ip = X i ∨ r = some src.length ∧ off ≤ (X i).size ∧ Wrote d X i src off d' ip := by
  unfold Disk.writei at h
  dsimp only at h
  split at h
  · cases h
    exact .inl ⟨rfl, rfl, rfl⟩
  · rename_i hoff
    split at h
    · cases h
      exact .inl ⟨rfl, rfl, rfl⟩
    · obtain ⟨⟨d1, ip1⟩, hb, h⟩ := bind_eq_ok.mp h
      obtain ⟨hg, hother, hcont, hmap⟩ := writeiLoop_node own hi hb (.inr (Nat.le_refl _))
      have hstill := writeiLoop_still own hi hb
      have hself : Function.update X i ip1 i = ip1 := Function.update_self ..
      have hsame := hg.same i
      have hsize : ip1.size = (X i).size := by
        have := hg.size (j := i)
        rwa [hself] at this
      rw [hself] at hsame
      have hothers : ∀ j, (X j).kind ≠ .free → j ≠ i → (X j).node d1.block = (X j).node d.block := fun j hj hji => by
        rw [Dinode.node, Dinode.node, hother j hj hji]
      have hnode (n : Nat) (hn : n = max (X i).size (off + src.length)) :
          Dinode.node { ip1 with size := n } d1.block = ((X i).node d.block).write src off := by
        rw [Dinode.node, Node.mk.injEq]
        refine ⟨?_, ?_, ?_, ?_, hn, hcont⟩ <;> rw [hsame] <;> rfl
      dsimp only at h
      refine .inr ?_
      split at h
      · rename_i hgrow
        cases h
        have hbig : (X i).size < off + src.length := hsize ▸ hgrow.2
        refine ⟨rfl, by omega, hg.sb, ?_, ?_, ?_, hothers, ?_, ?_, ?_, ?_, ?_⟩
        · rw [if_pos hbig, ← hg.inode]
          rfl
        · exact own_of_refers hg.own rfl rfl fun h => refers_resize.mp h
        · conv_lhs => rw [hsame]
          rw [Nat.max_eq_right (Nat.le_of_lt hbig)]
        · exact hnode _ (Nat.max_eq_right (Nat.le_of_lt hbig)).symm
        · intro ht b hb hn hset
          obtain ⟨j, q, hR⟩ := hg.tight ht b hb hn hset
          exact ⟨j, q, refers_resize.mpr hR⟩
        · exact fun hR => refers_resize.mpr (hg.refers hR)
        · intro bn h1 h2 h3
          obtain ⟨a, hR⟩ := hmap bn h1 h2 h3
          exact ⟨a, refers_resize.mpr hR⟩
        · intro _ hle
          omega
      · rename_i hgrow
        cases h
        have hsmall : off + src.length ≤ (X i).size := by
          rw [hsize] at hgrow
          omega
        refine ⟨rfl, by omega, hg.sb, ?_, hg.own, ?_, hothers, ?_, hg.tight, hg.refers, hmap, hstill⟩
        · rw [if_neg (by omega), hg.inode]
        · rw [Nat.max_eq_left hsmall]
          exact hsame
        · exact hnode _ (hsize.trans (Nat.max_eq_left hsmall).symm)

theorem Wrote.kind (h : Wrote d X i src off d' ip) : ip.kind = (X i).kind := by
  rw [h.same]

theorem Wrote.dense (h : Wrote d X i src off d' ip) (hoff : off ≤ (X i).size)
    (hd : Dense d X) : Dense d' (Function.update X i ip) := by
  intro j bn hj hbn
  rcases eq_or_ne j i with rfl | hji
  · rw [Function.update_self] at hj hbn
    rw [h.kind] at hj
    rw [h.same] at hbn
    simp only at hbn
    by_cases hold : bn * bsize < (X j).size
    · obtain ⟨a, ha⟩ := hd j bn hj hold
      exact ⟨a, h.refers ha⟩
    · refine h.mapped bn ?_ (by omega) ?_
      · simp only [bsize] at hold ⊢
        omega
      · rintro rfl
        simp only [List.length_nil] at hbn
        omega
  · rw [Function.update_of_ne hji] at hj hbn
    obtain ⟨a, ha⟩ := hd j bn hj hbn
    exact ⟨a, h.refers ha⟩

/-! ### itrunc -/

theorem itrunc_node {inum : Nat} (own : Own d X) (hi : (X inum).kind ≠ .free) :
    ∃ d', d.itrunc inum (X inum) = .ok (d', (X inum).emptied) ∧ d'.sb = d.sb ∧ d'.block = d.block ∧
      d'.inode = Function.update d.inode inum (X inum).emptied ∧ Own d' (Function.update X inum (X inum).emptied) ∧
      (Tight d X → Tight d' (Function.update X inum (X inum).emptied)) := by
  obtain ⟨bitmap, h, hbit⟩ := own.itrunc hi
  refine ⟨_, h, rfl, rfl, rfl, ?_, ?_⟩
  all_goals
    have hback : ∀ {j r b}, Refers { d with bitmap, inode := Function.update d.inode inum (X inum).emptied }
        (Function.update X inum (X inum).emptied) j r b → j ≠ inum ∧ Refers d X j r b := by
      rintro j r b ⟨hk, hr, hb, h0⟩
      rcases eq_or_ne j inum with rfl | hji
      · rw [Function.update_self, emptied_ref] at hb
        exact absurd hb.symm h0
      · rw [Function.update_of_ne hji] at hk hb
        exact ⟨hji, hk, hr, hb, h0⟩
  · refine ⟨own.pos, fun b hb => ?_, fun hR => ?_, fun hR hR' => own.once (hback hR).2 (hback hR').2⟩
    · refine (hbit b).mpr ⟨own.reserved b hb, fun r hR => ?_⟩
      exact Nat.not_lt.mpr (own.taken hR).1 hb
    · obtain ⟨hne, hR⟩ := hback hR
      obtain ⟨h1, h2, h3⟩ := own.taken hR
      exact ⟨h1, h2, (hbit _).mpr ⟨h3, fun r hR' => hne (own.once hR hR').1⟩⟩
  · intro ht b hb hn hset
    obtain ⟨hset, hfree⟩ := (hbit b).mp hset
    obtain ⟨j, r, hR⟩ := ht b hb hn hset
    have hji : j ≠ inum := by
      rintro rfl
      exact hfree r hR
    refine ⟨j, r, ?_⟩
    unfold Refers
    rw [Function.update_of_ne hji]
    exact hR

end

end Xv6.Fs
