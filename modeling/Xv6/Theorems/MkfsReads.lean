import Xv6.Theorems.MkfsImage

/-! What the kernel reads from the image of `mkfs`: `readi` gives the bytes of each file, and `dirlookup` in the root
    directory finds each file. -/

namespace Xv6.Fs
open Lib

/-! ### Reading where all blocks are mapped -/

section Mapped
variable {d : Disk} {X : Nat → Dinode} {i : Nat}

theorem lt_maxfile {bn a : Nat} (h : Refers d X i (refOf bn) a) : bn < maxfile := by
  have hr := h.2.1
  simp only [refOf, nrefs, maxfile] at hr ⊢
  split at hr <;> omega

theorem readiLoop_mapped (c off n : Nat) (hm : ∀ bn, bn * bsize < off + n → ∃ a, Refers d X i (refOf bn) a) :
    ∃ bytes, Disk.readiLoop c d (X i) off n = .ok (bytes, d, X i) := by
  induction c generalizing off n with
  | zero => exact ⟨[], rfl⟩
  | succ c ih =>
    unfold Disk.readiLoop
    by_cases h0 : n = 0
    · rw [if_pos h0]
      exact ⟨[], rfl⟩
    · obtain ⟨a, ha⟩ := hm (off / bsize) (by simp only [bsize]; omega)
      obtain ⟨rest, hrest⟩ := ih (off + min n (bsize - off % bsize)) (n - min n (bsize - off % bsize))
        fun bn hbn => hm bn (by omega)
      rw [if_neg h0, bmap_of_refers ha (lt_maxfile ha)]
      simp only [bind, Except.bind, hrest]
      exact ⟨_, rfl⟩

theorem readi_mapped (own : Own d X) (hi : (X i).kind ≠ .free) (off n : Nat)
    (hm : ∀ bn, bn * bsize < off + n → bn * bsize < (X i).size → ∃ a, Refers d X i (refOf bn) a) :
    d.readi (X i) off n = .ok (((X i).node d.block).readi off n, d, X i) := by
  have hok : ∃ r, d.readi (X i) off n = .ok (r, d, X i) := by
    unfold Disk.readi
    by_cases hbad : off > (X i).size ∨ off + n ≥ 2 ^ 32
    · rw [if_pos hbad]
      exact ⟨none, rfl⟩
    · rw [if_neg hbad]
      dsimp only
      have hend : off + (if off + n > (X i).size then (X i).size - off else n) ≤ min (off + n) (X i).size := by
        split <;> omega
      generalize (if off + n > (X i).size then (X i).size - off else n) = len at hend ⊢
      obtain ⟨bytes, hbytes⟩ := readiLoop_mapped (rounds off len) off len fun bn hbn => hm bn (by omega) (by omega)
      rw [hbytes]
      exact ⟨some bytes, rfl⟩
  obtain ⟨r, hr⟩ := hok
  rw [hr, (readi_node own hi hr).2]

end Mapped

/-! ### A node that holds bytes -/

variable {x : Node} {bytes : List Byte} {off n inum k : Nat} {name : Name}

theorem Node.Holds.read (h : x.Holds bytes) (hn : off + n ≤ bytes.length) :
    x.read off n = (bytes.drop off).take n := by
  apply List.ext_getElem
  · simp only [Node.read, List.length_map, List.length_range, List.length_take, List.length_drop]
    omega
  · intro t ht ht'
    simp only [Node.read, List.length_map, List.length_range] at ht
    have hlt : off + t < bytes.length := by omega
    simp only [Node.read, List.getElem_map, List.getElem_range, List.getElem_take, List.getElem_drop]
    rw [h.content _ hlt, List.getD_eq_getElem _ _ hlt]

theorem Node.Holds.readi (h : x.Holds bytes) :
    x.readi off n = if off > bytes.length ∨ off + n ≥ 2 ^ 32 then none else some ((bytes.drop off).take n) := by
  unfold Node.readi
  rw [h.size]
  by_cases hbad : off > bytes.length ∨ off + n ≥ 2 ^ 32
  · rw [if_pos hbad, if_pos hbad]
  · rw [if_neg hbad, if_neg hbad]
    congr 1
    split
    · rename_i hover
      rw [h.read (by omega), List.take_of_length_le (i := n) (by rw [List.length_drop]; omega),
        List.take_of_length_le (by rw [List.length_drop])]
    · exact h.read (by omega)

/-! ### Directory entries -/

theorem direntInum_dirent (h : inum < 65536) : direntInum (dirent inum name) = inum := by
  simp only [direntInum, dirent, List.cons_append, List.nil_append, List.getD_cons_zero, List.getD_cons_succ,
    BitVec.toNat_ofNat]
  omega

theorem direntName_dirent (h : 0 ∉ name) : direntName (dirent inum name) = name.take dirsiz := by
  have hpad : ((List.range dirsiz).map fun x => (name.take dirsiz).getD x 0) =
      name.take dirsiz ++ List.replicate (dirsiz - (name.take dirsiz).length) 0 := by
    have hlen : (name.take dirsiz).length ≤ dirsiz := by rw [List.length_take]; omega
    apply List.ext_getElem
    · simp only [List.length_map, List.length_range, List.length_append, List.length_replicate]
      omega
    · intro t ht ht'
      simp only [List.getElem_map, List.getElem_range]
      by_cases hin : t < (name.take dirsiz).length
      · rw [List.getElem_append_left hin, List.getD_eq_getElem _ _ hin]
      · rw [List.getElem_append_right (by omega), List.getElem_replicate, List.getD_eq_default _ _ (by omega)]
  have hne : ∀ c ∈ name.take dirsiz, (decide (c ≠ 0)) = true := by
    intro c hc
    exact decide_eq_true fun h0 => h (h0 ▸ List.mem_of_mem_take hc)
  have hzero : (List.replicate (dirsiz - (name.take dirsiz).length) (0 : Byte)).takeWhile (· ≠ 0) = [] := by
    cases dirsiz - (name.take dirsiz).length with
    | zero => rfl
    | succ => simp [List.replicate_succ]
  unfold direntName dirent
  rw [List.drop_append_of_le_length (by simp), List.drop_of_length_le (by simp), List.nil_append,
    List.take_of_length_le (by simp), hpad, List.takeWhile_append_of_pos hne, hzero, List.append_nil]

theorem take_drop_flatMap {α β : Type} {f : α → List β} {l : List α} {a : α} (hf : ∀ a, (f a).length = n)
    (h : l[k]? = some a) : ((l.flatMap f).drop (n * k)).take n = f a := by
  induction l generalizing k with
  | nil => cases h
  | cons b l ih =>
    rw [List.flatMap_cons]
    cases k with
    | zero =>
      obtain rfl : b = a := by simpa using h
      rw [Nat.mul_zero, List.drop_zero, List.take_append_of_le_length (Nat.le_of_eq (hf b).symm),
        List.take_of_length_le (Nat.le_of_eq (hf b))]
    | succ k =>
      have hlen : n * (k + 1) = (f b).length + n * k := by rw [hf, Nat.mul_succ, Nat.add_comm]
      rw [hlen, List.drop_append, List.drop_of_length_le (Nat.le_add_right _ _), List.nil_append, Nat.add_sub_cancel_left]
      exact ih (by simpa using h)

theorem findDirent_first {d : Disk} {ip : Dinode} {e : Panic} {P : List Byte → Bool} {de : Nat → List Byte}
    (hread : ∀ j ≤ k, d.readDirent e ip (direntSize * j) = .ok (de j, d, ip)) (hsize : direntSize * k < ip.size)
    (hk : P (de k) = true) (hj : ∀ j < k, P (de j) = false) (c j : Nat) (hle : j ≤ k) (hc : k - j < c) :
    Disk.findDirent e P c d ip (direntSize * j) = .ok ((direntSize * k, some (de k)), d, ip) := by
  induction c generalizing j with
  | zero => omega
  | succ c ih =>
    unfold Disk.findDirent
    rw [if_pos (by simp only [direntSize] at hsize ⊢; omega), hread j hle]
    simp only [bind, Except.bind]
    rcases Nat.lt_or_eq_of_le hle with hlt | rfl
    · rw [if_neg (by simp [hj j hlt])]
      exact ih (j + 1) hlt (by omega)
    · rw [if_pos hk]

/-! ### The files fit -/

namespace Image
variable {m m' : Image} {inum c : Nat} {p : List Byte} {files : List (Name × List Byte)} {k : Nat} {f : Name × List Byte}
  {e : Nat × Name}

theorem iappend_sizes (h : m.iappend inum p = some m') : m'.freeinode = m.freeinode ∧
    (m'.inode inum).size = (m.inode inum).size + p.length ∧ ∀ i, i ≠ inum → m'.inode i = m.inode i := by
  obtain ⟨⟨m₁, din₁⟩, hloop, rfl⟩ := Option.map_eq_some_iff.mp h
  obtain ⟨hext, hsize⟩ := iappendLoop_extends hloop
  refine ⟨hext.freeinode, ?_, fun i hi => ?_⟩
  · dsimp only
    rw [Function.update_self, ← hsize]
  · dsimp only
    rw [Function.update_of_ne hi, hext.inode]

theorem iappend_some (m : Image) (inum : Nat) (p : List Byte) (hfits : (m.inode inum).size + p.length ≤ maxfile * bsize) :
    ∃ m', m.iappend inum p = some m' := by
  have hloop : ∃ r, iappendLoop (rounds (m.inode inum).size p.length) m (m.inode inum) p (m.inode inum).size = some r :=
    iappendLoop_some hfits
  obtain ⟨r, hr⟩ := hloop
  exact ⟨_, Option.map_eq_some_iff.mpr ⟨r, hr, rfl⟩⟩

theorem pieces_some (m : Image) (inum : Nat) (p : List Byte) (hc : p.length ≤ c)
    (hfits : (m.inode inum).size + p.length ≤ maxfile * bsize) :
    ∃ m', (pieces c p).foldlM (fun m p => m.iappend inum p) m = some m' ∧ m'.freeinode = m.freeinode ∧
      ∀ i, i ≠ inum → m'.inode i = m.inode i := by
  induction c generalizing m p with
  | zero => exact ⟨m, rfl, rfl, fun _ _ => rfl⟩
  | succ c ih =>
    unfold pieces
    by_cases hp : p = []
    · rw [if_pos hp]
      exact ⟨m, rfl, rfl, fun _ _ => rfl⟩
    · have hpos := List.length_pos_of_ne_nil hp
      have hlen := congrArg List.length (List.take_append_drop bsize p)
      rw [List.length_append] at hlen
      have htake : 0 < (p.take bsize).length := by
        rw [List.length_take]
        simp only [bsize]
        omega
      obtain ⟨m₁, h₁⟩ := iappend_some m inum (p.take bsize) (by omega)
      obtain ⟨hfree, hsize, hothers⟩ := iappend_sizes h₁
      obtain ⟨m', h', hfree', hothers'⟩ := ih m₁ (p.drop bsize) (by omega) (by omega)
      refine ⟨m', ?_, hfree'.trans hfree, fun i hi => (hothers' i hi).trans (hothers i hi)⟩
      rw [if_neg hp, List.foldlM_cons, h₁]
      exact h'

/-- The next inode number and the size of the root directory, when `k` files have been added. -/
def Counts (m : Image) (k : Nat) : Prop := m.freeinode = k + 2 ∧ (m.inode rootino).size = direntSize * (k + 2)

theorem Counts.addFile (h : Counts m k) (hk : k + 3 ≤ ninodes) (hf : f.2.length ≤ maxfile * bsize) :
    ∃ m', m.addFile f = some m' ∧ Counts m' (k + 1) := by
  obtain ⟨hfree, hroot⟩ := h
  have hne : rootino ≠ m.freeinode := by
    simp only [rootino]
    omega
  have hroot' : ((m.ialloc .file).2.inode rootino).size = direntSize * (k + 2) :=
    (congrArg Dinode.size (Function.update_of_ne hne ..)).trans hroot
  obtain ⟨m₁, h₁⟩ := iappend_some (m.ialloc .file).2 rootino (dirent m.freeinode f.1) (by
    rw [hroot', length_dirent]
    simp only [direntSize, maxfile, ndirect, nindirect, bsize, ninodes] at hk ⊢
    omega)
  obtain ⟨hfree₁, hsize₁, hothers₁⟩ := iappend_sizes h₁
  have hnew : (m₁.inode m.freeinode).size = 0 := by
    rw [hothers₁ _ hne.symm]
    simp [ialloc]
  obtain ⟨m', h', hfree', hothers'⟩ := pieces_some m₁ m.freeinode f.2 (Nat.le_refl _) (by omega)
  refine ⟨m', ?_, ?_, ?_⟩
  · exact Option.bind_eq_some_iff.mpr ⟨m₁, h₁, h'⟩
  · rw [hfree', hfree₁]
    exact congrArg (· + 1) hfree
  · rw [hothers' _ hne, hsize₁, hroot', length_dirent]
    rfl

theorem Counts.addFiles (h : Counts m k) (hk : k + 2 + files.length ≤ ninodes)
    (hf : ∀ f ∈ files, f.2.length ≤ maxfile * bsize) : ∃ m', files.foldlM Image.addFile m = some m' := by
  induction files generalizing m k with
  | nil => exact ⟨m, rfl⟩
  | cons f files ih =>
    rw [List.length_cons] at hk
    obtain ⟨m₁, h₁, hcounts⟩ := h.addFile (f := f) (by omega) (hf f (List.mem_cons_self ..))
    obtain ⟨m', h'⟩ := ih hcounts (by omega) fun g hg => hf g (List.mem_cons_of_mem _ hg)
    refine ⟨m', ?_⟩
    rw [List.foldlM_cons, h₁]
    exact h'

theorem build_some (hk : files.length + 2 ≤ ninodes) (hf : ∀ f ∈ files, f.2.length ≤ maxfile * bsize) :
    ∃ m, build files = some m := by
  have hsize : ((empty.ialloc .dir).2.inode rootino).size = 0 := rfl
  obtain ⟨m₁, h₁⟩ := iappend_some (empty.ialloc .dir).2 rootino (dirent rootino dot) (by
    rw [hsize, length_dirent]
    decide)
  obtain ⟨hfree₁, hsize₁, -⟩ := iappend_sizes h₁
  rw [hsize, length_dirent] at hsize₁
  obtain ⟨m₂, h₂⟩ := iappend_some m₁ rootino (dirent rootino dotdot) (by
    rw [hsize₁, length_dirent]
    decide)
  obtain ⟨hfree₂, hsize₂, -⟩ := iappend_sizes h₂
  rw [hsize₁, length_dirent] at hsize₂
  have hcounts : Counts m₂ 0 := ⟨hfree₂.trans hfree₁, hsize₂⟩
  obtain ⟨m, h⟩ := hcounts.addFiles (by omega) hf
  refine ⟨m, ?_⟩
  simp only [build, bind, Option.bind_eq_some_iff]
  exact ⟨m₁, h₁, m₂, h₂, h⟩

/-! ### The root directory -/

/-- The inode numbers and the names in the root directory. -/
def rootEntries (files : List (Name × List Byte)) : List (Nat × Name) :=
  (rootino, dot) :: (rootino, dotdot) :: (files.zipIdx 2).map fun f => (f.2, f.1.1)

theorem entries_eq : entries files = (rootEntries files).flatMap fun e => dirent e.1 e.2 := by
  simp only [entries, rootEntries, List.flatMap_cons, List.flatMap_map, List.append_assoc]

theorem length_rootEntries : (rootEntries files).length = files.length + 2 := by simp [rootEntries]

theorem rootEntries_file (h : files[k]? = some f) :
    (rootEntries files)[k + 2]? = some (k + 2, f.1) := by
  simp [rootEntries, h, Nat.add_comm]

theorem Built.fixRoot_own (h : Built m files) : Own m.fixRoot.disk m.fixRoot.inode :=
  own_of_refers h.own rfl rfl fun hr => refers_fixRoot.mp hr

theorem Built.readDirent {j : Nat} (h : Built m files) (hlen : files.length + 2 ≤ ninodes)
    (hj : (rootEntries files)[j]? = some e) (err : Panic) :
    m.fixRoot.disk.readDirent err (m.fixRoot.inode rootino) (direntSize * j) =
      .ok (dirent e.1 e.2, m.fixRoot.disk, m.fixRoot.inode rootino) := by
  have hlt := (List.getElem?_eq_some_iff.mp hj).1
  rw [length_rootEntries] at hlt
  have hsize := h.size_root
  have hkind : (m.inode rootino).kind ≠ .free := by
    have hdir : (m.inode rootino).kind = .dir := h.rootKind
    rw [hdir]
    decide
  have hin : direntSize * j + direntSize ≤ (m.inode rootino).size := by
    rw [hsize]
    simp only [direntSize]
    omega
  have hread := readi_mapped h.fixRoot_own (by rwa [fixRoot_kind]) (direntSize * j) direntSize fun bn hbn _ => by
    obtain ⟨a, ha⟩ := h.dense rootino bn hkind (by omega)
    exact ⟨a, refers_fixRoot.mpr ha⟩
  have hnode : ((m.fixRoot.inode rootino).node m.fixRoot.disk.block).readi (direntSize * j) direntSize =
      some (dirent e.1 e.2) := by
    have hbytes : (m.node rootino).read (direntSize * j) direntSize = dirent e.1 e.2 := by
      rw [h.root.read (by rw [← h.root.size]; exact hin), entries_eq]
      exact take_drop_flatMap (fun _ => length_dirent) hj
    rw [fixRoot_root]
    unfold Node.readi
    have hbig : direntSize * j + direntSize ≤ ((m.inode rootino).size / bsize + 1) * bsize := by
      simp only [bsize, direntSize] at hin ⊢
      omega
    rw [if_neg, if_neg]
    · exact congrArg some hbytes
    · exact Nat.not_lt.mpr hbig
    · simp only [Dinode.node]
      simp only [direntSize, ninodes] at hbig hlen ⊢
      omega
  unfold Disk.readDirent
  rw [hread, hnode]
  simp only [bind, Except.bind, length_dirent, if_true]

theorem Built.dirlookup {name : Name} (h : Built m files) (hlen : files.length + 2 ≤ ninodes)
    (hzero : ∀ e ∈ rootEntries files, 0 ∉ e.2) (hinum : ∀ e ∈ rootEntries files, e.1 ≠ 0 ∧ e.1 < 65536)
    (hnodup : ((rootEntries files).map fun e => e.2.take dirsiz).Nodup) (hk : (rootEntries files)[k]? = some e)
    (hname : name.take dirsiz = e.2.take dirsiz) :
    m.fixRoot.disk.dirlookup (m.fixRoot.inode rootino) name =
      .ok (some (direntSize * k, e.1), m.fixRoot.disk, m.fixRoot.inode rootino) := by
  have hklt := (List.getElem?_eq_some_iff.mp hk).1
  have hkind : (m.fixRoot.inode rootino).kind = .dir := fixRoot_kind.trans h.rootKind
  have hent (j : Nat) (hj : j ≤ k) : (rootEntries files)[j]? = some ((rootEntries files).getD j (0, [])) := by
    rw [List.getD_eq_getElem _ _ (by omega), List.getElem?_eq_getElem (by omega)]
  obtain rfl : (rootEntries files).getD k (0, []) = e := Option.some.inj ((hent k (Nat.le_refl _)).symm.trans hk)
  have hmem (j : Nat) (hj : j ≤ k) : (rootEntries files).getD j (0, []) ∈ rootEntries files :=
    List.mem_of_getElem? (hent j hj)
  have hinumk := hinum _ (hmem k (Nat.le_refl _))
  have hsize : direntSize * k < (m.fixRoot.inode rootino).size := by
    rw [fixRoot_root]
    rw [length_rootEntries] at hklt
    simp only [h.size_root, direntSize, bsize]
    omega
  have hfirst (j : Nat) (hj : j < k) :
      ((rootEntries files).getD j (0, [])).2.take dirsiz ≠ ((rootEntries files).getD k (0, [])).2.take dirsiz := by
    intro heq
    have hjk : j = k := by
      refine (List.getElem?_inj (by rw [List.length_map]; omega) hnodup).mp ?_
      rw [List.getElem?_map, List.getElem?_map, hent j (Nat.le_of_lt hj), hk]
      exact congrArg some heq
    omega
  have hfound := findDirent_first (d := m.fixRoot.disk) (e := .dirlinkRead)
    (P := fun de => decide (direntInum de ≠ 0 ∧ direntName de = name.take dirsiz)) (k := k)
    (fun j hj => h.readDirent hlen (hent j hj) _) hsize
    (by
      rw [direntInum_dirent hinumk.2, direntName_dirent (hzero _ (hmem k (Nat.le_refl _))), hname]
      exact decide_eq_true ⟨hinumk.1, rfl⟩)
    (fun j hj => by
      rw [direntName_dirent (hzero _ (hmem j (Nat.le_of_lt hj))), hname]
      exact decide_eq_false fun hboth => hfirst j hj hboth.2)
    (((m.fixRoot.inode rootino).size + direntSize - 1) / direntSize) 0 (Nat.zero_le _)
    (by simp only [direntSize] at hsize ⊢; omega)
  unfold Disk.dirlookup Disk.findDirentFrom
  rw [if_neg (by rw [hkind]; decide)]
  rw [Nat.mul_zero] at hfound
  rw [hfound]
  simp only [bind, Except.bind, Option.map_some, direntInum_dirent hinumk.2]

theorem Built.readi (h : Built m files) (hk : files[k]? = some f) (off n : Nat) :
    m.fixRoot.disk.readi (m.fixRoot.inode (k + 2)) off n =
      .ok (if off > f.2.length ∨ off + n ≥ 2 ^ 32 then none else some ((f.2.drop off).take n),
        m.fixRoot.disk, m.fixRoot.inode (k + 2)) := by
  have hlt := (List.getElem?_eq_some_iff.mp hk).1
  have hkind : (m.inode (k + 2)).kind ≠ .free := (h.inodes _).mpr ⟨by omega, by rw [h.freeinode]; omega⟩
  have hne : k + 2 ≠ rootino := by
    simp only [rootino]
    omega
  have hsame : m.fixRoot.inode (k + 2) = m.inode (k + 2) := fixRoot_of_ne hne
  have hread := readi_mapped h.fixRoot_own (by rwa [fixRoot_kind]) off n fun bn _ hbn => by
    obtain ⟨a, ha⟩ := h.dense (k + 2) bn hkind (by rwa [hsame] at hbn)
    exact ⟨a, refers_fixRoot.mpr ha⟩
  have hholds : ((m.fixRoot.inode (k + 2)).node m.fixRoot.disk.block).Holds f.2 := by
    rw [hsame]
    exact h.file k f hk
  rw [hread, hholds.readi]

end Image

theorem Input.string_name (f : Input) : 0 ∉ f.name := by
  intro h0
  apply f.string
  unfold Input.name at h0
  split at h0
  · rename_i rest hrest
    rw [hrest]
    exact List.mem_cons_of_mem _ h0
  · exact h0

/-- The kernel reads what `mkfs` writes: each file has the next inode number, `readi` gives its bytes, and `dirlookup`
    finds it where no two names in the root directory are the same. -/
theorem kernel_reads_image {inputs : List Input} (hslash : ∀ f ∈ inputs, 0x2F ∉ f.arg)
    (hinodes : inputs.length + 2 ≤ ninodes)
    (hsizes : ∀ f ∈ inputs, f.contents.length ≤ maxfile * bsize) :
    ∃ m, Image.build (inputs.map fun f => (f.name, f.contents)) = some m ∧ (m.freeblock ≤ fssize →
      ∃ d, mkfsMain inputs = some d ∧ ∀ k f, inputs[k]? = some f →
        (∀ off n, d.readi (d.inode (k + 2)) off n =
          .ok (if off > f.contents.length ∨ off + n ≥ 2 ^ 32 then none else some ((f.contents.drop off).take n),
            d, d.inode (k + 2))) ∧
        ((dot :: dotdot :: inputs.map fun f => f.name.take dirsiz).Nodup → ∀ name, name.take dirsiz = f.name.take dirsiz →
          ∃ off, d.dirlookup (d.inode rootino) name = .ok (some (off, k + 2), d, d.inode rootino))) := by
  have hfiles : ∀ f ∈ inputs.map fun f => (f.name, f.contents), f.2.length ≤ maxfile * bsize := by
    intro f hf
    obtain ⟨g, hg, rfl⟩ := List.mem_map.mp hf
    exact hsizes g hg
  obtain ⟨m, hbuild⟩ := Image.build_some (by rwa [List.length_map]) hfiles
  refine ⟨m, hbuild, fun hfit => ⟨m.fixRoot.disk, ?_, fun k f hk => ?_⟩⟩
  · exact mkfsMain_build hslash hbuild hfit
  · have hb := Image.build_built hbuild hfit
    have hk' : (inputs.map fun f => (f.name, f.contents))[k]? = some (f.name, f.contents) := by
      rw [List.getElem?_map, hk]
      rfl
    have hlen : (inputs.map fun f => (f.name, f.contents)).length + 2 ≤ ninodes := by rwa [List.length_map]
    refine ⟨fun off n => hb.readi hk' off n, fun hnodup name hname => ⟨direntSize * (k + 2), ?_⟩⟩
    refine hb.dirlookup hlen (fun e he => ?_) (fun e he => ?_) ?_ (Image.rootEntries_file hk') hname
    · rcases he with _ | ⟨_, _ | ⟨_, he⟩⟩
      · decide
      · decide
      · obtain ⟨⟨x, i⟩, hx, rfl⟩ := List.mem_map.mp he
        obtain ⟨g, -, rfl⟩ := List.mem_map.mp (List.fst_mem_of_mem_zipIdx hx)
        exact g.string_name
    · rcases he with _ | ⟨_, _ | ⟨_, he⟩⟩
      · decide
      · decide
      · obtain ⟨⟨x, i⟩, hx, rfl⟩ := List.mem_map.mp he
        have hle := List.le_snd_of_mem_zipIdx hx
        have hlt := List.snd_lt_add_of_mem_zipIdx hx
        simp only [ninodes] at hlen
        exact ⟨by omega, by omega⟩
    · have hnames : (Image.rootEntries (inputs.map fun f => (f.name, f.contents))).map (fun e => e.2.take dirsiz) =
          dot :: dotdot :: inputs.map fun f => f.name.take dirsiz := by
        have hzip :
            ((inputs.map fun f => (f.name, f.contents)).zipIdx 2).map Prod.fst = inputs.map fun f => (f.name, f.contents) :=
          List.zipIdx_map_fst ..
        simp only [Image.rootEntries, List.map_cons, List.map_map]
        refine congrArg₂ _ rfl (congrArg₂ _ rfl ?_)
        calc _ = (((inputs.map fun f => (f.name, f.contents)).zipIdx 2).map Prod.fst).map fun f => f.1.take dirsiz := by
              rw [List.map_map]; rfl
          _ = _ := by rw [hzip, List.map_map]; rfl
      rwa [hnames]

/-- A file called `_.` is in the image as `.`, and a lookup of its name finds the root directory. -/
theorem dot_finds_root : ∃ d, mkfsMain [⟨[0x5F, 0x2E], by decide, []⟩] = some d ∧
    ((d.dirlookup (d.inode rootino) [0x2E]).toOption.map fun r => r.1) = some (some (0, rootino)) := by
  have hrun : (mkfsMain [⟨[0x5F, 0x2E], by decide, []⟩]).any (fun d =>
      decide (((d.dirlookup (d.inode rootino) [0x2E]).toOption.map fun r => r.1) = some (some (0, rootino)))) = true := by
    decide +kernel
  obtain ⟨d, hd, h⟩ := (Option.any_eq_true _ _).mp hrun
  exact ⟨d, hd, of_decide_eq_true h⟩

/-- One file with two bytes. -/
theorem kernel_reads_image_one : ∃ d off, mkfsMain [⟨[0x5F, 0x61], by decide, [7, 8]⟩] = some d ∧
    d.readi (d.inode 2) 1 5 = .ok (some [8], d, d.inode 2) ∧
    d.dirlookup (d.inode rootino) [0x61] = .ok (some (off, 2), d, d.inode rootino) := by
  obtain ⟨m, hbuild, h⟩ := @kernel_reads_image [⟨[0x5F, 0x61], by decide, [7, 8]⟩] (by decide) (by decide) (by decide)
  have hrun : (Image.build [([0x61], [7, 8])]).all (fun m => decide (m.freeblock ≤ fssize)) = true := by decide +kernel
  have hfit : m.freeblock ≤ fssize := by
    have heq : Image.build [([0x61], [7, 8])] = some m := hbuild
    rw [heq] at hrun
    exact of_decide_eq_true hrun
  obtain ⟨d, hd, hfile⟩ := h hfit
  obtain ⟨hread, hlookup⟩ := hfile 0 _ rfl
  obtain ⟨off, hoff⟩ := hlookup (by decide) [0x61] rfl
  exact ⟨d, off, hd, hread 1 5, hoff⟩

end Xv6.Fs
