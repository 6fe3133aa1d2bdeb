import Xv6.Theorems.Images

/-! The stack that a new program finds: the trampoline at the top of the last page, below it the argument strings, and
    below them the words that `main` takes for its return address and its arguments. What does not fit is stopped by
    the page below, which `copyout` does not enter. -/

namespace Xv6
open Lib

/-! ### The layout -/

namespace Proc

def argv (q : Proc) : Addr := load32 q.mem (q.frame.esp + 8)

def arg (q : Proc) (i : Nat) : Addr := load32 q.mem (q.argv + BitVec.ofNat 32 (4 * i))

/-- What is in the stack page, from the top down, as addresses and lengths: the trampoline, the strings, the words. -/
def regions (q : Proc) (args : List (List Byte)) : List (Nat × Nat) :=
  (q.sigretAdd.toNat, sigretimplicitBytes.length) :: (args.mapIdx fun i s => ((q.arg i).toNat, s.length + 1)) ++
    [(q.frame.esp.toNat, (3 + args.length + 1) * 4)]

/-- The stack of a program with the arguments `args`. -/
structure InitialStack (q : Proc) (args : List (List Byte)) : Prop where
  top : q.sigretAdd.toNat + sigretimplicitBytes.length = q.sz.toNat
  trampoline : bytesAt q.mem q.sigretAdd sigretimplicitBytes.length = sigretimplicitBytes
  ret : load32 q.mem q.frame.esp = 0xFFFFFFFF
  argc : load32 q.mem (q.frame.esp + 4) = BitVec.ofNat 32 args.length
  argv : q.argv = q.frame.esp + 12
  strings : ∀ i s, args[i]? = some s → (q.arg i).toNat % 4 = 0 ∧ bytesAt q.mem (q.arg i) (s.length + 1) = s ++ [0]
  last : q.arg args.length = 0
  apart : (q.regions args).Pairwise fun r r' => r'.1 + r'.2 ≤ r.1
  inside : ∀ r ∈ q.regions args, q.sz.toNat - pgsize ≤ r.1 ∧ r.1 + r.2 ≤ q.sz.toNat
  guard : 2 * pgsize ≤ q.sz.toNat ∧ ∀ x, q.sz.toNat - 2 * pgsize ≤ x → x < q.sz.toNat - pgsize → ¬Accessible q.sz.toNat x

end Proc

/-! ### The strings -/

section
variable {sz sp va : Nat} {m m' m₀ : Mem} {bs : List Byte} {a b : ArgStack} {args args' : List (List Byte)} {lo ptr : Nat}
  {s : List Byte} {img : Image}

theorem copyout_page (hend : sp ≤ va + bs.length + 3) (hsp : sz - pgsize ≤ sp) (hsz : 2 * pgsize ≤ sz) (hbs : bs ≠ [])
    (h : copyout sz m va bs = .ok m') : sz - pgsize ≤ va := by
  obtain ⟨-, hacc⟩ := copyout_ok h
  have hlen := List.length_pos_iff.mpr hbs
  have hlast := hacc (bs.length - 1) (by omega)
  simp only [Accessible, pgsize] at hlast hsp hsz ⊢
  by_contra hlow
  -- The last byte lies above the page that is not accessible, so the bytes cross it.
  have hguard := hacc (sz - 4096 - 1 - va) (by omega)
  simp only [Accessible, pgsize] at hguard
  omega

/-- A copy of the string `s` at `ptr`, from `lo` up and below the trampoline. -/
structure Copy (lo sz : Nat) (m : Mem) (ptr : Nat) (s : List Byte) : Prop where
  aligned : ptr % 4 = 0
  low : lo ≤ ptr
  high : ptr + (s.length + 1) + 4 ≤ sz
  bytes : bytesAt m (BitVec.ofNat 32 ptr) (s.length + 1) = s ++ [0]

theorem Copy.toNat (h : Copy lo sz m ptr s) (hk : sz < kernbase) :
    (BitVec.ofNat 32 ptr).toNat = ptr := by
  have hhigh := h.high
  rw [BitVec.toNat_ofNat]
  simp only [kernbase] at hk
  omega

theorem Copy.agree {lo' : Nat} (h : Copy lo sz m ptr s) (hagree : AgreeFrom lo m' m)
    (hle : lo' ≤ lo) (hk : sz < kernbase) : Copy lo' sz m' ptr s := by
  have hlow := h.low
  have hhigh := h.high
  have hnat := h.toNat hk
  simp only [kernbase] at hk
  refine ⟨h.aligned, by omega, hhigh, ?_⟩
  rw [hagree.bytesAt (by omega) (by omega), h.bytes]

/-- The addresses and the lengths of the strings. -/
def ArgStack.spans (a : ArgStack) (args : List (List Byte)) : List (Nat × Nat) :=
  (a.ustack.zip args).map fun x => (x.1, x.2.length + 1)

theorem spans_range {r : Nat × Nat} (hcopies : List.Forall₂ (Copy lo sz m) a.ustack args) (hr : r ∈ a.spans args) :
    lo ≤ r.1 ∧ r.1 + r.2 + 4 ≤ sz := by
  obtain ⟨x, hx, rfl⟩ := List.mem_map.mp hr
  have hcopy := (List.forall₂_iff_zip.mp hcopies).2 hx
  exact ⟨hcopy.low, hcopy.high⟩

def stringBytes (s : List Byte) : Nat := (s.length + 4) / 4 * 4

theorem below_string (hsp : sp % 4 = 0) (hlt : sp < 2 ^ 32) (hle : s.length + 1 ≤ sp) :
    below sp (s.length + 1) - below sp (s.length + 1) % 4 + stringBytes s = sp := by
  simp only [below, stringBytes]
  omega

/-- The strings `args` have been pushed, where the image held `m₀`. -/
structure Pushed (m₀ : Mem) (sz : Nat) (a : ArgStack) (args : List (List Byte)) : Prop where
  used : a.sp + (args.map stringBytes).sum + 4 = sz
  aligned : a.sp % 4 = 0
  low : sz - pgsize ≤ a.sp
  high : a.sp + 4 ≤ sz
  copies : List.Forall₂ (Copy a.sp sz a.mem) a.ustack args
  apart : (a.spans args).Pairwise fun r r' => r'.1 + r'.2 ≤ r.1
  kept : ∀ x : Addr, x.toNat < sz - pgsize → a.mem x = m₀ x

theorem storeBytes_kept {x : Addr} (hva : sz - pgsize ≤ va) (hx : x.toNat < sz - pgsize) : storeBytes m va bs x = m x :=
  if_neg (by omega)

theorem Pushed.push {mem : Mem} (hP : Pushed m₀ sz a args) (hsz : 2 * pgsize ≤ sz) (hk : sz < kernbase)
    (hva : va = below a.sp (s.length + 1) - below a.sp (s.length + 1) % 4) (h : copyout sz a.mem va (s ++ [0]) = .ok mem) :
    Pushed m₀ sz ⟨va, mem, a.ustack ++ [va]⟩ (args ++ [s]) := by
  have hlen : (s ++ [0]).length = s.length + 1 := by simp
  have hhigh := hP.high
  obtain ⟨hend, hagree⟩ := copyout_below (by rw [hlen, hva]; exact Nat.sub_le ..) (by rw [hlen, hva]; omega) (by simp)
    (by omega) hk h
  rw [hlen] at hend
  have hnear : a.sp ≤ va + (s ++ [0]).length + 3 := by
    simp only [kernbase] at hk
    simp only [below] at hva
    omega
  have hpage := copyout_page hnear hP.low hsz (by simp) h
  have hfour : va % 4 = 0 := by omega
  have hcopy : bytesAt mem (BitVec.ofNat 32 va) (s.length + 1) = s ++ [0] := by
    obtain ⟨rfl, -⟩ := copyout_ok h
    rw [← hlen]
    refine bytesAt_storeBytes a.mem ?_
    simp only [kernbase] at hk
    omega
  refine ⟨?_, hfour, hpage, by dsimp only; omega, ?_, ?_, fun x hx => ?_⟩
  · have hused := hP.used
    have hdown := below_string (s := s) hP.aligned (by simp only [kernbase] at hk; omega) (by omega)
    rw [← hva] at hdown
    simp only [List.map_append, List.map_singleton, List.sum_append, List.sum_singleton]
    omega
  · refine List.rel_append (hP.copies.imp fun _ _ hold => hold.agree hagree (Nat.le_of_add_right_le hend) hk)
      (.cons ⟨hfour, Nat.le_refl _, by omega, hcopy⟩ .nil)
  · rw [ArgStack.spans, List.zip_append hP.copies.length_eq, List.map_append, List.pairwise_append]
    refine ⟨hP.apart, List.pairwise_singleton _ _, fun r hr r' hr' => ?_⟩
    obtain rfl := List.mem_singleton.mp hr'
    have habove := spans_range hP.copies hr
    dsimp only
    omega
  · obtain ⟨rfl, -⟩ := copyout_ok h
    exact (storeBytes_kept hpage hx).trans (hP.kept x hx)

theorem pushArgs_pushed {done : List (List Byte)} (hP : Pushed m₀ sz a done) (hsz : 2 * pgsize ≤ sz) (hk : sz < kernbase)
    (h : ArgStack.pushArgs sz a args = .ok b) : Pushed m₀ sz b (done ++ args) := by
  induction args generalizing a done with
  | nil =>
    cases h
    rw [List.append_nil]
    exact hP
  | cons s args ih =>
    simp only [ArgStack.pushArgs] at h
    split at h
    · cases h
    · obtain ⟨mem, hcopy, h⟩ := bind_eq_ok.mp h
      have hrest := ih (hP.push hsz hk rfl hcopy) h
      rwa [List.append_assoc] at hrest

/-! ### The words -/

/-- The stack when `exec` has pushed the words. -/
structure Built (m₀ : Mem) (sz : Nat) (a : ArgStack) (args : List (List Byte)) : Prop where
  used : a.sp + (args.map stringBytes).sum + (3 + args.length + 1) * 4 + 4 = sz
  low : sz - pgsize ≤ a.sp
  high : a.sp + (3 + args.length + 1) * 4 + 4 ≤ sz
  copies : List.Forall₂ (Copy (a.sp + (3 + args.length + 1) * 4) sz a.mem) a.ustack args
  apart : (a.spans args).Pairwise fun r r' => r'.1 + r'.2 ≤ r.1
  words : ∀ i v, (0xFFFFFFFF :: ([args.length, a.sp + 12] ++ a.ustack ++ [0]).map (BitVec.ofNat 32))[i]? = some v →
    load32 a.mem (BitVec.ofNat 32 (a.sp + 4 * i)) = v
  kept : ∀ x : Addr, x.toNat < sz - pgsize → a.mem x = m₀ x

theorem Pushed.built (hP : Pushed m₀ sz a args) (hsz : 2 * pgsize ≤ sz) (hk : sz < kernbase) (h : a.pushUstack sz = .ok b) :
    Built m₀ sz b args := by
  obtain ⟨mem, hcopy, h⟩ := bind_eq_ok.mp h
  cases h
  have hcount : a.ustack.length = args.length := hP.copies.length_eq
  have hhigh := hP.high
  have haligned := hP.aligned
  have hbytes := words_bytes a
  have hne : a.words.flatMap wordBytes ≠ [] := List.length_pos_iff.mp (by rw [hbytes]; omega)
  obtain ⟨hend, hagree⟩ :=
    copyout_below (by rw [hbytes]) (by rw [hbytes]; exact Nat.le_add_right _ 3) hne (by omega) hk hcopy
  generalize hsp : below a.sp ((3 + a.ustack.length + 1) * 4) = sp at hcopy hend ⊢
  have hsub : sp + (3 + a.ustack.length + 1) * 4 = a.sp := by
    rw [hbytes] at hend
    simp only [below] at hsp
    simp only [kernbase] at hk
    omega
  have hpage := copyout_page (by rw [hbytes]; omega) hP.low hsz hne hcopy
  have hargv : below a.sp ((a.ustack.length + 1) * 4) = sp + 12 := by
    simp only [below]
    simp only [kernbase] at hk
    omega
  have hused := hP.used
  refine ⟨by dsimp only; omega, hpage, by dsimp only; omega,
    hP.copies.imp fun _ _ hold => hold.agree hagree (by dsimp only; omega) hk, hP.apart, fun i v hi => ?_, fun x hx => ?_⟩
  · obtain ⟨rfl, -⟩ := copyout_ok hcopy
    have hlen : a.words.length * 4 = (3 + a.ustack.length + 1) * 4 := by
      rw [← hbytes, List.length_flatMap]
      simp [wordBytes]
    refine load32_storeBytes a.mem ?_ (by simp only [kernbase] at hk; omega)
    rw [ArgStack.words, hargv, hcount]
    exact hi
  · obtain ⟨rfl, -⟩ := copyout_ok hcopy
    exact (storeBytes_kept hpage hx).trans (hP.kept x hx)

/-! ### exec -/

theorem stackTop_aligned (htop : img.stackTop = some sz) : sz % 4 = 0 := by
  simp only [Image.stackTop] at htop
  split at htop
  · cases htop
  · obtain rfl := Option.some.inj htop
    simp only [pgroundup, pgsize]
    omega

theorem pushed_nil (htop : img.stackTop = some sz) :
    Pushed img.mem sz ⟨sz - 4, storeBytes img.mem (sz - 4) sigretimplicitBytes, []⟩ [] := by
  have hlow := (stackTop_some htop).1
  have hfour := stackTop_aligned htop
  simp only [pgsize] at hlow
  exact ⟨by simp only [List.map_nil, List.sum_nil]; omega, by dsimp only; omega, by simp only [pgsize]; omega,
    by dsimp only; omega, .nil, .nil, fun x hx => storeBytes_kept (by simp only [pgsize]; omega) hx⟩

theorem buildStack_built (htop : img.stackTop = some sz) (h : img.buildStack sz args = .ok a) :
    Built img.mem sz a args := by
  obtain ⟨hlow, hhigh⟩ := stackTop_some htop
  rw [buildStack_eq args htop] at h
  obtain ⟨b, hargs, hustack⟩ := bind_eq_ok.mp h
  exact (pushArgs_pushed (pushed_nil htop) hlow hhigh hargs).built hlow hhigh hustack

theorem Built.word (hB : Built m₀ sz a args) (i : Nat) {v : Word}
    (hi : (0xFFFFFFFF :: ([args.length, a.sp + 12] ++ a.ustack ++ [0]).map (BitVec.ofNat 32))[i]? = some v) :
    load32 a.mem (BitVec.ofNat 32 a.sp + BitVec.ofNat 32 (4 * i)) = v := by
  rw [← BitVec.ofNat_add]
  exact hB.words i v hi

theorem Built.arg_eq (hB : Built m₀ sz a args) {q : Proc} (hmem : q.mem = a.mem)
    (hesp : q.frame.esp = BitVec.ofNat 32 a.sp) :
    q.argv = BitVec.ofNat 32 (a.sp + 12) ∧ ∀ i ptr, (a.ustack ++ [0])[i]? = some ptr → q.arg i = BitVec.ofNat 32 ptr := by
  have hargv : q.argv = BitVec.ofNat 32 (a.sp + 12) := by
    rw [Proc.argv, hmem, hesp]
    exact hB.word 2 rfl
  refine ⟨hargv, fun i ptr hi => ?_⟩
  rw [Proc.arg, hmem, hargv, ← BitVec.ofNat_add, show a.sp + 12 + 4 * i = a.sp + 4 * (i + 3) by omega, BitVec.ofNat_add]
  refine hB.word (i + 3) ?_
  change (((a.ustack ++ [0]).map (BitVec.ofNat 32)))[i]? = _
  rw [List.getElem?_map, hi]
  rfl

/-- The process has the stack `a` in an image of `sz` bytes. -/
structure HasStack (q : Proc) (sz : Nat) (a : ArgStack) : Prop where
  mem : q.mem = a.mem
  esp : q.frame.esp = BitVec.ofNat 32 a.sp
  sigret : q.sigretAdd.toNat = sz - 4
  sz : q.sz.toNat = sz

theorem commit_hasStack (p : Proc) (path : List Byte) (hsz : sz < kernbase) :
    HasStack ((p.setSigret sz).commit img sz a path) sz a := by
  simp only [kernbase] at hsz
  refine ⟨rfl, rfl, ?_, ?_⟩
  · change (BitVec.ofNat 32 (sz - 4)).toNat = _
    rw [BitVec.toNat_ofNat]
    omega
  · change (BitVec.ofNat 32 sz).toNat = _
    rw [BitVec.toNat_ofNat]
    omega

section Committed
variable {q : Proc}

theorem Built.arg_copy (hB : Built m₀ sz a args) (hq : HasStack q sz a) {i : Nat} {s : List Byte}
    (hi : args[i]? = some s) :
    ∃ ptr, Copy (a.sp + (3 + args.length + 1) * 4) sz a.mem ptr s ∧ a.ustack[i]? = some ptr ∧
        q.arg i = BitVec.ofNat 32 ptr := by
  have hlt : i < a.ustack.length := by
    rw [hB.copies.length_eq]
    exact (List.getElem?_eq_some_iff.mp hi).1
  have hptr : a.ustack[i]? = some a.ustack[i] := List.getElem?_eq_getElem hlt
  refine ⟨a.ustack[i], (List.forall₂_iff_zip.mp hB.copies).2 (List.mem_of_getElem? (i := i) ?_), hptr,
    (hB.arg_eq hq.mem hq.esp).2 i _ ?_⟩
  · rw [List.getElem?_zip_eq_some]
    exact ⟨hptr, hi⟩
  · rw [List.getElem?_append_left hlt, hptr]

theorem Built.regions_eq (hB : Built m₀ sz a args) (hq : HasStack q sz a) (hsz : sz < kernbase) :
    q.regions args = (sz - 4, 4) :: a.spans args ++ [(a.sp, (3 + args.length + 1) * 4)] := by
  have hstrings : (args.mapIdx fun i s => ((q.arg i).toNat, s.length + 1)) = a.spans args := by
    apply List.ext_getElem?
    intro i
    rw [List.getElem?_mapIdx, ArgStack.spans, List.getElem?_map]
    cases hi : args[i]? with
    | none =>
      have hle := List.getElem?_eq_none_iff.mp hi
      rw [List.getElem?_eq_none (by rw [List.length_zip]; omega)]
      rfl
    | some s =>
      obtain ⟨ptr, hcopy, hptr, harg⟩ := hB.arg_copy hq hi
      rw [(List.getElem?_zip_eq_some (z := (ptr, s))).mpr ⟨hptr, hi⟩]
      simp only [Option.map_some, harg, hcopy.toNat hsz]
  have hsp : (BitVec.ofNat 32 a.sp).toNat = a.sp := by
    have := hB.high
    rw [BitVec.toNat_ofNat]
    simp only [kernbase] at hsz
    omega
  rw [Proc.regions, hstrings, hq.sigret, hq.esp, hsp]
  rfl

theorem Built.regions_apart (hB : Built m₀ sz a args) :
    ((sz - 4, 4) :: a.spans args ++ [(a.sp, (3 + args.length + 1) * 4)]).Pairwise fun r r' => r'.1 + r'.2 ≤ r.1 := by
  rw [List.cons_append, List.pairwise_cons, List.pairwise_append]
  refine ⟨fun r hr => ?_, hB.apart, List.pairwise_singleton _ _, fun r hr r' hr' => ?_⟩
  · rcases List.mem_append.mp hr with hr | hr
    · have := spans_range hB.copies hr
      omega
    · obtain rfl := List.mem_singleton.mp hr
      have := hB.high
      omega
  · obtain rfl := List.mem_singleton.mp hr'
    have := spans_range hB.copies hr
    omega

theorem Built.regions_inside (hB : Built m₀ sz a args) (hlow : 2 * pgsize ≤ sz) {r : Nat × Nat}
    (hr : r ∈ (sz - 4, 4) :: a.spans args ++ [(a.sp, (3 + args.length + 1) * 4)]) : sz - pgsize ≤ r.1 ∧ r.1 + r.2 ≤ sz := by
  have hlow' := hB.low
  have hhigh' := hB.high
  rw [List.cons_append, List.mem_cons, List.mem_append, List.mem_singleton] at hr
  simp only [pgsize] at hlow hlow' ⊢
  rcases hr with rfl | hr | rfl
  · dsimp only
    omega
  · have := spans_range hB.copies hr
    omega
  · dsimp only
    omega

end Committed

theorem commit_initialStack (p : Proc) (path : List Byte) (htop : img.stackTop = some sz)
    (h : img.buildStack sz args = .ok a) : ((p.setSigret sz).commit img sz a path).InitialStack args := by
  obtain ⟨hlow, hhigh⟩ := stackTop_some htop
  obtain ⟨-, hbytes⟩ := commit_holdsTrampoline p path htop h
  have hB := buildStack_built htop h
  have hq : HasStack ((p.setSigret sz).commit img sz a path) sz a := commit_hasStack p path hhigh
  generalize (p.setSigret sz).commit img sz a path = q at hbytes hq ⊢
  have hlen : sigretimplicitBytes.length = 4 := rfl
  obtain ⟨hargv, harg⟩ := hB.arg_eq hq.mem hq.esp
  have hregions := hB.regions_eq hq hhigh
  refine ⟨?_, hbytes, ?_, ?_, ?_, fun i s hi => ?_, ?_, ?_, fun r hr => ?_, by rw [hq.sz]; exact hlow,
    fun x hx hx' hacc => ?_⟩
  · rw [hq.sigret, hq.sz, hlen]
    simp only [pgsize] at hlow
    omega
  · rw [hq.mem, hq.esp]
    have hword := hB.word 0 rfl
    rwa [BitVec.add_zero] at hword
  · rw [hq.mem, hq.esp]
    exact hB.word 1 rfl
  · rw [hargv, hq.esp, BitVec.ofNat_add]
    rfl
  · obtain ⟨ptr, hcopy, -, hptr⟩ := hB.arg_copy hq hi
    rw [hptr, hq.mem, hcopy.toNat hhigh]
    exact ⟨hcopy.aligned, hcopy.bytes⟩
  · exact harg args.length 0 (by rw [← hB.copies.length_eq]; exact List.getElem?_concat_length)
  · rw [hregions]
    exact hB.regions_apart
  · rw [hregions] at hr
    rw [hq.sz]
    exact hB.regions_inside hlow hr
  · exact hacc.2 ⟨hx, hx'⟩

end

theorem execFile_initialStack {p q : Proc} {env : ExecEnv} {path : List Byte} {args : List (List Byte)}
    (h : p.execFile env path args = some (0, q)) : q.InitialStack args := by
  unfold Proc.execFile at h
  split at h
  · cases h
  · split at h
    · cases Proc.exec_end h with
      | done him htop hbuild => exact commit_initialStack p path htop hbuild
    · cases h

/-! ### An exec that fails -/

/-- The strings and the words fit below the trampoline in the stack page. -/
def Fits (args : List (List Byte)) : Prop :=
  (args.map stringBytes).sum + (3 + args.length + 1) * 4 + sigretimplicitBytes.length ≤ pgsize

instance (args : List (List Byte)) : Decidable (Fits args) := inferInstanceAs (Decidable (_ ≤ _))

section
variable {sz sp va : Nat} {m m₀ : Mem} {bs : List Byte} {a : ArgStack} {args : List (List Byte)} {img : Image}

theorem copyout_inside (m : Mem) (hlow : sz - pgsize ≤ va) (hhigh : va + bs.length ≤ sz) :
    copyout sz m va bs = .ok (storeBytes m va bs) := by
  refine copyout_accessible m fun i hi => ?_
  simp only [Accessible, pgsize] at *
  omega

theorem pushArgs_fits {done : List (List Byte)} (hP : Pushed m₀ sz a done) (hsz : 2 * pgsize ≤ sz) (hk : sz < kernbase)
    (hroom : sz - pgsize + (args.map stringBytes).sum ≤ a.sp) (hcount : a.ustack.length + args.length ≤ maxarg) :
    ∃ b, ArgStack.pushArgs sz a args = .ok b := by
  induction args generalizing a done with
  | nil => exact ⟨a, rfl⟩
  | cons s args ih =>
    rw [List.map_cons, List.sum_cons] at hroom
    rw [List.length_cons] at hcount
    have hhigh := hP.high
    have hbytes : s.length + 1 ≤ stringBytes s := by
      simp only [stringBytes]
      omega
    have hdown := below_string (s := s) hP.aligned (by simp only [kernbase] at hk; omega) (by omega)
    have hcopy : copyout sz a.mem (below a.sp (s.length + 1) - below a.sp (s.length + 1) % 4) (s ++ [0]) = .ok _ :=
      copyout_inside a.mem (by omega) (by rw [List.length_append, List.length_singleton]; omega)
    obtain ⟨b, hb⟩ := ih (hP.push hsz hk rfl hcopy) (by dsimp only; omega)
      (by simp only [List.length_append, List.length_singleton]; omega)
    refine ⟨b, ?_⟩
    rw [ArgStack.pushArgs, if_neg (by omega)]
    dsimp only
    rw [hcopy]
    exact hb

theorem buildStack_fits (htop : img.stackTop = some sz) (hcount : args.length < maxarg) (hfits : Fits args) :
    ∃ a, img.buildStack sz args = .ok a := by
  obtain ⟨hlow, hhigh⟩ := stackTop_some htop
  have hlen : sigretimplicitBytes.length = 4 := rfl
  rw [Fits, hlen] at hfits
  obtain ⟨b, hargs⟩ : ∃ b, ArgStack.pushArgs sz ⟨sz - 4, storeBytes img.mem (sz - 4) sigretimplicitBytes, []⟩ args =
      .ok b :=
    pushArgs_fits (pushed_nil htop) hlow hhigh (by simp only [pgsize] at *; omega) (by simp only [List.length_nil]; omega)
  have hP := pushArgs_pushed (pushed_nil htop) hlow hhigh hargs
  rw [List.nil_append] at hP
  have hused := hP.used
  have hwords := words_bytes b
  rw [hP.copies.length_eq] at hwords
  have hdown : below b.sp ((3 + b.ustack.length + 1) * 4) + (3 + args.length + 1) * 4 = b.sp := by
    rw [hP.copies.length_eq]
    simp only [below, kernbase, pgsize] at *
    omega
  have hcopy : copyout sz b.mem (below b.sp ((3 + b.ustack.length + 1) * 4)) (b.words.flatMap wordBytes) = .ok _ :=
    copyout_inside b.mem (by omega) (by rw [hwords]; omega)
  exact ⟨_, (buildStack_eq args htop).trans (bind_eq_ok.mpr ⟨b, hargs, bind_eq_ok.mpr ⟨_, hcopy, rfl⟩⟩)⟩

theorem fits_of_buildStack (htop : img.stackTop = some sz) (h : img.buildStack sz args = .ok a) : Fits args := by
  have hB := buildStack_built htop h
  have hused := hB.used
  have hlow := hB.low
  have hlen : sigretimplicitBytes.length = 4 := rfl
  rw [Fits, hlen]
  omega

/-- Where a subtraction of less than 32 MB wraps around, it leads to the devices, for which the kernel has page tables. -/
theorem copyout_noFault (hva : va ≤ below sp bs.length) (hal : below sp bs.length ≤ va + 3) (hsp : sp ≤ sz)
    (hsz : sz < kernbase)
    (hlen : bs.length + 3 ≤ 2 ^ 32 - devspace) : copyout sz m va bs ≠ .error .fault := by
  intro h
  unfold copyout at h
  split at h
  · cases h
  · rename_i i hi
    have hlt := List.mem_range.mp (List.mem_of_find?_eq_some hi)
    rw [if_pos] at h
    · cases h
    · simp only [HasTable, below, kernbase, phystop, devspace] at *
      omega

theorem pushArgs_noFault (hsp : a.sp ≤ sz) (hsz : sz < kernbase) (hlen : ∀ s ∈ args, s.length + 4 ≤ 2 ^ 32 - devspace) :
    ArgStack.pushArgs sz a args ≠ .error .fault := by
  induction args generalizing a with
  | nil => simp [ArgStack.pushArgs]
  | cons s args ih =>
    obtain ⟨hs, hlen⟩ := List.forall_mem_cons.mp hlen
    have hbytes : (s ++ [0]).length = s.length + 1 := by simp
    intro h
    rw [ArgStack.pushArgs] at h
    split at h
    · cases h
    rcases bind_eq_error.mp h with hcopy | ⟨mem, hcopy, h⟩
    · exact copyout_noFault (by rw [hbytes]; exact Nat.sub_le ..)
        (by rw [hbytes]; omega) hsp hsz (by rw [hbytes]; omega) hcopy
    · have hend := (copyout_below (by rw [hbytes]; exact Nat.sub_le ..) (by rw [hbytes]; omega) (by simp) hsp hsz hcopy).1
      exact ih (by dsimp only; omega) hlen h

theorem buildStack_noFault (htop : img.stackTop = some sz) (hcount : args.length < maxarg)
    (hlen : ∀ s ∈ args, s.length + 4 ≤ 2 ^ 32 - devspace) : img.buildStack sz args ≠ .error .fault := by
  obtain ⟨hlow, hhigh⟩ := stackTop_some htop
  rw [buildStack_eq args htop]
  intro h
  rcases bind_eq_error.mp h with h | ⟨b, hargs, h⟩
  · exact pushArgs_noFault (Nat.sub_le ..) hhigh hlen h
  · have hP := pushArgs_pushed (pushed_nil htop) hlow hhigh hargs
    have hcopies := hP.copies.length_eq
    rw [List.nil_append] at hcopies
    rcases bind_eq_error.mp h with hcopy | ⟨mem, -, h⟩
    · refine copyout_noFault (by rw [words_bytes]) (by rw [words_bytes]; exact Nat.le_add_right ..)
        (Nat.le_of_add_right_le hP.high) hhigh ?_ hcopy
      · rw [words_bytes, hcopies]
        simp only [maxarg, devspace] at *
        omega
    · cases h

end

/-- `exec` gets as far as the stack: the file is loaded, and the two pages are there. -/
def ExecEnv.reachesStack (env : ExecEnv) : Bool := env.stack && History.reachesStack env.image

theorem setSigret_zeroed {sz : Nat} (hlow : 2 * pgsize ≤ sz) (hhigh : sz < kernbase) :
    Proc.zeroed.setSigret sz ≠ .zeroed := by
  intro h
  have haddr : BitVec.ofNat 32 (sz - 4) = 0#32 := congrArg Proc.sigretAdd h
  have hzero := congrArg BitVec.toNat haddr
  simp only [BitVec.toNat_ofNat, pgsize, kernbase] at *
  omega

/-- With as many arguments as `sys_exec` passes, all shorter than 32 MB, `exec` returns; and when it returns -1 it has left
    every process as it was, if and only if it does not get as far as the stack or the arguments fit in the stack page. -/
theorem exec_all_or_nothing {args : List (List Byte)} (hcount : args.length < maxarg)
    (hlen : ∀ s ∈ args, s.length + 4 ≤ 2 ^ 32 - devspace) (env : ExecEnv) (path : List Byte) :
    (∀ p : Proc, p.execFile env path args ≠ none) ∧
      ((∀ p q : Proc, p.execFile env path args = some (-1, q) → q = p) ↔ env.reachesStack = false ∨ Fits args) := by
  by_cases hreach : env.reachesStack = true
  · simp only [ExecEnv.reachesStack, Bool.and_eq_true, History.reachesStack] at hreach
    obtain ⟨sz, hsome⟩ := Option.isSome_iff_exists.mp hreach.2
    obtain ⟨img, himg, htop⟩ := Option.bind_eq_some_iff.mp hsome
    have hexec (p : Proc) : p.execFile env path args = p.exec (some img) path args := by
      rw [Proc.execFile, himg]
      exact if_pos hreach.1
    have hnofault := buildStack_noFault htop hcount hlen
    constructor
    · intro p
      rw [hexec]
      simp only [Proc.exec, htop]
      split
      · exact absurd ‹_› hnofault
      · exact Option.some_ne_none _
      · exact Option.some_ne_none _
    constructor
    · intro h
      right
      by_contra hfits
      obtain ⟨hlow, hhigh⟩ := stackTop_some htop
      have hbad : img.buildStack sz args = .error .bad := by
        cases hb : img.buildStack sz args with
        | ok a => exact absurd (fits_of_buildStack htop hb) hfits
        | error e =>
          cases e with
          | bad => rfl
          | fault => exact absurd hb hnofault
      refine setSigret_zeroed hlow hhigh (h .zeroed _ ?_)
      rw [hexec]
      simp only [Proc.exec, htop, hbad]
    · intro h p q hpq
      have hfits := h.resolve_left (by simp [ExecEnv.reachesStack, History.reachesStack, hreach.1, himg, htop])
      obtain ⟨a, ha⟩ := buildStack_fits htop hcount hfits
      rw [hexec] at hpq
      simp only [Proc.exec, htop, ha] at hpq
      cases hpq
  · -- The process is not touched before the pages of the stack are there.
    have hearly (p : Proc) : p.execFile env path args = some (-1, p) := by
      unfold Proc.execFile
      split
      · rfl
      · rename_i img himg
        split
        · rename_i hstack
          cases htop : img.stackTop with
          | none => simp only [Proc.exec, htop]
          | some sz => simp [ExecEnv.reachesStack, History.reachesStack, hstack, himg, htop] at hreach
        · rfl
    refine ⟨fun p => by rw [hearly]; exact Option.some_ne_none _, fun _ => .inl (Bool.of_not_eq_true hreach),
      fun _ p q hpq => ?_⟩
    rw [hearly] at hpq
    cases hpq
    rfl

/-- A file with one program header, that of a page, and enough memory. -/
def smallFile : ExecEnv :=
  ⟨true, true, true, [⟨1, 0, 0x1000, 0x1000⟩], ⟨fun _ => true, fun _ => true, fun _ => true⟩, true, fun _ => 0x90, 0,
    0x80404000⟩

/-- Two arguments, of one byte and of five; and one of 5000 bytes. -/
theorem exec_all_or_nothing_two :
    (∀ p q : Proc, p.execFile smallFile [0x70] [[0x61], [0x62, 0x63, 0x64, 0x65, 0x66]] = some (-1, q) → q = p) ∧
      ¬∀ p q : Proc, p.execFile smallFile [0x70] [List.replicate 5000 0x61] = some (-1, q) → q = p := by
  refine ⟨(exec_all_or_nothing (by decide) (by decide) smallFile [0x70]).2.mpr (.inr (by decide)), ?_⟩
  refine mt (exec_all_or_nothing (by decide) ?_ smallFile [0x70]).2.mp (by decide +kernel)
  rw [List.forall_mem_singleton, List.length_replicate]
  decide

/-- One argument of 5000 bytes: the process keeps running in its old image with the address of the trampoline of the new
    one. -/
theorem exec_disturbs : ∃ q, Proc.zeroed.execFile smallFile [0x70] [List.replicate 5000 0x61] = some (-1, q) ∧
    q.sigretAdd = 0x2FFC ∧ Proc.zeroed.sigretAdd = 0 := by
  have hrun : (Proc.zeroed.execFile smallFile [0x70] [List.replicate 5000 0x61]).any (fun r =>
      decide (r.1 = -1 ∧ r.2.sigretAdd = 0x2FFC)) = true := by decide +kernel
  obtain ⟨⟨v, q⟩, hq, h⟩ := (Option.any_eq_true _ _).mp hrun
  obtain ⟨rfl, hsigret⟩ := of_decide_eq_true h
  exact ⟨q, hq, hsigret, rfl⟩

end Xv6
