import Xv6.Theorems.InitialStack
import Xv6.Theorems.OneOwner
import Xv6.Theorems.Slots

/-! The system of pages and the process table have the same processes: each operation on the pages is a system call of
    the table, and leaves both with the same states, parents, sizes and descriptors. -/

namespace Xv6.Pages
open Lib Vm

/-- Pages do not tell whether a process runs or waits. -/
def settled : ProcState → ProcState
  | .sleeping | .running => .runnable
  | s => s

/-- What both models tell about a process. -/
structure View where
  state : ProcState
  parent : Option (Fin nproc)
  sz : Nat
  ofile : Fin nofile → Addr

def view (p : Xv6.Proc) : View := ⟨settled p.state, p.parent, p.sz.toNat, p.ofile⟩

/-- The files are at the addresses `files`. -/
def Proc.view (files : Fin nfile → Addr) (q : Proc) : View :=
  ⟨settled q.state, q.parent, q.sz, fun fd => (q.ofile fd).elim 0 files⟩

structure Follows (files : Fin nfile → Addr) (k : Kernel) (s : State) : Prop where
  initproc : k.initproc = some 0
  proc : ∀ i, view (k.proc i) = (s.proc i).view files

section
variable {files : Fin nfile → Addr} {l : KernelLayout} {L : Layout} {k : Kernel} {s s' : State} {i j : Fin nproc}
  {p : Xv6.Proc} {q : Proc} {free : List Frame}

theorem settled_unused {a : ProcState} : settled a = .unused ↔ a = .unused := by
  cases a <;> simp [settled]

theorem settled_zombie {a : ProcState} : settled a = .zombie ↔ a = .zombie := by
  cases a <;> simp [settled]

namespace Follows

theorem state (h : Follows files k s) (i : Fin nproc) : settled (k.proc i).state = settled (s.proc i).state :=
  congrArg View.state (h.proc i)

theorem parent (h : Follows files k s) (i : Fin nproc) : (k.proc i).parent = (s.proc i).parent :=
  congrArg View.parent (h.proc i)

theorem sz (h : Follows files k s) (i : Fin nproc) : (k.proc i).sz.toNat = (s.proc i).sz := congrArg View.sz (h.proc i)

theorem ofile (h : Follows files k s) (i : Fin nproc) (fd : Fin nofile) :
    (k.proc i).ofile fd = ((s.proc i).ofile fd).elim 0 files :=
  congrFun (congrArg View.ofile (h.proc i)) fd

theorem set (h : Follows files k s) (hp : view p = (s'.proc i).view files)
    (hother : ∀ j ≠ i, s'.proc j = s.proc j) : Follows files (k.set i p) s' := by
  refine ⟨h.initproc, fun j => ?_⟩
  by_cases hj : j = i
  · rw [hj, Kernel.set_self, hp]
  · rw [Kernel.set_of_ne k p hj, hother j hj, h.proc j]

theorem setProc (h : Follows files k s) (hp : view p = q.view files) :
    Follows files (k.set i p) ({ s with free }.setProc i q) := by
  have hself : ({ s with free }.setProc i q).proc i = q := Function.update_self ..
  exact h.set (by rwa [hself]) fun _ hj => Function.update_of_ne hj ..

theorem same (h : Follows files k s) (hp : view p = view (k.proc i)) : Follows files (k.set i p) s :=
  h.set (hp.trans (h.proc i)) fun _ _ => rfl

theorem ret (h : Follows files k s) (i : Fin nproc) (v : Word) : Follows files (k.ret i v) s := h.same rfl

theorem wakeup1 (h : Follows files k s) (chan : Addr) : Follows files (k.wakeup1 chan) s := by
  refine ⟨h.initproc, fun j => ?_⟩
  rw [← h.proc j]
  simp only [Kernel.wakeup1]
  split
  · rename_i hsleep
    simp only [view, hsleep.1, settled]
  · rfl

/-! ### Calls that name a process -/

theorem freeSlot (h : Follows files k s) : k.freeSlot = s.freeSlot := by
  unfold Kernel.freeSlot State.freeSlot
  congr 1
  funext j
  exact decide_eq_decide.mpr (by rw [← settled_unused, h.state j, settled_unused])

theorem fork (h : Follows files k s) (hrun : (k.proc i).state = .running)
    (hc : s.Consistent) (hf : Forked s i s') : ∃ kstack pgdir, Follows files (k.fork i kstack pgdir).2 s' := by
  suffices hall : ∃ page, ∀ k', Xv6.Forked k i page page k' → Follows files k' s' by
    obtain ⟨page, hall⟩ := hall
    exact ⟨page, page, hall _ (fork_forked hrun page page)⟩
  have hnext (n : Int) : Follows files { k with nextpid := n } s := ⟨h.initproc, h.proc⟩
  have hfree := h.freeSlot
  cases hf with
  | full hnone =>
    refine ⟨0, fun k' hforked => ?_⟩
    cases hforked with
    | full => exact h
    | failed hsome | child hsome => cases hsome.symm.trans (hfree.trans hnone)
  | @failed j _ _ _ hsome =>
    refine ⟨0, fun k' hforked => ?_⟩
    cases hforked with
    | full hnone => cases hnone.symm.trans (hfree.trans hsome)
    | failed hsome' =>
      cases hsome'.symm.trans (hfree.trans hsome)
      have hj := freeSlot_unused hsome'
      refine (hnext _).setProc (Eq.trans ?_ (h.proc j))
      simp only [view, hj]
      rfl
    | child _ hok => exact absurd (.inl rfl) hok
  | @child j _ _ _ hsome hchild hother =>
    refine ⟨1, fun k' hforked => ?_⟩
    cases hforked with
    | full hnone => cases hnone.symm.trans (hfree.trans hsome)
    | failed _ hfail => exact absurd hfail (by decide)
    | child hsome' =>
      cases hsome'.symm.trans (hfree.trans hsome)
      refine (hnext _).set ?_ hother
      have hj : (s.proc j).state = .unused := by simpa using List.find?_some hsome
      have hofile (fd : Fin nofile) : (if (k.proc i).ofile fd ≠ 0 then (k.proc i).ofile fd else (k.proc j).ofile fd) =
          ((s.proc i).ofile fd).elim 0 files := by
        rw [h.ofile i, h.ofile j, hc.closed j (.inl hj) fd]
        exact ite_eq_left_iff.mpr fun hzero => (not_not.mp hzero).symm
      rw [hchild]
      simp only [view, hofile, h.sz i]
      rfl

theorem passChildren (h : Follows files k s) : Follows files (k.passChildren L i)
    { s with proc := fun j => if (s.proc j).parent = some i then { s.proc j with parent := some 0 } else s.proc j } := by
  have hmoved : Follows files (k.reparent i)
      { s with proc := fun j => if (s.proc j).parent = some i then { s.proc j with parent := some 0 } else s.proc j } := by
    refine ⟨h.initproc, fun j => ?_⟩
    simp only [Kernel.reparent, h.parent j, h.initproc]
    split
    · exact congrArg (fun v => { v with parent := some 0 }) (h.proc j)
    · exact h.proc j
  simp only [Kernel.passChildren]
  split
  · exact hmoved.wakeup1 _
  · exact hmoved

theorem exit (h : Follows files k s) (hc : s.Consistent) (hs : exit l s i = some s') :
    ∃ k', k.exit L i = some k' ∧ Follows files k' s' := by
  unfold Pages.exit at hs
  split at hs
  · cases hs
  rename_i hi
  obtain ⟨s₁, hclose, heq⟩ := Option.map_eq_some_iff.mp hs
  cases heq
  obtain ⟨-, -, hsame, hnone⟩ := closeFiles_spec hc.files hclose
  have hinit : ¬k.initproc = some i := by
    rw [h.initproc]
    exact fun hc => hi (Option.some.inj hc).symm
  obtain ⟨k', hexit⟩ : ∃ k', k.exit L i = some k' := ⟨_, if_neg hinit⟩
  obtain ⟨-, k₁, k₂, hk₁, hk₂, rfl⟩ := exit_steps hexit
  have hclosed : Follows files k₁ s₁ := by
    rw [hk₁]
    refine h.set ?_ hsame.other
    have hofile : (s₁.proc i).ofile = fun _ => none := funext fun fd => hnone fd (.inr (List.mem_finRange fd))
    rw [hsame.self, hofile]
    exact congrArg (fun v => { v with ofile := fun _ => 0 }) (h.proc i)
  have hwoken : Follows files k₂ s₁ := hk₂ ▸ hclosed.wakeup1 _
  have hpassed := hwoken.passChildren (L := L) (i := i)
  exact ⟨_, hexit, hpassed.setProc (congrArg (fun v => { v with state := .zombie }) (hpassed.proc i))⟩

theorem wait (h : Follows files k s) (hrun : (k.proc i).state = .running) (hs : wait l s i = some s') :
    ∃ k', k.step L (.wait i) = some k' ∧ Follows files k' s' := by
  suffices hk : Follows files (k.wait L i).2 s' by
    simp only [Kernel.step, Kernel.byRunning, if_pos hrun]
    generalize k.wait L i = r at hk ⊢
    rcases r with ⟨_ | _, k'⟩
    · exact ⟨_, rfl, hk.ret ..⟩
    · exact ⟨_, rfl, hk⟩
  have hsame : ((List.finRange nproc).find? fun j => (k.proc j).parent = some i ∧ (k.proc j).state = .zombie) =
      (List.finRange nproc).find? fun j => (s.proc j).parent = some i ∧ (s.proc j).state = .zombie := by
    congr 1
    funext j
    exact decide_eq_decide.mpr (by rw [h.parent j, ← settled_zombie, h.state j, settled_zombie])
  unfold Pages.wait at hs
  unfold Kernel.wait
  rw [hsame]
  split at hs
  · rename_i hfind
    cases hs
    rw [hfind]
    dsimp only
    split
    · exact h
    · refine h.same ?_
      simp only [view, hrun]
      rfl
  · rename_i j hfind
    rw [hfind]
    split at hs
    · split at hs
      · cases hs
      · obtain ⟨free, -, heq⟩ := Option.map_eq_some_iff.mp hs
        cases heq
        exact h.setProc (congrArg (fun v => { v with parent := none, state := .unused }) (h.proc j))
    · cases hs

/-! ### Calls that change the process -/

theorem onlyFiles (h : Follows files k s) (hsame : OnlyFiles i s s') (cwd : Addr) (mem : Mem) :
    Follows files (k.set i { k.proc i with ofile := fun fd => ((s'.proc i).ofile fd).elim 0 files, cwd, mem }) s' := by
  refine h.set ?_ hsame.other
  rw [hsame.self]
  exact congrArg (fun v => { v with ofile := fun fd => ((s'.proc i).ofile fd).elim 0 files }) (h.proc i)

theorem growproc {n : Int} (h : Follows files k s) (hrun : (k.proc i).state = .running) (hs : growproc l s i n = some s') :
    ∃ enough k', k.step L (.sbrk i n enough) = some k' ∧ Follows files k' s' := by
  have hsz := h.sz i
  have hnew : ((((s.proc i).sz : Int) + n) % 0x100000000).toNat = ((k.proc i).sz + BitVec.ofInt 32 n).toNat := by
    rw [← hsz, BitVec.toNat_add, BitVec.toNat_ofInt]
    omega
  unfold Pages.growproc at hs
  split at hs
  · cases hs
  obtain ⟨⟨r, m⟩, hm, heq⟩ := Option.map_eq_some_iff.mp hs
  cases heq
  suffices hsize : ∃ enough, ((Kernel.growproc (k.proc i) n enough).getD (k.proc i)).sz.toNat =
      if r = 0 ∧ n ≠ 0 then (s.proc i).sz else r by
    obtain ⟨enough, hsize⟩ := hsize
    have hview := congrArg (fun v => { v with sz := if r = 0 ∧ n ≠ 0 then (s.proc i).sz else r }) (h.proc i)
    dsimp only
    rw [← hsize] at hview ⊢
    refine ⟨enough, ?_⟩
    simp only [Kernel.step, Kernel.byRunning, if_pos hrun]
    cases hgrow : Kernel.growproc (k.proc i) n enough with
    | none =>
      rw [hgrow] at hview
      exact ⟨_, rfl, h.setProc hview⟩
    | some q =>
      rw [hgrow] at hview
      obtain ⟨sz, mem, rfl⟩ := growproc_some hgrow
      exact ⟨_, rfl, (h.setProc hview).ret ..⟩
  rw [hnew, ← hsz] at hm
  rw [← hsz]
  unfold Kernel.growproc
  split_ifs at hm with hpos hneg
  · obtain ⟨ok, hok, hvalue⟩ := allocuvm_size hm
    refine ⟨ok, ?_⟩
    simp only [if_pos hpos, BitVec.lt_def]
    split_ifs at hvalue with hbig hsmall hroom
    · rw [if_pos hbig, if_pos ⟨hvalue.symm, hpos.ne'⟩]
      rfl
    · rw [if_neg hbig, if_pos hsmall, ← hvalue, ite_self]
      rfl
    · rw [if_neg hbig, if_neg hsmall, if_pos (.inl hroom), ← hvalue]
      split_ifs
      · simp only [Option.getD_some]
        omega
      · rfl
    · rw [if_neg hbig, if_neg hsmall, if_neg, if_pos ⟨hvalue.symm, hpos.ne'⟩]
      · rfl
      · exact not_or.mpr ⟨hroom, Nat.not_le.mpr (hok (eq_false_of_ne_true hroom))⟩
  · generalize (k.proc i).sz + BitVec.ofInt 32 n = w at hm ⊢
    obtain ⟨sz, hmin⟩ : ∃ sz, sz = if w ≥ (k.proc i).sz then (k.proc i).sz else w := ⟨_, rfl⟩
    have hr : sz.toNat = r := by
      rw [hmin]
      exact (apply_ite ..).trans (deallocuvm_size hm)
    refine ⟨true, ?_⟩
    simp only [if_neg hpos, if_pos hneg, ← hmin, ← hr]
    by_cases hzero : sz = 0
    · simp [hzero, hneg.ne]
    · rw [if_neg hzero, if_neg fun hc => hzero (BitVec.eq_of_toNat_eq hc.1)]
      rfl
  · cases hm
    refine ⟨true, ?_⟩
    simp only [if_neg hpos, if_neg hneg, Option.getD_some]
    rw [if_neg fun hc => hc.2 (by omega)]

end Follows

/-! ### `exec` -/

theorem allocuvm_word {m m' : Space} {sz r : Nat} {w : Word} (hsz : sz ≤ kernbase)
    (h : allocuvm l m sz w.toNat = some (r, m')) : ∃ ok, allocuvmSize (BitVec.ofNat 32 sz) w ok = BitVec.ofNat 32 r := by
  obtain ⟨ok, -, rfl⟩ := allocuvm_size h
  refine ⟨ok, ?_⟩
  have hlt : sz < 2 ^ 32 := Nat.lt_of_le_of_lt hsz (by decide)
  simp only [allocuvmSize, BitVec.lt_def, BitVec.toNat_ofNat, Nat.mod_eq_of_lt hlt]
  split_ifs <;> simp

theorem loadSegments_size {env : LoadEnv} {phs : List Proghdr} {n sz : Nat} {m m' : Space} {o : Option Nat}
    (hsz : sz ≤ kernbase) (h : loadSegments l env phs n m sz = some (o, m')) :
    ∃ enough : Nat → Bool, ∀ e : Nat → Bool, (∀ j ≥ n, e j = enough j) →
      loadSize { env with enough := e } phs n (BitVec.ofNat 32 sz) = o.map (BitVec.ofNat 32) := by
  induction phs generalizing n sz m with
  | nil =>
    cases h
    exact ⟨fun _ => true, fun _ _ => rfl⟩
  | cons ph phs ih =>
    unfold loadSegments at h
    unfold loadSize
    dsimp only
    split_ifs at h ⊢ with hheader htype hfilesz hwrap halign hsegment
    · cases h
      exact ⟨fun _ => true, fun _ _ => rfl⟩
    · obtain ⟨enough, ih⟩ := ih hsz h
      exact ⟨enough, fun e he => ih e fun j hj => he j (Nat.le_of_succ_le hj)⟩
    · cases h
      exact ⟨fun _ => true, fun _ _ => rfl⟩
    · cases h
      exact ⟨fun _ => true, fun _ _ => rfl⟩
    -- A segment that cannot be read fails, whether there is memory or not.
    · simp only [ite_self] at h ⊢
      split at h <;> cases h
      exact ⟨fun _ => true, fun _ _ => rfl⟩
    · simp only [ite_self] at h ⊢
      split at h <;> cases h
      exact ⟨fun _ => true, fun _ _ => rfl⟩
    · split at h
      · cases h
      rename_i r m₁ halloc
      have hr := allocuvm_sz hsz halloc
      obtain ⟨ok, hword⟩ := allocuvm_word hsz halloc
      have hzero : BitVec.ofNat 32 r = (0 : Word) ↔ r = 0 := by
        rw [← BitVec.toNat_inj, BitVec.toNat_ofNat, Nat.mod_eq_of_lt (Nat.lt_of_le_of_lt hr (by decide))]
        rfl
      split_ifs at h with h0
      · cases h
        refine ⟨fun _ => ok, fun e he => ?_⟩
        rw [he n (le_refl n), hword, if_pos (hzero.mpr h0)]
        rfl
      · obtain ⟨enough, ih⟩ := ih hr h
        refine ⟨Function.update enough n ok, fun e he => ?_⟩
        rw [he n (le_refl n), Function.update_self, hword, if_neg (mt hzero.mp h0)]
        exact ih e fun j hj => (he j (Nat.le_of_succ_le hj)).trans (Function.update_of_ne (Nat.ne_of_gt hj) ..)

theorem buildImage_image {env : ExecEnv} {m m' : Space} {sz : Nat} (h : buildImage l env m = some (some sz, m')) :
    ∃ enough img, Image.load { env.load with enough } env.phs (fun _ => 0) 0 0 = some img ∧ img.stackTop = some sz := by
  unfold buildImage at h
  split at h
  · cases h
  · cases h
  rename_i sz₀ m₁ hload
  split at h
  · cases h
  rename_i r m₂ halloc
  split at h
  · cases h
  obtain ⟨m₃, -, heq⟩ := Option.map_eq_some_iff.mp h
  obtain rfl : r = sz := by
    split at heq <;> cases heq
    rfl
  obtain ⟨enough, hsize⟩ := loadSegments_size (Nat.zero_le _) hload
  have hsize := hsize enough fun _ _ => rfl
  have hsz₀ := (loadSegments_spec (Nat.zero_le _) hload).2 sz₀ rfl
  obtain ⟨ok, -, hvalue⟩ := allocuvm_size halloc
  have htop : 2 * pgsize + pgroundup sz₀ = r ∧ ¬r ≥ kernbase := by
    split_ifs at hvalue <;> omega
  refine ⟨enough, ?_⟩
  unfold Image.load
  split
  · rename_i hnone
    cases hnone.symm.trans hsize
  · rename_i w hw
    cases hw.symm.trans hsize
    have hmod : sz₀ % 2 ^ 32 = sz₀ := Nat.mod_eq_of_lt (Nat.lt_of_le_of_lt hsz₀ (by decide))
    refine ⟨_, rfl, ?_⟩
    simp only [Image.stackTop, BitVec.toNat_ofNat, hmod, htop.1, if_neg htop.2]

theorem Follows.exec {env : ExecEnv} (h : Follows files k s) (hs : exec l s i env = some s') :
    ∃ (x : Xv6.ExecEnv) (r : Int × Xv6.Proc), x.phs = env.phs ∧ (k.proc i).exec x.image [] [] = some r ∧
      Follows files (k.set i r.2) s' := by
  -- A call that fails leaves the process alone.
  have hfail (free : List Frame) : ∃ (x : Xv6.ExecEnv) (r : Int × Xv6.Proc), x.phs = env.phs ∧
      (k.proc i).exec x.image [] [] = some r ∧ Follows files (k.set i r.2) { s with free } :=
    ⟨⟨false, env.elf, true, env.phs, env.load, true, fun _ => 0, 0, 0⟩, _, rfl, rfl, h.set (h.proc i) fun _ _ => rfl⟩
  unfold Pages.exec at hs
  split at hs
  · cases hs
    exact hfail s.free
  split at hs
  · cases hs
  · cases hs
    exact hfail _
  split at hs
  · cases hs
  · obtain ⟨free, -, heq⟩ := Option.map_eq_some_iff.mp hs
    cases heq
    exact hfail free
  rename_i sz m hbuild
  split at hs
  · cases hs
  obtain ⟨free, -, heq⟩ := Option.map_eq_some_iff.mp hs
  cases heq
  obtain ⟨enough, img, himage, htop⟩ := buildImage_image hbuild
  obtain ⟨a, ha⟩ : ∃ a, img.buildStack sz [] = .ok a := buildStack_fits htop (by decide) (by decide)
  have hexec : (k.proc i).exec (some img) [] [] = some (0, ((k.proc i).setSigret sz).commit img sz a []) := by
    simp only [Proc.exec, htop, ha]
  have hsz : sz % 2 ^ 32 = sz := Nat.mod_eq_of_lt (Nat.lt_trans (stackTop_some htop).2 (by decide))
  refine ⟨⟨true, true, true, env.phs, { env.load with enough }, true, fun _ => 0, 0, 0⟩, _, rfl, himage ▸ hexec, ?_⟩
  have hview : view (((k.proc i).setSigret sz).commit img sz a []) = { view (k.proc i) with sz := sz % 2 ^ 32 } := rfl
  refine h.setProc (hview.trans ?_)
  rw [hsz, h.proc i]
  rfl

end

/-! ### Runs -/

/-- The operation is the action `a` of process `i`. -/
def Op.Calls (i : Fin nproc) (a : Action) : Op → Prop
  | .fork => ∃ kstack pgdir, a = .fork i kstack pgdir
  | .exec env => ∃ (x : Xv6.ExecEnv), x.phs = env.phs ∧ a = .exec i x.image [] []
  | .sbrk n => ∃ enough, a = .sbrk i n enough
  | .pipe | .close _ => ∃ ofile cwd mem eax, a = .other i ofile cwd mem eax
  | .exit => a = .exit i
  | .wait => a = .wait i

/-- The process is woken up and scheduled if it does not run, and makes the call. -/
def CallStep (L : Layout) (k : Kernel) (e : Fin nproc × Op) (k' : Kernel) : Prop :=
  ∃ tr k₁ a, Run (OfStep (Kernel.step L)) k tr k₁ ∧ (∀ x ∈ tr, x.2 = .scheduler e.1 ∨ ∃ chan, x.2 = .wakeup chan) ∧
    e.2.Calls e.1 a ∧ k₁.step L a = some k'

section
variable {files : Fin nfile → Addr} {l : KernelLayout} {L : Layout} {k : Kernel} {s s' : State} {i : Fin nproc}

theorem Follows.call {op : Op} (h : Follows files k s) (hc : s.Consistent) (hrun : (k.proc i).state = .running)
    (hs : step l s (i, op) = some s') : ∃ a k', op.Calls i a ∧ k.step L a = some k' ∧ Follows files k' s' := by
  have hother (hsame : OnlyFiles i s s') : ∃ a k', (∃ ofile cwd mem eax, a = .other i ofile cwd mem eax) ∧
      k.step L a = some k' ∧ Follows files k' s' :=
    ⟨_, _, ⟨_, 0, fun _ => 0, 0, rfl⟩, if_pos hrun, (h.onlyFiles hsame 0 fun _ => 0).ret i 0⟩
  unfold step at hs
  split at hs
  · cases hs
  rename_i hlive
  cases op with
  | fork =>
    obtain ⟨kstack, pgdir, hk⟩ := h.fork hrun hc (fork_spec hc hlive hs).2
    exact ⟨_, _, ⟨kstack, pgdir, rfl⟩, if_pos hrun, hk.ret ..⟩
  | exec env =>
    obtain ⟨x, r, hx, hr, hk⟩ := h.exec hs
    refine ⟨_, _, ⟨x, hx, rfl⟩, (if_pos hrun).trans ?_, hk.ret i (BitVec.ofInt 32 r.1)⟩
    rw [hr]
    rfl
  | sbrk n =>
    obtain ⟨enough, k', hk⟩ := h.growproc hrun hs
    exact ⟨_, k', ⟨enough, rfl⟩, hk⟩
  | pipe => exact hother (sysPipe_spec hc hlive hs).2
  | close fd => exact hother (sysClose_spec hc hlive hs).2
  | exit =>
    obtain ⟨k', hexit, hk⟩ := h.exit (L := L) hc hs
    exact ⟨_, k', rfl, (if_pos hrun).trans hexit, hk⟩
  | wait =>
    obtain ⟨k', hk⟩ := h.wait hrun hs
    exact ⟨_, k', rfl, hk⟩

theorem Follows.scheduled (h : Follows files k s) (hlive : settled (s.proc i).state = .runnable) :
    ∃ tr k₁, Run (OfStep (Kernel.step L)) k tr k₁ ∧ (∀ x ∈ tr, x.2 = .scheduler i ∨ ∃ chan, x.2 = .wakeup chan) ∧
      (k₁.proc i).state = .running ∧ Follows files k₁ s := by
  have hpick {k : Kernel} (h : Follows files k s) (hi : (k.proc i).state = .runnable) :
      ∃ k₁, k.step L (.scheduler i) = some k₁ ∧ (k₁.proc i).state = .running ∧ Follows files k₁ s := by
    refine ⟨_, if_pos hi, by rw [Kernel.set_self], h.same ?_⟩
    simp only [view, hi]
    rfl
  rw [← h.state] at hlive
  cases hstate : (k.proc i).state with
  | running => exact ⟨[], k, .nil, by simp, hstate, h⟩
  | runnable =>
    obtain ⟨k₁, hs, hk⟩ := hpick h hstate
    exact ⟨_, k₁, .snoc .nil hs, by simp, hk⟩
  | sleeping =>
    have hwoken : ((k.wakeup1 (k.proc i).chan).proc i).state = .runnable := by simp [Kernel.wakeup1, hstate]
    obtain ⟨k₁, hs, hk⟩ := hpick (h.wakeup1 _) hwoken
    exact ⟨_, k₁, .snoc (.snoc .nil (rfl : k.step L (.wakeup _) = _)) hs, by simp, hk⟩
  | unused | embryo | zombie =>
    rw [hstate] at hlive
    cases hlive

theorem Follows.step {e : Fin nproc × Op} (h : Follows files k s) (hc : s.Consistent) (hs : step l s e = some s') :
    ∃ k', CallStep L k e k' ∧ Follows files k' s' := by
  have hlive : settled (s.proc e.1).state = .runnable := by
    unfold Pages.step at hs
    split at hs
    · cases hs
    · rename_i hlive
      cases hstate : (s.proc e.1).state <;> simp [hstate, settled] at hlive ⊢
  obtain ⟨tr, k₁, hr, htr, hrun, hk₁⟩ := h.scheduled (L := L) hlive
  obtain ⟨a, k', ha, hstep, hk⟩ := hk₁.call hc hrun hs
  exact ⟨k', ⟨tr, k₁, a, hr, htr, ha, hstep⟩, hk⟩

end

/-- The processes of the pages after the boot and any operations are those of the table after `userinit` and the same
    calls. -/
theorem pages_follow {l : KernelLayout} {L : Layout} {s₀ s : State} {tr : List (State × (Fin nproc × Op))}
    (h₀ : boot l = some s₀) (hr : Run (OfStep (step l)) s₀ tr s) (files : Fin nfile → Addr) {kstack : Addr}
    (hstack : kstack ≠ 0) (pgdir : Addr) (initcode : Mem) (cwd : Addr) :
    ∃ tr' k, Run (CallStep L) (Kernel.zeroed.userinit kstack pgdir initcode cwd) tr' k ∧
      tr'.map (·.2) = tr.map (·.2) ∧ Follows files k s := by
  obtain ⟨hc, free, kpgdir, stack, dir, rfl⟩ := boot_first h₀
  have hfirst : Follows files (Kernel.zeroed.userinit kstack pgdir initcode cwd)
      (firstState free kpgdir stack dir pgsize) := by
    have hbooted := userinit_booted kstack pgdir initcode cwd
    generalize Kernel.zeroed.userinit kstack pgdir initcode cwd = k at hbooted ⊢
    cases hbooted with
    | failed h0 => exact absurd h0 hstack
    | ready =>
      refine ⟨rfl, fun i => ?_⟩
      by_cases hi : i = 0
      · rw [hi, Kernel.set_self]
        rfl
      · rw [Kernel.set_of_ne _ _ hi]
        simp only [firstState, if_neg hi]
        rfl
  obtain ⟨tr', k, hr', htr, hk⟩ := hr.simulates (R := fun s k => s.Consistent ∧ Follows files k s) ⟨hc, hfirst⟩
    fun h hs => by
      obtain ⟨k', hk', h'⟩ := h.2.step (L := L) h.1 hs
      exact ⟨k', hk', step_consistent h.1 hs, h'⟩
  exact ⟨tr', k, hr', htr, hk.2⟩

end Xv6.Pages
