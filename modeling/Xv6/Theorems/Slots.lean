import Xv6.System

/-! What a step of the kernel does to one slot of the process table. Most steps leave alone the fields that
    the results about frames, arguments and images speak of; `step_slot` sorts out those that do not. -/

namespace Xv6
open Lib

/-! ### Slots that stay as they are -/

def Live (p : Proc) : Prop := p.state ≠ .unused ∧ p.state ≠ .embryo

def Busy (p : Proc) : Prop := p.state = .sleeping ∨ p.state = .runnable ∨ p.state = .running

theorem Busy.live {p : Proc} (h : Busy p) : Live p := by
  rcases h with h | h | h <;> simp [Live, h]

/-- The fields that few steps change: the mode, the stack pointer, the image and the handlers. -/
structure Core where
  cs : BitVec 16
  ss : BitVec 16
  intr : Word
  esp : Word
  sz : Word
  mem : Mem
  sighandlers : Fin numsig → Addr
  sigretAdd : Addr

def Proc.core (p : Proc) : Core where
  cs := p.frame.cs
  ss := p.frame.ss
  intr := p.frame.eflags &&& flIf
  esp := p.frame.esp
  sz := p.sz
  mem := p.mem
  sighandlers := p.sighandlers
  sigretAdd := p.sigretAdd

/-- A step from `p` to `p'` brings no new process into the slot, and leaves the core of the one there. -/
def Kept (p p' : Proc) : Prop := Live p' → Live p ∧ p'.core = p.core

/-- In addition, the process does not exit. -/
structure Same (p p' : Proc) : Prop where
  kept : Kept p p'
  busy : Busy p → Busy p'

section Same
variable {p p' p'' : Proc}

theorem Kept.trans (h : Kept p p') (h' : Kept p' p'') : Kept p p'' := fun hlive =>
  have ⟨hlive', heq'⟩ := h' hlive
  have ⟨hlive'', heq⟩ := h hlive'
  ⟨hlive'', heq'.trans heq⟩

theorem Same.trans (h : Same p p') (h' : Same p' p'') : Same p p'' := ⟨h.kept.trans h'.kept, h'.busy ∘ h.busy⟩

theorem Same.of_core (hstate : p'.state = p.state) (hcore : p'.core = p.core) : Same p p' :=
  ⟨fun h => ⟨by rwa [Live, hstate] at h, hcore⟩, fun h => by rwa [Busy, hstate]⟩

theorem Same.refl (p : Proc) : Same p p := .of_core rfl rfl

theorem Same.of_busy (h : Busy p) (h' : Busy p') (hcore : p'.core = p.core) : Same p p' :=
  ⟨fun _ => ⟨h.live, hcore⟩, fun _ => h'⟩

/-- A slot without a running process may be given any contents as long as it holds no process then. -/
theorem Same.of_not_live (h : ¬Busy p) (h' : ¬Live p') : Same p p' := ⟨fun hl => absurd hl h', fun hb => absurd hb h⟩

end Same

/-! ### New processes -/

section Creation
variable (k : Kernel) {i : Fin nproc} {kstack : Addr}

/-- The slot that `allocproc` takes. -/
def Kernel.freeSlot (k : Kernel) : Option (Fin nproc) :=
  (List.finRange nproc).find? fun i => (k.proc i).state = .unused

theorem freeSlot_unused {k : Kernel} {j : Fin nproc} (h : k.freeSlot = some j) : (k.proc j).state = .unused := by
  simpa using List.find?_some h

/-- The fields that `allocproc` sets first. -/
def Kernel.newProc (k : Kernel) (j : Fin nproc) : Proc :=
  { k.proc j with
    pid := k.nextpid, pending := fun _ => 0, sighandlers := fun _ => defualtHandlerAdd, alarmTicksNum := 0 }

/-- `allocproc` finds no slot, or has no page for the kernel stack, or takes the slot. -/
inductive Allocated (k : Kernel) (kstack : Addr) : Option (Fin nproc) × Kernel → Prop
  | full (hfree : k.freeSlot = none) : Allocated k kstack (none, k)
  | failed {c} (hfree : k.freeSlot = some c) (hstack : kstack = 0) : Allocated k kstack
      (none, { k with nextpid := int32 (k.nextpid + 1) }.set c { k.newProc c with kstack, state := .unused })
  | took {c} (hfree : k.freeSlot = some c) (hstack : kstack ≠ 0) (tf context : Addr) (frame : Trapframe) :
      Allocated k kstack (some c, { k with nextpid := int32 (k.nextpid + 1) }.set c
        { k.newProc c with kstack, tf, context, frame, state := .embryo })

theorem allocproc_cases (kstack : Addr) : Allocated k kstack (k.allocproc kstack) := by
  unfold Kernel.allocproc
  split
  · rename_i hfree
    exact .full hfree
  · rename_i c hfree
    dsimp only
    split
    · rename_i h0
      exact .failed hfree h0
    · rename_i h0
      exact .took hfree h0 _ _ _

/-- The table after `userinit`, which takes slot 0. -/
inductive Booted (kstack pgdir : Addr) (initcode : Mem) (cwd : Addr) : Kernel → Prop
  | failed (hstack : kstack = 0) : Booted kstack pgdir initcode cwd
      ({ Kernel.zeroed with nextpid := 2 }.set 0 { Kernel.zeroed.newProc 0 with kstack, state := .unused })
  | ready (hstack : kstack ≠ 0) (tf context : Addr) (name : List Byte) : Booted kstack pgdir initcode cwd
      ({ Kernel.zeroed with nextpid := 2, initproc := some 0 }.set 0
        { Kernel.zeroed.newProc 0 with
          kstack, tf, context, pgdir, mem := initcode, sz := BitVec.ofNat 32 pgsize, frame := Kernel.initFrame, name, cwd
          state := .runnable })

theorem userinit_booted (kstack pgdir : Addr) (initcode : Mem) (cwd : Addr) :
    Booted kstack pgdir initcode cwd (Kernel.zeroed.userinit kstack pgdir initcode cwd) := by
  have hfirst : Kernel.zeroed.freeSlot = some 0 := by decide +kernel
  have h := allocproc_cases Kernel.zeroed kstack
  unfold Kernel.userinit
  generalize Kernel.zeroed.allocproc kstack = r at h ⊢
  cases h with
  | full hfree => cases hfirst.symm.trans hfree
  | failed hfree h0 =>
    cases hfirst.symm.trans hfree
    exact .failed h0
  | took hfree h0 tf context frame =>
    cases hfirst.symm.trans hfree
    simp only [Kernel.set_self, Kernel.set_set]
    exact .ready h0 tf context _

/-- What holds of a zeroed slot, and of slot 0 as `userinit` leaves it, holds of all slots. -/
theorem userinit_slot {P : Proc → Prop} {pgdir cwd : Addr} {initcode : Mem} (hzeroed : P .zeroed)
    (hfailed : P { Kernel.zeroed.newProc 0 with kstack, state := .unused })
    (hready : ∀ tf context name, P { Kernel.zeroed.newProc 0 with
      kstack, tf, context, pgdir, mem := initcode, sz := BitVec.ofNat 32 pgsize, frame := Kernel.initFrame, name, cwd
      state := .runnable })
    (j : Fin nproc) : P ((Kernel.zeroed.userinit kstack pgdir initcode cwd).proc j) := by
  have hbooted := userinit_booted kstack pgdir initcode cwd
  generalize Kernel.zeroed.userinit kstack pgdir initcode cwd = k at hbooted ⊢
  by_cases hj : j = 0
  · cases hbooted with
    | failed => rwa [hj, Kernel.set_self]
    | ready =>
      rw [hj, Kernel.set_self]
      exact hready _ _ _
  · cases hbooted <;> rwa [Kernel.set_of_ne _ _ hj]

theorem userinit_live {pgdir cwd : Addr} {initcode : Mem} {j : Fin nproc}
    (hlive : Live ((Kernel.zeroed.userinit kstack pgdir initcode cwd).proc j)) :
    ((Kernel.zeroed.userinit kstack pgdir initcode cwd).proc j).frame = Kernel.initFrame ∧
      ((Kernel.zeroed.userinit kstack pgdir initcode cwd).proc j).sighandlers = (fun _ => defualtHandlerAdd) ∧
      ((Kernel.zeroed.userinit kstack pgdir initcode cwd).proc j).sz = BitVec.ofNat 32 pgsize :=
  userinit_slot (P := fun p => Live p → p.frame = Kernel.initFrame ∧ p.sighandlers = (fun _ => defualtHandlerAdd) ∧
    p.sz = BitVec.ofNat 32 pgsize) (fun h => absurd rfl h.1) (fun h => absurd rfl h.1)
    (fun _ _ _ _ => ⟨rfl, rfl, rfl⟩) j hlive

/-- `fork` by slot `i` finds no slot, gives the slot up again, or makes a child in it. -/
inductive Forked (k : Kernel) (i : Fin nproc) (kstack pgdir : Addr) : Kernel → Prop
  | full (hfree : k.freeSlot = none) : Forked k i kstack pgdir k
  | failed {c stack dir tf context frame} (hfree : k.freeSlot = some c) (hfail : kstack = 0 ∨ pgdir = 0) :
      Forked k i kstack pgdir ({ k with nextpid := int32 (k.nextpid + 1) }.set c
        { k.newProc c with kstack := stack, pgdir := dir, tf, context, frame, state := .unused })
  | child {c tf context} (hfree : k.freeSlot = some c) (hok : ¬(kstack = 0 ∨ pgdir = 0)) :
      Forked k i kstack pgdir ({ k with nextpid := int32 (k.nextpid + 1) }.set c
        { k.newProc c with
          kstack, pgdir, tf, context, mem := (k.proc i).mem, sz := (k.proc i).sz, parent := some i
          frame := { (k.proc i).frame with eax := 0 }, alarmTicksNum := (k.proc i).alarmTicksNum
          ofile := fun fd => if (k.proc i).ofile fd ≠ 0 then (k.proc i).ofile fd else (k.proc c).ofile fd
          cwd := (k.proc i).cwd, name := (k.proc i).name, state := .runnable })

theorem fork_forked {k : Kernel} (hi : (k.proc i).state = .running) (kstack pgdir : Addr) :
    Forked k i kstack pgdir (k.fork i kstack pgdir).2 := by
  have h := allocproc_cases k kstack
  unfold Kernel.fork
  generalize k.allocproc kstack = r at h ⊢
  cases h with
  | full hfree => exact .full hfree
  | failed hfree h0 => exact .failed hfree (.inl h0)
  | @took c hfree h0 tf context frame =>
    have hic : i ≠ c := by
      rintro rfl
      exact absurd (hi.symm.trans (freeSlot_unused hfree)) (by simp)
    simp only [Kernel.set_self, Kernel.set_of_ne _ _ hic, Kernel.set_set]
    split
    · rename_i hp
      exact .failed hfree (.inr hp)
    · rename_i hp
      exact .child hfree (not_or.mpr ⟨h0, hp⟩)

end Creation

/-! ### The changes to a slot -/

/-- What a running process `j` makes of itself in a step, up to the value that the step returns in `eax`. -/
inductive Own (L : Layout) (k : Kernel) (j : Fin nproc) : Action → Proc → Prop
  | trap {frame mem} : Kernel.SameMode frame (k.proc j).frame →
      Own L k j (.trap j frame mem) { k.proc j with frame, mem }
  | exec {img path argv r} : (k.proc j).exec img path argv = some r → Own L k j (.exec j img path argv) r.2
  | sbrk {n enough p} : Kernel.growproc (k.proc j) n enough = some p → Own L k j (.sbrk j n enough) p
  | signal {sigNum newHandler} (n : Fin numsig) : (n.val : Int) = sigNum → Own L k j (.signal j sigNum newHandler)
      { k.proc j with sighandlers := Function.update (k.proc j).sighandlers n newHandler }
  | sigreturn : Own L k j (.sigreturn j) ((k.sigreturn L j).2.proc j)
  | other {ofile cwd mem eax} : Own L k j (.other j ofile cwd mem eax) { k.proc j with ofile, cwd, mem }
  | nested : StoresInside (k.proc j) → Own L k j (.nested j) (handlingSignal (k.proc j)).proc
  | trapret : StoresInside (k.proc j) → Own L k j (.trapret j) (handlingSignal (k.proc j)).proc

/-- The changes of which a step `a` from `k` is made up, each to slot `j`. -/
inductive Edit (L : Layout) (k : Kernel) (a : Action) (j : Fin nproc) : Proc → Proc → Prop
  | ret {p v} : Edit L k a j p { p with frame := { p.frame with eax := v } }
  | pend {p pending} : Edit L k a j p { p with pending }
  | reparent {p parent} : Edit L k a j p { p with parent }
  | move {p state chan} (hp : Busy p) (hq : state = .sleeping ∨ state = .runnable ∨ state = .running ∧ chan = 0) :
      Edit L k a j p { p with state, chan }
  | fault {p} (hp : p.state = .running) : Edit L k a j p { p with killed := 1 }
  | kill {i pid} (ha : a = .kill i pid) (hfind : ((List.finRange nproc).find? fun i => (k.proc i).pid = pid) = some j) :
      Edit L k a j (k.proc j) { k.proc j with killed := 1 }
  | close {p} (hp : p.state = .running) : Edit L k a j p { p with ofile := fun _ => 0, cwd := 0 }
  | exit {p} (ha : a = .exit j) (hp : p.state = .running) (hofile : p.ofile = fun _ => 0) :
      Edit L k a j p { p with state := .zombie }
  | reap {p} (hp : p.state = .zombie) : Edit L k a j p
      { p with kstack := 0, pid := 0, parent := none, name := [], killed := 0, state := .unused }
  | alarm {p ticksNum eax} (ha : a = .alarm j ticksNum eax) : Edit L k a j p { p with alarmTicksNum := ticksNum }
  | tick {p pending alarmTicksNum} (ha : a = .tick) : Edit L k a j p { p with pending, alarmTicksNum }
  | own {p} (hrun : (k.proc j).state = .running) (h : Own L k j a p) : Edit L k a j (k.proc j) p

abbrev Edits (L : Layout) (k : Kernel) (a : Action) (j : Fin nproc) : Proc → Proc → Prop :=
  Relation.ReflTransGen (Edit L k a j)

/-- A step `a` from `k` may make `k₂` of the table `k₁`. -/
structure Edited (L : Layout) (k : Kernel) (a : Action) (k₁ k₂ : Kernel) : Prop where
  slot : ∀ j, Edits L k a j (k₁.proc j) (k₂.proc j)
  nextpid : k₂.nextpid = k₁.nextpid

/-- What a step does to the table. -/
inductive Stepped (L : Layout) (k : Kernel) : Action → Kernel → Prop
  | edited {a k'} (h : Edited L k a k k') : Stepped L k a k'
  | fork {i kstack pgdir k₁ k'} (hi : (k.proc i).state = .running) (hf : Forked k i kstack pgdir k₁)
      (h : Edited L k (.fork i kstack pgdir) k₁ k') : Stepped L k (.fork i kstack pgdir) k'
  | wild {i k'} : Stepped L k (.wild i k') k'

section Edits
variable {L : Layout} {k k' k₁ k₂ k₃ : Kernel} {i j : Fin nproc} {a : Action} {p : Proc}

theorem Edited.refl (k₁ : Kernel) : Edited L k a k₁ k₁ := ⟨fun _ => .refl, rfl⟩

theorem Edited.trans (h : Edited L k a k₁ k₂) (h' : Edited L k a k₂ k₃) : Edited L k a k₁ k₃ :=
  ⟨fun j => (h.slot j).trans (h'.slot j), h'.nextpid.trans h.nextpid⟩

theorem Edited.sets (h : Edits L k a i (k₁.proc i) p) : Edited L k a k₁ (k₁.set i p) := by
  refine ⟨fun j => ?_, rfl⟩
  by_cases hj : j = i
  · subst hj
    rwa [Kernel.set_self]
  · rw [Kernel.set_of_ne k₁ p hj]

theorem Edited.set (h : Edit L k a i (k₁.proc i) p) : Edited L k a k₁ (k₁.set i p) := .sets (.single h)

theorem Edited.ret (h : Edited L k a k₁ k₂) (i : Fin nproc) (v : Word) : Edited L k a k₁ (k₂.ret i v) :=
  h.trans (.set .ret)

theorem wakeup1_edited (k₁ : Kernel) (chan : Addr) : Edited L k a k₁ (k₁.wakeup1 chan) := by
  refine ⟨fun j => ?_, rfl⟩
  simp only [Kernel.wakeup1]
  split
  · rename_i h
    exact .single (.move (.inl h.1) (.inr (.inl rfl)))
  · exact .refl

theorem wakeup1_running (chan : Addr) (hi : (k.proc i).state = .running) : (k.wakeup1 chan).proc i = k.proc i :=
  if_neg (by simp [hi])

theorem alarm_edited : Edited L k .tick k k.alarm := by
  refine ⟨fun j => .single ?_, rfl⟩
  simp only [Kernel.alarm, Kernel.tick]
  split_ifs <;> exact .tick rfl

theorem kill_edited (i : Fin nproc) (pid : Int) : Edited L k (.kill i pid) k (k.kill pid).2 := by
  unfold Kernel.kill
  split
  · exact .refl k
  · rename_i t hfind
    refine .sets (.head (.kill rfl hfind) ?_)
    by_cases h : (k.proc t).state = .sleeping
    · rw [if_pos h]
      exact .single (.move (.inl h) (.inr (.inl rfl)))
    · rw [if_neg h]

theorem sigsend_edited (pid sigNum : Int) : Edited L k a k (k.sigsend pid sigNum).2 := by
  unfold Kernel.sigsend
  split
  · exact .refl k
  · dsimp only
    split
    · exact .refl k
    · exact .set .pend

theorem wait_edited (hi : (k.proc i).state = .running) : Edited L k a k (k.wait L i).2 := by
  unfold Kernel.wait
  split
  · rename_i z hfind
    -- The slot that is freed held a zombie.
    have hz : (k.proc z).parent = some i ∧ (k.proc z).state = .zombie := by simpa using List.find?_some hfind
    exact .set (.reap hz.2)
  · split
    · exact .refl k
    · exact .set (.move (.inr (.inr hi)) (.inl rfl))

/-- The first step of `passChildren`. -/
def Kernel.reparent (k : Kernel) (i : Fin nproc) : Kernel :=
  { k with proc := fun j => if (k.proc j).parent = some i then { k.proc j with parent := k.initproc } else k.proc j }

theorem passChildren_edited (k₁ : Kernel) (i : Fin nproc) : Edited L k a k₁ (k₁.passChildren L i) := by
  have hparent : Edited L k a k₁ (k₁.reparent i) := by
    refine ⟨fun j => ?_, rfl⟩
    simp only [Kernel.reparent]
    split
    · exact .single .reparent
    · exact .refl
  simp only [Kernel.passChildren]
  split
  · exact hparent.trans (wakeup1_edited ..)
  · exact hparent

theorem passChildren_self (hi : (k.proc i).state = .running) :
    ((k.passChildren L i).proc i).ofile = (k.proc i).ofile ∧ ((k.passChildren L i).proc i).state = .running := by
  have hparent : ((k.reparent i).proc i).ofile = (k.proc i).ofile ∧ ((k.reparent i).proc i).state = .running := by
    simp only [Kernel.reparent]
    split
    · exact ⟨rfl, hi⟩
    · exact ⟨rfl, hi⟩
  simp only [Kernel.passChildren]
  split
  · have hwoken := wakeup1_running (Kernel.chanOf L k.initproc) hparent.2
    exact hwoken ▸ hparent
  · exact hparent

theorem exit_steps (h : k.exit L i = some k') : k.initproc ≠ some i ∧
    ∃ k₁ k₂ : Kernel, k₁ = k.set i { k.proc i with ofile := fun _ => 0, cwd := 0 } ∧
      k₂ = k₁.wakeup1 (Kernel.chanOf L (k₁.proc i).parent) ∧
      k' = (k₂.passChildren L i).set i { (k₂.passChildren L i).proc i with state := .zombie } := by
  simp only [Kernel.exit] at h
  split at h
  · cases h
  · exact ⟨‹_›, _, _, rfl, rfl, (Option.some.inj h).symm⟩

theorem exit_edited (hi : (k.proc i).state = .running) (h : k.exit L i = some k') : Edited L k (.exit i) k k' := by
  obtain ⟨-, k₁, k₂, hk₁, hk₂, rfl⟩ := exit_steps h
  have hclosed : (k₁.proc i).state = .running ∧ (k₁.proc i).ofile = fun _ => 0 := by simp [hk₁, hi]
  have hwoken : (k₂.proc i).state = .running ∧ (k₂.proc i).ofile = fun _ => 0 := by
    rw [hk₂, wakeup1_running _ hclosed.1]
    exact hclosed
  have hpassed := passChildren_self (L := L) hwoken.1
  have h1 : Edited L k (.exit i) k k₁ := by
    rw [hk₁]
    exact .set (.close hi)
  have h2 : Edited L k (.exit i) k₁ k₂ := by
    rw [hk₂]
    exact wakeup1_edited ..
  exact ((h1.trans h2).trans (passChildren_edited k₂ i)).trans
    (.set (.exit rfl hpassed.2 (hpassed.1.trans hwoken.2)))

theorem growproc_some {p q : Proc} {n : Int} {enough : Bool} (h : Kernel.growproc p n enough = some q) :
    ∃ sz mem, q = { p with sz, mem } := by
  simp only [Kernel.growproc] at h
  split_ifs at h
  all_goals exact ⟨_, _, (Option.some.inj h).symm⟩

theorem byRunning_some {f : Proc → Option Kernel} (h : k.byRunning i f = some k') :
    (k.proc i).state = .running ∧ f (k.proc i) = some k' := by
  simp only [Kernel.byRunning] at h
  split at h
  · exact ⟨‹_›, h⟩
  · cases h

theorem byRunning_eq {f : Proc → Kernel} (h : k.byRunning i (fun p => some (f p)) = some k') :
    (k.proc i).state = .running ∧ f (k.proc i) = k' :=
  (byRunning_some h).imp_right Option.some.inj

theorem deliver_some (h : k.deliver i = some k') :
    (k.proc i).state = .running ∧ StoresInside (k.proc i) ∧ k' = k.set i (handlingSignal (k.proc i)).proc := by
  obtain ⟨hi, h⟩ := byRunning_some h
  split at h
  · exact ⟨hi, ‹_›, (Option.some.inj h).symm⟩
  · cases h

theorem signal_cases (sigNum : Int) (newHandler : Addr) (k : Kernel) (i : Fin nproc) :
    (k.signal i sigNum newHandler).2 = k ∨ ∃ n : Fin numsig, (n.val : Int) = sigNum ∧ (k.signal i sigNum newHandler).2 =
      k.set i { k.proc i with sighandlers := Function.update (k.proc i).sighandlers n newHandler } := by
  simp only [Kernel.signal]
  split
  · exact .inl rfl
  · refine .inr ⟨_, ?_, rfl⟩
    simp only
    omega

theorem step_cases (h : k.step L a = some k') : Stepped L k a k' := by
  unfold Kernel.step at h
  cases a with
  | scheduler i =>
    dsimp only at h
    split at h
    · rename_i hi
      obtain rfl := Option.some.inj h
      exact .edited (.set (.move (.inr (.inl hi)) (.inr (.inr ⟨rfl, rfl⟩))))
    · cases h
  | yield i =>
    obtain ⟨hi, rfl⟩ := byRunning_eq h
    exact .edited (.set (.move (.inr (.inr hi)) (.inr (.inl rfl))))
  | sleep i chan =>
    obtain ⟨hi, rfl⟩ := byRunning_eq h
    exact .edited (.set (.move (.inr (.inr hi)) (.inl rfl)))
  | wakeup chan =>
    obtain rfl := Option.some.inj h
    exact .edited (wakeup1_edited ..)
  | tick =>
    obtain rfl := Option.some.inj h
    exact .edited alarm_edited
  | trap i frame mem =>
    obtain ⟨hi, h⟩ := byRunning_some h
    split at h
    · rename_i hmode
      obtain rfl := Option.some.inj h
      exact .edited (.set (.own hi (.trap hmode)))
    · cases h
  | fault i =>
    obtain ⟨hi, rfl⟩ := byRunning_eq h
    exact .edited (.set (.fault hi))
  | fork i kstack pgdir =>
    obtain ⟨hi, rfl⟩ := byRunning_eq h
    exact .fork hi (fork_forked hi kstack pgdir) (.set .ret)
  | exec i img path argv =>
    obtain ⟨hi, h⟩ := byRunning_some h
    obtain ⟨r, hexec, rfl⟩ := Option.map_eq_some_iff.mp h
    exact .edited (.ret (.set (.own hi (.exec hexec))) ..)
  | exit i =>
    obtain ⟨hi, h⟩ := byRunning_some h
    exact .edited (exit_edited hi h)
  | wait i =>
    obtain ⟨hi, h⟩ := byRunning_some h
    have hwait := wait_edited (L := L) (a := .wait i) hi
    split at h
    · rename_i hw
      obtain rfl := Option.some.inj h
      rw [hw] at hwait
      exact .edited (hwait.ret ..)
    · rename_i hw
      obtain rfl := Option.some.inj h
      rw [hw] at hwait
      exact .edited hwait
  | kill i pid =>
    obtain ⟨hi, rfl⟩ := byRunning_eq h
    exact .edited ((kill_edited i pid).ret ..)
  | sbrk i n enough =>
    obtain ⟨hi, h⟩ := byRunning_some h
    split at h
    · obtain rfl := Option.some.inj h
      exact .edited (.ret (.refl k) ..)
    · rename_i hgrow
      obtain rfl := Option.some.inj h
      exact .edited (.ret (.set (.own hi (.sbrk hgrow))) ..)
  | signal i sigNum newHandler =>
    obtain ⟨hi, rfl⟩ := byRunning_eq h
    refine .edited (.ret ?_ ..)
    rcases signal_cases sigNum newHandler k i with heq | ⟨n, hn, heq⟩
    · rw [heq]
      exact .refl k
    · rw [heq]
      exact .set (.own hi (.signal n hn))
  | sigsend i pid sigNum =>
    obtain ⟨hi, rfl⟩ := byRunning_eq h
    exact .edited ((sigsend_edited pid sigNum).ret ..)
  | alarm i ticksNum eax =>
    obtain ⟨hi, rfl⟩ := byRunning_eq h
    exact .edited (.ret (.set (.alarm rfl)) ..)
  | sigreturn i =>
    obtain ⟨hi, rfl⟩ := byRunning_eq h
    have hown : Own L k i (.sigreturn i) ((k.sigreturn L i).2.proc i) := .sigreturn
    simp only [Kernel.sigreturn, Kernel.set_self] at hown
    exact .edited (.ret (.set (.own hi hown)) ..)
  | other i ofile cwd mem eax =>
    obtain ⟨hi, rfl⟩ := byRunning_eq h
    exact .edited (.ret (.set (.own hi .other)) ..)
  | nested i =>
    obtain ⟨hi, hinside, rfl⟩ := deliver_some h
    exact .edited (.set (.own hi (.nested hinside)))
  | trapret i =>
    obtain ⟨hi, hinside, rfl⟩ := deliver_some h
    exact .edited (.set (.own hi (.trapret hinside)))
  | wild i k₁ =>
    obtain ⟨hi, h⟩ := byRunning_some h
    split at h
    · cases h
    · obtain rfl := Option.some.inj h
      exact .wild

end Edits

/-! ### What becomes of the core -/

/-- What `fork` by slot `i` puts into slot `j`: the caller's image and the default handlers, but the slot's old address
    of the trampoline. -/
structure Child (k : Kernel) (i j : Fin nproc) (p : Proc) : Prop where
  free : (k.proc j).state = .unused
  busy : Busy p
  core : p.core = { (k.proc i).core with sighandlers := fun _ => defualtHandlerAdd, sigretAdd := (k.proc j).sigretAdd }

/-- What a step does to slot `j`. An `exec` by process `j` is listed as its own step, also where it fails. -/
inductive SlotStep (L : Layout) (k : Kernel) (j : Fin nproc) : Action → Proc → Prop
  | same {a p} : (∀ img path argv, a ≠ .exec j img path argv) → Same (k.proc j) p → SlotStep L k j a p
  | own {a q p} : (k.proc j).state = .running → Own L k j a q → Same q p → SlotStep L k j a p
  | exit {p} : Kept (k.proc j) p → SlotStep L k j (.exit j) p
  | child {i kstack pgdir p} : (k.proc i).state = .running → Child k i j p → SlotStep L k j (.fork i kstack pgdir) p
  | wild {i k' p} : SlotStep L k j (.wild i k') p

section Steps
variable {L : Layout} {k k' : Kernel} {i j : Fin nproc} {a : Action} {p q : Proc}

theorem SlotStep.trans (h : SlotStep L k j a p) (hs : Same p q) : SlotStep L k j a q := by
  cases h with
  | same hne h => exact .same hne (h.trans hs)
  | own hrun hown h => exact .own hrun hown (h.trans hs)
  | exit h => exact .exit (h.trans hs.kept)
  | child hi hc =>
    have hbusy := hs.busy hc.busy
    exact .child hi ⟨hc.free, hbusy, (hs.kept hbusy.live).2.trans hc.core⟩
  | wild => exact .wild

theorem SlotStep.kept (h : SlotStep L k j (.exit j) p) : Kept (k.proc j) p := by
  cases h with
  | same _ h => exact h.kept
  | own _ hown => cases hown
  | exit h => exact h

theorem Edit.slotStep (h : Edit L k a j p q) (hp : SlotStep L k j a p) : SlotStep L k j a q := by
  cases h with
  | ret | pend | reparent | fault | kill | close | alarm | tick => exact hp.trans (.of_core rfl rfl)
  | move hbusy hstate =>
    refine hp.trans (.of_busy hbusy ?_ rfl)
    exact hstate.imp_right fun h => h.imp_right And.left
  | reap hz => exact hp.trans (.of_not_live (by simp [Busy, hz]) (by simp [Live]))
  | own hrun hown => exact .own hrun hown (.refl q)
  | exit ha hrun =>
    subst ha
    exact .exit (hp.kept.trans fun _ => ⟨Busy.live (.inr (.inr hrun)), rfl⟩)

theorem Forked.slotStep {kstack pgdir : Addr} (h : Forked k i kstack pgdir k') (hi : (k.proc i).state = .running)
    (j : Fin nproc) : SlotStep L k j (.fork i kstack pgdir) (k'.proc j) := by
  have hother : SlotStep L k j (.fork i kstack pgdir) (k.proc j) := .same nofun (.refl _)
  cases h with
  | full => exact hother
  | @failed c _ _ _ _ _ hfree =>
    by_cases hj : j = c
    · subst hj
      rw [Kernel.set_self]
      exact hother.trans (.of_not_live (by simp [Busy, freeSlot_unused hfree]) (by simp [Live]))
    · rwa [Kernel.set_of_ne _ _ hj]
  | @child c _ _ hfree =>
    by_cases hj : j = c
    · subst hj
      rw [Kernel.set_self]
      exact .child hi ⟨freeSlot_unused hfree, .inr (.inl rfl), rfl⟩
    · rwa [Kernel.set_of_ne _ _ hj]

theorem Edits.slotStep (h : Edits L k a j p q) (hp : SlotStep L k j a p) : SlotStep L k j a q := by
  induction h with
  | refl => exact hp
  | tail _ h ih => exact h.slotStep ih

theorem step_slot (h : k.step L a = some k') (j : Fin nproc) : SlotStep L k j a (k'.proc j) := by
  cases step_cases h with
  | fork hi hf he => exact (he.slot j).slotStep (hf.slotStep hi j)
  | wild => exact .wild
  | edited he =>
    by_cases hexec : ∃ img path argv, a = .exec j img path argv
    · obtain ⟨img, path, argv, rfl⟩ := hexec
      unfold Kernel.step at h
      obtain ⟨hi, h⟩ := byRunning_some h
      obtain ⟨r, hexec, rfl⟩ := Option.map_eq_some_iff.mp h
      refine ((Edited.set .ret).slot j).slotStep ?_
      rw [Kernel.set_self]
      exact .own hi (.exec hexec) (.refl r.2)
    · exact (he.slot j).slotStep (.same (fun img path argv ha => hexec ⟨img, path, argv, ha⟩) (.refl _))

end Steps

end Xv6
