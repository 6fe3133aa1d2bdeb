import Xv6.Theorems.Frames

/-! What a new process finds in its slot. `fork` and `allocproc` set most fields of the child; the others keep what the
    last process in the slot has left, or what `kill` has written to the slot while it was unused. -/

namespace Xv6
open Lib

/-- The part of a process that a child might inherit from the past of its slot. -/
structure Legacy where
  killed : Int
  pending : Fin numsig → Int
  sighandlers : Fin numsig → Addr
  alarmTicksNum : Int
  sigretAdd : Addr
  procHandlingSigNow : Word
  chan : Addr
  name : List Byte
  ofile : Fin nofile → Addr
  cwd : Addr
  sz : Word
  frame : Trapframe
  deriving DecidableEq

def Proc.legacy (p : Proc) : Legacy where
  killed := p.killed
  pending := p.pending
  sighandlers := p.sighandlers
  alarmTicksNum := p.alarmTicksNum
  sigretAdd := p.sigretAdd
  procHandlingSigNow := p.procHandlingSigNow
  chan := p.chan
  name := p.name
  ofile := p.ofile
  cwd := p.cwd
  sz := p.sz
  frame := p.frame

/-- The child of a `fork` by slot `i` that succeeds. -/
def Kernel.child (k : Kernel) (i : Fin nproc) (kstack pgdir : Addr) : Option Proc :=
  if kstack = 0 ∨ pgdir = 0 then none
  else k.freeSlot.map fun j => (k.fork i kstack pgdir).2.proc j

/-! ### The conditions -/

/-- A `kill` hits no unused slot, and no delivery stores outside the process's memory. -/
def Kernel.sparesUnused (k : Kernel) : Action → Bool
  | .kill _ pid => ((List.finRange nproc).find? fun i => (k.proc i).pid = pid).all fun j => (k.proc j).state ≠ .unused
  | .wild _ _ => false
  | _ => true

def Kernel.SparesUnused (k : Kernel) (a : Action) : Prop := k.sparesUnused a = true

instance (k : Kernel) (a : Action) : Decidable (k.SparesUnused a) := inferInstanceAs (Decidable (_ = true))

/-- No process in the slot has called `exec`. -/
def NeverExeced (tr : List (Kernel × Action)) (j : Fin nproc) : Prop :=
  ∀ x ∈ tr, ∀ img path argv, x.2 ≠ .exec j img path argv

/-! ### What is left in a slot -/

/-- What a process leaves behind is gone when its slot is unused. -/
structure Clean (p : Proc) : Prop where
  killed : p.state = .unused → p.killed = 0
  chan : p.state ≠ .sleeping → p.state ≠ .runnable → p.chan = 0
  ofile : p.state = .unused ∨ p.state = .zombie → p.ofile = fun _ => 0
  handling : p.procHandlingSigNow = 0

section Clean
variable {p q : Proc} {k k' : Kernel} {i j : Fin nproc} {L : Layout} {a : Action}

theorem Clean.of_running (hs : p.state = .running) (hchan : p.chan = 0) (hz : p.procHandlingSigNow = 0) : Clean p :=
  ⟨by simp [hs], fun _ _ => hchan, by simp [hs], hz⟩

theorem Own.clean (h : Own L k j a q) (hrun : (k.proc j).state = .running) (hp : Clean (k.proc j)) : Clean q := by
  have hchan := hp.chan (by simp [hrun]) (by simp [hrun])
  cases h with
  | exec hexec =>
    cases Proc.exec_end hexec with
    | early => exact hp
    | late | done => exact .of_running hrun hchan rfl
  | sbrk hgrow =>
    obtain ⟨sz, mem, rfl⟩ := growproc_some hgrow
    exact .of_running hrun hchan hp.handling
  | sigreturn =>
    simp only [Kernel.sigreturn, Kernel.set_self]
    exact .of_running hrun hchan rfl
  | nested | trapret =>
    rw [handlingSignal_eq]
    exact .of_running hrun hchan hp.handling
  | trap | signal | other => exact .of_running hrun hchan hp.handling

theorem Edit.clean (h : Edit L k a j p q) (hG : k.SparesUnused a) (hp : Clean p) : Clean q := by
  cases h with
  | ret | pend | reparent | alarm | tick => exact ⟨hp.killed, hp.chan, hp.ofile, hp.handling⟩
  | move _ hq => rcases hq with rfl | rfl | ⟨rfl, rfl⟩ <;> exact ⟨by simp, by simp, by simp, hp.handling⟩
  | fault hrun | close hrun => exact ⟨by simp [hrun], hp.chan, by simp [hrun], hp.handling⟩
  | kill ha hfind =>
    subst ha
    simp only [Kernel.SparesUnused, Kernel.sparesUnused, hfind, Option.all_some, decide_eq_true_eq] at hG
    exact ⟨fun hu => absurd hu hG, hp.chan, hp.ofile, hp.handling⟩
  | exit _ hrun hofile =>
    exact ⟨nofun, fun _ _ => hp.chan (by simp [hrun]) (by simp [hrun]), fun _ => hofile, hp.handling⟩
  | reap hz =>
    exact ⟨fun _ => rfl, fun _ _ => hp.chan (by simp [hz]) (by simp [hz]), fun _ => hp.ofile (.inr hz), hp.handling⟩
  | own hrun hown => exact hown.clean hrun hp

theorem Edit.sigretAdd (h : Edit L k a j p q) (hne : ∀ img path argv, a ≠ .exec j img path argv) :
    q.sigretAdd = p.sigretAdd := by
  cases h with
  | own _ hown =>
    cases hown with
    | exec => exact absurd rfl (hne _ _ _)
    | sbrk hgrow =>
      obtain ⟨sz, mem, rfl⟩ := growproc_some hgrow
      rfl
    | sigreturn => simp [Kernel.sigreturn]
    | nested | trapret =>
      rw [handlingSignal_eq]
      rfl
    | trap | signal | other => rfl
  | _ => rfl

theorem Edits.tidy (h : Edits L k a j p q) (hG : k.SparesUnused a) :
    (Clean p → Clean q) ∧ ((∀ img path argv, a ≠ .exec j img path argv) → q.sigretAdd = p.sigretAdd) := by
  induction h with
  | refl => exact ⟨id, fun _ => rfl⟩
  | tail _ h ih => exact ⟨fun hp => h.clean hG (ih.1 hp), fun hne => (h.sigretAdd hne).trans (ih.2 hne)⟩

theorem Forked.tidy {kstack pgdir : Addr} (h : Forked k i kstack pgdir k') (j : Fin nproc) :
    (Clean (k.proc j) → Clean (k'.proc j)) ∧ (k'.proc j).sigretAdd = (k.proc j).sigretAdd := by
  cases h with
  | full => exact ⟨id, rfl⟩
  | @failed c _ _ _ _ _ hfree =>
    by_cases hj : j = c
    · have hc := freeSlot_unused hfree
      rw [hj, Kernel.set_self]
      exact ⟨fun hp => ⟨fun _ => hp.killed hc, fun _ _ => hp.chan (by simp [hc]) (by simp [hc]),
        fun _ => hp.ofile (.inl hc), hp.handling⟩, rfl⟩
    · rw [Kernel.set_of_ne _ _ hj]
      exact ⟨id, rfl⟩
  | @child c =>
    by_cases hj : j = c
    · rw [hj, Kernel.set_self]
      exact ⟨fun hp => ⟨nofun, fun _ h => absurd rfl h, by simp, hp.handling⟩, rfl⟩
    · rw [Kernel.set_of_ne _ _ hj]
      exact ⟨id, rfl⟩

theorem step_tidy (hG : k.SparesUnused a) (hs : k.step L a = some k') (j : Fin nproc) :
    (Clean (k.proc j) → Clean (k'.proc j)) ∧
      ((∀ img path argv, a ≠ .exec j img path argv) → (k'.proc j).sigretAdd = (k.proc j).sigretAdd) := by
  cases step_cases hs with
  | edited h => exact (h.slot j).tidy hG
  | fork _ hf h =>
    obtain ⟨hclean, hsigret⟩ := (h.slot j).tidy hG
    obtain ⟨hclean', hsigret'⟩ := hf.tidy j
    exact ⟨hclean ∘ hclean', fun hne => (hsigret hne).trans hsigret'⟩
  | wild => exact absurd hG Bool.false_ne_true

end Clean

/-! ### Runs -/

section Runs
variable {L : Layout} {kstack pgdir cwd : Addr} {initcode : Mem} {tr : List (Kernel × Action)} {k : Kernel}

theorem userinit_clean (j : Fin nproc) :
    Clean ((Kernel.zeroed.userinit kstack pgdir initcode cwd).proc j) ∧
      ((Kernel.zeroed.userinit kstack pgdir initcode cwd).proc j).sigretAdd = 0 :=
  userinit_slot (P := fun p => Clean p ∧ p.sigretAdd = 0) ⟨⟨fun _ => rfl, fun _ _ => rfl, fun _ => rfl, rfl⟩, rfl⟩
    ⟨⟨fun _ => rfl, fun _ _ => rfl, fun _ => rfl, rfl⟩, rfl⟩
    (fun _ _ _ => ⟨⟨nofun, fun _ h => absurd rfl h, fun _ => rfl, rfl⟩, rfl⟩) j

theorem run_clean (hr : Run (OfStep (Kernel.step L)) (Kernel.zeroed.userinit kstack pgdir initcode cwd) tr k)
    (hG : Meets Kernel.SparesUnused tr) (j : Fin nproc) :
    Clean (k.proc j) ∧ (NeverExeced tr j → (k.proc j).sigretAdd = 0) := by
  induction hr with
  | nil => exact ⟨(userinit_clean j).1, fun _ => (userinit_clean j).2⟩
  | @snoc tr t u a _ hs ih =>
    obtain ⟨hG, hg⟩ := meets_snoc.mp hG
    obtain ⟨hclean, hsigret⟩ := ih hG
    obtain ⟨hstep, hkept⟩ := step_tidy hg hs j
    refine ⟨hstep hclean, fun hnever => ?_⟩
    rw [hkept (hnever (t, a) (by simp)), hsigret fun x hx => hnever x (by simp [hx])]

theorem child_legacy {i : Fin nproc} {kstack pgdir : Addr} {c : Proc} (hi : (k.proc i).state = .running)
    (hclean : ∀ j, k.freeSlot = some j → Clean (k.proc j) ∧ (k.proc j).sigretAdd = 0)
    (hc : k.child i kstack pgdir = some c) :
    c.pid = k.nextpid ∧ c.legacy = { (k.proc i).legacy with
      killed := 0, pending := fun _ => 0, sighandlers := fun _ => defualtHandlerAdd, sigretAdd := 0
      procHandlingSigNow := 0, chan := 0, frame := { (k.proc i).frame with eax := 0 } } := by
  unfold Kernel.child at hc
  split at hc
  · cases hc
  · rename_i h0
    obtain ⟨j, hfree, rfl⟩ := Option.map_eq_some_iff.mp hc
    obtain ⟨hj, hsigret⟩ := hclean j hfree
    have hunused := freeSlot_unused hfree
    have hforked := fork_forked hi kstack pgdir
    generalize (k.fork i kstack pgdir).2 = k' at hforked ⊢
    cases hforked with
    | full hnone => cases hfree.symm.trans hnone
    | failed _ hfail => exact absurd hfail h0
    | child hfree' =>
      cases hfree.symm.trans hfree'
      rw [Kernel.set_self]
      refine ⟨rfl, ?_⟩
      simp only [Proc.legacy, Kernel.newProc, hj.killed hunused, hj.handling, hsigret, hj.ofile (.inl hunused),
        hj.chan (by simp [hunused]) (by simp [hunused])]
      congr 1
      funext fd
      split <;> simp_all

end Runs

/-- In two runs in which no `kill` hits an unused slot, children of equal parents in slots in which nobody has called
    `exec` are equal; they are not killed, and no signal is pending. -/
theorem fork_inherits_nothing {L₁ L₂ : Layout} {kstack₁ pgdir₁ cwd₁ kstack₂ pgdir₂ cwd₂ : Addr} {initcode₁ initcode₂ : Mem}
    {tr₁ tr₂ : List (Kernel × Action)} {k₁ k₂ : Kernel} {i₁ i₂ : Fin nproc} {s₁ d₁ s₂ d₂ : Addr} {c₁ c₂ : Proc}
    (hr₁ : Run (OfStep (Kernel.step L₁)) (Kernel.zeroed.userinit kstack₁ pgdir₁ initcode₁ cwd₁) tr₁ k₁)
    (hr₂ : Run (OfStep (Kernel.step L₂)) (Kernel.zeroed.userinit kstack₂ pgdir₂ initcode₂ cwd₂) tr₂ k₂)
    (hG₁ : Meets Kernel.SparesUnused tr₁) (hG₂ : Meets Kernel.SparesUnused tr₂)
    (hnever₁ : ∀ j, k₁.freeSlot = some j → NeverExeced tr₁ j) (hnever₂ : ∀ j, k₂.freeSlot = some j → NeverExeced tr₂ j)
    (hrun : (k₁.proc i₁).state = .running) (hparent : k₁.proc i₁ = k₂.proc i₂) (hpid : k₁.nextpid = k₂.nextpid)
    (hc₁ : k₁.child i₁ s₁ d₁ = some c₁) (hc₂ : k₂.child i₂ s₂ d₂ = some c₂) :
    c₁.legacy = c₂.legacy ∧ c₁.pid = c₂.pid ∧ c₁.killed = 0 ∧ ∀ s, c₁.pending s = 0 := by
  obtain ⟨hpid₁, h₁⟩ := child_legacy hrun
    (fun j hj => ⟨(run_clean hr₁ hG₁ j).1, (run_clean hr₁ hG₁ j).2 (hnever₁ j hj)⟩) hc₁
  obtain ⟨hpid₂, h₂⟩ := child_legacy (hparent ▸ hrun)
    (fun j hj => ⟨(run_clean hr₂ hG₂ j).1, (run_clean hr₂ hG₂ j).2 (hnever₂ j hj)⟩) hc₂
  refine ⟨?_, ?_, congrArg Legacy.killed h₁, fun s => congrFun (congrArg Legacy.pending h₁) s⟩
  · rw [h₁, h₂, hparent]
  · rw [hpid₁, hpid₂, hpid]

def bootRunning : Kernel := bootKernel.set 0 { bootKernel.proc 0 with state := .running, chan := 0 }

theorem bootRunning_step : bootKernel.step bootLayout (.scheduler 0) = some bootRunning := by
  have hstate : (bootKernel.proc 0).state = .runnable := by decide +kernel
  simp only [Kernel.step, hstate, if_true]
  rfl

theorem bootRunning_state : (bootRunning.proc 0).state = .running := by decide +kernel

/-- `kill(0)` marks the unused slot 1, which has pid 0, and the child that gets the slot is killed from the start.
    `sigsend(0, 0)` writes to the same slot and returns the same value to the same parent. -/
theorem child_starts_killed : ∃ tr₁ k₁ tr₂ k₂ c₁ c₂, Run (OfStep (Kernel.step bootLayout)) bootKernel tr₁ k₁ ∧
    Run (OfStep (Kernel.step bootLayout)) bootKernel tr₂ k₂ ∧ tr₁.map (·.2) = [.scheduler 0, .sigsend 0 0 0] ∧
    tr₂.map (·.2) = [.scheduler 0, .kill 0 0] ∧ k₁.proc 0 = k₂.proc 0 ∧ k₁.nextpid = k₂.nextpid ∧
    k₁.child 0 0x80500000 0x80600000 = some c₁ ∧ k₂.child 0 0x80500000 0x80600000 = some c₂ ∧
    c₁.killed = 0 ∧ c₂.killed = 1 := by
  have hfind : ((List.finRange nproc).find? fun i => (bootRunning.proc i).pid = 0) = some 1 := by decide +kernel
  have hsend : bootRunning.step bootLayout (.sigsend 0 0 0) =
      some ((bootRunning.set 1 { bootRunning.proc 1 with
        pending := Function.update (bootRunning.proc 1).pending 0 1 }).ret 0 0) := by
    simp only [Kernel.step, Kernel.byRunning, bootRunning_state, if_true, Kernel.sigsend, hfind]
    rfl
  have hkill : bootRunning.step bootLayout (.kill 0 0) =
      some ((bootRunning.set 1 { bootRunning.proc 1 with
        killed := 1
        state := if (bootRunning.proc 1).state = .sleeping then .runnable else (bootRunning.proc 1).state }).ret 0 0) := by
    simp only [Kernel.step, Kernel.byRunning, bootRunning_state, if_true, Kernel.kill, hfind]
    rfl
  refine ⟨_, _, _, _, _, _, .cons bootRunning_step (.cons hsend .nil), .cons bootRunning_step (.cons hkill .nil), rfl, rfl,
    ?_, rfl, rfl, rfl, ?_, ?_⟩
  · have hne : (0 : Fin nproc) ≠ 1 := by decide
    simp only [Kernel.ret, Kernel.set_self, Kernel.set_of_ne _ _ hne]
  · decide +kernel
  · decide +kernel

def bootWaited : Proc := { bootRunning.proc 0 with frame := { (bootRunning.proc 0).frame with eax := 2 } }

/-- Not an `exec`, and not one of the steps in which the first process changes its own memory. -/
def Action.sparesFirst : Action → Bool
  | .scheduler _ | .fork .. | .kill .. | .sigsend .. | .wait _ => true
  | .signal i _ _ | .alarm i _ _ | .exit i => i ≠ 0
  | _ => false

variable {tr : List (Kernel × Action)} {k : Kernel}

theorem run_sparesFirst (hr : Run (OfStep (Kernel.step bootLayout)) bootKernel tr k)
    (h : Meets (fun _ a => a.sparesFirst = true) tr) : (k.proc 0).mem = bootWaited.mem ∧ ∀ j, NeverExeced tr j := by
  refine ⟨?_, fun j x hx img path argv he => absurd (he ▸ h x hx) (by simp [Action.sparesFirst])⟩
  have hboot : Busy (bootKernel.proc 0) := .inr (.inl (by decide +kernel))
  refine (hr.always (I := fun k => Busy (k.proc 0) ∧ (k.proc 0).mem = bootWaited.mem) ⟨hboot, rfl⟩ h ?_).2.2
  rintro k a k' ⟨hbusy, hmem⟩ hG hs
  have hslot := step_slot hs 0
  generalize k'.proc 0 = p at hslot
  cases hslot with
  | same _ hsame =>
    have hbusy' := hsame.busy hbusy
    exact ⟨hbusy', (congrArg Core.mem (hsame.kept hbusy'.live).2).trans hmem⟩
  | own _ hown => cases hown <;> simp [Action.sparesFirst] at hG
  | exit => simp [Action.sparesFirst] at hG
  | child _ hc => simp [Busy, hc.free] at hbusy
  | wild => simp [Action.sparesFirst] at hG

/-- The fields that are neither of the legacy nor the memory. -/
def Proc.rest (p : Proc) : List Addr × ProcState × Int × Option (Fin nproc) :=
  ([p.pgdir, p.kstack, p.tf, p.context, p.tfToRestore], p.state, p.pid, p.parent)

theorem Proc.eq_of_legacy {p q : Proc} (h : p.legacy = q.legacy) (hrest : p.rest = q.rest) (hmem : p.mem = q.mem) :
    p = q := by
  cases p
  cases q
  simp only [Proc.legacy, Proc.rest, Legacy.mk.injEq, Prod.mk.injEq, List.cons.injEq] at h hmem hrest
  simp only [h, hmem, hrest]

/-- The first process has waited for its child, whose slot is free again. -/
def Waited (tr : List (Kernel × Action)) (k : Kernel) : Prop :=
  k.freeSlot = some 1 ∧ k.nextpid = 3 ∧ (k.proc 0).legacy = bootWaited.legacy ∧ (k.proc 0).rest = bootWaited.rest ∧
    Meets Kernel.SparesUnused tr ∧ Meets (fun _ a => a.sparesFirst = true) tr

instance (tr : List (Kernel × Action)) (k : Kernel) : Decidable (Waited tr k) :=
  inferInstanceAs (Decidable (_ ∧ _ ∧ _ ∧ _ ∧ _ ∧ _))

theorem Waited.proc (h : Waited tr k)
    (hr : Run (OfStep (Kernel.step bootLayout)) bootKernel tr k) : k.proc 0 = bootWaited :=
  Proc.eq_of_legacy h.2.2.1 h.2.2.2.1 (run_sparesFirst hr h.2.2.2.2.2).1

theorem Waited.child (h : Waited tr k) {s d : Addr} (hs : ¬(s = 0 ∨ d = 0)) :
    ∃ c, k.child 0 s d = some c := by
  rw [Kernel.child, if_neg hs, h.1]
  exact ⟨_, rfl⟩

/-- Two runs in which slot 1 is used again: in the first one its process has exited at once, in the second one it has
    set a handler and an alarm before, sent itself a signal and killed itself. -/
theorem fork_inherits_nothing_twice : ∃ tr₁ k₁ c₁ tr₂ k₂ c₂, Run (OfStep (Kernel.step bootLayout)) bootKernel tr₁ k₁ ∧
    Run (OfStep (Kernel.step bootLayout)) bootKernel tr₂ k₂ ∧
    tr₁.map (·.2) = [.scheduler 0, .fork 0 0x80500000 0x80600000, .scheduler 1, .exit 1, .wait 0] ∧
    tr₂.map (·.2) = [.scheduler 0, .fork 0 0x80500000 0x80600000, .scheduler 1, .signal 1 3 0x100, .alarm 1 5 0,
      .sigsend 1 2 3, .kill 1 2, .exit 1, .wait 0] ∧
    k₁.freeSlot = some 1 ∧ k₂.freeSlot = some 1 ∧ k₁.child 0 0x80700000 0x80800000 = some c₁ ∧
    k₂.child 0 0x80900000 0x80A00000 = some c₂ ∧ c₁.legacy = c₂.legacy ∧ c₁.killed = 0 := by
  obtain ⟨tr₁, k₁, hr₁, hl₁, h₁⟩ := Run.exists_of_traceOf (f := Kernel.step bootLayout) bootKernel
    [.scheduler 0, .fork 0 0x80500000 0x80600000, .scheduler 1, .exit 1, .wait 0] Waited (by decide +kernel)
  obtain ⟨tr₂, k₂, hr₂, hl₂, h₂⟩ := Run.exists_of_traceOf (f := Kernel.step bootLayout) bootKernel
    [.scheduler 0, .fork 0 0x80500000 0x80600000, .scheduler 1, .signal 1 3 0x100, .alarm 1 5 0, .sigsend 1 2 3,
      .kill 1 2, .exit 1, .wait 0] Waited (by decide +kernel)
  obtain ⟨c₁, hc₁⟩ := h₁.child (s := 0x80700000) (d := 0x80800000) (by decide)
  obtain ⟨c₂, hc₂⟩ := h₂.child (s := 0x80900000) (d := 0x80A00000) (by decide)
  have hrun : (k₁.proc 0).state = .running := by
    rw [h₁.proc hr₁]
    exact bootRunning_state
  obtain ⟨hsame, -, hkilled, -⟩ := fork_inherits_nothing hr₁ hr₂ h₁.2.2.2.2.1 h₂.2.2.2.2.1
    (fun j _ => (run_sparesFirst hr₁ h₁.2.2.2.2.2).2 j) (fun j _ => (run_sparesFirst hr₂ h₂.2.2.2.2.2).2 j) hrun
    ((h₁.proc hr₁).trans (h₂.proc hr₂).symm) (h₁.2.1.trans h₂.2.1.symm) hc₁ hc₂
  exact ⟨tr₁, k₁, c₁, tr₂, k₂, c₂, hr₁, hr₂, hl₁, hl₂, h₁.1, h₂.1, hc₁, hc₂, hsame, hkilled⟩

end Xv6
