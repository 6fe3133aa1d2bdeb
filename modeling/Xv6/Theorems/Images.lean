import Xv6.Theorems.Frames

/-! Handlers and trampolines across `fork` and `exec`. Nothing resets the handlers on `exec`, nothing copies `sigretAdd`
    on `fork`, and an `exec` that fails may have set it already. -/

namespace Xv6
open Lib

/-! ### The stack of a new image -/

/-- The address for handlers to return to lies in the process's memory, and the trampoline is there. -/
def HoldsTrampoline (p : Proc) : Prop :=
  p.sigretAdd.toNat + sigretimplicitBytes.length ≤ p.sz.toNat ∧
    bytesAt p.mem p.sigretAdd sigretimplicitBytes.length = sigretimplicitBytes

instance (p : Proc) : Decidable (HoldsTrampoline p) := inferInstanceAs (Decidable (_ ∧ _))

section Stack
variable {sz sp n va : Nat} {m m' : Mem} {bs : List Byte} {a b : ArgStack} {argv : List (List Byte)} {img : Image}

theorem copyout_ok (h : copyout sz m va bs = .ok m') :
    m' = storeBytes m va bs ∧ ∀ i < bs.length, Accessible sz (va + i) := by
  unfold copyout at h
  split at h
  · rename_i hnone
    cases h
    refine ⟨rfl, fun i hi => ?_⟩
    simpa using List.find?_eq_none.mp hnone i (List.mem_range.mpr hi)
  · cases h

theorem copyout_accessible (m : Mem) (h : ∀ i < bs.length, Accessible sz (va + i)) :
    copyout sz m va bs = .ok (storeBytes m va bs) := by
  have hnone : ((List.range bs.length).find? fun i => ¬Accessible sz (va + i)) = none := by
    rw [List.find?_eq_none]
    intro i hi
    simpa using h i (List.mem_range.mp hi)
  rw [copyout, hnone]

/-- Where the subtraction wraps around, the last of the bytes is out of range. -/
theorem copyout_below (hva : va ≤ below sp bs.length) (hal : below sp bs.length ≤ va + 3) (hbs : bs ≠ [])
    (hsp : sp ≤ sz) (hsz : sz < kernbase) (h : copyout sz m va bs = .ok m') :
    va + bs.length ≤ sp ∧ AgreeFrom sp m' m := by
  obtain ⟨rfl, hacc⟩ := copyout_ok h
  have hlen := List.length_pos_iff.mpr hbs
  have hlast := (hacc (bs.length - 1) (by omega)).1
  simp only [below, kernbase] at hva hal hsz
  have hle : va + bs.length ≤ sp := by omega
  exact ⟨hle, .storeBytes hle⟩

theorem pushArgs_agree (hsp : a.sp ≤ sz) (hsz : sz < kernbase)
    (h : ArgStack.pushArgs sz a argv = .ok b) : b.sp ≤ a.sp ∧ AgreeFrom a.sp b.mem a.mem := by
  induction argv generalizing a with
  | nil =>
    cases h
    exact ⟨Nat.le_refl _, .refl _ _⟩
  | cons s argv ih =>
    simp only [ArgStack.pushArgs] at h
    split at h
    · cases h
    · obtain ⟨mem, hcopy, h⟩ := bind_eq_ok.mp h
      have hlen : (s ++ [0]).length = s.length + 1 := by simp
      obtain ⟨hend, hagree⟩ :=
        copyout_below (by rw [hlen]; exact Nat.sub_le ..) (by rw [hlen]; omega) (by simp) hsp hsz hcopy
      have hle := Nat.le_of_add_right_le hend
      obtain ⟨hb, hrest⟩ := ih (hle.trans hsp) h
      exact ⟨hb.trans hle, (hrest.mono hle).trans hagree⟩

theorem words_bytes (a : ArgStack) : (a.words.flatMap wordBytes).length = (3 + a.ustack.length + 1) * 4 := by
  have hfour (ws : List Word) : (ws.flatMap wordBytes).length = ws.length * 4 := by
    simp [List.length_flatMap, wordBytes]
  simp only [hfour, ArgStack.words, List.length_cons, List.length_map, List.length_append, List.length_nil]
  omega

theorem pushUstack_agree (hsp : a.sp ≤ sz) (hsz : sz < kernbase) (h : a.pushUstack sz = .ok b) :
    b.sp ≤ a.sp ∧ AgreeFrom a.sp b.mem a.mem := by
  obtain ⟨mem, hcopy, h⟩ := bind_eq_ok.mp h
  cases h
  have hbelow := copyout_below (by rw [words_bytes]) (by rw [words_bytes]; exact Nat.le_add_right _ 3)
    (List.length_pos_iff.mp (by rw [words_bytes]; omega)) hsp hsz hcopy
  exact ⟨Nat.le_of_add_right_le hbelow.1, hbelow.2⟩

theorem stackTop_some (h : img.stackTop = some sz) : 2 * pgsize ≤ sz ∧ sz < kernbase := by
  simp only [Image.stackTop] at h
  split at h
  · cases h
  · obtain rfl := Option.some.inj h
    omega

theorem buildStack_eq (argv : List (List Byte)) (htop : img.stackTop = some sz) :
    img.buildStack sz argv =
      ArgStack.pushArgs sz ⟨sz - 4, storeBytes img.mem (sz - 4) sigretimplicitBytes,
          []⟩ argv >>= ArgStack.pushUstack sz := by
  have hlow := (stackTop_some htop).1
  have hlen : sigretimplicitBytes.length = 4 := rfl
  have hcopy : copyout sz img.mem (sz - 4) sigretimplicitBytes = .ok (storeBytes img.mem (sz - 4) sigretimplicitBytes) := by
    refine copyout_accessible _ fun i hi => ?_
    simp only [Accessible, pgsize] at hlow ⊢
    omega
  simp only [Image.buildStack, hlen, hcopy]
  rfl

theorem commit_holdsTrampoline (p : Proc) (path : List Byte)
    (htop : img.stackTop = some sz) (h : img.buildStack sz argv = .ok a) :
    HoldsTrampoline ((p.setSigret sz).commit img sz a path) := by
  obtain ⟨hlow, hhigh⟩ := stackTop_some htop
  simp only [pgsize] at hlow
  have hlen : sigretimplicitBytes.length = 4 := rfl
  rw [buildStack_eq argv htop] at h
  obtain ⟨b, hargs, hustack⟩ := bind_eq_ok.mp h
  obtain ⟨hb, hagree⟩ := pushArgs_agree (Nat.sub_le ..) hhigh hargs
  obtain ⟨-, hagree'⟩ := pushUstack_agree (hb.trans (Nat.sub_le ..)) hhigh hustack
  have htop : AgreeFrom (sz - 4) a.mem (storeBytes img.mem (sz - 4) sigretimplicitBytes) :=
    (hagree'.mono hb).trans hagree
  simp only [kernbase] at hhigh
  have haddr : (BitVec.ofNat 32 (sz - 4)).toNat = sz - 4 := by
    rw [BitVec.toNat_ofNat]
    omega
  have hsz : (BitVec.ofNat 32 sz).toNat = sz := by
    rw [BitVec.toNat_ofNat]
    omega
  constructor
  · simp only [Proc.commit, Proc.setSigret, hlen, haddr, hsz]
    omega
  · have hkept := htop.bytesAt (a := BitVec.ofNat 32 (sz - 4)) (j := 4) (by omega) (by omega)
    exact hkept.trans (bytesAt_storeBytes img.mem (by rw [hlen]; omega))

end Stack

/-! ### Histories -/

/-- A kernel, the entries of `sighandlers` that each process has set since its last successful `exec` or its creation,
    and whether the last `exec` to come as far as the stack has succeeded. -/
structure History where
  kernel : Kernel
  installed : Fin nproc → Fin numsig → Bool
  settled : Fin nproc → Bool

namespace History

/-- The steps of processes and of the scheduler that a run may take. -/
def imageAction : Action → Bool
  | .trap _ _ _ | .sbrk _ _ _ | .sigreturn _ | .other _ _ _ _ _ | .nested _ | .trapret _ | .wild _ _ => false
  | _ => true

def reachesStack (img : Option Image) : Bool := (img.bind Image.stackTop).isSome

/-- What is remembered of process `j` after a step from `s` to the kernel `k`. -/
def record (s : History) (k : Kernel) (j : Fin nproc) : Action → (Fin numsig → Bool) × Bool
  | .fork _ _ _ =>
    if (s.kernel.proc j).state = .unused ∧ (k.proc j).state ≠ .unused then (fun _ => false, false)
    else (s.installed j, s.settled j)
  | .exec i img path argv =>
    if i = j ∧ reachesStack img then
      if ((s.kernel.proc j).exec img path argv).any (·.1 = 0) then (fun _ => false, true) else (s.installed j, false)
    else (s.installed j, s.settled j)
  | .signal i sigNum _ =>
    if i = j then (fun n => (n.val : Int) = sigNum || s.installed j n, s.settled j)
    else (s.installed j, s.settled j)
  | _ => (s.installed j, s.settled j)

def step (L : Layout) (s : History) (a : Action) : Option History :=
  if imageAction a then
    (s.kernel.step L a).map fun k => ⟨k, fun j => (s.record k j a).1, fun j => (s.record k j a).2⟩
  else none

/-- Every handler has been set by its process in its own image, and the trampoline is where it returns to. -/
def HandlersOwned (s : History) : Prop :=
  ∀ j, Live (s.kernel.proc j) → ∀ n, (s.kernel.proc j).sighandlers n ≠ defualtHandlerAdd →
    s.installed j n = true ∧ HoldsTrampoline (s.kernel.proc j)

/-- Handlers are set only after an `exec` that has succeeded and before any that fails at the stack, and none is set
    when an `exec` comes as far as the stack. -/
def orderly (s : History) : Action → Bool
  | .signal i _ newHandler => newHandler = defualtHandlerAdd ∨ s.settled i = true
  | .exec i img _ _ => reachesStack img = false ∨ ∀ n, (s.kernel.proc i).sighandlers n = defualtHandlerAdd
  | _ => true

def Orderly (s : History) (a : Action) : Prop := s.orderly a = true

instance (s : History) (a : Action) : Decidable (Orderly s a) := inferInstanceAs (Decidable (_ = true))

/-- What holds of a process in an orderly run. -/
structure SlotInv (p : Proc) (r : (Fin numsig → Bool) × Bool) : Prop where
  trampoline : r.2 = true → HoldsTrampoline p
  handlers : ∀ n, p.sighandlers n ≠ defualtHandlerAdd → r.1 n = true ∧ r.2 = true

def Inv (s : History) : Prop := ∀ j, Live (s.kernel.proc j) → SlotInv (s.kernel.proc j) (s.installed j, s.settled j)

theorem Inv.handlersOwned {s : History} (h : Inv s) : HandlersOwned s := fun j hlive n hn =>
  have ⟨hinstalled, hsettled⟩ := (h j hlive).handlers n hn
  ⟨hinstalled, (h j hlive).trampoline hsettled⟩

section Steps
variable {L : Layout} {s : History} {k : Kernel} {j : Fin nproc} {a : Action} {p q : Proc}
  {r r' : (Fin numsig → Bool) × Bool}

theorem SlotInv.of_core (h : SlotInv p r) (hcore : q.core = p.core) : SlotInv q r := by
  have hsz : q.sz = p.sz := congrArg Core.sz hcore
  have hmem : q.mem = p.mem := congrArg Core.mem hcore
  have hhandlers : q.sighandlers = p.sighandlers := congrArg Core.sighandlers hcore
  have hsigret : q.sigretAdd = p.sigretAdd := congrArg Core.sigretAdd hcore
  refine ⟨fun hr => ?_, fun n hn => h.handlers n (by rwa [← hhandlers])⟩
  rw [HoldsTrampoline, hsz, hmem, hsigret]
  exact h.trampoline hr

theorem SlotInv.mono (h : SlotInv p r) (hinstalled : ∀ n, r.1 n = true → r'.1 n = true) (hsettled : r'.2 = r.2) :
    SlotInv p r' :=
  ⟨fun hr => h.trampoline (hsettled ▸ hr), fun n hn =>
    ⟨hinstalled n (h.handlers n hn).1, hsettled ▸ (h.handlers n hn).2⟩⟩

theorem SlotInv.of_default (hdefault : ∀ n, p.sighandlers n = defualtHandlerAdd) (h : r.2 = true → HoldsTrampoline p) :
    SlotInv p r :=
  ⟨h, fun n hn => absurd (hdefault n) hn⟩

theorem SlotInv.record (h : SlotInv p (s.installed j, s.settled j)) (hlive : Live (s.kernel.proc j))
    (hne : ∀ img path argv, a ≠ .exec j img path argv) : SlotInv p (s.record k j a) := by
  refine h.mono (fun n (hn : s.installed j n = true) => ?_) ?_
  · cases a with
    | fork => simpa [History.record, hlive.1] using hn
    | exec i img path argv =>
      have hij : i ≠ j := fun hij => hne img path argv (hij ▸ rfl)
      simpa [History.record, hij] using hn
    | signal i sigNum newHandler =>
      by_cases hij : i = j
      · simp only [History.record, hij, if_true]
        simp [hn]
      · simpa [History.record, hij] using hn
    | _ => exact hn
  · cases a with
    | fork => simp [History.record, hlive.1]
    | exec i img path argv =>
      have hij : i ≠ j := fun hij => hne img path argv (hij ▸ rfl)
      simp [History.record, hij]
    | signal i sigNum newHandler => by_cases hij : i = j <;> simp [History.record, hij]
    | _ => rfl

theorem SlotInv.exec (h : SlotInv (s.kernel.proc j) (s.installed j, s.settled j)) {img : Option Image}
    {path : List Byte} {argv : List (List Byte)} {r : Int × Proc} (hG : Orderly s (.exec j img path argv))
    (hexec : (s.kernel.proc j).exec img path argv = some r) :
    SlotInv r.2 (s.record k j (.exec j img path argv)) := by
  have hend := Proc.exec_end hexec
  simp only [History.record, true_and, hexec, Option.any_some]
  by_cases hreach : reachesStack img = true
  · have hdefault : ∀ n, (s.kernel.proc j).sighandlers n = defualtHandlerAdd :=
      (of_decide_eq_true hG).resolve_left (by simp [hreach])
    rw [if_pos hreach]
    cases hend with
    | early | late => exact .of_default hdefault (by simp)
    | done _ htop hstack => exact .of_default hdefault fun _ => commit_holdsTrampoline _ path htop hstack
  · rw [if_neg hreach]
    cases hend with
    | early => exact h
    | late himg htop => simp [reachesStack, himg, htop] at hreach
    | done himg htop => simp [reachesStack, himg, htop] at hreach

theorem SlotInv.signal (h : SlotInv (s.kernel.proc j) (s.installed j, s.settled j)) {sigNum : Int} {newHandler : Addr}
    {n : Fin numsig} (hn : (n.val : Int) = sigNum) (hG : Orderly s (.signal j sigNum newHandler)) :
    SlotInv { s.kernel.proc j with sighandlers := Function.update (s.kernel.proc j).sighandlers n newHandler }
      (s.record k j (.signal j sigNum newHandler)) := by
  simp only [History.record, if_true]
  refine ⟨h.trampoline, fun m (hm : Function.update (s.kernel.proc j).sighandlers n newHandler m ≠ _) => ?_⟩
  by_cases hmn : m = n
  · subst hmn
    rw [Function.update_self] at hm
    exact ⟨by simp [hn], (of_decide_eq_true hG).resolve_left hm⟩
  · rw [Function.update_of_ne hmn] at hm
    obtain ⟨hinstalled, hsettled⟩ := h.handlers m hm
    exact ⟨by simp only at hinstalled; simp [hinstalled], hsettled⟩

theorem SlotInv.step (hI : Inv s) (himg : imageAction a = true) (hG : Orderly s a)
    (h : SlotStep L s.kernel j a (k.proc j)) (hlive : Live (k.proc j)) : SlotInv (k.proc j) (s.record k j a) := by
  generalize hp : k.proc j = p at h hlive
  cases h with
  | same hne hs =>
    obtain ⟨hlive', hcore⟩ := hs.kept hlive
    exact ((hI j hlive').of_core hcore).record hlive' hne
  | own hrun hown hs =>
    have h0 := hI j (Busy.live (.inr (.inr hrun)))
    refine SlotInv.of_core ?_ (hs.kept hlive).2
    cases hown with
    | exec hexec => exact h0.exec hG hexec
    | signal n hn => exact h0.signal hn hG
    | trap | sbrk | sigreturn | other | nested | trapret => simp [imageAction] at himg
  | exit hkept =>
    obtain ⟨hlive', hcore⟩ := hkept hlive
    exact ((hI j hlive').of_core hcore).record hlive' nofun
  | child hrun hc =>
    -- The child starts with the default handlers, and without a trampoline of its own.
    refine .of_default (fun n => congrFun (congrArg Core.sighandlers hc.core) n) fun hr => ?_
    simp [History.record, hc.free, hp, hlive.1] at hr
  | wild => simp [imageAction] at himg

theorem Inv.step {s' : History} (hI : Inv s) (hG : Orderly s a) (hs : s.step L a = some s') : Inv s' := by
  simp only [History.step] at hs
  split at hs
  · obtain ⟨k, hk, rfl⟩ := Option.map_eq_some_iff.mp hs
    exact fun j hlive => .step hI ‹_› hG (step_slot hk j) hlive
  · cases hs

end Steps

/-- The history of a system that has just booted. -/
def boot (kstack pgdir : Addr) (initcode : Mem) (cwd : Addr) : History :=
  ⟨Kernel.zeroed.userinit kstack pgdir initcode cwd, fun _ _ => false, fun _ => false⟩

/-- In an orderly run every handler belongs to the image of its process, and so does the trampoline. -/
theorem handlers_owned {L : Layout} {kstack pgdir cwd : Addr} {initcode : Mem} {tr : List (History × Action)}
    {s : History} (hr : Run (OfStep (step L)) (boot kstack pgdir initcode cwd) tr s) (hG : Meets Orderly tr) :
    Always HandlersOwned tr s := by
  have hboot : Inv (boot kstack pgdir initcode cwd) := fun j hlive =>
    .of_default (fun n => congrFun (userinit_live hlive).2.1 n) (by simp [boot])
  exact (hr.always hboot hG fun hI hg hs => hI.step hg hs).mono fun _ => Inv.handlersOwned

theorem not_handlersOwned {s : History} {tr : List (History × Action)} {j : Fin nproc} {n : Fin numsig}
    (hrun : (s.kernel.proc j).state = .running) (hn : (s.kernel.proc j).sighandlers n ≠ defualtHandlerAdd)
    (h : s.installed j n = false ∨ ¬HoldsTrampoline (s.kernel.proc j)) : ¬Always HandlersOwned tr s := by
  intro hP
  obtain ⟨hinstalled, htrampoline⟩ := hP.2 j (Busy.live (.inr (.inr hrun))) n hn
  rcases h with h | h
  · simp [h] at hinstalled
  · exact h htrampoline

def program : Image := ⟨0x1000, fun _ => 0x90, 0, 0x80404000, by decide⟩

def execProgram : List Action := [.scheduler 0, .exec 0 (some program) [0x70] []]

/-- The child of a process that has executed a program sets a handler, which is to return to address zero;
    and a process that sets a handler and executes the program again keeps the handler. -/
theorem handlers_not_owned :
    (∃ tr s, Run (OfStep (step bootLayout)) (boot 0x80400000 0x80401000 (fun _ => 0) 0x80112000) tr s ∧
      tr.map (·.2) = execProgram ++ [.fork 0 0x80402000 0x80403000, .scheduler 1, .signal 1 3 0x100] ∧
      (s.kernel.proc 1).sigretAdd = 0 ∧ ¬Always HandlersOwned tr s) ∧
    ∃ tr s, Run (OfStep (step bootLayout)) (boot 0x80400000 0x80401000 (fun _ => 0) 0x80112000) tr s ∧
      tr.map (·.2) = execProgram ++ [.signal 0 3 0x100, .exec 0 (some program) [0x70] []] ∧
      s.installed 0 3 = false ∧ ¬Always HandlersOwned tr s := by
  constructor
  · obtain ⟨tr, s, hr, hl, hrun, hhandler, hsigret, htrampoline⟩ := Run.exists_of_traceOf (f := step bootLayout)
      (boot 0x80400000 0x80401000 (fun _ => 0) 0x80112000)
      (execProgram ++ [.fork 0 0x80402000 0x80403000, .scheduler 1, .signal 1 3 0x100])
      (fun _ s => (s.kernel.proc 1).state = .running ∧ (s.kernel.proc 1).sighandlers 3 ≠ defualtHandlerAdd ∧
        (s.kernel.proc 1).sigretAdd = 0 ∧ ¬HoldsTrampoline (s.kernel.proc 1)) (by decide)
    exact ⟨tr, s, hr, hl, hsigret, not_handlersOwned hrun hhandler (.inr htrampoline)⟩
  · obtain ⟨tr, s, hr, hl, hrun, hhandler, hinstalled⟩ := Run.exists_of_traceOf (f := step bootLayout)
      (boot 0x80400000 0x80401000 (fun _ => 0) 0x80112000)
      (execProgram ++ [.signal 0 3 0x100, .exec 0 (some program) [0x70] []])
      (fun _ s => (s.kernel.proc 0).state = .running ∧ (s.kernel.proc 0).sighandlers 3 ≠ defualtHandlerAdd ∧
        s.installed 0 3 = false) (by decide)
    exact ⟨tr, s, hr, hl, hinstalled, not_handlersOwned hrun hhandler (.inl hinstalled)⟩

theorem handlers_owned_program :
    ∃ tr s, Run (OfStep (step bootLayout)) (boot 0x80400000 0x80401000 (fun _ => 0) 0x80112000) tr s ∧
      tr.map (·.2) = execProgram ++ [.signal 0 3 0x100] ∧ Always HandlersOwned tr s := by
  obtain ⟨tr, s, hr, hl, hG⟩ := Run.exists_of_traceOf (f := step bootLayout)
    (boot 0x80400000 0x80401000 (fun _ => 0) 0x80112000) (execProgram ++ [.signal 0 3 0x100])
    (fun tr _ => Meets Orderly tr) (by decide)
  exact ⟨tr, s, hr, hl, handlers_owned hr hG⟩

end History

end Xv6
