import Xv6.Theorems.HandlerReturn

/-! What the handlers and the trampoline do to the registers. Nothing saves them: a C function may return with any values
    in `eax`, `ecx`, `edx` and the flags, and the trampoline restores none of them and sets the arithmetic flags itself. -/

namespace Xv6
open Lib

/-- A routine that was entered at `c` and left at `d` follows the C calling convention. -/
structure Follows (c d : Cpu) : Prop where
  returns : Returns c.user d.user
  edi : d.regs.edi = c.regs.edi
  esi : d.regs.esi = c.regs.esi
  ebp : d.regs.ebp = c.regs.ebp
  ebx : d.regs.ebx = c.regs.ebx

/-- It also leaves the registers alone that the convention lets it change, and the flags but the arithmetic ones. -/
@[mk_iff]
structure Leaves (c d : Cpu) : Prop where
  eax : d.regs.eax = c.regs.eax
  ecx : d.regs.ecx = c.regs.ecx
  edx : d.regs.edx = c.regs.edx
  flags : d.regs.eflags &&& ~~~arithFlags = c.regs.eflags &&& ~~~arithFlags

/-- Every handler of a signal of `ss` that is entered inside the process's memory is `P`. -/
def HandlersAre (P : Cpu → Cpu → Prop) (p : Proc) (ss : List (Fin numsig)) (code : Nat → Cpu → Cpu) : Prop :=
  ∀ n c, ∀ s ∈ ss, c.user.eip = p.sighandlers s → c.user.esp.toNat + 8 ≤ p.sz.toNat → P c (code n c)

def TrampolineOn (p : Proc) (code : Nat → Cpu → Cpu) : Prop := ∀ n c, c.user.eip = p.sigretAdd → code n c = c.sigretimplicit

section Registers
variable {p : Proc} {ss : List (Fin numsig)} {s : Fin numsig} {c d : Cpu}

/-! ### Flags -/

theorem sumFlags_masked (a b : Word) : sumFlags a b &&& ~~~arithFlags = 0 := by
  unfold sumFlags
  dsimp only
  split_ifs <;> decide

theorem addlFlags_masked (a b f : Word) : addlFlags a b f &&& ~~~arithFlags = f &&& ~~~arithFlags := by
  have hmask (x m y : Word) (h : y &&& ~~~m = 0) : (x &&& ~~~m ||| y) &&& ~~~m = x &&& ~~~m := by
    ext i hi
    have hbit : (y &&& ~~~m)[i] = (0 : Word)[i] := by rw [h]
    simp only [BitVec.getElem_and, BitVec.getElem_or, BitVec.getElem_not, BitVec.ofNat_eq_ofNat,
      BitVec.getElem_zero] at hbit ⊢
    revert hbit
    cases x[i] <;> cases m[i] <;> cases y[i] <;> decide
  exact hmask f arithFlags _ (sumFlags_masked a b)

theorem addlFlags_congr {a b f g : Word} (h : f &&& ~~~arithFlags = g &&& ~~~arithFlags) :
    addlFlags a b f = addlFlags a b g := by
  unfold addlFlags
  rw [h]

theorem addlFlags_eq_iff {a b f g : Word} :
    addlFlags a b f = g ↔ f &&& ~~~arithFlags = g &&& ~~~arithFlags ∧ addlFlags a b g = g := by
  constructor
  · intro h
    have hmask : f &&& ~~~arithFlags = g &&& ~~~arithFlags := by rw [← h, addlFlags_masked]
    exact ⟨hmask, (addlFlags_congr hmask).symm.trans h⟩
  · rintro ⟨hmask, h⟩
    exact (addlFlags_congr hmask).trans h

/-! ### Handlers one after the other -/

/-- The registers that a routine has to give back as it found them. -/
def Registers.saved (r : Registers) : Word × Word × Word × Word := (r.edi, r.esi, r.ebp, r.ebx)

theorem Follows.saved (h : Follows c d) : d.regs.saved = c.regs.saved := by
  simp only [Registers.saved, h.edi, h.esi, h.ebp, h.ebx]

theorem Leaves.trans {e : Cpu} (h : Leaves c d) (h' : Leaves d e) : Leaves c e :=
  ⟨h'.eax.trans h.eax, h'.ecx.trans h.ecx, h'.edx.trans h.edx, h'.flags.trans h.flags⟩

theorem leaves_sigretimplicit (c : Cpu) : Leaves c c.sigretimplicit := ⟨rfl, rfl, rfl, addlFlags_masked ..⟩

/-- Since `c` the handlers of a delivery to `p` have run, the last trampoline has not. -/
structure Handled (p : Proc) (c e : Cpu) : Prop where
  back : e.sigretimplicit.user.eip = p.frame.eip ∧ e.sigretimplicit.user.esp = p.frame.esp
  esp : e.user.esp = p.frame.esp - 8
  saved : e.regs.saved = c.regs.saved

theorem Framed.execCpu {code : Nat → Cpu → Cpu} (h : Framed p (s :: ss) c.user)
    (hE : p.frame.esp.toNat ≤ p.sz.toNat) (hF : HandlersAre Follows p (s :: ss) code) (hT : TrampolineOn p code) (n : Nat) :
    let e := Cpu.exec code n (2 * ss.length + 1) c
    Cpu.exec code n (2 * (s :: ss).length) c = e.sigretimplicit ∧ Handled p c e ∧
      (HandlersAre Leaves p (s :: ss) code → Leaves c e) := by
  induction ss generalizing n c s with
  | nil =>
    have hesp := h.esp
    simp only [List.length_singleton] at hesp
    have hf := hF n c s (List.mem_cons_self ..) h.1 (by omega)
    obtain ⟨heip, -, hrest⟩ := h.unwind hf.returns
    have hlast : (code n c).user.esp = p.frame.esp - 8 := by
      rw [hf.returns.esp]
      have := p.frame.esp.isLt
      bv_omega
    refine ⟨?_, ⟨hrest, hlast, hf.saved⟩, fun hL => hL n c s (List.mem_cons_self ..) h.1 (by omega)⟩
    simp only [List.length_nil, List.length_singleton, Cpu.exec, hT (n + 1) _ heip]
  | cons s' ss ih =>
    have hesp := h.esp
    simp only [List.length_cons] at hesp
    have hf := hF n c s (List.mem_cons_self ..) h.1 (by omega)
    obtain ⟨heip, -, hrest⟩ := h.unwind hf.returns
    have hexec (k : Nat) : Cpu.exec code n (k + 2) c = Cpu.exec code (n + 2) k (code n c).sigretimplicit := by
      simp only [Cpu.exec, hT (n + 1) _ heip]
    obtain ⟨hend, hhandled, hleaves⟩ := ih (c := (code n c).sigretimplicit) hrest
      (fun n c x hx => hF n c x (List.mem_cons_of_mem _ hx)) (n + 2)
    rw [show 2 * (s' :: ss).length + 1 = 2 * ss.length + 1 + 2 by rw [List.length_cons]; omega,
      show 2 * (s :: s' :: ss).length = 2 * (s' :: ss).length + 2 by simp only [List.length_cons]; omega, hexec, hexec]
    refine ⟨hend, ⟨hhandled.back, hhandled.esp, hhandled.saved.trans hf.saved⟩, fun hL => ?_⟩
    exact ((hL n c s (List.mem_cons_self ..) h.1 (by omega)).trans (leaves_sigretimplicit _)).trans
      (hleaves fun n c x hx => hL n c x (List.mem_cons_of_mem _ hx))

/-- The `addl` of the trampoline sets flags, so these come back as they were only if they were set so before. -/
theorem sigretimplicit_regs_iff (h : d.regs.saved = c.regs.saved) :
    d.sigretimplicit.regs = c.regs ↔ Leaves c d ∧ addlFlags d.user.esp 4 c.regs.eflags = c.regs.eflags := by
  simp only [Registers.saved, Prod.mk.injEq] at h
  rw [Registers.ext_iff, leaves_iff]
  simp only [Cpu.sigretimplicit, h, true_and]
  rw [addlFlags_eq_iff]
  tauto

end Registers

/-- When a delivery has called handlers that follow the convention, the process is back where it was interrupted, with
    the registers that a C function saves. It has the others as well exactly if the handlers together have left them
    alone, and its flags were those that the last `addl` of the trampoline sets. -/
theorem registers_kept_iff (p : Proc) (code : Nat → Cpu → Cpu) (hroom : StackRoom p) (hss : userSignals p ≠ [])
    (hF : HandlersAre Follows p (userSignals p) code) (hT : TrampolineOn p code) :
    let c := (handlingSignal p).proc.resumeCpu
    let e := Cpu.exec code 0 (2 * (userSignals p).length - 1) c
    let d := Cpu.exec code 0 (2 * (userSignals p).length) c
    d.user.eip = p.frame.eip ∧ d.user.esp = p.frame.esp ∧ d.regs.saved = p.frame.registers.saved ∧
      (d.regs = p.frame.registers ↔ Leaves c e ∧ addlFlags (p.frame.esp - 8) 4 p.frame.eflags = p.frame.eflags) ∧
      (HandlersAre Leaves p (userSignals p) code → Leaves c e) := by
  intro c e d
  obtain ⟨hroom, hsz⟩ := hroom.resolve_left hss
  have hframed := framed_stackAfter (p := p) _ hroom
  have hcpu : c = ⟨⟨(stackAfter p (userSignals p)).eip, (stackAfter p (userSignals p)).esp,
      (stackAfter p (userSignals p)).mem⟩, p.frame.registers⟩ := by
    simp only [c, handlingSignal_eq]
    rfl
  have hregs : c.regs = p.frame.registers := by rw [hcpu]
  obtain ⟨s, ss, hrev⟩ := List.exists_cons_of_ne_nil (mt List.reverse_eq_nil_iff.mp hss)
  have hmem {x : Fin numsig} (hx : x ∈ s :: ss) : x ∈ userSignals p := List.mem_reverse.mp (hrev ▸ hx)
  rw [hrev] at hframed
  have hlen : (userSignals p).length = (s :: ss).length := by rw [← hrev, List.length_reverse]
  obtain ⟨hend, hhandled, hleaves⟩ := Framed.execCpu (c := c) (hcpu ▸ hframed) hsz
    (fun n c x hx => hF n c x (hmem hx)) hT 0
  have he : e = Cpu.exec code 0 (2 * ss.length + 1) c := by
    simp only [e, hlen, List.length_cons]
    rfl
  rw [← hlen, ← he] at hend
  rw [← he] at hhandled hleaves
  have hd : d = e.sigretimplicit := hend
  have hkept := sigretimplicit_regs_iff hhandled.saved
  rw [hhandled.esp, hregs] at hkept
  rw [hd]
  exact ⟨hhandled.back.1, hhandled.back.2, hhandled.saved.trans (congrArg _ hregs), hkept,
    fun hL => hleaves fun n c x hx => hL n c x (hmem hx)⟩

/-- Code in which every handler returns at once, with `f` of the registers. -/
def returningWith (f : Registers → Registers) (_ : Nat) (c : Cpu) : Cpu :=
  if c.user.eip = 0x3FFC then c.sigretimplicit else ⟨c.user.ret, f c.regs⟩

theorem returningWith_handlers {P : Cpu → Cpu → Prop} {f : Registers → Registers} {p : Proc} (h : ∀ s,
    p.sighandlers s ≠ 0x3FFC)
    (hP : ∀ c : Cpu, P c ⟨c.user.ret, f c.regs⟩) : HandlersAre P p (userSignals p) (returningWith f) := by
  intro n c s _ hc _
  rw [returningWith, if_neg (by rw [hc]; exact h s)]
  exact hP c

/-- A handler that returns 1: the interrupted code finds 1 in `eax`. -/
theorem handler_changes_eax : StackRoom (signalled 0x3000) ∧ userSignals (signalled 0x3000) = [3] ∧
    HandlersAre Follows (signalled 0x3000) (userSignals (signalled 0x3000)) (returningWith fun r => { r with eax := 1 }) ∧
    TrampolineOn (signalled 0x3000) (returningWith fun r => { r with eax := 1 }) ∧
    let d := Cpu.exec (returningWith fun r => { r with eax := 1 }) 0 2 (handlingSignal (signalled 0x3000)).proc.resumeCpu
    d.user.eip = (signalled 0x3000).frame.eip ∧ d.user.esp = (signalled 0x3000).frame.esp ∧
      d.regs.eax = 1 ∧ (signalled 0x3000).frame.eax = 0 := by
  refine ⟨by decide, by decide, ?_, fun n c hc => if_pos hc, by decide +kernel⟩
  exact returningWith_handlers (by decide) fun c => ⟨⟨rfl, rfl, .refl _ _⟩, rfl, rfl, rfl, rfl⟩

/-- Interrupted with the flags that the addition to 0x2FF8 leaves. -/
def signalledEven : Proc := { signalled 0x3000 with frame := { (signalled 0x3000).frame with eflags := 0x206 } }

theorem registers_kept_even : let d := Cpu.exec (returningWith id) 0 2 (handlingSignal signalledEven).proc.resumeCpu
    d.user.eip = 0x40 ∧ d.user.esp = 0x3000 ∧ d.regs = signalledEven.frame.registers := by
  have hss : userSignals signalledEven = [3] := by decide
  have hne : ∀ s, signalledEven.sighandlers s ≠ 0x3FFC := by decide
  have hF : HandlersAre Follows signalledEven (userSignals signalledEven) (returningWith id) :=
    returningWith_handlers hne fun c => ⟨⟨rfl, rfl, .refl _ _⟩, rfl, rfl, rfl, rfl⟩
  have hL : HandlersAre Leaves signalledEven (userSignals signalledEven) (returningWith id) :=
    returningWith_handlers hne fun c => ⟨rfl, rfl, rfl, rfl⟩
  have h := registers_kept_iff signalledEven (returningWith id) (by decide) (by rw [hss]; simp) hF fun n c hc => if_pos hc
  obtain ⟨heip, hesp, -, hiff, hleaves⟩ := h
  have hregs := hiff.mpr ⟨hleaves hL, by decide⟩
  rw [hss] at heip hesp hregs
  exact ⟨heip, hesp, hregs⟩

end Xv6
