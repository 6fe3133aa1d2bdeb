import Xv6.Theorems.Delivery

/-! The frames that `handling_signal` stacks up unwind to where the process was interrupted: every frame returns through
    the trampoline to the handler below it, so the handlers run in descending order. -/

namespace Xv6
open Lib

/-! ### Stacked frames -/

section Framed
variable {p : Proc} {ss : List (Fin numsig)} {u : User}

/-- The address at which the process continues when the handlers of `ss` are still to run. -/
def resumeAt (p : Proc) : List (Fin numsig) → Addr
  | [] => p.frame.eip
  | s :: _ => p.sighandlers s

/-- The user stack holds the frames of the handlers of `ss`, the first on top, above the interrupted stack. -/
def Framed (p : Proc) : List (Fin numsig) → User → Prop
  | [], u => u.eip = p.frame.eip ∧ u.esp = p.frame.esp
  | s :: ss, u => u.eip = p.sighandlers s ∧ u.esp.toNat + 12 * (ss.length + 1) = p.frame.esp.toNat ∧
      load32 u.mem u.esp = p.sigretAdd ∧ load32 u.mem (u.esp + 4) = BitVec.ofNat 32 s ∧
      Framed p ss ⟨load32 u.mem (u.esp + 8), u.esp + 12, u.mem⟩

theorem Framed.eip (h : Framed p ss u) : u.eip = resumeAt p ss := by
  cases ss with
  | nil => exact h.1
  | cons => exact h.1

theorem Framed.esp (h : Framed p ss u) : u.esp.toNat + 12 * ss.length = p.frame.esp.toNat := by
  cases ss with
  | nil => simp [h.2]
  | cons => exact h.2.1

theorem Framed.congr {m : Mem} (h : Framed p ss u) (hm : AgreeFrom u.esp.toNat m u.mem) :
    Framed p ss { u with mem := m } := by
  induction ss generalizing u with
  | nil => exact h
  | cons s ss ih =>
    obtain ⟨heip, hesp, hret, harg, hrest⟩ := h
    have hE := p.frame.esp.isLt
    have h4 : (u.esp + 4).toNat = u.esp.toNat + 4 := by bv_omega
    have h8 : (u.esp + 8).toNat = u.esp.toNat + 8 := by bv_omega
    have h12 : (u.esp + 12).toNat = u.esp.toNat + 12 := by bv_omega
    have hsaved : load32 m (u.esp + 8) = load32 u.mem (u.esp + 8) := hm.load32 (by omega) (by omega)
    have hret' : load32 m u.esp = load32 u.mem u.esp := hm.load32 (Nat.le_refl _) (by omega)
    have harg' : load32 m (u.esp + 4) = load32 u.mem (u.esp + 4) := hm.load32 (by omega) (by omega)
    refine ⟨heip, hesp, hret'.trans hret, harg'.trans harg, ?_⟩
    simp only [hsaved]
    exact ih hrest (hm.mono (by simp only [h12]; omega))

theorem Framed.call {u : UserStack} (h : Framed p ss ⟨u.eip, u.esp, u.mem⟩) (hroom : 12 ≤ u.esp.toNat)
    (s : Fin numsig) : Framed p (s :: ss) ⟨(u.call p s).eip, (u.call p s).esp, (u.call p s).mem⟩ := by
  have hlt := u.esp.isLt
  have hesp := h.esp
  have h12 : u.esp - 4 - 4 - 4 + 12 = u.esp := by grind
  have h8 : u.esp - 4 - 4 - 4 + 8 = u.esp - 4 := by grind
  have h4 : u.esp - 4 - 4 - 4 + 4 = u.esp - 4 - 4 := by grind
  have n4 : (u.esp - 4).toNat = u.esp.toNat - 4 := toNat_sub_four (by omega)
  have n8 : (u.esp - 4 - 4).toNat = u.esp.toNat - 8 := by rw [toNat_sub_four (by omega)]; omega
  have n12 : (u.esp - 4 - 4 - 4).toNat = u.esp.toNat - 12 := by rw [toNat_sub_four (by omega)]; omega
  -- The three stores, in the order in which the frame is read back.
  set m₁ := store32 u.mem (u.esp - 4) u.eip with hm₁
  set m₂ := store32 m₁ (u.esp - 4 - 4) (BitVec.ofNat 32 s) with hm₂
  set m₃ := store32 m₂ (u.esp - 4 - 4 - 4) p.sigretAdd with hm₃
  have hmem : (u.call p s).mem = m₃ := rfl
  have hcall : (u.call p s).esp = u.esp - 4 - 4 - 4 := rfl
  have h32 : AgreeFrom (u.esp.toNat - 8) m₃ m₂ := .store32 (by omega)
  have h21 : AgreeFrom (u.esp.toNat - 4) m₂ m₁ := .store32 (by omega)
  have h10 : AgreeFrom u.esp.toNat m₁ u.mem := .store32 (by omega)
  have h31 : AgreeFrom (u.esp.toNat - 4) m₃ m₁ := (h32.mono (by omega)).trans h21
  refine ⟨rfl, ?_, ?_, ?_, ?_⟩
  · simp only [hcall, n12] at hesp ⊢
    omega
  · rw [hmem, hcall, hm₃, load32_store32]
  · rw [hmem, hcall, h4, h32.load32 (by omega) (by omega), hm₂, load32_store32]
  · rw [hmem, hcall, h8, h12, h31.load32 (by omega) (by omega), hm₁, load32_store32]
    exact h.congr ((h31.mono (Nat.sub_le ..)).trans h10)

theorem framed_stackAfter (ss : List (Fin numsig)) (hroom : 12 * ss.length ≤ p.frame.esp.toNat) :
    Framed p ss.reverse ⟨(stackAfter p ss).eip, (stackAfter p ss).esp, (stackAfter p ss).mem⟩ := by
  induction ss using List.reverseRecOn with
  | nil => exact ⟨rfl, rfl⟩
  | append_singleton ss s ih =>
    rw [List.length_append, List.length_singleton] at hroom
    have h := ih (by omega)
    have hesp := h.esp
    rw [List.length_reverse] at hesp
    dsimp only at hesp
    rw [List.reverse_append, List.reverse_singleton, stackAfter_snoc]
    exact h.call (by omega) s

end Framed

/-! ### Unwinding -/

/-- A routine that was entered at `u` leaves at `v` by `ret`, with the memory above its return address and first
    argument as it was. -/
structure Returns (u v : User) : Prop where
  eip : v.eip = load32 u.mem u.esp
  esp : v.esp = u.esp + 4
  mem : AgreeFrom (u.esp.toNat + 8) v.mem u.mem

/-- Every handler of a signal of `ss` that is entered inside the process's memory is a C function. -/
def HandlersReturn (p : Proc) (ss : List (Fin numsig)) (code : Nat → User → User) : Prop :=
  ∀ n u, ∀ s ∈ ss, u.eip = p.sighandlers s → u.esp.toNat + 8 ≤ p.sz.toNat → Returns u (code n u)

/-- The code at `sigretAdd` is the trampoline. -/
def TrampolineAt (p : Proc) (code : Nat → User → User) : Prop :=
  ∀ n u, u.eip = p.sigretAdd → code n u = sigretimplicit u

/-- The calls that run the handlers of `ss`, each followed by the trampoline. -/
def entries (p : Proc) : List (Fin numsig) → List (Addr × Word)
  | [] => []
  | s :: ss => (p.sighandlers s, BitVec.ofNat 32 s) :: (p.sigretAdd, resumeAt p ss) :: entries p ss

section Unwind
variable {p : Proc} {ss : List (Fin numsig)} {s : Fin numsig} {u v : User}

theorem Framed.unwind (h : Framed p (s :: ss) u) (hv : Returns u v) :
    v.eip = p.sigretAdd ∧ load32 v.mem (v.esp + 4) = resumeAt p ss ∧ Framed p ss (sigretimplicit v) := by
  obtain ⟨-, hesp, hret, -, hrest⟩ := h
  have hE := p.frame.esp.isLt
  have h8 : (u.esp + 8).toNat = u.esp.toNat + 8 := by bv_omega
  have h12 : (u.esp + 12).toNat = u.esp.toNat + 12 := by bv_omega
  have hv8 : v.esp + 4 = u.esp + 8 := by rw [hv.esp]; grind
  have hv12 : u.esp + 8 + 4 = u.esp + 12 := by grind
  have hsaved : load32 v.mem (u.esp + 8) = load32 u.mem (u.esp + 8) := hv.mem.load32 (by omega) (by omega)
  refine ⟨hv.eip.trans hret, ?_, ?_⟩
  · rw [hv8, hsaved]
    exact hrest.eip
  · simp only [sigretimplicit, User.ret, hv8, hv12, hsaved]
    exact hrest.congr (hv.mem.mono (by simp only [h12]; omega))

theorem Framed.exec {code : Nat → User → User} (h : Framed p ss u) (hE : p.frame.esp.toNat ≤ p.sz.toNat)
    (hC : HandlersReturn p ss code) (hT : TrampolineAt p code) (n : Nat) :
    ∃ v, User.exec code n (2 * ss.length) u = (entries p ss, v) ∧ v.eip = p.frame.eip ∧ v.esp = p.frame.esp := by
  induction ss generalizing n u with
  | nil => exact ⟨u, rfl, h⟩
  | cons s ss ih =>
    have hesp := h.esp
    rw [List.length_cons] at hesp
    have hv : Returns u (code n u) := hC n u s (List.mem_cons_self ..) h.1 (by omega)
    obtain ⟨heip, harg, hrest⟩ := h.unwind hv
    have htramp : code (n + 1) (code n u) = sigretimplicit (code n u) := hT _ _ heip
    have hC' : HandlersReturn p ss code := fun n u s' hs' => hC n u s' (List.mem_cons_of_mem _ hs')
    obtain ⟨w, hw, hend⟩ := ih hrest hC' (n + 2)
    refine ⟨w, ?_, hend⟩
    simp only [List.length_cons, Nat.mul_add, User.exec, htramp, hw, h.1, h.2.2.2.1, heip, harg, entries]

end Unwind

theorem userSignals_pairwise (p : Proc) : (userSignals p).Pairwise (· < ·) :=
  (List.pairwise_lt_finRange numsig).filter _

/-- After a delivery with room on the user stack, the user handlers of the pending signals run once each,
    in descending order and with their own signal as argument, and then the process continues where it
    was interrupted. No flag that was set stays set. -/
theorem handlers_run (p : Proc) (code : Nat → User → User) (hroom : StackRoom p)
    (hC : HandlersReturn p (userSignals p) code) (hT : TrampolineAt p code) :
    (userSignals p).reverse.Pairwise (· > ·) ∧
    (∃ v, User.exec code 0 (2 * (userSignals p).length) (handlingSignal p).proc.resume =
        (entries p (userSignals p).reverse, v) ∧ v.eip = p.frame.eip ∧ v.esp = p.frame.esp) ∧
    ∀ s, p.pending s = 1 → (handlingSignal p).proc.pending s = 0 := by
  have hproc : (handlingSignal p).proc.resume = ⟨(stackAfter p (userSignals p)).eip,
      (stackAfter p (userSignals p)).esp, (stackAfter p (userSignals p)).mem⟩ := by
    rw [handlingSignal_eq]
    rfl
  refine ⟨List.pairwise_reverse.mpr (userSignals_pairwise p), ?_, fun s hs => ?_⟩
  · rw [hproc]
    rcases hroom with hnone | ⟨hroom, hsz⟩
    · -- Without a user handler to call nothing was pushed.
      simp [hnone, stackAfter, UserStack.of, User.exec, entries]
    · have hC' : HandlersReturn p (userSignals p).reverse code := fun n u s hs => hC n u s (List.mem_reverse.mp hs)
      have := (framed_stackAfter _ hroom).exec hsz hC' hT 0
      rwa [List.length_reverse] at this
  · rw [handlingSignal_eq]
    simp [deliveryAfter, flagsAfter, hs]

def returning (_ : Nat) (u : User) : User := if u.eip = 0x3FFC then sigretimplicit u else u.ret

/-- Signals 3 and 5 for user handlers and signal 7 for the default one. -/
def signalledTwice : Proc :=
  { signalled 0x3000 with
    pending := fun s => if s = 3 ∨ s = 5 ∨ s = 7 then 1 else 0
    sighandlers := fun s => if s = 3 then 0x100 else if s = 5 then 0x200 else defualtHandlerAdd }

theorem handlers_run_twice : ∃ v, User.exec returning 0 4 (handlingSignal signalledTwice).proc.resume =
    ([(0x200, 5), (0x3FFC, 0x100), (0x100, 3), (0x3FFC, 0x40)], v) ∧ v.eip = 0x40 ∧ v.esp = 0x3000 := by
  have hss : userSignals signalledTwice = [3, 5] := by decide
  have hhandler : ∀ s, signalledTwice.sighandlers s ≠ 0x3FFC := by decide
  have hC : HandlersReturn signalledTwice (userSignals signalledTwice) returning := by
    intro n u s _ hu _
    rw [returning, if_neg (by rw [hu]; exact hhandler s)]
    exact ⟨rfl, rfl, .refl _ _⟩
  have h := handlers_run signalledTwice returning (by decide) hC fun n u hu => if_pos hu
  rw [hss] at h
  exact h.2.1

end Xv6
