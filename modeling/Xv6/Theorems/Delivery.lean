import Xv6.Trap

/-! What `handling_signal` leaves behind, in closed form: the signals with a user handler are pushed on the user stack in
    ascending order, every pending flag is cleared, and nothing else of the process changes. -/

namespace Xv6
open Lib

def UserPending (p : Proc) (s : Fin numsig) : Prop := p.pending s = 1 ∧ p.sighandlers s ≠ defualtHandlerAdd

instance (p : Proc) (s : Fin numsig) : Decidable (UserPending p s) := inferInstanceAs (Decidable (_ ∧ _))

def DefaultPending (p : Proc) (s : Fin numsig) : Prop := p.pending s = 1 ∧ p.sighandlers s = defualtHandlerAdd

instance (p : Proc) (s : Fin numsig) : Decidable (DefaultPending p s) := inferInstanceAs (Decidable (_ ∧ _))

/-- The signals that go to user handlers, in the order of delivery. -/
def userSignals (p : Proc) : List (Fin numsig) := (List.finRange numsig).filter (UserPending p)

/-- The part of a process that a delivery to a user handler works on, with the words stored. -/
structure UserStack where
  esp : Word
  eip : Word
  mem : Mem
  stores : List (Addr × Word)

namespace UserStack

def of (p : Proc) : UserStack := ⟨p.frame.esp, p.frame.eip, p.mem, []⟩

def push (u : UserStack) (v : Word) : UserStack :=
  { u with esp := u.esp - 4, mem := store32 u.mem (u.esp - 4) v, stores := u.stores ++ [(u.esp - 4, v)] }

/-- The frame of a call of the handler of `s`. -/
def call (p : Proc) (u : UserStack) (s : Fin numsig) : UserStack :=
  { ((u.push u.eip).push (BitVec.ofNat 32 s)).push p.sigretAdd with eip := p.sighandlers s }

end UserStack

def stackAfter (p : Proc) (ss : List (Fin numsig)) : UserStack := ss.foldl (UserStack.call p) (.of p)

/-- The pending flags after the signals `ss` have been looked at. -/
def flagsAfter (p : Proc) (ss : List (Fin numsig)) (s : Fin numsig) : Int :=
  if s ∈ ss ∧ p.pending s = 1 then 0 else p.pending s

/-- The delivery after the signals `ss` have been looked at. -/
def deliveryAfter (p : Proc) (ss : List (Fin numsig)) : Delivery where
  proc := { p with
    pending := flagsAfter p ss
    frame := { p.frame with
      esp := (stackAfter p (ss.filter (UserPending p))).esp
      eip := (stackAfter p (ss.filter (UserPending p))).eip }
    mem := (stackAfter p (ss.filter (UserPending p))).mem }
  stores := (stackAfter p (ss.filter (UserPending p))).stores
  accepted := (ss.filter (DefaultPending p)).map fun s => (s, p.pid)

theorem stackAfter_snoc (p : Proc) (ss : List (Fin numsig)) (s : Fin numsig) :
    stackAfter p (ss ++ [s]) = (stackAfter p ss).call p s := by
  simp [stackAfter]

theorem flagsAfter_nil (p : Proc) : flagsAfter p [] = p.pending := by
  funext s
  simp [flagsAfter]

variable {p : Proc} {s : Fin numsig}

theorem flagsAfter_self (ss : List (Fin numsig)) (h1 : p.pending s = 1) :
    flagsAfter p (ss ++ [s]) s = 0 := by
  simp [flagsAfter, h1]

theorem update_flagsAfter (ss : List (Fin numsig)) (h1 : p.pending s = 1) :
    Function.update (flagsAfter p ss) s 0 = flagsAfter p (ss ++ [s]) := by
  funext n
  by_cases hn : n = s
  · subst hn
    simp [flagsAfter, h1]
  · simp [flagsAfter, hn]

theorem flagsAfter_snoc (ss : List (Fin numsig)) (h1 : p.pending s ≠ 1) :
    flagsAfter p (ss ++ [s]) = flagsAfter p ss := by
  funext n
  by_cases hn : n = s
  · subst hn
    simp [flagsAfter, h1]
  · simp [flagsAfter, hn]

theorem deliveryAfter_snoc {ss : List (Fin numsig)} (hs : s ∉ ss) :
    (deliveryAfter p ss).handleOne s = deliveryAfter p (ss ++ [s]) := by
  have hpending : (deliveryAfter p ss).proc.pending s = p.pending s := by simp [deliveryAfter, flagsAfter, hs]
  by_cases h1 : p.pending s = 1
  · rw [Delivery.handleOne, if_pos (hpending.trans h1)]
    by_cases hdef : p.sighandlers s = defualtHandlerAdd
    · have hu : ¬UserPending p s := fun h => h.2 hdef
      have hd : DefaultPending p s := ⟨h1, hdef⟩
      rw [if_pos (by exact hdef)]
      simp [Delivery.clear, Delivery.defaultSigHandler, deliveryAfter, List.filter_append, hu, hd,
        update_flagsAfter ss h1, flagsAfter_self ss h1]
    · have hu : UserPending p s := ⟨h1, hdef⟩
      have hd : ¬DefaultPending p s := fun h => hdef h.2
      rw [if_neg (by exact hdef)]
      simp [Delivery.pushHandlingSig, Delivery.clear, Delivery.push, deliveryAfter, List.filter_append, hu, hd,
        update_flagsAfter ss h1, flagsAfter_self ss h1, stackAfter_snoc, UserStack.call, UserStack.push]
  · -- A signal that is not pending is skipped, and its flag keeps its value.
    have hu : ¬UserPending p s := fun h => h1 h.1
    have hd : ¬DefaultPending p s := fun h => h1 h.1
    rw [Delivery.handleOne, if_neg (by rw [hpending]; exact h1)]
    simp [deliveryAfter, List.filter_append, hu, hd, flagsAfter_snoc ss h1]

theorem handlingSignal_eq (p : Proc) : handlingSignal p = deliveryAfter p (List.finRange numsig) := by
  have key : ∀ ss : List (Fin numsig), ss.Nodup →
      ss.foldl Delivery.handleOne ⟨p, [], []⟩ = deliveryAfter p ss := by
    intro ss
    induction ss using List.reverseRecOn with
    | nil =>
      intro _
      simp only [deliveryAfter, flagsAfter_nil]
      rfl
    | append_singleton ss s ih =>
      intro h
      obtain ⟨hss, -, hs⟩ := List.nodup_append.mp h
      rw [List.foldl_append, ih hss, List.foldl_cons, List.foldl_nil]
      exact deliveryAfter_snoc fun hmem => hs s hmem s (List.mem_singleton_self s) rfl
  exact key _ (List.nodup_finRange numsig)

theorem handlingSignal_stores (p : Proc) : (handlingSignal p).stores = (stackAfter p (userSignals p)).stores := by
  rw [handlingSignal_eq]
  rfl

/-! ### Where the words go -/

theorem sub_four (x : Addr) (n : Nat) : x - BitVec.ofNat 32 n - 4 = x - BitVec.ofNat 32 (n + 4) := sub_ofNat_sub x n 4

theorem stackAfter_esp (p : Proc) (ss : List (Fin numsig)) :
    (stackAfter p ss).esp = p.frame.esp - BitVec.ofNat 32 (12 * ss.length) := by
  induction ss using List.reverseRecOn with
  | nil => simp [stackAfter, UserStack.of]
  | append_singleton ss s ih =>
    simp only [stackAfter_snoc, UserStack.call, UserStack.push, ih, sub_four, List.length_append, List.length_singleton]
    rfl

theorem stackAfter_stores (p : Proc) (ss : List (Fin numsig)) :
    (stackAfter p ss).stores.map (·.1) =
      (List.range (3 * ss.length)).map fun m => p.frame.esp - BitVec.ofNat 32 (4 * (m + 1)) := by
  induction ss using List.reverseRecOn with
  | nil => simp [stackAfter, UserStack.of]
  | append_singleton ss s ih =>
    have h4 : 4 * (3 * ss.length + 1) = 12 * ss.length + 4 := by omega
    have h8 : 4 * (3 * ss.length + 1 + 1) = 12 * ss.length + 4 + 4 := by omega
    have h12 : 4 * (3 * ss.length + 1 + 1 + 1) = 12 * ss.length + 4 + 4 + 4 := by omega
    rw [List.length_append, List.length_singleton, Nat.mul_add, Nat.mul_one, List.range_succ, List.range_succ,
      List.range_succ]
    simp only [stackAfter_snoc, UserStack.call, UserStack.push, stackAfter_esp, sub_four, List.map_append,
      List.map_cons, List.map_nil, ih, h4, h8, h12]

/-- The user stack pointer leaves room inside the process's memory for three words a handler. -/
def StackRoom (p : Proc) : Prop :=
  userSignals p = [] ∨ 12 * (userSignals p).length ≤ p.frame.esp.toNat ∧ p.frame.esp.toNat ≤ p.sz.toNat

instance (p : Proc) : Decidable (StackRoom p) := inferInstanceAs (Decidable (_ ∨ _))

theorem storesInside_iff_range (p : Proc) : StoresInside p ↔
    ∀ m < 3 * (userSignals p).length, (p.frame.esp - BitVec.ofNat 32 (4 * (m + 1))).toNat + 4 ≤ p.sz.toNat := by
  have hmem : StoresInside p ↔ ∀ a ∈ (handlingSignal p).stores.map (·.1), a.toNat + 4 ≤ p.sz.toNat := by
    simp [StoresInside]
  rw [hmem, handlingSignal_stores, stackAfter_stores]
  simp

theorem userSignals_length_le (p : Proc) : (userSignals p).length ≤ numsig :=
  (List.length_filter_le _ _).trans (by simp)

/-- Nothing checks the user stack pointer: the words stay inside the process's memory exactly if there is
    no handler to call, or the stack pointer leaves room for the calls. -/
theorem storesInside_iff (p : Proc) : StoresInside p ↔ StackRoom p := by
  have hk := userSignals_length_le p
  have hsz := p.sz.isLt
  simp only [numsig] at hk
  rw [storesInside_iff_range, StackRoom, ← List.length_eq_zero_iff]
  constructor
  · intro h
    by_cases h0 : (userSignals p).length = 0
    · exact Or.inl h0
    · refine Or.inr ?_
      -- Otherwise the first word below address zero is stored at the top of the address space.
      have hroom : 12 * (userSignals p).length ≤ p.frame.esp.toNat := by
        by_contra hlt
        have := h (p.frame.esp.toNat / 4) (by omega)
        rw [toNat_sub_ofNat_wrap (by omega) (by omega)] at this
        omega
      have := h 0 (by omega)
      rw [toNat_sub_ofNat (by omega)] at this
      omega
  · rintro (h0 | ⟨hroom, hle⟩) m hm
    · omega
    · rw [toNat_sub_ofNat (by omega)]
      omega

/-- A process of four pages, interrupted at 0x40, with signal 3 pending for a user handler. -/
def signalled (esp : Word) : Proc :=
  { Proc.zeroed with
    sz := 0x4000
    pending := fun s => if s = 3 then 1 else 0
    sighandlers := fun s => if s = 3 then 0x100 else defualtHandlerAdd
    sigretAdd := 0x3FFC
    frame := { Trapframe.ofWords fun _ => 0 with eip := 0x40, esp } }

/-- A stack pointer in the kernel's part of the address space is followed there. -/
theorem stores_in_kernel :
    (handlingSignal (signalled 0x8D000000)).stores = [(0x8CFFFFFC, 0x40), (0x8CFFFFF8, 3), (0x8CFFFFF4, 0x3FFC)] ∧
    ¬StoresInside (signalled 0x8D000000) := by
  have hstores : (handlingSignal (signalled 0x8D000000)).stores =
      [(0x8CFFFFFC, 0x40), (0x8CFFFFF8, 3), (0x8CFFFFF4, 0x3FFC)] := by decide
  refine ⟨hstores, fun h => ?_⟩
  have := h (0x8CFFFFFC, 0x40) (hstores ▸ List.mem_cons_self ..)
  exact absurd this (by decide)

end Xv6
