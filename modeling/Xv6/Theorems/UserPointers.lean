import Xv6.Theorems.Frames

/-! The pointers that a system call fetches from user memory stay inside the process. The checks add 32-bit
    numbers; none of the sums wraps around that passes, because the size of a process is below `KERNBASE`. -/

namespace Xv6
open Lib

def SizesBelow (k : Kernel) : Prop := ∀ j, Live (k.proc j) → (k.proc j).sz.toNat < kernbase

/-! ### The size of a process -/

section Sizes
variable {L : Layout} {k k' : Kernel} {j : Fin nproc} {a : Action} {p q : Proc}

theorem growproc_below {n : Int} {enough : Bool} (hsz : p.sz.toNat < kernbase)
    (h : Kernel.growproc p n enough = some q) : q.sz.toNat < kernbase := by
  simp only [Kernel.growproc] at h
  split_ifs at h with h1 h2 h3 h4 h5 h6 h7
  · cases h
    exact hsz
  · cases h
    exact Nat.lt_of_not_le h2
  · cases h
    exact hsz
  · cases h
    have : p.sz + BitVec.ofInt 32 n < p.sz := by bv_omega
    exact Nat.lt_trans this hsz
  · cases h
    exact hsz

theorem exec_below {img : Option Image} {path : List Byte} {argv : List (List Byte)} {r : Int × Proc}
    (hexec : p.exec img path argv = some r) (hsz : p.sz.toNat < kernbase) : r.2.sz.toNat < kernbase := by
  cases Proc.exec_end hexec with
  | early | late => exact hsz
  | @done im sz _ _ htop =>
    simp only [Image.stackTop] at htop
    split_ifs at htop with h
    cases htop
    refine Nat.lt_of_le_of_lt ?_ (Nat.lt_of_not_le h)
    exact Nat.le_trans (Nat.le_of_eq (BitVec.toNat_ofNat ..)) (Nat.mod_le ..)

theorem Own.below (h : Own L k j a q) (hsz : (k.proc j).sz.toNat < kernbase) : q.sz.toNat < kernbase := by
  cases h with
  | exec hexec => exact exec_below hexec hsz
  | sbrk hgrow => exact growproc_below hsz hgrow
  | sigreturn => simpa [Kernel.sigreturn] using hsz
  | nested | trapret =>
    rw [handlingSignal_eq]
    exact hsz
  | trap | signal | other => exact hsz

theorem SizesBelow.step (hk : SizesBelow k) (hG : Tame k a) (hs : k.step L a = some k') : SizesBelow k' :=
  step_keeps (P := fun c => c.sz.toNat < kernbase) hs hG hk (fun _ _ => Own.below) fun _ _ => id

end Sizes

/-! ### The checks -/

section Checks
variable {p : Proc} {addr : Addr} {n : Nat}

theorem fetchint_inside {v : Int} (hsz : p.sz.toNat < kernbase) (h : fetchint p addr = some v) :
    addr.toNat + 4 ≤ p.sz.toNat ∧ v = (load32 p.mem addr).toInt := by
  unfold fetchint at h
  split_ifs at h with hc
  obtain ⟨h1, h2⟩ := not_or.mp hc
  simp only [kernbase] at hsz
  exact ⟨by bv_omega, (Option.some.inj h).symm⟩

theorem fetchint_of_inside (hsz : p.sz.toNat < kernbase) (h : addr.toNat + 4 ≤ p.sz.toNat) :
    fetchint p addr = some (load32 p.mem addr).toInt := by
  unfold fetchint
  simp only [kernbase] at hsz
  refine if_neg (not_or.mpr ⟨?_, ?_⟩) <;> bv_omega

theorem argptr_inside {size : Word} {a : Addr} (hsz : p.sz.toNat < kernbase) (h : argptr p n size = some a) :
    0 ≤ size.toInt ∧ a.toNat + size.toNat ≤ p.sz.toNat := by
  unfold argptr at h
  obtain ⟨i, -, h⟩ := Option.bind_eq_some_iff.mp h
  dsimp only at h
  split_ifs at h with hc
  obtain ⟨h1, h2⟩ := not_or.mp hc
  obtain ⟨h2, h3⟩ := not_or.mp h2
  cases h
  have hsize : size.toNat < 2 ^ 31 := by
    rw [BitVec.toInt_eq_toNat_cond] at h1
    split_ifs at h1 <;> omega
  simp only [kernbase] at hsz
  exact ⟨by omega, by bv_omega⟩

/-- The string at `addr` has length `k`. -/
def StringAt (p : Proc) (addr : Addr) (k : Nat) : Prop :=
  addr.toNat + k < p.sz.toNat ∧ p.mem (addr + BitVec.ofNat 32 k) = 0 ∧
    ∀ j < k, p.mem (addr + BitVec.ofNat 32 j) ≠ 0

theorem fetchstr_iff {k : Nat} : fetchstr p addr = some k ↔ StringAt p addr k := by
  unfold fetchstr StringAt
  split_ifs with h
  · have : p.sz.toNat ≤ addr.toNat := h
    simp only [false_iff]
    omega
  · have : addr.toNat < p.sz.toNat := BitVec.not_le.mp h
    rw [List.find?_range_eq_some]
    simp only [decide_eq_true_eq, Bool.not_eq_true', decide_eq_false_iff_not, List.mem_range, ne_eq]
    constructor
    · rintro ⟨h1, h2, h3⟩
      exact ⟨by omega, h1, h3⟩
    · rintro ⟨h1, h2, h3⟩
      exact ⟨h2, by omega, h3⟩

theorem argstr_iff {a : Addr} {k : Nat} (hsz : p.sz.toNat < kernbase) :
    argstr p n = some (a, k) ↔
      (argAddr p n).toNat + 4 ≤ p.sz.toNat ∧ a = load32 p.mem (argAddr p n) ∧ StringAt p a k := by
  unfold argstr argint
  constructor
  · intro h
    obtain ⟨v, hv, h⟩ := Option.bind_eq_some_iff.mp h
    obtain ⟨hin, rfl⟩ := fetchint_inside hsz hv
    obtain ⟨k', hk, he⟩ := Option.map_eq_some_iff.mp h
    cases he
    rw [BitVec.ofInt_toInt] at hk ⊢
    exact ⟨hin, rfl, fetchstr_iff.mp hk⟩
  · rintro ⟨hin, rfl, hk⟩
    rw [fetchint_of_inside hsz hin, Option.bind_some, BitVec.ofInt_toInt]
    dsimp only
    rw [fetchstr_iff.mpr hk]
    rfl

end Checks

/-- The size of every process stays below `KERNBASE`; and then the ranges that `argptr`, `fetchint` and `argint` accept
    are inside the process, and `argstr` accepts exactly the strings that are. -/
theorem arguments_inside {L : Layout} {kstack pgdir cwd : Addr} {initcode : Mem} {tr : List (Kernel × Action)} {k : Kernel}
    {j : Fin nproc} (hr : Run (OfStep (Kernel.step L)) (Kernel.zeroed.userinit kstack pgdir initcode cwd) tr k)
    (hG : Meets Tame tr) (hlive : Live (k.proc j)) :
    (k.proc j).sz.toNat < kernbase ∧ ∀ (frame : Trapframe) (mem : Mem) (n : Nat),
      let p := { k.proc j with frame, mem }
      (∀ size a, argptr p n size = some a → 0 ≤ size.toInt ∧ a.toNat + size.toNat ≤ p.sz.toNat) ∧
      (∀ addr v, fetchint p addr = some v → addr.toNat + 4 ≤ p.sz.toNat) ∧
      (∀ v, argint p n = some v → (argAddr p n).toNat + 4 ≤ p.sz.toNat) ∧
      ∀ a l, argstr p n = some (a, l) ↔
        (argAddr p n).toNat + 4 ≤ p.sz.toNat ∧ a = load32 mem (argAddr p n) ∧ StringAt p a l := by
  have hinit : SizesBelow (Kernel.zeroed.userinit kstack pgdir initcode cwd) := fun j hlive => by
    rw [(userinit_live hlive).2.2]
    decide
  have hall := hr.always hinit hG SizesBelow.step
  have hsz := hall.2 j hlive
  refine ⟨hsz, fun frame mem n => ⟨fun size a h => ?_, fun addr v h => ?_, fun v h => ?_, fun a l => ?_⟩⟩
  · exact argptr_inside (p := { k.proc j with frame, mem }) hsz h
  · exact (fetchint_inside (p := { k.proc j with frame, mem }) hsz h).1
  · exact (fetchint_inside (p := { k.proc j with frame, mem }) hsz h).1
  · exact argstr_iff (p := { k.proc j with frame, mem }) hsz

/-- The first process grows by a page and calls `fork`. -/
theorem arguments_inside_sbrk : ∃ tr k, Run (OfStep (Kernel.step bootLayout)) bootKernel tr k ∧
    tr.map (·.2) = firstTrap ++ [.sbrk 0 4096 true, .fork 0 0x80500000 0x80600000] ∧ Live (k.proc 1) ∧
      (k.proc 1).sz = 8192 ∧ (k.proc 1).sz.toNat < kernbase := by
  obtain ⟨tr, k, hr, hl, hlive, hsz, hG⟩ := Run.exists_of_traceOf (f := Kernel.step bootLayout) bootKernel
    (firstTrap ++ [.sbrk 0 4096 true, .fork 0 0x80500000 0x80600000])
    (fun tr k => (k.proc 1).state = .runnable ∧ (k.proc 1).sz = 8192 ∧ Meets Tame tr) (by decide +kernel)
  have hlive : Live (k.proc 1) := Busy.live (.inr (.inl hlive))
  exact ⟨tr, k, hr, hl, hlive, hsz, (arguments_inside hr hG hlive).1⟩

end Xv6
