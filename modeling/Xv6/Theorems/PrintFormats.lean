import Xv6.Theorems.PrintNumbers

/-! `cprintf` of the kernel and `printf` of the user library print the same if no directive is one of those in which they
    differ. -/

namespace Xv6
open Lib Printf

section
variable {str : Word → List Byte}

theorem digitLoop_congr {digit digit' : Nat → Byte} {base : Word} (hdigit : ∀ d < base.toNat, digit d = digit' d)
    (hb : 0 < base.toNat) (n : Nat)
    (x : Word) (buf : List Byte) : digitLoop digit base n x buf = digitLoop digit' base n x buf := by
  induction n generalizing x buf with
  | zero => rfl
  | succ n ih =>
    have hlt : (x % base).toNat < base.toNat := by
      rw [BitVec.toNat_umod]
      exact Nat.mod_lt _ hb
    rw [digitLoop, digitLoop, hdigit _ hlt]
    simp only [ih]

theorem printint_same (x : Word) : Kernel.printint x 10 true = User.printint x 10 true := by
  have hdigit : ∀ d < (10 : Word).toNat, lowerDigit d = upperDigit d := by decide
  rw [Kernel.printint, User.printint_eq, printDigits, printDigits, digitLoop_congr hdigit (by decide)]

/-- The characters behind the `%` of a format. -/
def directives : List Byte → List Byte
  | [] => []
  | c :: fmt =>
    if c ≠ percent then directives fmt
    else
      match fmt with
      | [] => []
      | d :: fmt => d :: directives fmt

theorem directives_text {c : Byte} (hc : c ≠ percent) (fmt : List Byte) : directives (c :: fmt) = directives fmt := by
  cases fmt <;> simp [directives, hc]

theorem directives_directive (d : Byte) (fmt : List Byte) : directives (percent :: d :: fmt) = d :: directives fmt := by
  simp [directives]

theorem directive_eq {c : Byte} (hx : c ≠ ascii 'x') (hp : c ≠ ascii 'p') (hc : c ≠ ascii 'c') (arg : Word) :
    Kernel.directive str c arg = User.directive str c arg := by
  have hhex : ¬(c = ascii 'x' ∨ c = ascii 'p') := fun h => h.elim hx hp
  rw [Kernel.directive, User.directive, printint_same, if_neg hhex, if_neg hhex, if_neg hc]
  split
  · rfl
  · split
    · rfl
    · split
      · rename_i h
        rw [h]
      · rfl

/-- A format is printed by both in the same way, unless it has a number in hexadecimal, whose digits differ, or a `%c`,
    which the kernel does not know. -/
theorem cprintf_eq_printf {fmt : List Byte} (h : ∀ c ∈ directives fmt, c ≠ ascii 'x' ∧ c ≠ ascii 'p' ∧ c ≠ ascii 'c')
    (argp : Nat → Word) :
    Kernel.cprintf str fmt argp = User.printf str fmt argp := by
  rw [User.printf]
  fun_induction Kernel.cprintf str fmt argp with
  | case1 => rw [User.printfLoop]
  | case2 argp c fmt hc ih =>
    rw [directives_text hc] at h
    rw [User.printfLoop, if_neg hc, ih h]
  | case3 c argp hc => rw [User.printfLoop, if_pos (not_not.mp hc), User.printfLoop]
  | case4 c argp hc d fmt ih =>
    rw [not_not.mp hc, directives_directive] at h
    obtain ⟨⟨hx, hp, hchar⟩, hrest⟩ := List.forall_mem_cons.mp h
    rw [User.printfLoop, if_pos (not_not.mp hc), User.printfLoop, directive_eq hx hp hchar]
    simp only [ih _ hrest]

end

/-- A number and a string. -/
theorem cprintf_eq_printf_line :
    Kernel.cprintf (fun _ => "sh".toList.map ascii) ("pid %d %s\n".toList.map ascii) (fun _ => 7) =
      User.printf (fun _ => "sh".toList.map ascii) ("pid %d %s\n".toList.map ascii) fun _ => 7 :=
  cprintf_eq_printf (by decide +kernel) _

end Xv6
