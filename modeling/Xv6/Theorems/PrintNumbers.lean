import Xv6.Lib.Numerals
import Xv6.Printf

/-! What `printint` prints, in both versions, and what `atoi` makes of it. -/

namespace Xv6
open Lib Printf

section
variable {base x : Word} {k n : Nat}

/-! ### The digits -/

end

/-! ### printint -/

section
variable (x : Word)

theorem User.printint_eq (base : Word) (sgn : Bool) :
    User.printint x base sgn = printDigits upperDigit base (if sgn && x.slt 0 then -x else x) (sgn && x.slt 0) := by
  rw [User.printint]
  cases sgn && x.slt 0 <;> rfl

end

/-! ### atoi -/

end Xv6
