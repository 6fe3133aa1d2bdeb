import Mathlib.Logic.Function.Basic
import Xv6.Params

/-! `memcmp` and `memmove` of the kernel (`string.c`), and the `memmove` of the user library (`ulib.c`). Pointers are
    compared without sign, and they wrap around. -/

namespace Xv6
open Lib

/-- `while(n-- > 0) *d++ = *s++;` -/
def copyUp : Nat → Mem → Addr → Addr → Mem
  | 0, m, _, _ => m
  | n + 1, m, d, s => copyUp n (Function.update m d (m s)) (d + 1) (s + 1)

/-- `while(n-- > 0) *--d = *--s;` -/
def copyDown : Nat → Mem → Addr → Addr → Mem
  | 0, m, _, _ => m
  | n + 1, m, d, s => copyDown n (Function.update m (d - 1) (m (s - 1))) (d - 1) (s - 1)

namespace Kernel

/-- `memcmp` of strings of the same length. -/
def memcmp : List Byte → List Byte → Int
  | a :: s1, b :: s2 => if a ≠ b then (a.toNat : Int) - b.toNat else memcmp s1 s2
  | _, _ => 0

/-- What `memmove` returns, and the memory after it; `n` is unsigned. -/
def memmove (m : Mem) (dst src : Addr) (n : Word) : Addr × Mem :=
  if src < dst ∧ src + n > dst then (dst, copyDown n.toNat m (dst + n) (src + n))
  else (dst, copyUp n.toNat m dst src)

end Kernel

/-- The `memmove` of the user library; `n` is an `int`. -/
def User.memmove (m : Mem) (dst src : Addr) (n : Word) : Addr × Mem := (dst, copyUp n.toInt.toNat m dst src)

end Xv6
