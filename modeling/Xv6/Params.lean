import Xv6.Lib.Memory

/-! The constants of `param.h`, `memlayout.h`, `mmu.h`, `proc.h` and `uthread.h` that the model uses, and
    bytes. -/

namespace Xv6

abbrev Byte := BitVec 8

def ascii (c : Char) : Byte := BitVec.ofNat 8 c.toNat

/-! ### uthread.h -/

abbrev uthreadQuanta : Int := 5
abbrev nticket : Int := 5
abbrev stackSize : BitVec 32 := 4096
abbrev maxThreads : Nat := 7

/-! ### proc.h and param.h -/

abbrev numsig : Nat := 32
abbrev defualtHandlerAdd : BitVec 32 := 0xFFFF
abbrev sigalrm : Fin numsig := 14

abbrev nproc : Nat := 64
abbrev nofile : Nat := 16
abbrev nfile : Nat := 100
abbrev ninode : Nat := 50
abbrev kstacksize : BitVec 32 := 4096
abbrev maxarg : Nat := 32
abbrev maxopblocks : Nat := 10
abbrev logsize : Nat := maxopblocks * 3

instance : NeZero maxThreads := ⟨by decide⟩
instance : NeZero numsig := ⟨by decide⟩
instance : NeZero nproc := ⟨by decide⟩
instance : NeZero nofile := ⟨by decide⟩
instance : NeZero nfile := ⟨by decide⟩
instance : NeZero ninode := ⟨by decide⟩

/-! ### mmu.h and memlayout.h -/

abbrev flIf : BitVec 32 := 0x00000200
abbrev segUcode : BitVec 16 := 4
abbrev segUdata : BitVec 16 := 5
abbrev dplUser : BitVec 16 := 3
abbrev pgsize : Nat := 4096
abbrev kernbase : Nat := 0x80000000
abbrev phystop : Nat := 0xE000000
abbrev devspace : Nat := 0xFE000000

/-- `PGROUNDUP`, on sizes below `KERNBASE`. -/
def pgroundup (sz : Nat) : Nat := (sz + pgsize - 1) / pgsize * pgsize

/-- A C `int` holds `x` modulo `2 ^ 32`, in two's complement. -/
def int32 (x : Int) : Int := x.bmod (2 ^ 32)

end Xv6
