import Xv6.Strings

/-! The tables that the firmware of a multiprocessor leaves in memory (`mp.c`). An `mp` structure, which is searched for,
    points to the configuration table; `mpinit` walks through the entries of the table. The offsets are those of the
    structures of `mp.h`. -/

namespace Xv6.Mp
open Lib

/-- `NCPU`. -/
abbrev ncpuMax : Nat := 8

def p2v (a : Addr) : Addr := a + 0x80000000

/-- `sum`, of which the low byte is returned. -/
def sum (m : Mem) (addr : Addr) (len : Nat) : Byte := (bytesAt m addr len).foldl (· + ·) 0

/-! ### mpsearch -/

def mpSize : Nat := 16
def physaddr (m : Mem) (mp : Addr) : Word := load32 m (mp + 4)
def imcrp (m : Mem) (mp : Addr) : Byte := m (mp + 12)

/-- `"_MP_"`. -/
def mpSignature : List Byte := [0x5F, 0x4D, 0x50, 0x5F]

/-- `mpsearch1`, where `len` is a multiple of the size of the structure. -/
def mpsearch1 (m : Mem) (a : Addr) (len : Nat) : Option Addr :=
  ((List.range (len / mpSize)).map fun i => p2v a + BitVec.ofNat 32 (mpSize * i)).find? fun p =>
    Kernel.memcmp (bytesAt m p 4) mpSignature = 0 ∧ sum m p mpSize = 0

def mpsearch (m : Mem) : Option Addr :=
  let bda (i : Addr) : Word := (m (p2v 0x400 + i)).setWidth 32
  let p := (bda 0x0F <<< 8 ||| bda 0x0E) <<< 4
  let found := if p ≠ 0 then mpsearch1 m p 1024 else mpsearch1 m ((bda 0x14 <<< 8 ||| bda 0x13) * 1024 - 1024) 1024
  found.or (mpsearch1 m 0xF0000 0x10000)

/-! ### mpconfig -/

def confSize : Addr := 44
def tableLength (m : Mem) (conf : Addr) : BitVec 16 := m (conf + 5) ++ m (conf + 4)
def version (m : Mem) (conf : Addr) : Byte := m (conf + 6)
def lapicaddr (m : Mem) (conf : Addr) : Word := load32 m (conf + 36)

/-- `"PCMP"`. -/
def confSignature : List Byte := [0x50, 0x43, 0x4D, 0x50]

/-- The `mp` structure and the table, if there is one that is accepted. -/
def mpconfig (m : Mem) : Option (Addr × Addr) :=
  (mpsearch m).bind fun mp =>
    let conf := p2v (physaddr m mp)
    if physaddr m mp = 0 then none
    else if Kernel.memcmp (bytesAt m conf 4) confSignature ≠ 0 then none
    else if version m conf ≠ 1 ∧ version m conf ≠ 4 then none
    else if sum m conf (tableLength m conf).toNat ≠ 0 then none
    else some (mp, conf)

/-! ### mpinit -/

/-- The global variables, of `cpus` the field `apicid` only; `imcr` is whether the interrupt mode has been set. -/
structure Globals where
  ismp : Bool
  ncpu : Nat
  lapic : Word
  ioapicid : Byte
  apicid : Fin ncpuMax → Byte
  imcr : Bool

def Globals.addCpu (g : Globals) (apicid : Byte) : Globals :=
  if h : g.ncpu < ncpuMax then { g with apicid := Function.update g.apicid ⟨g.ncpu, h⟩ apicid, ncpu := g.ncpu + 1 } else g

structure Walk where
  p : Addr
  g : Globals

/-- A round of the loop of `mpinit`. -/
def round (m : Mem) (s : Walk) : Walk :=
  match (m s.p).toNat with
  | 0 => ⟨s.p + 20, s.g.addCpu (m (s.p + 1))⟩
  | 2 => ⟨s.p + 8, { s.g with ioapicid := m (s.p + 1) }⟩
  | 1 | 3 | 4 => ⟨s.p + 8, s.g⟩
  -- This `break` leaves the `switch` and not the loop.
  | _ => ⟨s.p, { s.g with ismp := false }⟩

/-- The loop of `mpinit`, for at most `n` rounds. -/
def rounds (m : Mem) (e : Addr) : Nat → Walk → Walk
  | 0, s => s
  | n + 1, s => if s.p < e then rounds m e n (round m s) else s

def tableEnd (m : Mem) (conf : Addr) : Addr := conf + (tableLength m conf).setWidth 32

/-- The walk through the table at `conf`, for at most `n` rounds. -/
def walk (m : Mem) (conf : Addr) (n : Nat) (g : Globals) : Walk :=
  rounds m (tableEnd m conf) n ⟨conf + confSize, { g with ismp := true, lapic := lapicaddr m conf }⟩

/-- `mpinit`; `none` is that its loop still runs after `n` rounds. -/
def mpinit (m : Mem) (n : Nat) (g : Globals) : Option Globals :=
  match mpconfig m with
  | none => some g
  | some (mp, conf) =>
    let s := walk m conf n g
    if s.p < tableEnd m conf then none
    else if s.g.ismp = false then some { s.g with ncpu := 1, lapic := 0, ioapicid := 0 }
    else if imcrp m mp ≠ 0 then some { s.g with imcr := true }
    else some s.g

end Xv6.Mp
