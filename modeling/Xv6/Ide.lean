import Mathlib.Data.Fintype.Card
import Xv6.Lib.Chain
import Xv6.Lib.Run
import Xv6.Params

/-! The disk driver (`ide.c`) with its queue of buffers, and the disk in memory that takes its place in `memide.c`.

    A step is a critical section under `idelock`: a call of `iderw` up to its first sleep, a caller that runs again and
    either returns or goes back to sleep, and the interrupt handler. A caller may run again at any time, so that there
    are more runs here than the kernel has. The device carries out one command at a time without errors, and raises one
    interrupt after each; `idewait` only delays. -/

namespace Xv6.Ide
open Lib

abbrev fssize : Nat := 1000
abbrev bsize : Nat := 512
abbrev sectorSize : Nat := 512

abbrev ideCmdRead : Byte := 0x20
abbrev ideCmdWrite : Byte := 0x30
abbrev ideCmdRdmul : Byte := 0xC4
abbrev ideCmdWrmul : Byte := 0xC5

abbrev bValid : Word := 2
abbrev bDirty : Word := 4

/-- The `BSIZE / 4` words that `insl` and `outsl` move. -/
abbrev Data := Fin 128 → Word

/-- `struct buf`; the field `qnext` is kept apart, and the lock is held by the caller of `iderw`. -/
structure Buf where
  flags : Word
  dev : Word
  blockno : Word
  data : Data

/-- `(b->flags & (B_VALID|B_DIRTY)) == B_VALID`. -/
def Buf.Synced (b : Buf) : Prop := b.flags &&& (bValid ||| bDirty) = bValid

instance (b : Buf) : Decidable b.Synced := inferInstanceAs (Decidable (_ = _))

/-- `b->flags & B_DIRTY`. -/
def Buf.Dirty (b : Buf) : Prop := b.flags &&& bDirty ≠ 0

instance (b : Buf) : Decidable b.Dirty := inferInstanceAs (Decidable (_ ≠ _))

/-! ### The device -/

/-- The registers that a command is written to, and the words that `outsl` writes after it. -/
structure Command where
  count : Byte
  low : Byte
  mid : Byte
  high : Byte
  drive : Byte
  cmd : Byte
  out : Option Data

namespace Command

def sector (c : Command) : Nat :=
    c.low.toNat + 0x100 * c.mid.toNat + 0x10000 * c.high.toNat + 0x1000000 * (c.drive &&& 0x0F).toNat

/-- The second drive is selected. -/
def disk1 (c : Command) : Bool := c.drive.getLsbD 4

end Command

/-- The two drives, the commands that have not been carried out, the words that `insl` will read, and the interrupts
    that have not been handled. -/
structure Device where
  disk : Bool → Nat → Data
  outstanding : List Command
  port : Data
  irqs : Nat

/-- The device carries out a command and raises an interrupt. -/
def Device.transfer (d : Device) : Option Device :=
  match d.outstanding with
  | [] => none
  | c :: outstanding =>
    let d := { d with outstanding, irqs := d.irqs + 1 }
    if c.cmd = ideCmdWrite ∨ c.cmd = ideCmdWrmul then
      c.out.map fun data =>
        { d with disk := Function.update d.disk c.disk1 (Function.update (d.disk c.disk1) c.sector data) }
    else some { d with port := d.disk c.disk1 c.sector }

/-! ### The driver -/

/-- The buffers, the queue and the device. `waiting` tells for which buffers a call of `iderw` has not returned, and
    `started` lists the buffers that `idestart` was called with. -/
structure State (ι : Type) where
  buf : ι → Buf
  qnext : ι → Option ι
  idequeue : Option ι
  havedisk1 : Bool
  device : Device
  waiting : ι → Bool
  started : List ι

/-- The command for a buffer. -/
def Buf.command (b : Buf) : Command :=
  let sectorPerBlock : Word := BitVec.ofNat 32 (bsize / sectorSize)
  let sector := b.blockno * sectorPerBlock
  let readCmd := if sectorPerBlock = 1 then ideCmdRead else ideCmdRdmul
  let writeCmd := if sectorPerBlock = 1 then ideCmdWrite else ideCmdWrmul
  { count := sectorPerBlock.setWidth 8
    low := (sector &&& 0xFF).setWidth 8
    mid := ((sector.sshiftRight 8) &&& 0xFF).setWidth 8
    high := ((sector.sshiftRight 16) &&& 0xFF).setWidth 8
    drive := (0xE0 ||| ((b.dev &&& 1) <<< 4) ||| ((sector.sshiftRight 24) &&& 0x0F)).setWidth 8
    cmd := if b.Dirty then writeCmd else readCmd
    out := if b.Dirty then some b.data else none }

/-- What `ideintr` makes of the first buffer. -/
def Buf.completed (b : Buf) (port : Data) : Buf :=
  let b := if ¬b.Dirty then { b with data := port } else b
  { b with flags := (b.flags ||| bValid) &&& ~~~bDirty }

namespace State

section Driver
variable {ι : Type} [DecidableEq ι]

/-- `idestart`; `none` is a panic. -/
def idestart (s : State ι) : Option ι → Option (State ι)
  | none => none
  | some b =>
    if (s.buf b).blockno.toNat ≥ fssize then none
    else some { s with
      device := { s.device with outstanding := s.device.outstanding ++ [(s.buf b).command] }
      started := s.started ++ [b] }

def ideintr (s : State ι) : Option (State ι) :=
  match s.idequeue with
  | none => some s
  | some b =>
    let s := { s with
      idequeue := s.qnext b
      buf := Function.update s.buf b ((s.buf b).completed s.device.port) }
    if s.idequeue ≠ none then s.idestart s.idequeue else some s

/-- The loop at the end of `iderw`: the caller returns or sleeps. -/
def await (s : State ι) (b : ι) : State ι := { s with waiting := Function.update s.waiting b (decide ¬(s.buf b).Synced) }

/-- `*pp = b`. -/
def setLink (s : State ι) (pp : Link ι) (b : ι) : State ι :=
  match pp with
  | none => { s with idequeue := some b }
  | some a => { s with qnext := Function.update s.qnext a (some b) }

/-- `iderw` up to its first sleep. The caller holds the lock of `b`, so that no other call of `iderw` with `b` is under
    way. -/
def iderw [Fintype ι] (s : State ι) (b : ι) : Option (State ι) :=
  if s.waiting b then none
  else if (s.buf b).Synced then none
  else if (s.buf b).dev ≠ 0 ∧ ¬s.havedisk1 then none
  else
    let s := { s with qnext := Function.update s.qnext b none }
    (Link.last s.idequeue s.qnext (Fintype.card ι + 1) none).bind fun pp =>
      let s := s.setLink pp b
      (if s.idequeue = some b then s.idestart (some b) else some s).map fun s => s.await b

end Driver

end State

inductive Event (ι : Type)
  | call (b : ι)
  | resume (b : ι)
  /-- The holder of the lock changes the buffer, or the buffer gets another block. -/
  | edit (b : ι) (c : Buf)
  | transfer
  | intr

def State.step {ι : Type} [DecidableEq ι] [Fintype ι] (s : State ι) : Event ι → Option (State ι)
  | .call b => s.iderw b
  | .resume b => if s.waiting b then some (s.await b) else none
  | .edit b c => if s.waiting b then none else some { s with buf := Function.update s.buf b c }
  | .transfer => s.device.transfer.map fun device => { s with device }
  | .intr => if s.device.irqs = 0 then none else { s with device := { s.device with irqs := s.device.irqs - 1 } }.ideintr

/-- Before the first call. -/
def State.start {ι : Type} (buf : ι → Buf) (disk : Bool → Nat → Data) (port : Data) (havedisk1 : Bool) : State ι :=
  ⟨buf, fun _ => none, none, havedisk1, ⟨disk, [], port, 0⟩, fun _ => false, []⟩

/-! ### The disk in memory -/

/-- `iderw` of `memide.c`, on a disk of `FSSIZE` blocks; `none` is a panic. -/
def memIderw (memdisk : Nat → Data) (b : Buf) : Option ((Nat → Data) × Buf) :=
  if b.Synced then none
  else if b.dev ≠ 1 then none
  else if b.blockno.toNat ≥ fssize then none
  else if b.Dirty then
    some (Function.update memdisk b.blockno.toNat b.data, { b with flags := b.flags &&& ~~~bDirty ||| bValid })
  else some (memdisk, { b with data := memdisk b.blockno.toNat, flags := b.flags ||| bValid })

end Xv6.Ide
