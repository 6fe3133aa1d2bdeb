import Xv6.Proc

/-! Signal delivery on the way back from a trap (`trap.c`, `trapasm.S`), and how a system call fetches its
    arguments (`syscall.c`). `handling_signal` runs in kernel mode and stores through the user stack
    pointer of the trap frame; the words it stores are kept in order. -/

namespace Xv6
open Lib

/-! ### Signal delivery -/

/-- A delivery in progress: the process, the words stored so far with their addresses, and what
    `defaultSigHandler` has printed, as signal numbers and pids. -/
structure Delivery where
  proc : Proc
  stores : List (Addr × Word)
  accepted : List (Fin numsig × Int)

namespace Delivery

/-- `proc->pending[sigIdx] = 0`. -/
def clear (d : Delivery) (sigIdx : Fin numsig) : Delivery :=
  { d with proc := { d.proc with pending := Function.update d.proc.pending sigIdx 0 } }

/-- `proc->tf->esp -= 4; *((uint*) proc->tf->esp) = v`. -/
def push (d : Delivery) (v : Word) : Delivery :=
  let esp := d.proc.frame.esp - 4
  { d with
    proc := { d.proc with frame := { d.proc.frame with esp }, mem := store32 d.proc.mem esp v }
    stores := d.stores ++ [(esp, v)] }

/-- `pushHandlingSig`: push the interrupted `eip`, the signal number and the address of the trampoline,
    and continue at the handler. -/
def pushHandlingSig (d : Delivery) (sigIdx : Fin numsig) : Delivery :=
  let d := d.clear sigIdx
  let d := d.push d.proc.frame.eip
  let d := d.push (BitVec.ofNat 32 sigIdx)
  let d := d.push d.proc.sigretAdd
  { d with proc := { d.proc with frame := { d.proc.frame with eip := d.proc.sighandlers sigIdx } } }

def defaultSigHandler (d : Delivery) (sigNum : Fin numsig) : Delivery :=
  { d with accepted := d.accepted ++ [(sigNum, d.proc.pid)] }

/-- The body of the loop of `handling_signal`. -/
def handleOne (d : Delivery) (sigIdx : Fin numsig) : Delivery :=
  if d.proc.pending sigIdx = 1 then
    let d := d.clear sigIdx
    if d.proc.sighandlers sigIdx = defualtHandlerAdd then (d.defaultSigHandler sigIdx).clear sigIdx
    else d.pushHandlingSig sigIdx
  else d

end Delivery

/-- `handling_signal`, for the current process `p`. -/
def handlingSignal (p : Proc) : Delivery := (List.finRange numsig).foldl Delivery.handleOne ⟨p, [], []⟩

/-- Every word that the delivery stores lies inside the process's memory. -/
def StoresInside (p : Proc) : Prop := ∀ st ∈ (handlingSignal p).stores, st.1.toNat + 4 ≤ p.sz.toNat

-- By a walk through the list: words and addresses are finitely many, and there is an instance that tries them all.
instance (p : Proc) : Decidable (StoresInside p) :=
  List.decidableBAll (fun st : Addr × Word => st.1.toNat + 4 ≤ p.sz.toNat) (handlingSignal p).stores

/-! ### Back in user mode -/

/-- The part of the user-mode machine that calls and returns work on. -/
structure User where
  eip : Word
  esp : Word
  mem : Mem

/-- Where `trapret` resumes a process. -/
def Proc.resume (p : Proc) : User := ⟨p.frame.eip, p.frame.esp, p.mem⟩

def User.ret (u : User) : User := { u with eip := load32 u.mem u.esp, esp := u.esp + 4 }

/-- `sigretimplicit`: `addl $4, %esp; ret`. -/
def sigretimplicit (u : User) : User := User.ret { u with esp := u.esp + 4 }

/-- Run `k` routines from `u`, each from its entry until it leaves by `ret`; `code n` is what the `n`th
    routine does. The result lists the entries, each with its address and the word above its return
    address, where a C function finds its first argument, and the last state. -/
def User.exec (code : Nat → User → User) : Nat → Nat → User → List (Addr × Word) × User
  | _, 0, u => ([], u)
  | n, k + 1, u =>
    let r := exec code (n + 1) k (code n u)
    ((u.eip, load32 u.mem (u.esp + 4)) :: r.1, r.2)

/-! ### Registers -/

/-- The general registers but `esp`, and the flags. -/
@[ext]
structure Registers where
  edi : Word
  esi : Word
  ebp : Word
  ebx : Word
  edx : Word
  ecx : Word
  eax : Word
  eflags : Word
  deriving DecidableEq

/-- What `popal` and `iret` load. -/
def Trapframe.registers (tf : Trapframe) : Registers :=
  ⟨tf.edi, tf.esi, tf.ebp, tf.ebx, tf.edx, tf.ecx, tf.eax, tf.eflags⟩

/-- The user-mode machine with its registers. -/
structure Cpu where
  user : User
  regs : Registers

/-- Where `trapret` resumes a process, with its registers. -/
def Proc.resumeCpu (p : Proc) : Cpu := ⟨p.resume, p.frame.registers⟩

/-- The flags that an addition sets: CF, PF, AF, ZF, SF and OF. -/
def arithFlags : Word := 0x8D5

/-- The arithmetic flags after `a + b`. -/
def sumFlags (a b : Word) : Word :=
  let r := a + b
  let flag (c : Bool) (v : Word) : Word := if c then v else 0
  flag (0x100000000 ≤ a.toNat + b.toNat) 0x1 |||
  flag (((List.range 8).countP fun n => r.getLsbD n) % 2 = 0) 0x4 |||
  flag ((a ^^^ b ^^^ r).getLsbD 4) 0x10 |||
  flag (r = 0) 0x40 |||
  flag r.msb 0x80 |||
  flag (a.msb = b.msb ∧ r.msb ≠ a.msb) 0x800

/-- The flags after `addl`. -/
def addlFlags (a b eflags : Word) : Word := eflags &&& ~~~arithFlags ||| sumFlags a b

/-- `sigretimplicit`, with the flags that `addl $4, %esp` leaves. -/
def Cpu.sigretimplicit (c : Cpu) : Cpu :=
  ⟨Xv6.sigretimplicit c.user, { c.regs with eflags := addlFlags c.user.esp 4 c.regs.eflags }⟩

/-- Run `k` routines from `c`. -/
def Cpu.exec (code : Nat → Cpu → Cpu) : Nat → Nat → Cpu → Cpu
  | _, 0, c => c
  | n, k + 1, c => exec code (n + 1) k (code n c)

/-! ### System-call arguments -/

/-- `fetchint`, on 32-bit sums. -/
def fetchint (p : Proc) (addr : Addr) : Option Int :=
  if addr ≥ p.sz ∨ addr + 4 > p.sz then none else some (load32 p.mem addr).toInt

/-- The address from which `argint` fetches argument `n`. -/
def argAddr (p : Proc) (n : Nat) : Addr := p.frame.esp + 4 + 4 * BitVec.ofNat 32 n

def argint (p : Proc) (n : Nat) : Option Int := fetchint p (argAddr p n)

/-- `argptr`; the address is the result. -/
def argptr (p : Proc) (n : Nat) (size : Word) : Option Addr :=
  (argint p n).bind fun i =>
    let a := BitVec.ofInt 32 i
    if size.toInt < 0 ∨ a ≥ p.sz ∨ a + size > p.sz then none else some a

/-- `fetchstr`: the length of the string at `addr`. -/
def fetchstr (p : Proc) (addr : Addr) : Option Nat :=
  if addr ≥ p.sz then none
  else (List.range (p.sz.toNat - addr.toNat)).find? fun k => p.mem (addr + BitVec.ofNat 32 k) = 0

/-- `argstr`; the result is the address and the length. -/
def argstr (p : Proc) (n : Nat) : Option (Addr × Nat) :=
  (argint p n).bind fun addr =>
    let a := BitVec.ofInt 32 addr
    (fetchstr p a).map fun k => (a, k)

/-- A system call with the arguments `args`, as the kernel finds it: the caller has pushed them, and the call of the
    routine in `usys.S` the return address. -/
def Proc.calls (p : Proc) (args : List Word) (ret : Word) : Proc :=
  let push (v : Word) (p : Proc) : Proc := { p with frame.esp := p.frame.esp - 4, mem := store32 p.mem (p.frame.esp - 4) v }
  push ret (args.foldr push p)

/-- `sys_signal` of process `i`. -/
def sysSignal (k : Kernel) (i : Fin nproc) : Word × Kernel :=
  match argint (k.proc i) 0, argint (k.proc i) 1 with
  | some sigNum, some handler => k.signal i sigNum (BitVec.ofInt 32 handler)
  | _, _ => (-1, k)

def sysAlarm (p : Proc) : Proc :=
  match argint p 0 with
  | none => p
  | some ticksNum => { p with alarmTicksNum := ticksNum }

end Xv6
