import Mathlib.Data.Fintype.Basic
import Xv6.Params

/-! The process table (`proc.h`, `proc.c`) with its signal fields, and the operations on it. A process is
    its `struct proc` together with what the pointers `tf` and `pgdir` lead to: the trap frame at the top
    of its kernel stack, and its user memory. Locks, the reference counts of files and inodes, and the
    page tables are left out; where an operation can run out of memory, what `kalloc` returned is one of
    its arguments. -/

namespace Xv6
open Lib

/-- `struct trapframe`. -/
structure Trapframe where
  edi : Word
  esi : Word
  ebp : Word
  oesp : Word
  ebx : Word
  edx : Word
  ecx : Word
  eax : Word
  gs : BitVec 16
  padding1 : BitVec 16
  fs : BitVec 16
  padding2 : BitVec 16
  es : BitVec 16
  padding3 : BitVec 16
  ds : BitVec 16
  padding4 : BitVec 16
  trapno : Word
  err : Word
  eip : Word
  cs : BitVec 16
  padding5 : BitVec 16
  eflags : Word
  esp : Word
  ss : BitVec 16
  padding6 : BitVec 16
  deriving DecidableEq

/-- The trap frame that 19 words in memory spell. -/
def Trapframe.ofWords (w : Nat → Word) : Trapframe where
  edi := w 0
  esi := w 1
  ebp := w 2
  oesp := w 3
  ebx := w 4
  edx := w 5
  ecx := w 6
  eax := w 7
  gs := (w 8).extractLsb' 0 16
  padding1 := (w 8).extractLsb' 16 16
  fs := (w 9).extractLsb' 0 16
  padding2 := (w 9).extractLsb' 16 16
  es := (w 10).extractLsb' 0 16
  padding3 := (w 10).extractLsb' 16 16
  ds := (w 11).extractLsb' 0 16
  padding4 := (w 11).extractLsb' 16 16
  trapno := w 12
  err := w 13
  eip := w 14
  cs := (w 15).extractLsb' 0 16
  padding5 := (w 15).extractLsb' 16 16
  eflags := w 16
  esp := w 17
  ss := (w 18).extractLsb' 0 16
  padding6 := (w 18).extractLsb' 16 16

/-- `sizeof(struct trapframe)`. -/
def sizeofTrapframe : BitVec 32 := 76

/-- `enum procstate`. -/
inductive ProcState
  | unused | embryo | sleeping | runnable | running | zombie
  deriving DecidableEq, Repr

/-- The value of the enumeration constant. -/
def ProcState.toWord : ProcState → Word
  | .unused => 0
  | .embryo => 1
  | .sleeping => 2
  | .runnable => 3
  | .running => 4
  | .zombie => 5

/-- `struct proc`. The last two fields are what `tf` and `pgdir` lead to. -/
structure Proc where
  sz : Word
  pgdir : Addr
  kstack : Addr
  state : ProcState
  pid : Int
  parent : Option (Fin nproc)
  tf : Addr
  context : Addr
  chan : Addr
  killed : Int
  ofile : Fin nofile → Addr
  cwd : Addr
  name : List Byte
  pending : Fin numsig → Int
  sighandlers : Fin numsig → Addr
  procHandlingSigNow : Word
  tfToRestore : Addr
  sigretAdd : Addr
  alarmTicksNum : Int
  frame : Trapframe
  mem : Mem

/-- A slot of the table before its first use. -/
def Proc.zeroed : Proc where
  sz := 0
  pgdir := 0
  kstack := 0
  state := .unused
  pid := 0
  parent := none
  tf := 0
  context := 0
  chan := 0
  killed := 0
  ofile := fun _ => 0
  cwd := 0
  name := []
  pending := fun _ => 0
  sighandlers := fun _ => 0
  procHandlingSigNow := 0
  tfToRestore := 0
  sigretAdd := 0
  alarmTicksNum := 0
  frame := .ofWords fun _ => 0
  mem := fun _ => 0

/-- Where the linker put `ptable.proc`, and the words that follow the table. -/
structure Layout where
  ptable : Addr
  after : Nat → Word

/-- The address of a slot; `struct proc` has 396 bytes. -/
def Layout.procAddr (L : Layout) (i : Fin nproc) : Addr := L.ptable + 396 * BitVec.ofNat 32 i

/-- The process table, `nextpid` and `initproc`. -/
structure Kernel where
  proc : Fin nproc → Proc
  nextpid : Int
  initproc : Option (Fin nproc)

namespace Kernel

def set (k : Kernel) (i : Fin nproc) (p : Proc) : Kernel := { k with proc := Function.update k.proc i p }

@[simp] theorem set_self (k : Kernel) (i : Fin nproc) (p : Proc) : (k.set i p).proc i = p := by simp [set]

@[simp] theorem set_set (k : Kernel) (i : Fin nproc) (p q : Proc) : (k.set i p).set i q = k.set i q := by simp [set]

@[simp] theorem set_of_ne (k : Kernel) {i j : Fin nproc} (p : Proc) (h : j ≠ i) : (k.set i p).proc j = k.proc j := by
  simp [set, h]

/-! ### Creation -/

/-- `allocproc`, with the page that `kalloc` returned for the kernel stack. The frame is left with the
    ones that `kfree` fills a page with. -/
def allocproc (k : Kernel) (kstack : Addr) : Option (Fin nproc) × Kernel :=
  match (List.finRange nproc).find? fun i => (k.proc i).state = .unused with
  | none => (none, k)
  | some i =>
    let p := { k.proc i with
      state := .embryo
      pid := k.nextpid
      pending := fun _ => 0
      sighandlers := fun _ => defualtHandlerAdd
      alarmTicksNum := 0
      kstack }
    let k := { k with nextpid := int32 (k.nextpid + 1) }
    if kstack = 0 then (none, k.set i { p with state := .unused })
    else
      let tf := kstack + kstacksize - sizeofTrapframe
      (some i, k.set i { p with tf, context := tf - 4 - 20, frame := .ofWords fun _ => 0x01010101 })

/-- The frame that `userinit` gives the first process. -/
def initFrame : Trapframe :=
  { Trapframe.ofWords fun _ => 0 with
    cs := segUcode <<< 3 ||| dplUser
    ds := segUdata <<< 3 ||| dplUser
    es := segUdata <<< 3 ||| dplUser
    ss := segUdata <<< 3 ||| dplUser
    eflags := flIf
    esp := BitVec.ofNat 32 pgsize
    eip := 0 }

/-- `userinit`, with the pages that `kalloc` and `setupkvm` returned, the memory image of `initcode` and
    the root directory. -/
def userinit (k : Kernel) (kstack pgdir : Addr) (initcode : Mem) (cwd : Addr) : Kernel :=
  match k.allocproc kstack with
  | (none, k) => k
  | (some i, k) =>
    { k.set i { k.proc i with
        pgdir
        mem := initcode
        sz := BitVec.ofNat 32 pgsize
        frame := initFrame
        name := [0x69, 0x6E, 0x69, 0x74, 0x63, 0x6F, 0x64, 0x65]
        cwd
        state := .runnable } with initproc := some i }

/-- `fork` by slot `i`, with the pages that `kalloc` and `copyuvm` returned. -/
def fork (k : Kernel) (i : Fin nproc) (kstack pgdir : Addr) : Int × Kernel :=
  match k.allocproc kstack with
  | (none, k) => (-1, k)
  | (some j, k) =>
    let np := k.proc j
    let p := k.proc i
    if pgdir = 0 then (-1, k.set j { np with pgdir := 0, kstack := 0, state := .unused })
    else
      (np.pid, k.set j { np with
        pgdir
        mem := p.mem
        sz := p.sz
        parent := some i
        frame := { p.frame with eax := 0 }
        alarmTicksNum := p.alarmTicksNum
        ofile := fun fd => if p.ofile fd ≠ 0 then p.ofile fd else np.ofile fd
        cwd := p.cwd
        name := p.name
        state := .runnable })

/-- `growproc` by process `p`, with the results of `allocuvm` and `deallocuvm`; `enough` tells whether
    there are pages to grow into. -/
def growproc (p : Proc) (n : Int) (enough : Bool) : Option Proc :=
  let newsz := p.sz + BitVec.ofInt 32 n
  if n > 0 then
    if newsz.toNat ≥ kernbase then none
    else if newsz < p.sz then some p
    else if enough ∨ newsz.toNat ≤ pgroundup p.sz.toNat then
      let fresh (x : Addr) := pgroundup p.sz.toNat ≤ x.toNat ∧ x.toNat < pgroundup newsz.toNat
      some { p with sz := newsz, mem := fun x => if fresh x then 0 else p.mem x }
    else none
  else if n < 0 then
    let sz := if newsz ≥ p.sz then p.sz else newsz
    if sz = 0 then none else some { p with sz }
  else some p

/-! ### Sleeping, exiting and waiting -/

def wakeup1 (k : Kernel) (chan : Addr) : Kernel :=
  { k with proc := fun i =>
      if (k.proc i).state = .sleeping ∧ (k.proc i).chan = chan then { k.proc i with state := .runnable } else k.proc i }

/-- The pointer `p` as a channel. -/
def chanOf (L : Layout) : Option (Fin nproc) → Addr
  | none => 0
  | some i => L.procAddr i

/-- The loop of `exit` over the children of slot `i`: they go to init, which is woken for those that are
    zombies already. -/
def passChildren (L : Layout) (k : Kernel) (i : Fin nproc) : Kernel :=
  let orphans := (List.finRange nproc).filter fun j => (k.proc j).parent = some i
  let k := { k with proc := fun j =>
    if (k.proc j).parent = some i then { k.proc j with parent := k.initproc } else k.proc j }
  if orphans.any fun j => (k.proc j).state = .zombie then k.wakeup1 (chanOf L k.initproc) else k

/-- `exit` by slot `i`; `none` is `panic("init exiting")`. -/
def exit (L : Layout) (k : Kernel) (i : Fin nproc) : Option Kernel :=
  if k.initproc = some i then none
  else
    let k := k.set i { k.proc i with ofile := fun _ => 0, cwd := 0 }
    let k := k.wakeup1 (chanOf L (k.proc i).parent)
    let k := k.passChildren L i
    some (k.set i { k.proc i with state := .zombie })

/-- How a pass of `wait` over the table ends. -/
inductive WaitResult
  | ret (pid : Int)
  | sleeps
  deriving DecidableEq, Repr

/-- One pass of `wait` by slot `i`. -/
def wait (L : Layout) (k : Kernel) (i : Fin nproc) : WaitResult × Kernel :=
  match (List.finRange nproc).find? fun j => (k.proc j).parent = some i ∧ (k.proc j).state = .zombie with
  | some j => (.ret (k.proc j).pid,
      k.set j { k.proc j with kstack := 0, pid := 0, parent := none, name := [], killed := 0, state := .unused })
  | none =>
    if (∀ j, (k.proc j).parent ≠ some i) ∨ (k.proc i).killed ≠ 0 then (.ret (-1), k)
    else (.sleeps, k.set i { k.proc i with chan := L.procAddr i, state := .sleeping })

def kill (k : Kernel) (pid : Int) : Int × Kernel :=
  match (List.finRange nproc).find? fun i => (k.proc i).pid = pid with
  | none => (-1, k)
  | some i =>
    let p := k.proc i
    (0, k.set i { p with killed := 1, state := if p.state = .sleeping then .runnable else p.state })

/-! ### Signals -/

/-- `signal` by slot `i`. -/
def signal (k : Kernel) (i : Fin nproc) (sigNum : Int) (newHandler : Addr) : Word × Kernel :=
  if h : sigNum < 0 ∨ sigNum > numsig - 1 then (-1, k)
  else
    let n : Fin numsig := ⟨sigNum.toNat, by simp only [numsig] at h ⊢; omega⟩
    let p := k.proc i
    (p.sighandlers n, k.set i { p with sighandlers := Function.update p.sighandlers n newHandler })

def sigsend (k : Kernel) (pid sigNum : Int) : Int × Kernel :=
  if h : pid < 0 ∨ sigNum < 0 ∨ sigNum > numsig - 1 then (-1, k)
  else
    let n : Fin numsig := ⟨sigNum.toNat, by simp only [numsig] at h ⊢; omega⟩
    match (List.finRange nproc).find? fun i => (k.proc i).pid = pid with
    | none => (-1, k)
    | some i =>
      let p := k.proc i
      (0, k.set i { p with pending := Function.update p.pending n 1 })

/-- The first 16 words of a `struct proc`. -/
def headWords (L : Layout) (p : Proc) : Nat → Word
  | 0 => p.sz
  | 1 => p.pgdir
  | 2 => p.kstack
  | 3 => p.state.toWord
  | 4 => BitVec.ofInt 32 p.pid
  | 5 => chanOf L p.parent
  | 6 => p.tf
  | 7 => p.context
  | 8 => p.chan
  | 9 => BitVec.ofInt 32 p.killed
  | n + 10 => if h : n < nofile then p.ofile ⟨n, h⟩ else 0

/-- The words in memory from the field `tfToRestore` of slot `i` on: the last three fields of the slot,
    and then what follows it, the next slot or the end of the table. -/
def wordsFrom (L : Layout) (k : Kernel) (i : Fin nproc) : Nat → Word
  | 0 => (k.proc i).tfToRestore
  | 1 => (k.proc i).sigretAdd
  | 2 => BitVec.ofInt 32 (k.proc i).alarmTicksNum
  | n + 3 => if h : i.val + 1 < nproc then headWords L (k.proc ⟨i.val + 1, h⟩) n else L.after n

/-- `sigreturn` by slot `i`: it copies the size of a trap frame from the address of the pointer
    `tfToRestore`, not from what it points at. -/
def sigreturn (L : Layout) (k : Kernel) (i : Fin nproc) : Int × Kernel :=
  (0, k.set i { k.proc i with frame := .ofWords (wordsFrom L k i), procHandlingSigNow := 0 })

/-- The body of the loop of `Alarm`. -/
def tick (p : Proc) : Proc :=
  if p.alarmTicksNum > 0 then
    let p := { p with alarmTicksNum := p.alarmTicksNum - 1 }
    if p.alarmTicksNum = 0 then { p with pending := Function.update p.pending sigalrm 1 } else p
  else p

def alarm (k : Kernel) : Kernel := { k with proc := fun i => tick (k.proc i) }

end Kernel

end Xv6
