import Mathlib.Data.Fintype.Basic
import Xv6.Trap

/-! The user-level thread library (`uthread.c`): a pool of seven slots, a lottery over the ready ones,
    and the five operations of the current thread. `printf` calls are left out. -/

namespace Xv6.Ult
open Lib

inductive UthreadState
  | free | running | runnable | sleep
  deriving DecidableEq, Repr

/-- `struct uthread`. -/
structure Uthread where
  tid : Int := 0
  esp : Word := 0
  ebp : Word := 0
  stack : Addr := 0
  state : UthreadState := .free
  ntickets : Int := 0
  deriving DecidableEq

/-- `uthread_pool`. -/
abbrev Pool := Fin maxThreads → Uthread

/-- The stack and base pointer of the processor. -/
structure Regs where
  esp : Word
  ebp : Word
  deriving DecidableEq

/-- The globals of the library, the blocks it has handed back to `free`, the argument of its last
    `alarm` system call, and the registers and the memory of the process. -/
structure Threads where
  pool : Pool
  nextTid : Int
  cUthreadIndex : Nat
  currentTicketNum : Int
  choosen : Int
  randstate : BitVec 32
  freed : List Addr
  alarm : Int
  regs : Regs
  mem : Mem

/-- The globals before any code of the library has run. -/
def zeroed (randstate : BitVec 32) (regs : Regs) (mem : Mem) : Threads where
  pool := fun _ => {}
  nextTid := 0
  cUthreadIndex := 0
  currentTicketNum := 0
  choosen := 0
  randstate
  freed := []
  alarm := 0
  regs
  mem

def rand (randstate : BitVec 32) : BitVec 32 := randstate * 1664525 + 1013904223

/-- `uthread_init`, with the value that `signal(SIGALRM, uthread_yield)` returned. -/
def uthreadInit (t : Threads) (signal : Word) : Int × Threads :=
  let pool : Pool := fun i => { t.pool i with state := .free, ntickets := nticket }
  let pool := Function.update pool 0 { pool 0 with tid := 0, stack := 0, state := .running }
  let t := { t with pool, nextTid := 1, cUthreadIndex := 0 }
  if signal ≠ 0 then (-1, t) else (0, { t with alarm := uthreadQuanta })

/-! ### uthread_create -/

/-- The first free slot, in index order. -/
def freeSlot (pool : Pool) : Option (Fin maxThreads) :=
  (List.finRange maxThreads).find? fun i => (pool i).state = .free

/-- `uthread_create`, with the block that `malloc` returned. -/
def uthreadCreate (t : Threads) (func arg block : Word) : Int × Threads :=
  match freeSlot t.pool with
  | none => (-1, { t with alarm := uthreadQuanta })
  | some i =>
    let top := block + stackSize
    let mem := store32 (store32 (store32 t.mem (top - 12) 0) (top - 8) func) (top - 4) arg
    let thread := { t.pool i with tid := t.nextTid, stack := block, state := .runnable, esp := 0, ebp := 0 }
    (t.nextTid, { t with
      pool := Function.update t.pool i thread
      nextTid := int32 (t.nextTid + 1)
      alarm := uthreadQuanta
      mem })

/-! ### uthread_yield -/

/-- The current thread gives up the processor: it stays ready if it was running. -/
def suspend (pool : Pool) (c : Fin maxThreads) (regs : Regs) : Pool :=
  Function.update pool c { pool c with
    state := if (pool c).state = .running then .runnable else (pool c).state
    esp := regs.esp
    ebp := regs.ebp }

/-- `current_ticket_num`: one less than the tickets of the slots that are neither free nor asleep. -/
def ticketNum (pool : Pool) : Int :=
  (List.finRange maxThreads).foldl
    (fun n j => if (pool j).state ≠ .free ∧ (pool j).state ≠ .sleep then n + (pool j).ntickets else n) (-1)

/-- `choosen`: an unsigned remainder by the signed total, divided as a signed number. -/
def draw (r : BitVec 32) (ticketNum : Int) : Int :=
  (r % BitVec.ofInt 32 ticketNum).toInt.tdiv nticket

/-- The selection loop over the slots `js`: the index at which it stops, `MAX_THREADS` if it runs out. -/
def pick (pool : Pool) (choosen : Int) : List (Fin maxThreads) → Int → Nat
  | [], _ => maxThreads
  | j :: js, chooseCount =>
    if (pool j).state = .runnable then
      if choosen = chooseCount + 1 then j else pick pool choosen js (chooseCount + 1)
    else pick pool choosen js chooseCount

/-- The registers that the chosen thread continues with: the saved ones, or its fresh stack, on which
    `execute_thread` starts. -/
def loadRegs (thread : Uthread) : Regs :=
  if thread.esp = 0 then ⟨thread.stack + stackSize - 12, thread.stack + stackSize - 12⟩
  else ⟨thread.esp, thread.ebp⟩

/-- The second half of `uthread_yield`: continue with slot `j`. Past the end of the pool the stores of
    the code hit memory that does not belong to it, and no thread continues. -/
def switchTo (t : Threads) (j : Nat) : Threads :=
  if h : j < maxThreads then
    { t with
      pool := Function.update t.pool ⟨j, h⟩ { t.pool ⟨j, h⟩ with state := .running }
      cUthreadIndex := j
      alarm := uthreadQuanta
      regs := loadRegs (t.pool ⟨j, h⟩) }
  else { t with cUthreadIndex := j, alarm := 0 }

/-- `uthread_yield` by the thread in slot `c`. -/
def uthreadYield (t : Threads) (c : Fin maxThreads) (regs : Regs) : Threads :=
  let pool := suspend t.pool c regs
  let randstate := rand t.randstate
  let choosen := draw randstate (ticketNum pool)
  switchTo { t with pool, randstate, choosen, currentTicketNum := ticketNum pool }
    (pick pool choosen (List.finRange maxThreads) (-1))

/-! ### uthread_exit -/

/-- Every sleeper becomes ready. -/
def wakeAll (pool : Pool) : Pool := fun i =>
  if (pool i).state = .sleep then { pool i with state := .runnable } else pool i

/-- `uthread_exit` by the thread in slot `c`; `none` when it ends the process. The loop after the
    wake-up calls `uthread_yield` at the first slot that is not free, and does not come back. -/
def uthreadExit (t : Threads) (c : Fin maxThreads) (regs : Regs) : Option Threads :=
  let freed := if (t.pool c).stack ≠ 0 then t.freed ++ [(t.pool c).stack] else t.freed
  let pool := wakeAll (Function.update t.pool c { t.pool c with state := .free })
  if ∃ i, (pool i).state ≠ .free then some (uthreadYield { t with pool, freed, alarm := 0 } c regs) else none

/-! ### uthred_join -/

/-- How one pass of `uthred_join` ends: with a return value, or with the caller asleep. A thread that
    wakes up inside the join makes another pass. -/
inductive JoinResult
  | ret (value : Int)
  | slept
  deriving DecidableEq, Repr

/-- One pass of `uthred_join` by the thread in slot `c`. -/
def uthredJoin (t : Threads) (c : Fin maxThreads) (regs : Regs) (tid : Int) : JoinResult × Threads :=
  if tid ≥ t.nextTid ∨ tid < 0 then (.ret (-1), t)
  else if (List.finRange maxThreads).any fun i => (t.pool i).tid = tid then
    let pool := Function.update t.pool c { t.pool c with state := .sleep }
    (.slept, uthreadYield { t with pool, alarm := 0 } c regs)
  else (.ret 0, { t with alarm := uthreadQuanta })

/-! ### In a process -/

/-- `uthread_init` in process `i`, with its two system calls and the addresses they return to. -/
def initProcess (k : Kernel) (i : Fin nproc) (t : Threads) (handler ret ret' : Word) : Int × Threads × Kernel :=
  let p := k.proc i
  let (previous, k) := sysSignal (k.set i (p.calls [BitVec.ofNat 32 sigalrm, handler] ret)) i
  let (value, t) := uthreadInit t previous
  let k := k.set i { k.proc i with frame.esp := p.frame.esp }
  if previous ≠ 0 then (value, t, k)
  else
    let k := k.set i (sysAlarm ((k.proc i).calls [BitVec.ofInt 32 uthreadQuanta] ret'))
    (value, t, k.set i { k.proc i with frame.esp := p.frame.esp })

/-! ### Runs -/

/-- The operations of the library. `yield` is also what the SIGALRM handler runs. -/
inductive Op
  | create (func arg block : Word)
  | yield
  | exit
  | join (tid : Int)
  deriving DecidableEq

/-- An operation, with the registers and the `randstate` it finds. -/
structure Call where
  op : Op
  regs : Regs
  randstate : BitVec 32

/-- One operation of the current thread; `none` when the process has ended, or has no current thread. -/
def step (t : Threads) (a : Call) : Option Threads :=
  if h : t.cUthreadIndex < maxThreads then
    let c : Fin maxThreads := ⟨t.cUthreadIndex, h⟩
    let t := { t with randstate := a.randstate }
    match a.op with
    | .create func arg block => some (uthreadCreate t func arg block).2
    | .yield => some (uthreadYield t c a.regs)
    | .exit => uthreadExit t c a.regs
    | .join tid => some (uthredJoin t c a.regs tid).2
  else none

end Xv6.Ult
