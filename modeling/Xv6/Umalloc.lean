import Mathlib.Logic.Function.Basic
import Xv6.Lib.Circle
import Xv6.Lib.Spans
import Xv6.Params

/-! The allocator of user programs (`umalloc.c`). Addresses are numbers: the memory of a process ends below
    `KERNBASE`, so that no sum of an address and a size overflows. A header is kept at the address where it begins;
    headers do not overlap, since blocks do not. -/

namespace Xv6.Umalloc
open Lib

/-- `sizeof(Header)`. -/
abbrev headerSize : Nat := 8

/-- The headers in memory, `freep`, and the break of the process. -/
structure Heap where
  ptr : Nat → Nat
  size : Nat → Nat
  freep : Nat
  brk : Nat

namespace Heap

/-- Where the header at `a` ends with its block: `a + a->s.size`. -/
def stop (h : Heap) (a : Nat) : Nat := a + headerSize * h.size a

/-! ### free -/

/-- The two tests that end the loop of `free`. -/
def isPlace (h : Heap) (bp p : Nat) : Bool :=
  (p < bp ∧ bp < h.ptr p) ∨ (h.ptr p ≤ p ∧ (p < bp ∨ bp < h.ptr p))

/-- The loop of `free`. It does not end if the bound is reached. -/
def findPlace (h : Heap) (bp : Nat) : Option Nat := walk h.ptr (h.isPlace bp) (2 * h.brk + 2) h.freep

/-- Half of what `free` does after the loop: the block `a` takes in the block `n` if that begins where `a` ends, and
    is followed by it in the list otherwise. -/
def link (h : Heap) (a n : Nat) : Heap :=
  if h.stop a = n then
    { h with size := Function.update h.size a (h.size a + h.size n), ptr := Function.update h.ptr a (h.ptr n) }
  else { h with ptr := Function.update h.ptr a n }

/-- `free`; `none` if it does not end. -/
def free (h : Heap) (ap : Nat) : Option Heap :=
  let bp := ap - headerSize
  (h.findPlace bp).map fun p => { (h.link bp (h.ptr p)).link p bp with freep := p }

/-! ### malloc -/

/-- `morecore`, where `ok` says whether `sbrk` has memory; a null pointer if it has none. -/
def morecore (h : Heap) (ok : Bool) (nu : Nat) : Option (Nat × Heap) :=
  let nu := max nu 4096
  if ok ∧ h.brk + headerSize * nu < kernbase then
    let hp := h.brk
    let h := { h with brk := h.brk + headerSize * nu, size := Function.update h.size hp nu }
    (h.free (hp + headerSize)).map fun h => (h.freep, h)
  else some (0, h)

/-- A block is found behind `prevp`: all of it or its end is handed out. -/
def take (h : Heap) (prevp p nunits : Nat) : Nat × Heap :=
  if h.size p = nunits then (p + headerSize, { h with ptr := Function.update h.ptr prevp (h.ptr p), freep := prevp })
  else
    let h := { h with size := Function.update h.size p (h.size p - nunits) }
    let p := h.stop p
    (p + headerSize, { h with size := Function.update h.size p nunits, freep := prevp })

/-- The loop of `malloc`. -/
def mallocLoop (ok : Bool) (nunits : Nat) : Nat → Heap → Nat → Nat → Option (Nat × Heap)
  | 0, _, _, _ => none
  | fuel + 1, h, prevp, p =>
    if nunits ≤ h.size p then some (h.take prevp p nunits)
    else if p = h.freep then
      (h.morecore ok nunits).bind fun (p, h) => if p = 0 then some (0, h) else mallocLoop ok nunits fuel h p (h.ptr p)
    else mallocLoop ok nunits fuel h p (h.ptr p)

/-- The units of a block with `nbytes` usable bytes. -/
def units (nbytes : Nat) : Nat := (nbytes + headerSize - 1) / headerSize + 1

/-- The list before the first call. -/
def init (base : Nat) (h : Heap) : Heap :=
  if h.freep = 0 then
    { h with ptr := Function.update h.ptr base base, size := Function.update h.size base 0, freep := base }
  else h

/-- `malloc`, with the address of `base`; `none` if it does not end, a null pointer if there is no memory. -/
def malloc (base : Nat) (h : Heap) (ok : Bool) (nbytes : Nat) : Option (Nat × Heap) :=
  let h := h.init base
  mallocLoop ok (units nbytes) (4 * h.brk + 8) h h.freep (h.ptr h.freep)

end Heap

/-! ### Runs -/

/-- The heap, with the blocks that are in use, as `malloc` returned them and with the bytes that were asked for, and
    the memory that `sbrk` returned to `morecore`. -/
structure State where
  heap : Heap
  live : List (Nat × Nat)
  segments : List Span

inductive Event
  | malloc (nbytes : Nat) (ok : Bool)
  | free (ap : Nat)
  /-- The program moves the break itself. -/
  | sbrk (n : Nat)
  /-- The program writes to a block that it has. -/
  | store (ap : Nat) (ptr size : Nat → Nat)

/-- The rounded size fits in a positive `int`. -/
def Fits (nbytes : Nat) : Prop := headerSize * Heap.units nbytes < 0x80000000

instance (nbytes : Nat) : Decidable (Fits nbytes) := inferInstanceAs (Decidable (_ < _))

namespace State

/-- The state before the first call. The header `base` is in the memory that the process has from the start. -/
def start (brk : Nat) (ptr size : Nat → Nat) : State := ⟨⟨ptr, size, 0, brk⟩, [], []⟩

/-- `malloc` returned. -/
def allocated (s : State) (nbytes : Nat) (r : Nat × Heap) : State where
  heap := r.2
  live := if r.1 = 0 then s.live else s.live ++ [(r.1, nbytes)]
  segments := if r.2.brk = s.heap.brk then s.segments else s.segments ++ [⟨s.heap.brk, r.2.brk - s.heap.brk⟩]

/-- The header at `x` lies in the part of the block that the program writes. -/
def inside (s : State) (ap x : Nat) : Bool :=
  ap - headerSize < x ∧ x < s.heap.stop (ap - headerSize)

def step (base : Nat) (s : State) : Event → Option State
  | .malloc nbytes ok => if Fits nbytes then (s.heap.malloc base ok nbytes).map (s.allocated nbytes) else none
  | .free ap =>
    if ap ∈ s.live.map Prod.fst then
      (s.heap.free ap).map fun h => { s with heap := h, live := s.live.filter fun a => a.1 ≠ ap }
    else none
  | .sbrk n => if s.heap.brk + n < kernbase then some { s with heap.brk := s.heap.brk + n } else none
  | .store ap ptr size =>
    if ap ∈ s.live.map Prod.fst then
      some { s with
        heap.ptr := fun x => if s.inside ap x then ptr x else s.heap.ptr x
        heap.size := fun x => if s.inside ap x then size x else s.heap.size x }
    else none

end State

end Xv6.Umalloc
