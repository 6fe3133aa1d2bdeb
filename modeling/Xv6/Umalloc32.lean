import Xv6.Umalloc

/-! The allocator of user programs on 32-bit numbers, with `sbrk` on the `int` that `morecore` gives it. The structure of
    the free list is that of `Umalloc`; here every sum and every product is the one that the machine computes. -/

namespace Xv6.Umalloc
open Lib

/-- A `uint` or a pointer. -/
def wrap (x : Nat) : Nat := x % 0x100000000

/-! ### sbrk -/

/-- What `allocuvm` or `deallocuvm` returns to `growproc` for a process of `sz` bytes; `ok` is whether there is memory. -/
def resized (sz : Nat) (n : Int) (ok : Bool) : Nat :=
  let newsz := (((sz : Int) + n) % 0x100000000).toNat
  if n > 0 then if newsz ≥ kernbase then 0 else if newsz < sz then sz else if ok then newsz else 0
  else if n < 0 then if newsz ≥ sz then sz else newsz
  else sz

/-- `growproc`: the new size, or `none` for -1. -/
def growproc (sz : Nat) (n : Int) (ok : Bool) : Option Nat :=
  if resized sz n ok = 0 ∧ n ≠ 0 then none else some (resized sz n ok)

namespace Heap

/-! ### free -/

def stop32 (h : Heap) (a : Nat) : Nat := wrap (a + headerSize * h.size a)

/-- Half of what `free` does after the loop. -/
def link32 (h : Heap) (a n : Nat) : Heap :=
  if h.stop32 a = n then
    { h with size := Function.update h.size a (wrap (h.size a + h.size n)), ptr := Function.update h.ptr a (h.ptr n) }
  else { h with ptr := Function.update h.ptr a n }

/-- `free`; `none` if it does not end. -/
def free32 (h : Heap) (ap : Nat) : Option Heap :=
  let bp := wrap (ap + 0x100000000 - headerSize)
  (h.findPlace bp).map fun p => { (h.link32 bp (h.ptr p)).link32 p bp with freep := p }

/-! ### malloc -/

/-- `morecore`; a null pointer if `sbrk` fails, and `none` if the new header is not in the memory of the process, so that
    writing it ends the process. -/
def morecore32 (h : Heap) (ok : Bool) (nu : Nat) : Option (Nat × Heap) :=
  let nu := max nu 4096
  (growproc h.brk (int32 (headerSize * nu : Nat)) ok).elim (some (0, h)) fun brk =>
    let hp := h.brk
    if hp + headerSize ≤ pgroundup brk then
      let h := { h with brk, size := Function.update h.size hp nu }
      (h.free32 (wrap (hp + headerSize))).map fun h => (h.freep, h)
    else none

/-- A block is found behind `prevp`: all of it or its end is handed out. -/
def take32 (h : Heap) (prevp p nunits : Nat) : Nat × Heap :=
  if h.size p = nunits then
    (wrap (p + headerSize), { h with ptr := Function.update h.ptr prevp (h.ptr p), freep := prevp })
  else
    let h := { h with size := Function.update h.size p (h.size p - nunits) }
    let p := h.stop32 p
    (wrap (p + headerSize), { h with size := Function.update h.size p nunits, freep := prevp })

/-- The loop of `malloc`. -/
def mallocLoop32 (ok : Bool) (nunits : Nat) : Nat → Heap → Nat → Nat → Option (Nat × Heap)
  | 0, _, _, _ => none
  | fuel + 1, h, prevp, p =>
    if nunits ≤ h.size p then some (h.take32 prevp p nunits)
    else if p = h.freep then
      (h.morecore32 ok nunits).bind fun (p, h) => if p = 0 then some (0, h) else mallocLoop32 ok nunits fuel h p (h.ptr p)
    else mallocLoop32 ok nunits fuel h p (h.ptr p)

/-- `nunits`. -/
def units32 (nbytes : Nat) : Nat := wrap (wrap (nbytes + headerSize - 1) / headerSize + 1)

/-- `malloc`, with the address of `base`; `none` if it does not return, a null pointer if there is no memory. -/
def malloc32 (base : Nat) (h : Heap) (ok : Bool) (nbytes : Nat) : Option (Nat × Heap) :=
  let h := h.init base
  mallocLoop32 ok (units32 nbytes) (4 * h.brk + 8) h h.freep (h.ptr h.freep)

end Heap

/-! ### Runs -/

/-- A call of a program; `malloc` takes any `uint`. -/
def State.step32 (base : Nat) (s : State) : Event → Option State
  | .malloc nbytes ok => if nbytes < 0x100000000 then (s.heap.malloc32 base ok nbytes).map (s.allocated nbytes) else none
  | .free ap =>
    if ap ∈ s.live.map Prod.fst then
      (s.heap.free32 ap).map fun h => { s with heap := h, live := s.live.filter fun a => a.1 ≠ ap }
    else none
  | .sbrk n => s.step base (.sbrk n)
  | .store ap ptr size => s.step base (.store ap ptr size)

/-- The rounded size of every block that is asked for fits in a positive `int`. -/
def Event.Fits : Event → Prop
  | .malloc nbytes _ => Umalloc.Fits nbytes
  | _ => True

instance (e : Event) : Decidable e.Fits := by
  cases e <;> unfold Event.Fits <;> infer_instance

end Xv6.Umalloc
