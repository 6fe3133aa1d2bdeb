import Xv6.Bcache
import Xv6.Lib.Links

/-! The list of the buffer cache (`bio.c`) in its pointers: `bget` and `brelse` follow and change the `next` and `prev`
    fields of the buffers. The head of the list is the node `none`. -/

namespace Xv6.Bcache
open Lib

/-- The fields of `struct buf` that `bget` and `brelse` look at, without the links. -/
structure Entry where
  dev : Nat
  blockno : Nat
  refcnt : Nat
  dirty : Bool

/-- `bcache`. -/
structure Cache where
  buf : Fin nbuf → Entry
  links : Links (Fin nbuf)

/-- What `bget` comes to. -/
inductive Got
  | hit (i : Fin nbuf)
  | recycled (i : Fin nbuf)
  | noBuffers
  deriving DecidableEq

namespace Cache

def set (c : Cache) (i : Fin nbuf) (x : Entry) : Cache := { c with buf := Function.update c.buf i x }

/-- `binit`, from memory that holds zeros but for the links, which may be any. -/
def binit (links : Links (Fin nbuf)) : Cache where
  buf := fun _ => ⟨0, 0, 0, false⟩
  links :=
    (List.finRange nbuf).foldl Links.push ⟨Function.update links.next none none, Function.update links.prev none none⟩

/-- The buffer is for the block. -/
def isFor (c : Cache) (dev blockno : Nat) (i : Fin nbuf) : Bool := (c.buf i).dev = dev ∧ (c.buf i).blockno = blockno

/-- The buffer can be recycled. -/
def isFree (c : Cache) (i : Fin nbuf) : Bool := (c.buf i).refcnt = 0 ∧ (c.buf i).dirty = false

/-- `bget`, up to its `acquiresleep`; nothing, if one of its loops does not end. -/
def bget (c : Cache) (dev blockno : Nat) : Option (Got × Cache) :=
  (c.links.search (c.isFor dev blockno) (nbuf + 1)).bind fun
    | some i => some (.hit i, c.set i { c.buf i with refcnt := (c.buf i).refcnt + 1 })
    | none =>
      (c.links.swap.search c.isFree (nbuf + 1)).map fun
        | some i => (.recycled i, c.set i ⟨dev, blockno, 1, false⟩)
        | none => (.noBuffers, c)

/-- The end of `brelse`, with `bcache.lock`. -/
def brelse (c : Cache) (i : Fin nbuf) : Cache :=
  let c := c.set i { c.buf i with refcnt := (c.buf i).refcnt - 1 }
  if (c.buf i).refcnt = 0 then { c with links := (c.links.unlink i).push i } else c

end Cache

/-! ### Histories -/

inductive ListEvent
  | bget (dev blockno : Nat)
  | brelse (i : Fin nbuf)
  /-- The driver or the log changes `B_DIRTY`. -/
  | setDirty (i : Fin nbuf) (dirty : Bool)

/-- The cache, the number of steps so far, and for each buffer the step at which its `refcnt` last dropped to 0, or 0
    if it never has. -/
structure Ages where
  cache : Cache
  clock : Nat
  dropped : Fin nbuf → Nat

namespace Ages

def binit (links : Links (Fin nbuf)) : Ages := ⟨.binit links, 0, fun _ => 0⟩

/-- A step. A buffer is released by a process that has a reference to it, and the kernel stops if there is no buffer. -/
def step (h : Ages) : ListEvent → Option Ages
  | .bget dev blockno =>
    (h.cache.bget dev blockno).bind fun (got, c) =>
      if got = .noBuffers then none else some { h with cache := c, clock := h.clock + 1 }
  | .brelse i =>
    if (h.cache.buf i).refcnt = 0 then none
    else
      let c := h.cache.brelse i
      let dropped := if (c.buf i).refcnt = 0 then Function.update h.dropped i (h.clock + 1) else h.dropped
      some ⟨c, h.clock + 1, dropped⟩
  | .setDirty i dirty =>
    some { h with cache := h.cache.set i { h.cache.buf i with dirty }, clock := h.clock + 1 }

end Ages

end Xv6.Bcache
