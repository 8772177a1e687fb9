import SlabHeap.Shape.Table
import SlabHeap.Slab

namespace SlabHeap

/-! Walks over the objects of a slab.

A walk steps from block to block and uses the free list to pass over free blocks. Storage without a
known header is passed over in the smallest steps, so that no block behind it is missed.
-/

/-- Whether to check objects for corruption where they are met. -/
structure Scrutiny where
  enabled : Bool
  deriving DecidableEq, Repr

/-- Reports an object without the mark of validity, and one that claims to reach past `free`, the
next free block. -/
def Scrutiny.inspect (scrutiny : Scrutiny) (object size free : Nat) : Action Unit := do
  if scrutiny.enabled then
    let header := (← Action.memory).header object
    unless header.isValid do Action.note (.badMagic object header.magic)
    if free ≠ 0 then
      if free < (← Size.add object size) then Action.note (.badSize object size free)

/-- Reports a block that no shape describes. -/
def reportBadObject (object : Nat) : Action Unit := do
  Action.note (.badObject object ((← Action.memory).tag object))

namespace Slab

/-- Visits the objects from `cursor` on, in at most `bound` steps. `free` is a free block at or
before the first one that the walk has not passed, or 0. A visit may change the memory; the walk
reads what it needs when it gets there. -/
def foldFrom {σ : Type} (slab : Slab) (shapes : ShapeTable) (scrutiny : Scrutiny)
    (visit : σ → Nat → Action σ) (cursor free : Nat) (state : σ) : Nat → Action σ
  | 0 => return state
  | bound + 1 => do
      if slab.stop ≤ cursor then return state
      let memory ← Action.memory
      let (_, free) := FreeList.seek memory cursor 0 free Size.wordLimit
      if free = cursor then
        let next ← Size.add cursor (FreeList.size memory free)
        slab.foldFrom shapes scrutiny visit next free state bound
      else
        match ← (shapes.blockSize? memory cursor : Action _) with
        | none =>
            reportBadObject cursor
            slab.foldFrom shapes scrutiny visit (cursor + blockUnit) free state bound
        | some size =>
            scrutiny.inspect cursor size free
            let next ← Size.add cursor size
            let state ← visit state cursor
            slab.foldFrom shapes scrutiny visit next free state bound

/-- Visits the objects of a slab in address order. -/
def foldObjects {σ : Type} (slab : Slab) (shapes : ShapeTable) (scrutiny : Scrutiny)
    (visit : σ → Nat → Action σ) (state : σ) : Action σ := do
  let memory ← Action.memory
  slab.foldFrom shapes scrutiny visit slab.objects (slab.firstFree memory) state slab.stepBound

/-- Visits the objects of several slabs, one slab after the other. -/
def foldAll {σ : Type} (slabs : List Slab) (shapes : ShapeTable) (scrutiny : Scrutiny)
    (visit : σ → Nat → Action σ) (state : σ) : Action σ :=
  slabs.foldlM (fun state slab => slab.foldObjects shapes scrutiny visit state) state

end Slab

end SlabHeap
