import SlabHeap.Slab.Walk

namespace SlabHeap

/-! Sweeping: every unmarked object becomes free storage, every marked one loses its mark.

The sweep follows the free list while it extends it. It keeps the last free block before its cursor,
so that a dead object joins free storage that it touches on either side.
-/

/-- What a sweep achieved. -/
structure SweepStats where
  /-- The largest run of free storage that a reclaimed object became part of. -/
  maxFreed : Nat := 0
  /-- The bytes of the objects reclaimed. -/
  sumFreed : Nat := 0
  deriving DecidableEq, Repr

/-- Calls the finalizer of an object, if its type has one and the heap owns the object. -/
def finalize (shapes : ShapeTable) (object : Nat) : Action Unit := do
  let memory ← Action.memory
  let header := memory.header object
  match shapes.get? header.tag with
  | some shape =>
      if shape.finalized && header.flags.includes .owned then
        Action.record (.finalized object memory)
  | none => return

namespace Slab

/-- Frees `size` bytes at `cursor` between the free blocks `before` and `after` (0: none). The
answer is where the free run that they became part of ends, and its size. The sentinel never
grows. -/
def release (slab : Slab) (cursor size before after : Nat) : Action (Nat × Nat) := do
  let memory ← Action.memory
  let joinsAfter ←
    if after = 0 then pure false
    else do
      let stop ← Size.add cursor size
      pure (stop = after)
  let joinsBefore ←
    if before = slab.start then pure false
    else do
      let stop ← Size.add before (FreeList.size memory before)
      pure (stop = cursor)
  if joinsBefore then
    let run ← Size.add (FreeList.size memory before) size
    let run ← if joinsAfter then Size.add run (FreeList.size memory after) else pure run
    let stop ← Size.add before run
    if joinsAfter then
      let following := FreeList.next memory after
      Action.onMemory (FreeList.setNext · before following)
    Action.onMemory (FreeList.setSize · before run)
    return (stop, run)
  else
    let run ← if joinsAfter then Size.add size (FreeList.size memory after) else pure size
    let following := if joinsAfter then FreeList.next memory after else after
    Action.onMemory (FreeList.writeNode · cursor run following)
    Action.onMemory (FreeList.setNext · before cursor)
    let stop ← Size.add cursor run
    return (stop, run)

/-- Sweeps from `cursor` on, in at most `bound` steps; `before` is a free block in front of the
cursor, or the sentinel. -/
def sweepFrom (slab : Slab) (shapes : ShapeTable) (scrutiny : Scrutiny) (cursor before : Nat)
    (stats : SweepStats) : Nat → Action SweepStats
  | 0 => return stats
  | bound + 1 => do
      if slab.stop ≤ cursor then return stats
      let memory ← Action.memory
      let (before, after) :=
        FreeList.seek memory cursor before (FreeList.next memory before) Size.wordLimit
      if after = cursor then
        let next ← Size.add cursor (FreeList.size memory after)
        slab.sweepFrom shapes scrutiny next before stats bound
      else
        match ← (shapes.blockSize? memory cursor : Action _) with
        | none =>
            reportBadObject cursor
            slab.sweepFrom shapes scrutiny (cursor + blockUnit) before stats bound
        | some size =>
            scrutiny.inspect cursor size after
            if (memory.header cursor).isMarked then
              Action.onHeader cursor .unmark
              let next ← Size.add cursor size
              slab.sweepFrom shapes scrutiny next before stats bound
            else
              finalize shapes cursor
              let sumFreed ← Size.add stats.sumFreed size
              let (next, run) ← slab.release cursor size before after
              let stats := { maxFreed := max stats.maxFreed run, sumFreed }
              slab.sweepFrom shapes scrutiny next before stats bound

/-- Sweeps a slab and adds to what earlier slabs yielded. -/
def sweep (slab : Slab) (shapes : ShapeTable) (scrutiny : Scrutiny) (stats : SweepStats) :
    Action SweepStats :=
  slab.sweepFrom shapes scrutiny slab.objects slab.start stats slab.stepBound

end Slab

end SlabHeap
