import SlabHeap.Heap.Collection

namespace SlabHeap

/-! Growth: when a heap wants another slab, and how large the slab is. -/

namespace Heap

/-- Whether a request that failed before a collection calls for another slab after it. -/
def wantsGrowth (settings : Settings) (swept : SweepStats) (live total request : Nat) : Bool :=
  let fragmented := swept.maxFreed < request
  let crowded := total.toFloat * settings.growRatio < live.toFloat
  settings.growPolicy.combine fragmented crowded

/-- The size of the slab behind one of `last` bytes in a heap of `total`: twice the larger of that
slab and the request, as far as the limit allows. There is none if it could not hold the request. -/
def nextSlabSize? (last request total maximum : Nat) : Option Nat := do
  let doubled ← Size.alignUp? (Size.saturate (max last request * 2)) blockUnit
  if maximum = 0 then return doubled
  let clamped := min doubled (maximum - total) / blockUnit * blockUnit
  if clamped < max (Size.saturate (request + blockUnit)) minSlabSize then none else return clamped

/-- Adds a slab with room for a request, if the limit allows it. -/
def appendSlab (heap : Heap) (request : Nat) : Action (Heap × Bool) := do
  let total := heap.totalSize
  let maximum := heap.settings.maxSize
  match nextSlabSize? heap.lastSlab.size request total maximum with
  | none =>
      Action.note (.growthRefused total maximum request)
      return (heap, false)
  | some size =>
      match ← Slab.create size maximum with
      | none =>
          Action.note (.reservationFailed size)
          return (heap, false)
      | some slab =>
          Action.note (.grown size (← Size.add total size))
          let counters ← heap.counters.grow
          let grown := { heap with slabs := heap.slabs ++ [slab], slabs_nonempty := by simp, counters }
          return (grown, true)

/-- A heap around its first slab, under a new identity. -/
def ofSlab (settings : Settings) (shapes : ShapeTable) (features : Features) (slab : Slab) :
    Action Heap := do
  let identity ← Action.newIdentity
  return { identity, settings, shapes, features, slabs := [slab], slabs_nonempty := by simp }

/-- A new heap of one slab. -/
def new (settings : Settings) (shapes : ShapeTable) (features : Features) :
    Action (Except HeapError Heap) := do
  match settings.check with
  | .error reason => return .error (.invalidSettings reason)
  | .ok () =>
      match Size.alignUp? settings.initialSize blockUnit with
      | none => return .error (.invalidSettings .initialSizeTooLarge)
      | some rounded =>
          let maximum := settings.maxSize
          let size :=
            if maximum = 0 then rounded else min rounded (maximum / blockUnit * blockUnit)
          match ← Slab.create size maximum with
          | none => return .error (.reservation size)
          | some slab => return .ok (← ofSlab settings shapes features slab)

end Heap

end SlabHeap
