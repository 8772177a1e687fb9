import SlabHeap.Heap.WeakSlots
import SlabHeap.Slab.Sweep

namespace SlabHeap

/-! Collections: mark from the roots, clear weak slots, sweep all slabs. -/

namespace Heap

/-- Frees what is unmarked in all slabs. -/
def sweep (heap : Heap) : Action SweepStats :=
  heap.slabs.foldlM (fun stats slab => slab.sweep heap.shapes heap.scrutiny stats) {}

/-- What follows the mark phase of a collection. -/
def finishCollection (heap : Heap) (context : Option Context) : Action (Heap × SweepStats) := do
  Action.note (.collecting context heap.identity heap.totalSize)
  if heap.features.weakReferences then heap.breakWeakReferences
  let swept ← heap.sweep
  Action.note (.collected context swept.sumFreed swept.maxFreed)
  let counters ← heap.counters.collect swept.sumFreed
  return ({ heap with counters }, swept)

/-- A collection from a context, if there is one, and from the heap's own roots. -/
def collectFrom (heap : Heap) (context : Option Context) : Action (Heap × SweepStats) := do
  heap.mark (heap.roots context)
  heap.finishCollection context

def collect (heap : Heap) (context : Context) : Action (Heap × SweepStats) :=
  heap.collectFrom (some context)

end Heap

end SlabHeap
