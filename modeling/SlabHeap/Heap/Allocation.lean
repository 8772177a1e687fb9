import SlabHeap.Heap.Growth

namespace SlabHeap

/-! Allocation: first fit, else collect, grow if the policy asks for it, and try once more. -/

namespace Heap

/-- Takes a block from the first slab that has one. -/
def takeFrom (request : Nat) : List Slab → Action (Option Nat)
  | [] => return none
  | slab :: rest => do
      match ← (slab.fit? (← Action.memory) request : Action _) with
      | none => takeFrom request rest
      | some fit =>
          Action.onMemory (fit.carve request)
          return some fit.block

/-- Counts a request that was refused. -/
def countRefusal (heap : Heap) : Except Fault Heap := do
  let counters ← heap.counters.refuse
  return { heap with counters }

/-- After a collection that did not help enough, grows the heap by a slab unless it has reached its
limit. -/
def growFor (heap : Heap) (swept : SweepStats) (request : Nat) : Action Heap := do
  let total := heap.totalSize
  let free ← (heap.freeBytes (← Action.memory) : Action Nat)
  let live ← Size.sub total free
  if wantsGrowth heap.settings swept live total request then
    let maximum := heap.settings.maxSize
    if maximum ≠ 0 ∧ maximum ≤ total then
      Action.note (.atMaximum maximum)
      return heap
    else return (← heap.appendSlab request).1
  else return heap

/-- Takes a zeroed block of at least `size` bytes. -/
def allocateBlock (heap : Heap) (context : Option Context) (size : Nat) :
    Action (Heap × Except HeapError Nat) := do
  match Size.alignUp? (max size blockUnit) blockUnit with
  | none =>
      let heap ← heap.countRefusal
      Action.note (.unroundable size)
      return (heap, .error (.outOfMemory size))
  | some request =>
      match ← takeFrom request heap.slabs with
      | some block => return (heap, .ok block)
      | none =>
          let (heap, swept) ← heap.collectFrom context
          let heap ← heap.growFor swept request
          match ← takeFrom request heap.slabs with
          | some block => return (heap, .ok block)
          | none =>
              let heap ← heap.countRefusal
              Action.note (.outOfMemory request heap.totalSize)
              return (heap, .error (.outOfMemory request))

/-- A zeroed block without a header. No walk takes it for an object, so it is not reclaimed before
a header is written into it. -/
def allocate (heap : Heap) (context : Context) (size : Nat) :
    Action (Heap × Except HeapError Value) := do
  let (heap, block) ← heap.allocateBlock (some context) size
  match block with
  | .error refusal => return (heap, .error refusal)
  | .ok block => return (heap, .ok (← Value.ofAddress block))

/-- A zeroed block of `size` bytes with a fresh header. The tag must be registered. -/
def allocateTagged (heap : Heap) (context : Option Context) (tag : UInt8) (size : Nat) :
    Action (Heap × Except HeapError Nat) := do
  if heap.shapes.isRegistered tag then
    let (heap, block) ← heap.allocateBlock context size
    if let .ok object := block then Action.onMemory (·.setHeader object (.fresh tag))
    return (heap, block)
  else throw (.unregisteredTag tag)

/-- An object of `size` bytes; all but its header is zero. -/
def allocateObject (heap : Heap) (context : Context) (tag : UInt8) (size : Nat) :
    Action (Heap × Except HeapError Nat) :=
  heap.allocateTagged (some context) tag size

/-- A context of this heap. Its parent, if it has one, is the root of the allocation. -/
def makeContext (heap : Heap) (parent : Option Context) :
    Action (Heap × Except HeapError Context) := do
  let (heap, object) ← heap.allocateTagged parent Tag.context Layout.Context.size
  match object with
  | .error refusal => return (heap, .error refusal)
  | .ok object =>
      Action.store (object + Layout.Context.heap) (.ofNat heap.identity)
      Action.store (object + Layout.Context.saves) 0
      Action.storeValue (object + Layout.Context.parent) ((parent.map Context.toValue).getD .no)
      Action.storeValue (object + Layout.Context.environment) .nil
      return (heap, .ok ⟨object⟩)

end Heap

end SlabHeap
