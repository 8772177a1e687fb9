import SlabHeap.Heap.Growth

namespace SlabHeap

/-! Duplication: a heap of one slab is copied to another place, and what pointed into the source
slab points into the copy.

The bytes are copied as they are; then the free list and the slots of the copied objects are
shifted by the distance between the slabs. Without ownership a copy never runs finalizers.
-/

namespace FreeList

/-- Applies `move` to the links from `node` on, at most `bound` of them. The answer is the last
node of the moved list. -/
def relink (move : Nat → Except Fault Nat) (memory : Memory) (node : Nat) :
    Nat → Except Fault (Memory × Nat)
  | 0 => .ok (memory, node)
  | bound + 1 =>
      let following := next memory node
      if following = 0 then .ok (memory, node)
      else do
        let moved ← move following
        relink move (setNext memory node moved) moved bound

end FreeList

namespace Slab

/-- The counterpart of an address in a copy of its slab. -/
def relocate (source target : Slab) (address : Nat) : Except Fault Nat := do
  Size.add (← Size.sub address source.start) target.start

/-- Makes the `extra` bytes at the end of a copy free, where its free list ends with `last`. -/
def extendFree (memory : Memory) (last copiedStop extra : Nat) : Except Fault Memory :=
  if extra = 0 then .ok memory
  else do
    let size := FreeList.size memory last
    if copiedStop ≤ (← Size.add last size) then
      return FreeList.setSize memory last (← Size.add size extra)
    else return FreeList.setNext (FreeList.writeNode memory copiedStop extra 0) last copiedStop

/-- Copies the bytes of a slab and shifts its free list. -/
def copyBytes (source target : Slab) (memory : Memory) : Except Fault Memory := do
  let copied := memory.copyWords source.start target.start (source.size / wordBytes)
  let (linked, last) ←
    FreeList.relink (source.relocate target) copied target.start Size.wordLimit
  extendFree linked last (target.start + source.size) (target.size - source.size)

/-- Shifts the references into the source that `count` slots of a copied object hold. -/
def relocateSlots (source target : Slab) (object offset : Nat) : Nat → Action Unit
  | 0 => return
  | count + 1 => do
      let word ← (← Action.memory).field object offset
      match (Value.mk word).address? with
      | some address =>
          if source.contains address then
            let moved ← (source.relocate target address : Action Nat)
            Action.storeValue (object + offset) (.reference moved)
      | none => pure ()
      relocateSlots source target object (offset + wordBytes) count

end Slab

namespace Heap

/-- The slab of a heap that has only one. -/
def singleSlab? (heap : Heap) : Except HeapError Slab :=
  match heap.slabs with
  | [slab] => .ok slab
  | _ => .error .nonContiguousHeap

/-- The slab to be copied, if the context belongs to the heap. -/
def checkSource (heap : Heap) (context : Context) (memory : Memory) : Except HeapError Slab := do
  let slab ← heap.singleSlab?
  if heap.contains context.address && context.isIn heap memory then return slab
  else throw .notAContext

/-- The slabs to copy from and to, if the destination can take the source. -/
def checkDestination (source : Heap) (context : Context) (target : Heap) (inTarget : Value)
    (memory : Memory) : Except HeapError (Slab × Slab) := do
  let fromSlab ← source.checkSource context memory
  if inTarget.address?.any source.contains then throw .sameHeap
  if !(Context.ofValue? target memory inTarget).any (·.isIn target memory) then
    throw .notAContext
  let toSlab ← target.singleSlab?
  if toSlab.size < fromSlab.size then throw (.destinationTooSmall fromSlab.size toSlab.size)
  return (fromSlab, toSlab)

/-- The runs of slots that an object's copy has to shift, each with its offset and its length: the
strong ones, and the weak ones with the dependent ones behind them. -/
def slotRuns (heap : Heap) (memory : Memory) (object : Nat) :
    Except Fault (List (Nat × Nat)) :=
  match heap.shapes.get? (memory.tag object) with
  | none => .ok []
  | some shape => do
      let strong := (shape.strong.offset, ← shape.strong.slots memory object)
      match shape.weak with
      | none => return [strong]
      | some run =>
          return [strong, (run.offset, ← Size.add (← run.slots memory object) shape.dependent)]

/-- Adapts the copy of one object: its slots, its ownership, and what contexts hold. -/
def adaptCopy (source : Heap) (target : Nat) (fromSlab toSlab : Slab) (keepOwnership : Bool)
    (object : Nat) : Action Unit := do
  let copy ← (fromSlab.relocate toSlab object : Action Nat)
  let memory ← Action.memory
  let runs ← (source.slotRuns memory object : Action (List (Nat × Nat)))
  runs.forM fun (offset, count) => Slab.relocateSlots fromSlab toSlab copy offset count
  unless keepOwnership do Action.onHeader copy (·.remove .owned)
  let copied := Context.mk copy
  let memory ← Action.memory
  if memory.tag copy = Tag.context then
    Action.onMemory (copied.setSaves · 0)
    if copied.heapWord memory = source.identity then
      Action.store (copy + Layout.Context.heap) (.ofNat target)
  Action.note (.copied object copy)

/-- Copies a slab into that of the heap whose identity is `target`. The answer is the copy of the
context, which must still be one. -/
def copySlab (source : Heap) (context : Context) (target : Nat) (fromSlab toSlab : Slab)
    (keepOwnership : Bool) : Action Context := do
  Action.note (.duplicating fromSlab.start fromSlab.size toSlab.start toSlab.size)
  let copied ← (fromSlab.copyBytes toSlab (← Action.memory) : Action Memory)
  Action.onMemory fun _ => copied
  fromSlab.foldObjects source.shapes source.scrutiny
    (fun _ object => source.adaptCopy target fromSlab toSlab keepOwnership object) ()
  let copy ← (fromSlab.relocate toSlab context.address : Action Nat)
  if (← Action.memory).tag copy = Tag.context then return ⟨copy⟩
  else throw .contextExpected

/-- Duplicates a heap into a new one of the same size. -/
def fork (heap : Heap) (context : Context) (keepOwnership : Bool) :
    Action (Except HeapError (Heap × Context)) := do
  match heap.checkSource context (← Action.memory) with
  | .error refusal => return .error refusal
  | .ok fromSlab =>
      match ← Slab.create fromSlab.size fromSlab.maxSize with
      | none => return .error (.reservation fromSlab.size)
      | some toSlab =>
          let copy ← ofSlab heap.settings heap.shapes heap.features toSlab
          let context ← heap.copySlab context copy.identity fromSlab toSlab keepOwnership
          return .ok (copy, context)

/-- Overwrites the heap of the context `inTarget` with a copy of another heap. What the target held
is gone, its roots included. The target is handed back as it was beside a refusal. -/
def copyInto (source : Heap) (context : Context) (target : Heap) (inTarget : Value)
    (keepOwnership : Bool) : Action (Heap × Except HeapError Context) := do
  match source.checkDestination context target inTarget (← Action.memory) with
  | .error refusal => return (target, .error refusal)
  | .ok (fromSlab, toSlab) =>
      if target.globals.isSome then Action.note (.rootsDropped target.identity)
      let cleared := { target with globals := none, scratch := [] }
      let context ← source.copySlab context target.identity fromSlab toSlab keepOwnership
      return (cleared, .ok context)

end Heap

end SlabHeap
