import SlabHeap.Counters
import SlabHeap.Slab.Walk

namespace SlabHeap

/-! Heaps: a chain of slabs, the shapes of the objects in them, and the roots that are no objects.

The contents of a heap are words of the machine's memory; a `Heap` holds what lies outside it.
-/

/-- What a heap can do beyond marking and sweeping. -/
structure Features where
  /-- Weak slots are cleared when their objects die. -/
  weakReferences : Bool := true
  /-- References and objects are checked while the heap is collected. -/
  validating : Bool := false
  deriving DecidableEq, Repr

structure Heap where
  /-- The word by which contexts name their heap. -/
  identity : Nat
  settings : Settings
  shapes : ShapeTable
  features : Features
  /-- In the order in which the heap grew. -/
  slabs : List Slab
  /-- Values that the program keeps alive for the whole heap. -/
  globals : Option (List Value) := none
  /-- Values that an allocation under way keeps alive. -/
  scratch : List Value := []
  counters : Counters := {}
  slabs_nonempty : slabs ≠ []

namespace Heap

def totalSize (heap : Heap) : Nat :=
  heap.slabs.foldr (fun slab total => slab.size + total) 0

def freeBytes (heap : Heap) (memory : Memory) : Except Fault Nat := do
  Size.total (← heap.slabs.mapM (·.freeBytes memory))

def lastSlab (heap : Heap) : Slab := heap.slabs.getLast heap.slabs_nonempty

/-- Whether an address lies among the blocks of a slab. An object need not start there. -/
def contains (heap : Heap) (address : Nat) : Bool := heap.slabs.any (·.contains address)

/-- Adds a shape to the heap's own. -/
def register (heap : Heap) (shape : Shape) : Heap × Option UInt8 :=
  let (shapes, tag) := heap.shapes.register shape
  ({ heap with shapes }, tag)

/-- The object that a value refers to: a block of this heap whose first word has a known tag. -/
def object? (heap : Heap) (memory : Memory) (value : Value) : Option Nat := do
  let address ← value.address?
  if address % blockUnit ≠ 0 ∨ ¬ heap.contains address then none
  else if heap.shapes.isRegistered (memory.tag address) then some address
  else none

/-- The object that a value refers to, if it has the given tag. -/
def objectOf? (heap : Heap) (memory : Memory) (tag : UInt8) (value : Value) : Option Nat :=
  (heap.object? memory value).filter fun object => memory.tag object = tag

def scrutiny (heap : Heap) : Scrutiny := ⟨heap.features.validating⟩

/-- The text that shows a heap to a developer. -/
def describe (heap : Heap) : String :=
  let slabs := ", ".intercalate (heap.slabs.map Slab.describe)
  let counters :=
    s!"GcStats \x7b collections: {heap.counters.collections}, " ++
      s!"bytes_freed: {heap.counters.bytesFreed}, growths: {heap.counters.growths}, " ++
      s!"out_of_memory: {heap.counters.outOfMemory} \x7d"
  s!"Heap \x7b inner: HeapInner \x7b settings: {heap.settings.describe}, " ++
    s!"slabs: [{slabs}], stats: {counters}, .. \x7d \x7d"

end Heap

end SlabHeap
