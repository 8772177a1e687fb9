import SlabHeap.Heap.Duplication
import SlabHeap.Heap.Objects
import SlabHeap.Heap.Snapshot
import SlabHeap.Frame.Chain

namespace SlabHeap

/-! Worlds: all heaps of a process on one machine. Besides any number of heaps there may be one that
the whole process shares; it is set up and torn down explicitly. -/

/-- How a heap is found in its world. -/
inductive HeapName where
  /-- The heaps are numbered in the order in which they were made. -/
  | numbered (index : Nat)
  | shared
  deriving DecidableEq, Repr

structure World where
  machine : Machine := {}
  heaps : Array Heap := #[]
  shared : Option Heap := none

namespace World

def memory (world : World) : Memory := world.machine.memory

def heap? (world : World) : HeapName → Option Heap
  | .numbered index => world.heaps[index]?
  | .shared => world.shared

def setHeap (world : World) (name : HeapName) (heap : Heap) : World :=
  match name with
  | .numbered index => { world with heaps := world.heaps.setIfInBounds index heap }
  | .shared => { world with shared := some heap }

/-- Adds a heap under the next number. -/
def addHeap (world : World) (heap : Heap) : World :=
  { world with heaps := world.heaps.push heap }

/-- Runs an action; what it did to the machine stays, also if it raised a fault. -/
def perform {α : Type} (world : World) (action : Action α) : Except Fault α × World :=
  match action.run world.machine with
  | .ok result machine => (.ok result, { world with machine })
  | .error fault machine => (.error fault, { world with machine })

/-- Runs an operation on a heap and keeps what it made of the heap. -/
def performOn {α : Type} (world : World) (name : HeapName) (heap : Heap)
    (operation : Heap → Action (Heap × α)) : Except Fault α × World :=
  match world.perform (operation heap) with
  | (.ok (heap, result), world) => (.ok result, world.setHeap name heap)
  | (.error fault, world) => (.error fault, world)

/-- Sets up the shared heap, of which there is at most one. -/
def initShared (world : World) (settings : Settings) (shapes : ShapeTable)
    (features : Features) : Except Fault (Except HeapError Unit) × World :=
  match world.shared with
  | some _ => (.ok (.error .alreadyInitialized), world)
  | none =>
      match world.perform (Heap.new settings shapes features) with
      | (.ok (.ok heap), world) => (.ok (.ok ()), { world with shared := some heap })
      | (.ok (.error refusal), world) => (.ok (.error refusal), world)
      | (.error fault, world) => (.error fault, world)

/-- Gives the shared heap up. Without another heap the next one begins where the first one did. -/
def teardownShared (world : World) : Except HeapError Unit × World :=
  match world.shared with
  | some _ =>
      let machine := if world.heaps.isEmpty then world.machine.vacate else world.machine
      (.ok (), { world with machine, shared := none })
  | none => (.error .notInitialized, world)

end World

end SlabHeap
