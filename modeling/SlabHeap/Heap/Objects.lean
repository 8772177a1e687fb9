import SlabHeap.Heap.Allocation
import SlabHeap.Memory.Bytes

namespace SlabHeap

/-! Objects of the standard shapes: making, reading and writing them.

What is stored into a new object is kept alive while the object is allocated. Reading and writing
check that they are given an object of the right type.
-/

namespace Heap

/-- Allocates while the given values count as roots. -/
def withScratch (heap : Heap) (values : List Value)
    (allocation : Heap → Action (Heap × Except HeapError Nat)) :
    Action (Heap × Except HeapError Nat) := do
  let (after, object) ← allocation { heap with scratch := heap.scratch ++ values }
  return ({ after with scratch := after.scratch.take heap.scratch.length }, object)

/-- Allocates an object while the values that it will hold count as roots, and writes them. -/
def allocateHolding (heap : Heap) (context : Context) (tag : UInt8) (size : Nat)
    (held : List Value) (write : Nat → Action Unit) : Action (Heap × Except HeapError Value) := do
  let (heap, object) ← heap.withScratch held fun heap => heap.allocateObject context tag size
  match object with
  | .error refusal => return (heap, .error refusal)
  | .ok object =>
      write object
      return (heap, .ok (← Value.ofAddress object))

/-- An object whose bytes cannot be counted is refused. -/
def allocateSequence (heap : Heap) (context : Context) (tag : UInt8) (size : Nat)
    (held : List Value) (write : Nat → Action Unit) : Action (Heap × Except HeapError Value) := do
  if Size.limit ≤ size then return (← heap.countRefusal, .error (.outOfMemory (Size.limit - 1)))
  heap.allocateHolding context tag size held write

def allocPair (heap : Heap) (context : Context) (car cdr : Value) :
    Action (Heap × Except HeapError Value) :=
  heap.allocateHolding context Tag.pair Layout.Pair.size [car, cdr] fun object => do
    Action.storeValue (object + Layout.Pair.car) car
    Action.storeValue (object + Layout.Pair.cdr) cdr

/-- A vector of `length` equal values. -/
def allocVector (heap : Heap) (context : Context) (length : Nat) (fill : Value) :
    Action (Heap × Except HeapError Value) :=
  let size := Layout.Sequence.contents + length * wordBytes
  heap.allocateSequence context Tag.vector size [fill] fun object => do
    Action.storeValue (object + Layout.Sequence.length) (← Value.ofInt length)
    Action.onMemory (·.fillWords fill.bits (object + Layout.Sequence.contents) length)

def allocBytes (heap : Heap) (context : Context) (bytes : List UInt8) :
    Action (Heap × Except HeapError Value) :=
  let size := Layout.Sequence.contents + bytes.length
  heap.allocateSequence context Tag.bytes size [] fun object => do
    Action.storeValue (object + Layout.Sequence.length) (← Value.ofInt bytes.length)
    Action.onMemory (·.writeBytes (object + Layout.Sequence.contents) bytes)

/-- A box whose slot does not keep its target alive. -/
def allocWeakBox (heap : Heap) (context : Context) (target : Value) :
    Action (Heap × Except HeapError Value) :=
  heap.allocateHolding context Tag.weakBox Layout.WeakBox.size [target] fun object =>
    Action.storeValue (object + Layout.WeakBox.target) target

/-- A weak key with a value that is dropped once the key is collected. -/
def allocEphemeron (heap : Heap) (context : Context) (key value : Value) :
    Action (Heap × Except HeapError Value) :=
  heap.allocateHolding context Tag.ephemeron Layout.Ephemeron.size [key, value] fun object => do
    Action.storeValue (object + Layout.Ephemeron.key) key
    Action.storeValue (object + Layout.Ephemeron.value) value

/-- The address of a word of an object, if the value refers to one with the given tag. -/
def fieldAddress? (heap : Heap) (memory : Memory) (tag : UInt8) (offset : Nat) (value : Value) :
    Option Nat :=
  (heap.objectOf? memory tag value).map (· + offset)

/-- The word of an object with the given tag. -/
def fieldOf? (heap : Heap) (memory : Memory) (tag : UInt8) (offset : Nat) (value : Value) :
    Option Value :=
  (heap.fieldAddress? memory tag offset value).map memory.value

/-- Replaces a word of an object, if the value refers to one with the given tag. The answer is
whether it does. -/
def setFieldOf (heap : Heap) (tag : UInt8) (offset : Nat) (value new : Value) : Action Bool := do
  Action.storeIfPresent (heap.fieldAddress? (← Action.memory) tag offset value) new

def car? (heap : Heap) (memory : Memory) (cell : Value) : Option Value :=
  heap.fieldOf? memory Tag.pair Layout.Pair.car cell

def cdr? (heap : Heap) (memory : Memory) (cell : Value) : Option Value :=
  heap.fieldOf? memory Tag.pair Layout.Pair.cdr cell

/-- Follows the cdrs of a list from `value` on, at most `bound` of them. The answer is the number of
steps, added to `steps`, and the value where the list ends. -/
def followCdrs (heap : Heap) (memory : Memory) (value : Value) (steps : Nat) : Nat → Nat × Value
  | 0 => (steps, value)
  | bound + 1 =>
      match heap.cdr? memory value with
      | some next => heap.followCdrs memory next (steps + 1) bound
      | none => (steps, value)

def setCar (heap : Heap) (cell value : Value) : Action Bool :=
  heap.setFieldOf Tag.pair Layout.Pair.car cell value

def setCdr (heap : Heap) (cell value : Value) : Action Bool :=
  heap.setFieldOf Tag.pair Layout.Pair.cdr cell value

/-- The length that a vector stores. -/
def vectorLength? (heap : Heap) (memory : Memory) (vector : Value) : Option Nat := do
  (← heap.fieldOf? memory Tag.vector Layout.Sequence.length vector).toCount?

/-- The address of the element of a vector at an index below its length. A length that was
overwritten may admit an index whose offset is no size. -/
def elementAddress? (heap : Heap) (memory : Memory) (vector : Value) (index : Nat) :
    Except Fault (Option Nat) :=
  match heap.objectOf? memory Tag.vector vector, heap.vectorLength? memory vector with
  | some object, some length =>
      if index < length then do
        let offset ← Size.add Layout.Sequence.contents (← Size.mul index wordBytes)
        return some (object + offset)
      else return none
  | _, _ => return none

/-- The element of a vector at an index below its length. -/
def vectorRef? (heap : Heap) (memory : Memory) (vector : Value) (index : Nat) :
    Except Fault (Option Value) := do
  return (← heap.elementAddress? memory vector index).map memory.value

/-- Replaces one element of a vector. The answer is whether the vector has it. -/
def vectorSet (heap : Heap) (vector : Value) (index : Nat) (value : Value) : Action Bool := do
  Action.storeIfPresent (← heap.elementAddress? (← Action.memory) vector index) value

/-- The contents of a byte string. A negative length stands for no contents. -/
def bytes? (heap : Heap) (memory : Memory) (bytes : Value) : Option (List UInt8) := do
  let object ← heap.objectOf? memory Tag.bytes bytes
  let length ← (memory.value (object + Layout.Sequence.length)).toInt?
  return memory.readBytes (object + Layout.Sequence.contents) length.toNat

def weakTarget? (heap : Heap) (memory : Memory) (box : Value) : Option Value :=
  heap.fieldOf? memory Tag.weakBox Layout.WeakBox.target box

def ephemeronKey? (heap : Heap) (memory : Memory) (ephemeron : Value) : Option Value :=
  heap.fieldOf? memory Tag.ephemeron Layout.Ephemeron.key ephemeron

def ephemeronValue? (heap : Heap) (memory : Memory) (ephemeron : Value) : Option Value :=
  heap.fieldOf? memory Tag.ephemeron Layout.Ephemeron.value ephemeron

end Heap

end SlabHeap
