import SlabHeap.Heap

namespace SlabHeap

/-! Contexts: objects that name their heap, hold an environment, and root a chain of save frames. -/

namespace Context

/-- The context that a value refers to, if it is one of the heap's blocks. -/
def ofValue? (heap : Heap) (memory : Memory) (value : Value) : Option Context :=
  (heap.objectOf? memory Tag.context value).map Context.mk

/-- The identity of the heap that a context names. -/
def heapWord (context : Context) (memory : Memory) : Nat :=
  (memory.read (context.address + Layout.Context.heap)).toNat

/-- Whether a context names the heap as its own. -/
def isIn (context : Context) (heap : Heap) (memory : Memory) : Bool :=
  context.heapWord memory = heap.identity

/-- The address of the innermost linked frame, or 0. -/
def saves (context : Context) (memory : Memory) : Nat :=
  (memory.read (context.address + Layout.Context.saves)).toNat

def setSaves (context : Context) (memory : Memory) (frame : Nat) : Memory :=
  memory.write (context.address + Layout.Context.saves) (.ofNat frame)

/-- The context that this one was made from. -/
def parent? (context : Context) (memory : Memory) : Option Context :=
  match (memory.value (context.address + Layout.Context.parent)).address? with
  | none | some 0 => none
  | some address => if memory.tag address = Tag.context then some ⟨address⟩ else none

def environment (context : Context) (memory : Memory) : Value :=
  memory.value (context.address + Layout.Context.environment)

def setEnvironment (context : Context) (memory : Memory) (value : Value) : Memory :=
  memory.write (context.address + Layout.Context.environment) value.bits

/-- The linked frames, innermost first. -/
def frames (context : Context) (machine : Machine) : List Frame :=
  machine.frameChain (context.saves machine.memory) machine.frames.size

/-- The values that linked frames keep alive, those of inner frames first. -/
def savedValues (context : Context) (machine : Machine) : List Value :=
  (context.frames machine).flatMap Frame.values

end Context

end SlabHeap
