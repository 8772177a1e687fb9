import SlabHeap.Header
import SlabHeap.Memory

namespace SlabHeap

/-! What the collector knows about the objects of one type: how many bytes an object takes, where
its strong and weak slots lie, and whether a finalizer waits for it. Sizes and slot counts may grow
with a length that the object stores itself. -/

namespace Memory

/-- The word of an object at an offset, which must be a multiple of eight. -/
def field (memory : Memory) (object offset : Nat) : Except Fault UInt64 :=
  if offset % 8 = 0 then .ok (memory.read (object + offset)) else .error .offsetNotAligned

/-- The header of an object. -/
def header (memory : Memory) (object : Nat) : Header := .ofWord (memory.read object)

/-- The tag of an object. -/
def tag (memory : Memory) (object : Nat) : UInt8 := (memory.header object).tag

/-- Replaces the header of an object. -/
def setHeader (memory : Memory) (object : Nat) (header : Header) : Memory :=
  memory.write object header.toWord

/-- The word at an address, read as a value. -/
def value (memory : Memory) (address : Nat) : Value := ⟨memory.read address⟩

theorem field_eq_ok {memory : Memory} {object offset : Nat} (aligned : offset % 8 = 0) :
    memory.field object offset = .ok (memory.read (object + offset)) := if_pos aligned

end Memory

/-- A fixnum at `offset` that counts `scale` units each. -/
structure LengthField where
  offset : Nat
  scale : Nat
  deriving DecidableEq, Repr

/-- Units that an object's length stands for. Negative lengths and words that are no fixnum count
as zero, products past the range as the largest size. -/
def LengthField.units (length : LengthField) (memory : Memory) (object : Nat) :
    Except Fault Nat := do
  let word ← memory.field object length.offset
  return Size.saturate (((Value.mk word).toInt?.getD 0).toNat * length.scale)

/-- The units of a length that need not be there. -/
def LengthField.unitsOf (length : Option LengthField) (memory : Memory) (object : Nat) :
    Except Fault Nat :=
  match length with
  | none => .ok 0
  | some length => length.units memory object

/-- A size: `base` bytes and what the length adds. -/
structure SizeRule where
  base : Nat
  length : Option LengthField := none
  deriving DecidableEq, Repr

/-- The bytes of an object, at most the largest size. -/
def SizeRule.bytes (rule : SizeRule) (memory : Memory) (object : Nat) : Except Fault Nat := do
  return Size.saturate (rule.base + (← LengthField.unitsOf rule.length memory object))

/-- A run of value slots from `offset` on: `count` of them and what the length adds. -/
structure SlotRun where
  offset : Nat
  count : Nat
  length : Option LengthField := none
  deriving DecidableEq, Repr

/-- The run without slots. -/
def SlotRun.none : SlotRun := { offset := 0, count := 0 }

/-- The number of slots in an object, at most the largest size. -/
def SlotRun.slots (run : SlotRun) (memory : Memory) (object : Nat) : Except Fault Nat := do
  return Size.saturate (run.count + (← LengthField.unitsOf run.length memory object))

/-- The description of one type of objects. -/
structure Shape where
  name : String
  size : SizeRule
  /-- Slots whose references keep their objects alive. -/
  strong : SlotRun
  /-- Slots whose references do not. -/
  weak : Option SlotRun := none
  /-- Slots right behind the weak ones, cleared once all the weak slots were cleared together. -/
  dependent : Nat := 0
  /-- Whether a finalizer is called before an object that the heap owns is reclaimed. -/
  finalized : Bool := false
  deriving DecidableEq, Repr

/-- The number of weak slots in an object. -/
def Shape.weakSlots (shape : Shape) (memory : Memory) (object : Nat) : Except Fault Nat :=
  match shape.weak with
  | none => .ok 0
  | some run => run.slots memory object

/-- The values in `count` slots from `offset` on. -/
def Memory.slotValues (memory : Memory) (object offset count : Nat) : Except Fault (List Value) :=
  if count = 0 then .ok []
  else if offset % 8 = 0 then
    .ok ((memory.words (object + offset) count).map Value.mk)
  else .error .offsetNotAligned

/-- The values in the strong slots of an object, first slot first. -/
def Shape.strongValues (shape : Shape) (memory : Memory) (object : Nat) :
    Except Fault (List Value) := do
  memory.slotValues object shape.strong.offset (← shape.strong.slots memory object)

end SlabHeap
