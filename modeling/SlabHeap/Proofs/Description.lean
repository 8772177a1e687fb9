import SlabHeap.Shape.Table

namespace SlabHeap

/-! What a shape says about an object, as plain functions of memory.

The counts and sizes that a walk computes step by step are given here as functions that never fail;
they agree with the computations as long as length words are aligned. `Shape.Describes` says that an
object fits its block: its slots and its length words are words of the block, apart from each other
and from the header.
-/

variable {memory after : Memory} {object other size offset : Nat}

namespace Memory

theorem header_setHeader (memory : Memory) (object : Nat) (header : Header) :
    (memory.setHeader object header).header object = header := by
  rw [Memory.header, setHeader, read_write_same, Header.ofWord_toWord]

theorem read_setHeader {address : Nat} {header : Header} (aligned : object % 8 = 0)
    (outside : ¬ (object ≤ address ∧ address < object + 8)) :
    (memory.setHeader object header).read address = memory.read address := by
  rw [setHeader, read_write, if_neg (by omega)]

end Memory

namespace LengthField

/-- The units that a length stands for. -/
def count (length : LengthField) (memory : Memory) (object : Nat) : Nat :=
  Size.saturate (((memory.value (object + length.offset)).toInt?.getD 0).toNat * length.scale)

/-- The units of a length that need not be there. -/
def countOf (length : Option LengthField) (memory : Memory) (object : Nat) : Nat :=
  match length with
  | none => 0
  | some length => length.count memory object

theorem units_eq_ok {length : LengthField} (aligned : length.offset % 8 = 0) :
    length.units memory object = .ok (length.count memory object) := by
  simp only [units, Memory.field_eq_ok aligned]
  rfl

theorem unitsOf_eq_ok {length : Option LengthField}
    (aligned : ∀ field ∈ length, field.offset % 8 = 0) :
    unitsOf length memory object = .ok (countOf length memory object) := by
  cases length with
  | none => rfl
  | some field => exact units_eq_ok (aligned field rfl)

theorem countOf_congr {length : Option LengthField}
    (kept : ∀ field ∈ length,
      after.read (other + field.offset) = memory.read (object + field.offset)) :
    countOf length after other = countOf length memory object := by
  cases length with
  | none => rfl
  | some field => simp only [countOf, count, Memory.value, kept field rfl]

end LengthField

/-- The number of slots in a run. -/
def SlotRun.slotCount (run : SlotRun) (memory : Memory) (object : Nat) : Nat :=
  Size.saturate (run.count + LengthField.countOf run.length memory object)

theorem SlotRun.slots_eq_ok {run : SlotRun} (aligned : ∀ field ∈ run.length, field.offset % 8 = 0) :
    run.slots memory object = .ok (run.slotCount memory object) := by
  simp only [slots, LengthField.unitsOf_eq_ok aligned]
  rfl

/-- The bytes of an object, before they are rounded. -/
def SizeRule.byteCount (rule : SizeRule) (memory : Memory) (object : Nat) : Nat :=
  Size.saturate (rule.base + LengthField.countOf rule.length memory object)

theorem SizeRule.bytes_eq_ok {rule : SizeRule}
    (aligned : ∀ field ∈ rule.length, field.offset % 8 = 0) :
    rule.bytes memory object = .ok (rule.byteCount memory object) := by
  simp only [bytes, LengthField.unitsOf_eq_ok aligned]
  rfl

namespace Shape

variable {shape : Shape}

def lengths (shape : Shape) : List LengthField :=
  shape.size.length.toList ++ shape.strong.length.toList ++
    (shape.weak.bind SlotRun.length).toList

def StrongSlot (shape : Shape) (memory : Memory) (object offset : Nat) : Prop :=
  ∃ index < shape.strong.slotCount memory object,
    offset = shape.strong.offset + wordBytes * index

def WeakSlot (shape : Shape) (memory : Memory) (object offset : Nat) : Prop :=
  ∃ run, shape.weak = some run ∧ ∃ index < run.slotCount memory object,
    offset = run.offset + wordBytes * index

def DependentSlot (shape : Shape) (memory : Memory) (object offset : Nat) : Prop :=
  ∃ run, shape.weak = some run ∧ ∃ index < shape.dependent,
    offset = run.offset + wordBytes * (run.slotCount memory object + index)

def Slot (shape : Shape) (memory : Memory) (object offset : Nat) : Prop :=
  shape.StrongSlot memory object offset ∨ shape.WeakSlot memory object offset ∨
    shape.DependentSlot memory object offset

theorem Slot.strong (slot : shape.Slot memory object offset) (none : shape.weak = none) :
    shape.StrongSlot memory object offset := by
  refine slot.resolve_right ?_
  rintro (⟨run, some, _⟩ | ⟨run, some, _⟩)
  · rw [none] at some
    cases some
  · rw [none] at some
    cases some

/-- A collection follows the slot, be it to clear it. -/
def Followed (shape : Shape) (weak : Bool) (memory : Memory) (object offset : Nat) : Prop :=
  shape.StrongSlot memory object offset ∨ weak = true ∧ shape.WeakSlot memory object offset

theorem Followed.slot {weak : Bool} (followed : shape.Followed weak memory object offset) :
    shape.Slot memory object offset :=
  followed.imp_right fun both => .inl both.2

/-- An object of the shape fits a block of `size` bytes. -/
structure Describes (shape : Shape) (memory : Memory) (object size : Nat) : Prop where
  sized : Size.alignUp? (max (shape.size.byteCount memory object) 1) 16 = some size
  lengthInside : ∀ length ∈ shape.lengths,
    length.offset % 8 = 0 ∧ 8 ≤ length.offset ∧ length.offset + 8 ≤ size
  slotInside : ∀ offset, shape.Slot memory object offset →
    offset % 8 = 0 ∧ 8 ≤ offset ∧ offset + 8 ≤ size ∧
      ∀ length ∈ shape.lengths, length.offset ≠ offset

theorem mem_lengths_size {length : LengthField} (member : length ∈ shape.size.length) :
    length ∈ shape.lengths := by
  simp only [lengths, List.mem_append, Option.mem_toList]
  exact .inl (.inl member)

theorem mem_lengths_strong {length : LengthField} (member : length ∈ shape.strong.length) :
    length ∈ shape.lengths := by
  simp only [lengths, List.mem_append, Option.mem_toList]
  exact .inl (.inr member)

theorem mem_lengths_weak {run : SlotRun} {length : LengthField} (weak : shape.weak = some run)
    (member : length ∈ run.length) : length ∈ shape.lengths := by
  simp only [lengths, List.mem_append, Option.mem_toList, weak, Option.bind_some]
  exact .inr member

namespace Describes

theorem sizeAligned (describes : shape.Describes memory object size) :
    ∀ field ∈ shape.size.length, field.offset % 8 = 0 :=
  fun field member => (describes.lengthInside field (mem_lengths_size member)).1

theorem strongAligned (describes : shape.Describes memory object size) :
    ∀ field ∈ shape.strong.length, field.offset % 8 = 0 :=
  fun field member => (describes.lengthInside field (mem_lengths_strong member)).1

theorem weakAligned (describes : shape.Describes memory object size) {run : SlotRun}
    (weak : shape.weak = some run) : ∀ field ∈ run.length, field.offset % 8 = 0 :=
  fun field member => (describes.lengthInside field (mem_lengths_weak weak member)).1

theorem strongSlots (describes : shape.Describes memory object size) :
    shape.strong.slots memory object = .ok (shape.strong.slotCount memory object) :=
  SlotRun.slots_eq_ok describes.strongAligned

theorem weakSlots (describes : shape.Describes memory object size) {run : SlotRun}
    (weak : shape.weak = some run) : run.slots memory object = .ok (run.slotCount memory object) :=
  SlotRun.slots_eq_ok (describes.weakAligned weak)

theorem size_bounds (describes : shape.Describes memory object size) :
    16 ≤ size ∧ size % 16 = 0 ∧ size < Size.limit := by
  have sized := describes.sized
  have rounded := Size.alignUp?_shift (max (shape.size.byteCount memory object) 1) 4
  simp only [show (1 : Nat) <<< 4 = 16 from rfl] at rounded
  rw [rounded] at sized
  split at sized
  · simp only [Option.some.injEq] at sized
    omega
  · contradiction

/-- Weak and dependent slots can be counted together. -/
theorem weakSlots_lt (describes : shape.Describes memory object size) {run : SlotRun}
    (weak : shape.weak = some run) :
    run.slotCount memory object + shape.dependent < Size.limit := by
  cases rest : shape.dependent with
  | zero =>
      simp only [SlotRun.slotCount, Size.saturate, Size.limit]
      omega
  | succ others =>
      have last := describes.slotInside
        (run.offset + wordBytes * (run.slotCount memory object + others))
        (.inr (.inr ⟨run, weak, others, by omega, rfl⟩))
      have bounded := describes.size_bounds.2.2
      simp only [wordBytes] at last
      omega

end Describes

theorem slotCount_congr {run : SlotRun}
    (kept : ∀ field ∈ run.length,
      after.read (other + field.offset) = memory.read (object + field.offset)) :
    run.slotCount after other = run.slotCount memory object := by
  simp only [SlotRun.slotCount, LengthField.countOf_congr kept]

section Congruence

variable (kept : ∀ length ∈ shape.lengths,
  after.read (other + length.offset) = memory.read (object + length.offset))

include kept

theorem strongCount_congr :
    shape.strong.slotCount after other = shape.strong.slotCount memory object :=
  slotCount_congr fun field member => kept field (mem_lengths_strong member)

theorem weakCount_congr {run : SlotRun} (weak : shape.weak = some run) :
    run.slotCount after other = run.slotCount memory object :=
  slotCount_congr fun field member => kept field (mem_lengths_weak weak member)

theorem strongSlot_congr :
    shape.StrongSlot after other offset ↔ shape.StrongSlot memory object offset := by
  simp only [StrongSlot, strongCount_congr kept]

theorem weakSlot_congr :
    shape.WeakSlot after other offset ↔ shape.WeakSlot memory object offset := by
  constructor <;> rintro ⟨run, weak, index, bound, place⟩
  · exact ⟨run, weak, index, weakCount_congr kept weak ▸ bound, place⟩
  · exact ⟨run, weak, index, (weakCount_congr kept weak).symm ▸ bound, place⟩

theorem dependentSlot_congr :
    shape.DependentSlot after other offset ↔ shape.DependentSlot memory object offset := by
  constructor <;> rintro ⟨run, weak, index, bound, place⟩
  · exact ⟨run, weak, index, bound, weakCount_congr kept weak ▸ place⟩
  · exact ⟨run, weak, index, bound, (weakCount_congr kept weak).symm ▸ place⟩

theorem slot_congr : shape.Slot after other offset ↔ shape.Slot memory object offset := by
  simp only [Slot, strongSlot_congr kept, weakSlot_congr kept, dependentSlot_congr kept]

theorem followed_congr {weak : Bool} :
    shape.Followed weak after other offset ↔ shape.Followed weak memory object offset := by
  simp only [Followed, strongSlot_congr kept, weakSlot_congr kept]

/-- Whether an object fits its block depends on its length words alone. -/
theorem Describes.congr (describes : shape.Describes memory object size) :
    shape.Describes after other size where
  sized := by
    rw [SizeRule.byteCount, LengthField.countOf_congr fun field member =>
      kept field (mem_lengths_size member)]
    exact describes.sized
  lengthInside := describes.lengthInside
  slotInside := fun offset slot => describes.slotInside offset ((slot_congr kept).mp slot)

end Congruence

end Shape

namespace ShapeTable

variable {shapes : ShapeTable} {shape : Shape}

@[simp]
theorem get?_zero (shapes : ShapeTable) : shapes.get? 0 = none := rfl

theorem blockSize?_eq_some (aligned : object % 8 = 0)
    (known : shapes.get? (memory.tag object) = some shape)
    (describes : shape.Describes memory object size) :
    shapes.blockSize? memory object = .ok (some size) := by
  simp only [blockSize?, aligned, if_true, known, SizeRule.bytes_eq_ok describes.sizeAligned]
  exact congrArg Except.ok describes.sized

theorem blockSize?_eq_none (aligned : object % 8 = 0)
    (unknown : shapes.get? (memory.tag object) = none) :
    shapes.blockSize? memory object = .ok none := by
  simp only [blockSize?, aligned, if_true, unknown]

end ShapeTable

end SlabHeap
