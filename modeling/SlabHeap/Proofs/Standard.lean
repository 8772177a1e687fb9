import SlabHeap.Proofs.Description

namespace SlabHeap

/-! How objects of the standard shapes fit their blocks. -/

namespace Shape

variable {memory : Memory} {object offset : Nat}

/-- Objects of the shape fit their blocks, whatever they hold. -/
def Confined (shape : Shape) : Prop :=
  ∀ memory object size, Size.alignUp? (max (shape.size.byteCount memory object) 1) 16 = some size →
    shape.Describes memory object size

/-- The slots of a context are its parent and its environment. -/
theorem slot_context : Shape.context.Slot memory object offset ↔
    offset = Layout.Context.parent ∨ offset = Layout.Context.environment := by
  have count : Shape.context.strong.slotCount memory object = 2 := rfl
  have weak : Shape.context.weak = none := rfl
  simp only [Slot, StrongSlot, WeakSlot, DependentSlot, count, weak, reduceCtorEq, false_and,
    exists_false, or_false, Nat.lt_succ_iff_lt_or_eq, Nat.not_lt_zero, false_or, or_and_right,
    exists_or, exists_eq_left]
  rfl

theorem slot_pair : Shape.pair.Slot memory object offset ↔
    offset = Layout.Pair.car ∨ offset = Layout.Pair.cdr := by
  have count : Shape.pair.strong.slotCount memory object = 2 := rfl
  have weak : Shape.pair.weak = none := rfl
  simp only [Slot, StrongSlot, WeakSlot, DependentSlot, count, weak, reduceCtorEq, false_and,
    exists_false, or_false, Nat.lt_succ_iff_lt_or_eq, Nat.not_lt_zero, false_or, or_and_right,
    exists_or, exists_eq_left]
  rfl

theorem describes_context (memory : Memory) (object : Nat) :
    Shape.context.Describes memory object 48 where
  sized := by
    have bytes : Shape.context.size.byteCount memory object = 40 := rfl
    rw [bytes]
    decide
  lengthInside := by simp [lengths, Shape.context]
  slotInside offset slot := by
    rcases slot_context.mp slot with rfl | rfl
    · simp [lengths, Shape.context, Layout.Context.parent]
    · simp [lengths, Shape.context, Layout.Context.environment]

theorem describes_pair (memory : Memory) (object : Nat) :
    Shape.pair.Describes memory object 32 where
  sized := by
    have bytes : Shape.pair.size.byteCount memory object = 24 := rfl
    rw [bytes]
    decide
  lengthInside := by simp [lengths, Shape.pair]
  slotInside offset slot := by
    rcases slot_pair.mp slot with rfl | rfl
    · simp [lengths, Shape.pair, Layout.Pair.car]
    · simp [lengths, Shape.pair, Layout.Pair.cdr]

/-- The number that a length word stands for. -/
def stored (memory : Memory) (object : Nat) : Nat :=
  ((memory.value (object + Layout.Sequence.length)).toInt?.getD 0).toNat

theorem slot_vector : Shape.vector.Slot memory object offset ↔
    ∃ index < Size.saturate (stored memory object),
      offset = Layout.Sequence.contents + wordBytes * index := by
  have count : Shape.vector.strong.slotCount memory object =
      Size.saturate (stored memory object) := by
    change Size.saturate (0 + Size.saturate (stored memory object * 1)) = _
    simp only [Size.saturate]
    omega
  have weak : Shape.vector.weak = none := rfl
  simp only [Slot, StrongSlot, WeakSlot, DependentSlot, count, weak, reduceCtorEq, false_and,
    exists_false, or_false]
  rfl

theorem byteCount_vector : Shape.vector.size.byteCount memory object =
    Size.saturate (Layout.Sequence.contents + stored memory object * wordBytes) := by
  change Size.saturate (Layout.Sequence.contents + Size.saturate (stored memory object * wordBytes)) = _
  simp only [Size.saturate]
  omega

theorem not_slot_bytes : ¬ Shape.bytes.Slot memory object offset := by
  have count : Shape.bytes.strong.slotCount memory object = 0 := rfl
  have weak : Shape.bytes.weak = none := rfl
  simp [Slot, StrongSlot, WeakSlot, DependentSlot, count, weak]

theorem byteCount_bytes : Shape.bytes.size.byteCount memory object =
    Size.saturate (Layout.Sequence.contents + stored memory object) := by
  change Size.saturate (Layout.Sequence.contents + Size.saturate (stored memory object * 1)) = _
  simp only [Size.saturate]
  omega

theorem slot_weakBox : Shape.weakBox.Slot memory object offset ↔ offset = Layout.WeakBox.target := by
  have count : Shape.weakBox.strong.slotCount memory object = 0 := rfl
  have weak : Shape.weakBox.weak = some { offset := Layout.WeakBox.target, count := 1 } := rfl
  have weakCount : SlotRun.slotCount { offset := Layout.WeakBox.target, count := 1 } memory object =
      1 := rfl
  have dependent : Shape.weakBox.dependent = 0 := rfl
  simp [Slot, StrongSlot, WeakSlot, DependentSlot, count, weak, weakCount, dependent]

theorem slot_ephemeron : Shape.ephemeron.Slot memory object offset ↔
    offset = Layout.Ephemeron.key ∨ offset = Layout.Ephemeron.value := by
  have count : Shape.ephemeron.strong.slotCount memory object = 1 := rfl
  have place : Shape.ephemeron.strong.offset = Layout.Ephemeron.value := rfl
  have weak : Shape.ephemeron.weak = some { offset := Layout.Ephemeron.key, count := 1 } := rfl
  have weakCount : SlotRun.slotCount { offset := Layout.Ephemeron.key, count := 1 } memory object =
      1 := rfl
  have dependent : Shape.ephemeron.dependent = 1 := rfl
  have behind : Layout.Ephemeron.key + wordBytes * (1 + 0) = Layout.Ephemeron.value := rfl
  simp only [Slot, StrongSlot, WeakSlot, DependentSlot, count, place, weak, weakCount, dependent,
    Nat.lt_one_iff, exists_eq_left, Nat.mul_zero, Nat.add_zero, Option.some.injEq, exists_eq_left',
    behind]
  omega

/-- Where the size of an object is rounded to, there is room for all its bytes. -/
theorem byteCount_le {shape : Shape} {size : Nat}
    (sized : Size.alignUp? (max (shape.size.byteCount memory object) 1) 16 = some size) :
    shape.size.byteCount memory object ≤ size ∧ size % 16 = 0 ∧ size < Size.limit := by
  rw [show (16 : Nat) = 1 <<< 4 from rfl, Size.alignUp?_shift, show (1 : Nat) <<< 4 = 16 from rfl]
    at sized
  split at sized
  · have := Option.some.inj sized
    omega
  · contradiction

theorem confined_context : Shape.context.Confined := by
  intro memory object size sized
  have described := describes_context memory object
  obtain rfl := Option.some.inj (described.sized.symm.trans sized)
  exact described

theorem confined_pair : Shape.pair.Confined := by
  intro memory object size sized
  have described := describes_pair memory object
  obtain rfl := Option.some.inj (described.sized.symm.trans sized)
  exact described

theorem confined_vector : Shape.vector.Confined := by
  intro memory object size sized
  obtain ⟨large, whole, small⟩ := byteCount_le sized
  rw [byteCount_vector] at large
  simp only [Size.saturate, Size.limit, Layout.Sequence.contents, wordBytes] at large small
  refine ⟨sized, fun length listed => ?_, fun offset slot => ?_⟩
  · have place : length.offset = 8 := by
      simp only [lengths, vector, Layout.Sequence.length, Option.toList, Option.bind_none,
        List.append_nil, List.cons_append, List.nil_append, List.mem_cons, List.not_mem_nil,
        or_false] at listed
      rcases listed with rfl | rfl <;> rfl
    omega
  · obtain ⟨index, inside, rfl⟩ := slot_vector.mp slot
    simp only [Size.saturate, Size.limit, Layout.Sequence.contents, wordBytes] at *
    refine ⟨by omega, by omega, by omega, fun length listed => ?_⟩
    have place : length.offset = 8 := by
      simp only [lengths, vector, Layout.Sequence.length, Option.toList, Option.bind_none,
        List.append_nil, List.cons_append, List.nil_append, List.mem_cons, List.not_mem_nil,
        or_false] at listed
      rcases listed with rfl | rfl <;> rfl
    omega

theorem confined_bytes : Shape.bytes.Confined := by
  intro memory object size sized
  obtain ⟨large, whole, small⟩ := byteCount_le sized
  rw [byteCount_bytes] at large
  simp only [Size.saturate, Size.limit, Layout.Sequence.contents] at large small
  refine ⟨sized, fun length listed => ?_, fun offset slot => absurd slot not_slot_bytes⟩
  have place : length.offset = 8 := by
    simp only [lengths, bytes, SlotRun.none, Layout.Sequence.length, Option.toList, Option.bind_none,
      List.append_nil, List.mem_cons, List.not_mem_nil, or_false] at listed
    rw [listed]
  omega

theorem confined_weakBox : Shape.weakBox.Confined := by
  intro memory object size sized
  have bytes : Shape.weakBox.size.byteCount memory object = 16 := rfl
  obtain ⟨large, _⟩ := byteCount_le sized
  refine ⟨sized, by simp [lengths, weakBox, SlotRun.none], fun offset slot => ?_⟩
  rw [slot_weakBox] at slot
  simp only [Layout.WeakBox.target] at slot
  exact ⟨by omega, by omega, by omega, by simp [lengths, weakBox, SlotRun.none]⟩

theorem confined_ephemeron : Shape.ephemeron.Confined := by
  intro memory object size sized
  have bytes : Shape.ephemeron.size.byteCount memory object = 24 := rfl
  obtain ⟨large, _⟩ := byteCount_le sized
  refine ⟨sized, by simp [lengths, ephemeron], fun offset slot => ?_⟩
  rw [slot_ephemeron] at slot
  simp only [Layout.Ephemeron.key, Layout.Ephemeron.value] at slot
  exact ⟨by omega, by omega, by omega, by simp [lengths, ephemeron]⟩

variable {shapes : ShapeTable} {shape : Shape} {size : Nat}
  (known : shapes.get? Tag.context = some shape)

include known

/-- Contexts have the same shape in all tables: their slots lie behind the two plain words. -/
theorem slot_of_context (slot : shape.Slot memory object offset) : 24 ≤ offset := by
  obtain rfl : Shape.context = shape := Option.some.inj known
  rcases slot_context.mp slot with rfl | rfl <;> decide

theorem lengths_of_context : shape.lengths = [] := by
  obtain rfl : Shape.context = shape := Option.some.inj known
  rfl

theorem size_of_context (describes : shape.Describes memory object size) : size = 48 := by
  obtain rfl : Shape.context = shape := Option.some.inj known
  exact Option.some.inj (describes.sized.symm.trans (describes_context memory object).sized)

end Shape

theorem ShapeTable.confined_standard {tag : UInt8} {shape : Shape}
    (known : standard.get? tag = some shape) : shape.Confined := by
  simp only [get?] at known
  split at known
  · contradiction
  · cases known
    exact Shape.confined_context
  · have listed := Array.mem_of_getElem? known
    simp only [standard, List.mem_toArray, List.mem_cons, List.not_mem_nil, or_false] at listed
    rcases listed with rfl | rfl | rfl | rfl | rfl
    · exact Shape.confined_pair
    · exact Shape.confined_vector
    · exact Shape.confined_bytes
    · exact Shape.confined_weakBox
    · exact Shape.confined_ephemeron

end SlabHeap
