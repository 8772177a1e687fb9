import SlabHeap.Frame.Chain
import SlabHeap.Proofs.Supplies

namespace SlabHeap

/-! Writing into objects.

One object of a heap may change in place as long as it stays sound, `Heap.Upheld.change`; so a slot
may be given another value, `Heap.Upheld.store`.
-/

open Block

namespace Block

variable {shapes : ShapeTable} {weak : Bool} {denotes : Value → Prop} {machine final : Machine}
  {block : Block} {shape : Shape} {offset : Nat} {value : Value}

section Store

variable (known : shapes.get? (machine.memory.tag block.start) = some shape)
  (describes : shape.Describes machine.memory block.start block.size)
  (slot : shape.Slot machine.memory block.start offset) (aligned : block.start % 8 = 0)

include describes slot aligned

theorem read_stored {other : Nat} : (machine.memory.write (block.start + offset) value.bits).read other =
    if block.start + offset ≤ other ∧ other < block.start + offset + 8 then value.bits
    else machine.memory.read other := by
  have place := (describes.slotInside offset slot).1
  rw [Memory.read_write]
  refine if_congr ?_ rfl rfl
  omega

include known

/-- The slots of an object are no length words. -/
theorem alike_store : block.Alike shapes machine.memory
    (machine.memory.write (block.start + offset) value.bits) := by
  obtain ⟨slotAligned, lower, upper, apart⟩ := describes.slotInside offset slot
  refine ⟨?_, fun _ found foundKnown length listed => ?_⟩
  · rw [Memory.tag, Memory.header, read_stored describes slot aligned, if_neg (by omega)]
    rfl
  · obtain rfl := Option.some.inj (known.symm.trans foundKnown)
    have distinct := apart length listed
    have place := describes.lengthInside length listed
    rw [read_stored describes slot aligned, if_neg (by omega)]

/-- An object whose slot is given another value stays sound. -/
theorem Sound.store (sound : block.Sound shapes weak denotes machine) (holds : denotes value) :
    block.Sound shapes weak denotes
      (machine.withMemory (machine.memory.write (block.start + offset) value.bits)) := by
  obtain ⟨slotAligned, lower, upper, _⟩ := describes.slotInside offset slot
  have alike : block.Alike shapes machine.memory
      (machine.memory.write (block.start + offset) value.bits) :=
    alike_store known describes slot aligned
  have header : (machine.memory.write (block.start + offset) value.bits).header block.start =
      machine.memory.header block.start := by
    rw [Memory.header, read_stored describes slot aligned, if_neg (by omega)]
    rfl
  refine ⟨?_, ?_, fun found foundKnown other followed => ?_, fun isContext => ?_⟩
  · rw [Machine.memory_withMemory, header]
    exact sound.valid
  · rw [Machine.Unmarked, Machine.memory_withMemory, header]
    exact sound.unmarked
  · rw [Machine.memory_withMemory] at foundKnown followed ⊢
    rw [alike.tag] at foundKnown
    obtain rfl := Option.some.inj (known.symm.trans foundKnown)
    -- No slot is a length, so that the slots are where they were.
    have lengths : ∀ length ∈ shape.lengths,
        (machine.memory.write (block.start + offset) value.bits).read (block.start + length.offset) =
          machine.memory.read (block.start + length.offset) := by
      intro length listed
      have distinct := (describes.slotInside offset slot).2.2.2 length listed
      have place := describes.lengthInside length listed
      rw [read_stored describes slot aligned, if_neg (by omega)]
    rw [Shape.followed_congr lengths] at followed
    have place := (describes.slotInside other followed.slot).1
    rw [Memory.value, read_stored describes slot aligned]
    by_cases same : other = offset
    · rw [if_pos (by omega)]
      exact holds
    · rw [if_neg (by omega)]
      exact sound.slots shape known other followed
  · rw [Machine.memory_withMemory, alike.tag] at isContext
    have later := Shape.slot_of_context (isContext ▸ known) slot
    refine (sound.chain isContext).keep (congrArg UInt64.toNat ?_) (fun _ _ found _ => found)
      fun _ => id
    rw [Machine.memory_withMemory, read_stored describes slot aligned, if_neg]
    simp only [Layout.Context.saves]
    omega

end Store

end Block

namespace Heap

variable {heap : Heap} {machine final : Machine} {tiling : Slab → List Block} {block : Block}
  {shape : Shape} {offset : Nat} {value : Value}

variable {denotes : Value → Prop} (upheld : heap.Upheld denotes tiling machine)
  (member : block ∈ heap.blocks tiling) (isObject : block.kind = .object)

include upheld member isObject

/-- One object may change, and the frames of the context that it is. -/
theorem Upheld.change (elsewhere : ∀ address, ¬ block.Covers address →
      final.memory.read address = machine.memory.read address)
    (alike : block.Alike heap.shapes machine.memory final.memory)
    (frames : ∀ number frame, machine.frame? number = some frame → frame.context ≠ ⟨block.start⟩ →
      final.frame? number = some frame)
    (pages : final.pages = machine.pages)
    (sound : block.Sound heap.shapes heap.features.weakReferences denotes final) :
    heap.Upholds denotes tiling machine final := by
  have others {other : Block} (otherMember : other ∈ heap.blocks tiling) (distinct : other ≠ block) :
      other.Kept machine.memory final.memory := fun address covers =>
    elsewhere address fun inside =>
      distinct (upheld.tiled.eq_of_covers otherMember member covers inside)
  have allAlike {other : Block} (otherMember : other ∈ heap.blocks tiling) :
      other.Alike heap.shapes machine.memory final.memory := by
    by_cases same : other = block
    · exact same ▸ alike
    · exact (others otherMember same).alike (upheld.fits otherMember)
        (upheld.tiled.bounds otherMember).2.2.1
  refine ⟨⟨?_, ?_, upheld.upper, ?_⟩, fun other otherMember _ => allAlike otherMember⟩
  · refine upheld.tiled.congr_used (fun address free => elsewhere address ?_)
      fun other otherMember _ => allAlike otherMember
    exact free block member (by simp [isObject])
  · exact fun slab inHeap => (upheld.hosted slab inHeap).congr pages
  · intro other otherMember otherObject
    by_cases same : other = block
    · exact same ▸ sound
    · refine (upheld.objects other otherMember otherObject).keep otherObject
        (upheld.fits otherMember) (upheld.tiled.bounds otherMember).2.2.1
        (others otherMember same) (fun number frame found owned => ?_) fun _ => id
      refine frames number frame found fun here => same ?_
      refine upheld.tiled.eq_of_start_eq otherMember member ?_
      exact congrArg Context.address (owned.symm.trans here)

theorem Upheld.store (known : heap.shapes.get? (machine.memory.tag block.start) = some shape)
    (slot : shape.Slot machine.memory block.start offset) (holds : denotes value) :
    heap.Upholds denotes tiling machine
      (machine.withMemory (machine.memory.write (block.start + offset) value.bits)) := by
  have describes := (upheld.tiled.describes member (by simp [isObject]) known).2
  have aligned : block.start % 8 = 0 := by
    have := (upheld.tiled.bounds member).2.1
    omega
  have place := describes.slotInside offset slot
  refine upheld.change member isObject (fun address outside => ?_)
    (alike_store known describes slot aligned) (fun _ _ found _ => found)
    rfl
    ((upheld.objects block member isObject).store known describes slot aligned holds)
  rw [Machine.memory_withMemory, read_stored describes slot aligned, if_neg]
  intro inside
  exact outside ⟨by omega, by simp only [Block.stop]; omega⟩

end Heap

end SlabHeap
