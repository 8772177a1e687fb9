import SlabHeap.Proofs.PairedReads

namespace SlabHeap

/-! Writing in parallel heaps.

Heaps stay parallel while one object of each changes, as long as these two stand for each other,
`Heap.Parallel.amend`. Slots that stand for each other may be given values that do, `Heap.Parallel.stores`.
-/

open Block

/-- Objects stand for each other after slots of theirs were given values that do. -/
theorem Block.Echoed.store {heap copy : Heap} {links : List (Nat × Nat)} {machine image : Machine} {block : Block}
    {shape : Shape} {offset : Nat} {value : Value} (echoed : block.Echoed heap copy links machine image)
    (known : heap.shapes.get? (machine.memory.tag block.start) = some shape)
    (describes : shape.Describes machine.memory block.start block.size)
    (slot : shape.Slot machine.memory block.start offset) (inside : heap.RefersInside value)
    (aligned : block.start % 8 = 0) (placed : heap.place copy block.start % 8 = 0) :
    block.Echoed heap copy links (machine.withMemory (machine.memory.write (block.start + offset) value.bits))
      (image.withMemory
        (image.memory.write (heap.place copy block.start + offset) (heap.carry copy value).bits)) := by
  obtain ⟨whole, behind, fits, apart⟩ := describes.slotInside offset slot
  have stored {memory : Memory} {start : Nat} (aligned : start % 8 = 0) (word : UInt64) (inner : Nat) :
      (memory.write (start + offset) word).read (start + inner) =
        if offset ≤ inner ∧ inner < offset + 8 then word else memory.read (start + inner) := by
    rw [Memory.read_write]
    refine if_congr ?_ rfl rfl
    omega
  have tag {memory : Memory} {start : Nat} (aligned : start % 8 = 0) (word : UInt64) :
      (memory.write (start + offset) word).tag start = memory.tag start := by
    have header := @stored memory start aligned word 0
    rw [if_neg (by omega)] at header
    exact congrArg (Header.tag ∘ Header.ofWord) header
  have slots {other : Nat} : shape.Slot (machine.memory.write (block.start + offset) value.bits) block.start other ↔
      shape.Slot machine.memory block.start other := by
    refine Shape.slot_congr fun length listed => ?_
    have distinct := apart length listed
    have within := describes.lengthInside length listed
    rw [stored aligned, if_neg (by omega)]
  refine ⟨⟨?_, fun found listed other isSlot => ?_, fun found listed other lower upper beyond clear => ?_⟩,
    fun found listed other isSlot => ?_, fun isContext => ?_⟩
  all_goals simp only [Machine.memory_withMemory, tag aligned, tag placed] at *
  · exact echoed.imaged.tag
  · obtain rfl := Option.some.inj (known.symm.trans listed)
    have isSlot := slots.mp isSlot
    have multiple := (describes.slotInside other isSlot).1
    rw [Memory.value, Memory.value, stored placed, stored aligned]
    by_cases same : other = offset
    · rw [if_pos (by omega), if_pos (by omega)]
    · rw [if_neg (by omega), if_neg (by omega)]
      exact echoed.imaged.slots shape known other isSlot
  · obtain rfl := Option.some.inj (known.symm.trans listed)
    have outside := clear offset (slots.mpr slot)
    rw [stored placed, stored aligned, if_neg outside, if_neg outside]
    exact echoed.imaged.words shape known other lower upper beyond fun inner isSlot => clear inner (slots.mpr isSlot)
  · obtain rfl := Option.some.inj (known.symm.trans listed)
    have isSlot := slots.mp isSlot
    have multiple := (describes.slotInside other isSlot).1
    rw [Memory.value, stored aligned]
    by_cases same : other = offset
    · rw [if_pos (by omega)]
      exact inside
    · rw [if_neg (by omega)]
      exact echoed.inside shape known other isSlot
  · have later := Shape.slot_of_context (isContext ▸ known) slot
    have link {memory : Memory} {start : Nat} (aligned : start % 8 = 0) (word : UInt64) :
        (Context.mk start).saves (memory.write (start + offset) word) = (Context.mk start).saves memory := by
      refine congrArg UInt64.toNat ((stored aligned word Layout.Context.saves).trans (if_neg ?_))
      simp only [Layout.Context.saves]
      omega
    obtain ⟨chain, inLinks, chained, copyChained⟩ := echoed.chain isContext
    refine ⟨chain, inLinks, ?_, ?_⟩
    · rw [link aligned]
      exact chained.congr fun _ _ => rfl
    · rw [link placed]
      exact copyChained.congr fun _ _ => rfl

namespace Heap

variable {heap copy : Heap} {machine image final copyFinal : Machine} {links more : List (Nat × Nat)}
  {tiling copied : Slab → List Block} {block changed : Block} {value : Value} {shape : Shape} {offset object : Nat}

namespace Parallel

variable (parallel : heap.Parallel copy links tiling copied machine image)

include parallel

/-- Heaps stay parallel where one object of each changes, with the frames of these objects, if the two stand for
each other. -/
theorem amend (member : changed ∈ heap.blocks tiling) (isObject : changed.kind = .object)
    (upholds : heap.Upholds (heap.RefersToObject tiling) tiling machine final)
    (copyUpholds : copy.Upholds (copy.RefersToObject copied) copied image copyFinal)
    (linking : heap.Linking copy more final copyFinal)
    (outside : ∀ address, ¬ changed.Covers address → final.memory.read address = machine.memory.read address)
    (copyOutside : ∀ address, ¬ (changed.moved (heap.place copy)).Covers address →
      copyFinal.memory.read address = image.memory.read address)
    (frames : ∀ number frame, machine.frame? number = some frame → frame.context ≠ ⟨changed.start⟩ →
      final.frame? number = some frame)
    (copyFrames : ∀ number frame, image.frame? number = some frame →
      frame.context ≠ ⟨heap.place copy changed.start⟩ → copyFinal.frame? number = some frame)
    (linked : ∀ link ∈ links, ∀ frame, machine.frame? link.1 = some frame → frame.context ≠ ⟨changed.start⟩ →
      link ∈ more)
    (echoed : changed.Echoed heap copy more final copyFinal) :
    heap.Parallel copy more tiling copied final copyFinal := by
  have tiled := parallel.upheld.tiled
  refine { parallel with
    toLinking := linking
    isSealed := parallel.isSealed.renew upholds
    copySealed := parallel.copySealed.renew copyUpholds
    objects := fun other otherMember otherObject => ?_ }
  by_cases same : other = changed
  · exact same ▸ echoed
  have inHeap := tiled.contains otherMember
  have distinct : other.start ≠ changed.start := fun equal => same (tiled.eq_of_start_eq otherMember member equal)
  have places : heap.place copy other.start ≠ heap.place copy changed.start := fun equal =>
    distinct (parallel.mirrors.places.injective _ _ inHeap (tiled.contains member) equal)
  refine (parallel.objects other otherMember otherObject).keep (.of_slabs rfl rfl) inHeap otherObject
    (parallel.upheld.fits otherMember) (tiled.bounds otherMember).2.2.1 (fun _ _ => id)
    (fun address covers => outside address fun both => same (tiled.eq_of_covers otherMember member covers both))
    (fun address covers => copyOutside address fun both => ?_)
    (fun number frame found owned => frames number frame found ?_)
    (fun number frame found owned => copyFrames number frame found ?_)
    fun link listed frame found owned => linked link listed frame found ?_
  · have equal := parallel.copyUpheld.tiled.eq_of_covers (parallel.mirrors.member otherMember otherObject)
      (parallel.mirrors.member member isObject) covers both
    exact places (congrArg Block.start equal)
  · rw [owned]
    exact fun equal => distinct (congrArg Context.address equal)
  · rw [owned]
    exact fun equal => places (congrArg Context.address equal)
  · rw [owned]
    exact fun equal => distinct (congrArg Context.address equal)

/-- Slots that stand for each other are given values that do. -/
theorem stores (isObject : heap.Object tiling object)
    (known : heap.shapes.get? (machine.memory.tag object) = some shape)
    (slot : shape.Slot machine.memory object offset) (refers : heap.RefersToObject tiling value) :
    heap.Parallel copy links tiling copied
      (machine.withMemory (machine.memory.write (object + offset) value.bits))
      (image.withMemory (image.memory.write (heap.place copy object + offset) (heap.carry copy value).bits)) := by
  have tiled := parallel.upheld.tiled
  have copyTiled := parallel.copyUpheld.tiled
  have copyObject := parallel.mirrors.object isObject
  obtain ⟨block, member, kind, rfl⟩ := isObject
  have copyMember := parallel.mirrors.member member kind
  have describes := (tiled.describes member (by simp [kind]) known).2
  have copyKnown : copy.shapes.get? (image.memory.tag (heap.place copy block.start)) = some shape :=
    (parallel.mirrors.known member kind).trans known
  have copySlot : shape.Slot image.memory (heap.place copy block.start) offset :=
    (Shape.slot_congr (parallel.mirrors.lengths tiled member kind known)).mpr slot
  obtain ⟨whole, behind, fits, _⟩ := describes.slotInside offset slot
  have aligned := (tiled.bounds member).2.1
  have placed := (copyTiled.bounds copyMember).2.1
  simp only [Block.start_moved] at placed
  have rewrites := parallel.upheld.stores parallel.orderly ⟨block, member, by simp [kind], rfl⟩ known slot refers
  have copyRewrites := parallel.copyUpheld.stores parallel.copyOrderly copyObject.node copyKnown copySlot
    (parallel.refers refers)
  refine parallel.amend member kind rewrites.toUpholds copyRewrites.toUpholds
    ⟨parallel.echoed, parallel.apart, rewrites.orderly, copyRewrites.orderly⟩ (fun address outside => ?_)
    (fun address outside => ?_) (fun _ _ found _ => found) (fun _ _ found _ => found) (fun _ listed _ _ _ => listed)
    ((parallel.objects block member kind).store known describes slot (tiled.refersInside refers) (by omega) (by omega))
  all_goals
    refine Memory.read_write_ne fun equal => outside ?_
    simp only [Block.Covers, Block.stop, Block.start_moved, Block.size_moved]
    omega

end Parallel

end Heap

end SlabHeap
