import SlabHeap.Proofs.Isolation
import SlabHeap.Proofs.Mirror
import SlabHeap.Proofs.Survey
import SlabHeap.Proofs.Traceable

namespace SlabHeap

/-! The law of weak slots.

A weak slot is cleared when it refers to an object of the heap that the mark phase left without a mark.
`Block.Settled` says what becomes of an object whose weak slots may be cleared, and
`Heap.Traceable.weak_law` that a collection makes this of every survivor. Where objects lie, and in
which order slabs are visited, makes no difference: `Heap.Twin` is the same heap in another place.
-/

open Block

/-- What a collection makes of an object, given which values are `forgotten`: a weak slot is cleared if
its value is, the dependent slots if the values of all weak slots are, and BROKEN is set if that of any
is. Nothing else of the object changes. -/
structure Block.Settled (shape : Shape) (forgotten : Value → Prop) (memory after : Memory)
    (block : Block) : Prop where
  cleared : ∀ offset, shape.WeakSlot memory block.start offset →
    forgotten (memory.value (block.start + offset)) → after.value (block.start + offset) = .no
  held : ∀ offset, shape.WeakSlot memory block.start offset →
    ¬ forgotten (memory.value (block.start + offset)) →
      after.value (block.start + offset) = memory.value (block.start + offset)
  broken : ∀ offset, shape.WeakSlot memory block.start offset →
    forgotten (memory.value (block.start + offset)) →
      after.header block.start = (memory.header block.start).add .broken
  whole : (∀ offset, shape.WeakSlot memory block.start offset →
      ¬ forgotten (memory.value (block.start + offset))) →
    after.header block.start = memory.header block.start
  dropped : (∀ offset, shape.WeakSlot memory block.start offset →
      forgotten (memory.value (block.start + offset))) →
    ∀ offset, shape.DependentSlot memory block.start offset →
      after.value (block.start + offset) = .no
  spared : ∀ offset, shape.WeakSlot memory block.start offset →
    ¬ forgotten (memory.value (block.start + offset)) →
      ∀ dependent, shape.DependentSlot memory block.start dependent →
        after.value (block.start + dependent) = memory.value (block.start + dependent)
  others : ∀ address, block.start + 8 ≤ address → address < block.stop →
    (∀ offset, shape.WeakSlot memory block.start offset ∨
        shape.DependentSlot memory block.start offset →
      ¬ (block.start + offset ≤ address ∧ address < block.start + offset + 8)) →
    after.read address = memory.read address

/-- Dependent slots lie behind the weak ones. -/
theorem Shape.DependentSlot.beyond {shape : Shape} {memory : Memory} {object offset weak : Nat}
    (dependent : shape.DependentSlot memory object offset)
    (slot : shape.WeakSlot memory object weak) : weak < offset := by
  obtain ⟨run, isRun, index, _, rfl⟩ := dependent
  obtain ⟨also, isAlso, place, inside, rfl⟩ := slot
  obtain rfl := Option.some.inj (isRun.symm.trans isAlso)
  simp only [wordBytes]
  omega

theorem Block.Weakened.settled {shape : Shape} {forgotten : Value → Prop} {memory after : Memory}
    {block : Block} (describes : shape.Describes memory block.start block.size)
    (weakened : block.Weakened memory after (shape.Breaks memory forgotten block.start)
      (shape.Drops memory forgotten block.start)) :
    block.Settled shape forgotten memory after where
  cleared offset slot gone := weakened.dropped offset (.inl ⟨slot, gone⟩)
  held offset slot stays := by
    apply weakened.value_eq describes (fun _ drops => drops.slot) (.inr (.inl slot))
    intro drops
    cases drops with
    | inl weak => exact stays weak.2
    | inr dependent => exact Nat.lt_irrefl _ (dependent.1.beyond slot)
  broken offset slot gone := weakened.broken ⟨offset, slot, gone⟩
  whole stay := by
    apply weakened.whole
    intro breaks
    obtain ⟨offset, slot, gone⟩ := breaks
    exact stay offset slot gone
  dropped gone offset slot := weakened.dropped offset (.inr ⟨slot, gone⟩)
  spared offset slot stays dependent behind := by
    apply weakened.value_eq describes (fun _ drops => drops.slot) (.inr (.inr behind))
    intro drops
    cases drops with
    | inl weak => exact Nat.lt_irrefl _ (behind.beyond weak.1)
    | inr gone => exact stays (gone.2 offset slot)
  others address lower upper clear := by
    apply weakened.kept address lower upper
    intro offset drops
    cases drops with
    | inl weak => exact clear offset (.inl weak.1)
    | inr dependent => exact clear offset (.inr dependent.1)

namespace Heap

variable {heap copy : Heap} {place : Nat → Nat} {machine marked image final copyFinal : Machine}
  {tiling swept copied copySwept : Slab → List Block} {block : Block} {value : Value}
  {collection again : Collection} {live : Nat → Prop}

/-- The value refers to an object in the heap that has no mark. -/
def Forgotten (heap : Heap) (memory : Memory) (value : Value) : Prop :=
  ∃ object, value.address? = some object ∧ heap.contains object = true ∧
    (memory.header object).isMarked = false

/-- What is lost in a collection is what the mark phase left without a mark. -/
theorem Marked.forgotten_iff (isMarked : heap.Marked tiling machine marked live)
    (ready : heap.Ready tiling machine)
    (within : ∀ address, value.address? = some address → heap.contains address = true →
      heap.Object tiling address) :
    heap.Forgotten marked.memory value ↔ heap.Lost machine live value := by
  constructor
  · intro forgotten
    obtain ⟨object, found, inHeap, unmarked⟩ := forgotten
    obtain ⟨block, member, isObject, rfl⟩ := within object found inHeap
    have dead : ¬ live block.start := fun alive => by
      rw [(isMarked.isMarked_iff member isObject).mpr alive] at unmarked
      contradiction
    exact ⟨block.start, ready.tiled.target?_eq_some member
      (fun validating => ready.valid validating block member isObject) found, inHeap,
      ready.unmarked block member isObject, dead⟩
  · intro lost
    obtain ⟨object, target, inHeap, _, dead⟩ := lost
    have found := address?_of_target? target
    obtain ⟨block, member, isObject, rfl⟩ := within object found inHeap
    refine ⟨block.start, found, inHeap, ?_⟩
    rw [← Bool.not_eq_true, isMarked.isMarked_iff member isObject]
    exact dead

/-- Survivors carry marks before the sweep, and their weak slots were dealt with. -/
structure ObeysWeakLaw (heap : Heap) (tiling swept : Slab → List Block)
    (machine marked final : Machine) : Prop where
  tiled : heap.Tiled final.memory swept
  survivors : ∀ block, block.kind = .object → (block ∈ heap.blocks swept ↔
    block ∈ heap.blocks tiling ∧ (marked.memory.header block.start).isMarked = true)
  settled : ∀ block ∈ heap.blocks swept, block.kind = .object → ∃ shape,
    heap.shapes.get? (machine.memory.tag block.start) = some shape ∧
      block.Settled shape (heap.Forgotten marked.memory) machine.memory final.memory

theorem Traceable.obeys (traceable : heap.Traceable machine tiling)
    (weak : heap.features.weakReferences = true)
    (isMarked : heap.Marked tiling machine marked live)
    (collected : heap.Collected tiling swept machine final live) :
    heap.ObeysWeakLaw tiling swept machine marked final where
  tiled := collected.tiled
  survivors block isObject := by
    rw [collected.mem_swept (by simp [isObject])]
    refine and_congr_right fun member => ?_
    rw [isMarked.isMarked_iff member isObject]
    exact imp_iff_right isObject
  settled block member isObject := by
    obtain ⟨before, alive⟩ := (collected.mem_swept (by simp [isObject])).mp member
    obtain ⟨slab, inHeap, inSlab⟩ := mem_blocks.mp before
    obtain ⟨shape, known, describes⟩ := (traceable.tiled.layout slab inHeap).object inSlab isObject
    have same (offset : Nat) (slot : shape.WeakSlot machine.memory block.start offset) :
        heap.Lost machine live (machine.memory.value (block.start + offset)) ↔
          heap.Forgotten marked.memory (machine.memory.value (block.start + offset)) :=
      (isMarked.forgotten_iff traceable.toReady
        (traceable.weak block before isObject shape known offset slot)).symm
    refine ⟨shape, known, Weakened.settled describes ?_⟩
    refine (collected.objects block before isObject (alive isObject)).congr ?_ fun offset => ?_
    · simp only [Breaks, weak, known, Option.some.injEq, exists_eq_left', true_and]
      exact Shape.breaks_congr (fun _ _ => rfl) same
    · simp only [Drops, weak, known, Option.some.injEq, exists_eq_left', true_and]
      exact Shape.drops_congr (fun _ _ => rfl) same offset

/-- The copy is the heap in another place: objects have images there with the same headers, and weak
slots that refer elsewhere do so in both. The second collection starts from the images of the values
that the first one starts from. -/
structure Twin (heap copy : Heap) (place : Nat → Nat) (tiling copied : Slab → List Block)
    (machine image : Machine) (collection again : Collection) : Prop
    extends heap.Mirrors copy place tiling copied machine.memory image.memory where
  headers : ∀ block ∈ heap.blocks tiling, block.kind = .object →
    image.memory.header (place block.start) = machine.memory.header block.start
  foreign : ∀ block ∈ heap.blocks tiling, block.kind = .object → ∀ shape,
    heap.shapes.get? (machine.memory.tag block.start) = some shape → ∀ offset,
      shape.WeakSlot machine.memory block.start offset → ∀ address,
        (machine.memory.value (block.start + offset)).address? = some address →
          heap.contains address = false → copy.contains address = false
  saved : ∀ block ∈ heap.blocks tiling, block.kind = .object →
    machine.memory.tag block.start = Tag.context →
      (Context.mk (place block.start)).savedValues image =
        ((Context.mk block.start).savedValues machine).map (heap.moveValue place)
  roots : ∀ value, value ∈ again.roots copy image.memory (copy.blocks copied) ↔
    value ∈ (collection.roots heap machine.memory (heap.blocks tiling)).map (heap.moveValue place)

namespace Twin

variable (twin : heap.Twin copy place tiling copied machine image collection again)
  (traceable : heap.Traceable machine tiling) (copyTraceable : copy.Traceable image copied)
  (objects : ∀ context ∈ collection.context, heap.Object tiling context.address)

include twin traceable

theorem weakAlike (_ : heap.features.weakReferences = true) (block : Block)
    (member : block ∈ heap.blocks tiling) (isObject : block.kind = .object) (shape : Shape)
    (known : heap.shapes.get? (machine.memory.tag block.start) = some shape) (offset : Nat)
    (slot : shape.WeakSlot machine.memory block.start offset) :
    heap.RefersAlike copy tiling (machine.memory.value (block.start + offset)) := by
  intro address found
  cases inHeap : heap.contains address with
  | true => exact .inl (traceable.weak block member isObject shape known offset slot address found inHeap)
  | false => exact .inr ⟨rfl, twin.foreign block member isObject shape known offset slot address found inHeap⟩

include copyTraceable objects

/-- An image can be reached if the object can. -/
theorem reachable_iff (object : Nat) (isObject : heap.Object tiling object) :
    copy.Reachable image (again.roots copy image.memory (copy.blocks copied)) (place object) ↔
      heap.Reachable machine (collection.roots heap machine.memory (heap.blocks tiling)) object := by
  have traced := traceable.traced (traceable.rooted objects)
  have saved (object : Nat) (reached : heap.Reach machine machine.Unmarked
      (collection.roots heap machine.memory (heap.blocks tiling)) object)
      (isContext : machine.memory.tag object = Tag.context) :
      (Context.mk (place object)).savedValues image =
        ((Context.mk object).savedValues machine).map (heap.moveValue place) := by
    obtain ⟨block, member, kind, rfl⟩ := traced.object_of_reach reached
    exact twin.saved block member kind isContext
  have image := twin.toMirrors.traced_copy traced copyTraceable.toReady saved
  rw [← traced.reach_iff,
    ← twin.toMirrors.reach_image_iff traced copyTraceable.toReady saved isObject, image.reach_iff]
  exact ⟨fun reached => reached.mono fun value => (twin.roots value).mp,
    fun reached => reached.mono fun value => (twin.roots value).mpr⟩

variable (collected : heap.Collected tiling swept machine final
    (heap.Reachable machine (collection.roots heap machine.memory (heap.blocks tiling))))
  (copyCollected : copy.Collected copied copySwept image copyFinal
    (copy.Reachable image (again.roots copy image.memory (copy.blocks copied))))

include collected copyCollected

/-- Images survive with their objects. -/
theorem survives_iff (member : block ∈ heap.blocks tiling) (isObject : block.kind = .object) :
    block.moved place ∈ copy.blocks copySwept ↔ block ∈ heap.blocks swept := by
  have copyMember := twin.toMirrors.member member isObject
  have same := twin.reachable_iff traceable copyTraceable objects block.start
    ⟨block, member, isObject, rfl⟩
  rw [copyCollected.mem_swept (by simp [Block.moved, isObject]),
    collected.mem_swept (by simp [isObject]), and_iff_right copyMember, and_iff_right member]
  exact imp_congr_right fun _ => same

/-- Images look like their objects after a collection if they did before. -/
theorem alike (member : block ∈ heap.blocks swept) (isObject : block.kind = .object) :
    block.Imaged heap.shapes place (heap.moveValue place) final.memory copyFinal.memory ∧
      copyFinal.memory.header (place block.start) = final.memory.header block.start := by
  have same := twin.reachable_iff traceable copyTraceable objects
  obtain ⟨before, alive⟩ := (collected.mem_swept (by simp [isObject])).mp member
  refine ⟨twin.toMirrors.imaged_swept traceable.toReady copyTraceable.toReady same
    (twin.weakAlike traceable) collected copyCollected before isObject (alive isObject), ?_⟩
  have weakened := collected.objects block before isObject (alive isObject)
  have copyWeakened := copyCollected.objects (block.moved place)
    (twin.toMirrors.member before isObject) isObject
    ((same _ ⟨block, before, isObject, rfl⟩).mpr (alive isObject))
  have breaks := twin.toMirrors.breaks_iff traceable.toReady copyTraceable.toReady same
    (twin.weakAlike traceable) before isObject
  have header := twin.headers block before isObject
  by_cases broken : heap.Breaks machine
      (heap.Reachable machine (collection.roots heap machine.memory (heap.blocks tiling))) block
  · rw [weakened.broken broken, ← header]
    exact copyWeakened.broken (breaks.mpr broken)
  · rw [weakened.whole broken, ← header]
    exact copyWeakened.whole fun also => broken (breaks.mp also)

end Twin

/-- Every collection obeys the law of weak slots, and a twin of the heap has the twin of its outcome. -/
theorem Traceable.weak_law (traceable : heap.Traceable machine tiling)
    (weak : heap.features.weakReferences = true)
    (objects : ∀ context ∈ collection.context, heap.Object tiling context.address) :
    ∃ marked stats final swept,
      (collection.marking heap).run machine = .ok () marked ∧
      (collection.perform heap).run machine = heap.finished stats final ∧
      heap.ObeysWeakLaw tiling swept machine marked final ∧
      ∀ copy place copied image again, copy.Traceable image copied →
        (∀ context ∈ Collection.context again, copy.Object copied context.address) →
        heap.Twin copy place tiling copied machine image collection again →
        ∃ copyStats copyFinal copySwept,
          (again.perform copy).run image = copy.finished copyStats copyFinal ∧
          copy.Tiled copyFinal.memory copySwept ∧
          ∀ block ∈ heap.blocks tiling, block.kind = .object →
            (block.moved place ∈ copy.blocks copySwept ↔ block ∈ heap.blocks swept) ∧
            (block ∈ heap.blocks swept →
              block.Imaged heap.shapes place (heap.moveValue place) final.memory copyFinal.memory ∧
              copyFinal.memory.header (place block.start) = final.memory.header block.start) := by
  obtain ⟨marked, stats, final, swept, marks, isMarked, collected, _, ran⟩ :=
    traceable.perform_run objects
  refine ⟨marked, stats, final, swept, marks, ran, traceable.obeys weak isMarked collected, ?_⟩
  intro copy place copied image again copyTraceable copyObjects twin
  obtain ⟨_, copyStats, copyFinal, copySwept, _, _, copyCollected, _, copyRan⟩ :=
    copyTraceable.perform_run copyObjects
  refine ⟨copyStats, copyFinal, copySwept, copyRan, copyCollected.tiled, fun block member isObject => ?_⟩
  exact ⟨twin.survives_iff traceable copyTraceable objects collected copyCollected member isObject,
    fun survives => twin.alike traceable copyTraceable objects collected copyCollected survives isObject⟩

section Box

/-- A context whose environment is a pair of a weak box and an ephemeron, a pair that only these two
refer to, and a free block. -/
def boxBlocks : List Block :=
  [⟨4112, 48, .object⟩, ⟨4160, 32, .object⟩, ⟨4192, 16, .object⟩, ⟨4208, 32, .object⟩,
    ⟨4240, 32, .object⟩, ⟨4272, 80, .free⟩]

def boxWords : List (Nat × UInt64) :=
  [(4104, 4272), (4112, (Header.fresh Tag.context).toWord), (4136, Value.no.bits),
    (4144, (Value.reference 4160).bits), (4160, (Header.fresh Tag.pair).toWord),
    (4168, (Value.reference 4192).bits), (4176, (Value.reference 4208).bits),
    (4192, (Header.fresh Tag.weakBox).toWord), (4200, (Value.reference 4240).bits),
    (4208, (Header.fresh Tag.ephemeron).toWord), (4216, (Value.reference 4240).bits),
    (4224, Value.nil.bits), (4240, (Header.fresh Tag.pair).toWord), (4248, Value.nil.bits),
    (4256, Value.nil.bits), (4272, 80)]

def boxMachine : Machine :=
  { memory := boxWords.foldl (fun memory entry => memory.write entry.1 entry.2) .empty }

def boxHeap : Heap :=
  { identity := 0, settings := {}, shapes := .standard, features := { weakReferences := true }
    slabs := [{ start := 4096, size := 256, maxSize := 0 }], slabs_nonempty := by simp }

theorem wellFormed_box : boxHeap.WellFormed boxMachine fun _ => boxBlocks := by
  apply wellFormed_of_surveys
  · exact fun _ _ known => ShapeTable.confined_standard known
  · decide +kernel

/-- The box and the ephemeron lose the pair. -/
theorem weak_law_box : ∃ marked stats final swept,
    ((Collection.plain (some ⟨4112⟩)).marking boxHeap).run boxMachine = .ok () marked ∧
    ((Collection.plain (some ⟨4112⟩)).perform boxHeap).run boxMachine =
      boxHeap.finished stats final ∧
    boxHeap.ObeysWeakLaw (fun _ => boxBlocks) swept boxMachine marked final ∧
    final.memory.value 4200 = .no ∧ final.memory.value 4216 = .no ∧
    final.memory.header 4192 = (Header.fresh Tag.weakBox).add .broken := by
  have isObject : ∀ context ∈ (Collection.plain (some ⟨4112⟩)).context,
      boxHeap.Object (fun _ => boxBlocks) context.address := by
    intro context listed
    cases listed
    exact ⟨⟨4112, 48, .object⟩, by decide, rfl, rfl⟩
  obtain ⟨marked, stats, final, swept, marks, ran, obeys, _⟩ :=
    wellFormed_box.traceable.weak_law rfl isObject
  have outcome : ((Collection.plain (some ⟨4112⟩)).marking boxHeap).leaves boxMachine
      (fun marked => (marked.memory.header 4192).isMarked && (marked.memory.header 4208).isMarked &&
        !(marked.memory.header 4240).isMarked) = true := by
    decide +kernel
  simp only [Action.leaves_eq marks, Bool.and_eq_true, Bool.not_eq_true'] at outcome
  obtain ⟨⟨boxMarked, ephemeronMarked⟩, pairUnmarked⟩ := outcome
  have forgotten : boxHeap.Forgotten marked.memory (.reference 4240) := ⟨4240, rfl, rfl, pairUnmarked⟩
  have survivor {block : Block} (member : block ∈ boxBlocks) (isObject : block.kind = .object)
      (alive : (marked.memory.header block.start).isMarked = true) :
      block ∈ boxHeap.blocks swept := by
    apply (obeys.survivors block isObject).mpr
    exact ⟨by simpa [Heap.blocks, boxHeap] using member, alive⟩
  have box : boxHeap.shapes.get? (boxMachine.memory.tag 4192) = some .weakBox := by decide +kernel
  have ephemeron : boxHeap.shapes.get? (boxMachine.memory.tag 4208) = some .ephemeron := by
    decide +kernel
  have target : boxMachine.memory.value 4200 = .reference 4240 := by decide +kernel
  have key : boxMachine.memory.value 4216 = .reference 4240 := by decide +kernel
  have header : boxMachine.memory.header 4192 = .fresh Tag.weakBox := by decide +kernel
  refine ⟨marked, stats, final, swept, marks, ran, obeys, ?_, ?_, ?_⟩
  · obtain ⟨shape, known, settled⟩ := obeys.settled ⟨4192, 16, .object⟩
      (survivor (by decide) rfl boxMarked) rfl
    obtain rfl := Option.some.inj (box.symm.trans known)
    exact settled.cleared 8 ⟨_, rfl, 0, by decide, rfl⟩ (target.symm ▸ forgotten)
  · obtain ⟨shape, known, settled⟩ := obeys.settled ⟨4208, 32, .object⟩
      (survivor (by decide) rfl ephemeronMarked) rfl
    obtain rfl := Option.some.inj (ephemeron.symm.trans known)
    exact settled.cleared 8 ⟨_, rfl, 0, by decide, rfl⟩ (key.symm ▸ forgotten)
  · obtain ⟨shape, known, settled⟩ := obeys.settled ⟨4192, 16, .object⟩
      (survivor (by decide) rfl boxMarked) rfl
    obtain rfl := Option.some.inj (box.symm.trans known)
    rw [settled.broken 8 ⟨_, rfl, 0, by decide, rfl⟩ (target.symm ▸ forgotten), header]

end Box

end Heap

end SlabHeap
