import SlabHeap.Proofs.Grounded

namespace SlabHeap

/-! Heaps whose objects are images of those of another heap.

`Heap.Mirrors` places every object of a heap in a second one: its slots hold what the first heap has in
them, with references led to images, and its other words are the same but for those that tie a context
to its heap. Marking reaches the images of what it reaches in the first heap, `Heap.Mirrors.reach_iff`,
so that collections leave mirrors of each other, `Heap.Mirrors.collected`.
-/

open Block

def Block.moved (place : Nat → Nat) (block : Block) : Block :=
  { block with start := place block.start }

/-- The object in a block has an image: references in its slots are moved, and its other words are the
same, except for the header and for what ties a context to its heap. -/
structure Block.Imaged (shapes : ShapeTable) (place : Nat → Nat) (move : Value → Value)
    (memory image : Memory) (block : Block) : Prop where
  tag : image.tag (place block.start) = memory.tag block.start
  slots : ∀ shape, shapes.get? (memory.tag block.start) = some shape → ∀ offset,
    shape.Slot memory block.start offset →
      image.value (place block.start + offset) = move (memory.value (block.start + offset))
  words : ∀ shape, shapes.get? (memory.tag block.start) = some shape → ∀ offset, 8 ≤ offset →
    offset < block.size → (memory.tag block.start = Tag.context → 24 ≤ offset) →
      (∀ slot, shape.Slot memory block.start slot → ¬ (slot ≤ offset ∧ offset < slot + 8)) →
        image.read (place block.start + offset) = memory.read (block.start + offset)

theorem Block.Imaged.lengths {shapes : ShapeTable} {place : Nat → Nat} {move : Value → Value}
    {memory image : Memory} {block : Block} {shape : Shape}
    (imaged : block.Imaged shapes place move memory image)
    (known : shapes.get? (memory.tag block.start) = some shape)
    (describes : shape.Describes memory block.start block.size) :
    ∀ length ∈ shape.lengths,
      image.read (place block.start + length.offset) = memory.read (block.start + length.offset) := by
  intro length listed
  obtain ⟨aligned, lower, upper⟩ := describes.lengthInside length listed
  refine imaged.words shape known length.offset lower (by omega) (fun isContext => ?_) ?_
  · have none := Shape.lengths_of_context (isContext ▸ known)
    simp [none] at listed
  · intro slot isSlot inside
    obtain ⟨slotAligned, _, _, apart⟩ := describes.slotInside slot isSlot
    exact apart length listed (by omega)

namespace Heap

variable {heap copy another anotherCopy : Heap} {place : Nat → Nat} {machine image final copyFinal : Machine}
  {memory other : Memory} {tiling swept copied copySwept : Slab → List Block} {block : Block}
  {address : Nat} {value : Value} {roots : List Value} {live copyLive : Nat → Prop}

/-- References into the heap follow what they refer to. -/
def moveValue (heap : Heap) (place : Nat → Nat) (value : Value) : Value :=
  match value.address? with
  | none => value
  | some address => if heap.contains address then .reference (place address) else value

/-- Addresses among the blocks of the heap have places of their own among those of another one. -/
structure Places (heap copy : Heap) (place : Nat → Nat) : Prop where
  contains : ∀ address, heap.contains address = true → copy.contains (place address) = true
  bounded : ∀ address, heap.contains address = true → place address < Size.limit
  aligned : ∀ address, heap.contains address = true → place address % 8 = address % 8
  injective : ∀ first second, heap.contains first = true → heap.contains second = true →
    place first = place second → first = second

/-- The value refers to an object of the first heap, or to nothing of either heap. -/
def RefersAlike (heap copy : Heap) (tiling : Slab → List Block) (value : Value) : Prop :=
  ∀ address, value.address? = some address →
    heap.Object tiling address ∨ heap.contains address = false ∧ copy.contains address = false

theorem RefersToObject.alike (refers : heap.RefersToObject tiling value) :
    heap.RefersAlike copy tiling value := fun address found => .inl (refers address found)

theorem RefersAlike.foreign (alike : heap.RefersAlike copy tiling value)
    (other : ¬ heap.RefersToObject tiling value) : ∃ address, value.address? = some address ∧
      heap.contains address = false ∧ copy.contains address = false := by
  simp only [RefersToObject, not_forall] at other
  obtain ⟨address, found, noObject⟩ := other
  exact ⟨address, found, (alike address found).resolve_left noObject⟩

theorem Intact.weakAlike (intact : heap.Intact tiling machine)
    (weak : heap.features.weakReferences = true) (block : Block) (member : block ∈ heap.blocks tiling)
    (isObject : block.kind = .object) (shape : Shape)
    (known : heap.shapes.get? (machine.memory.tag block.start) = some shape) (offset : Nat)
    (slot : shape.WeakSlot machine.memory block.start offset) :
    heap.RefersAlike copy tiling (machine.memory.value (block.start + offset)) :=
  (intact.slots block member isObject shape known offset (.inr ⟨weak, slot⟩)).alike

/-- What is not in the heap cannot be lost there. -/
theorem not_lost_of_foreign (found : value.address? = some address)
    (foreign : heap.contains address = false) : ¬ heap.Lost machine live value := by
  rintro ⟨referent, target, inHeap, _⟩
  obtain rfl := Option.some.inj (found.symm.trans (address?_of_target? target))
  simp [foreign] at inHeap

/-- The objects of the second heap are images of those of the first. -/
structure Mirrors (heap copy : Heap) (place : Nat → Nat) (tiling copied : Slab → List Block)
    (memory other : Memory) : Prop where
  places : heap.Places copy place
  features : copy.features = heap.features
  shapes : ∀ block ∈ heap.blocks tiling, block.kind = .object →
    copy.shapes.get? (memory.tag block.start) = heap.shapes.get? (memory.tag block.start)
  objects : ∀ block, block.kind = .object → (block ∈ copy.blocks copied ↔
    ∃ original ∈ heap.blocks tiling, original.kind = .object ∧ original.moved place = block)
  imaged : ∀ block ∈ heap.blocks tiling, block.kind = .object →
    block.Imaged heap.shapes place (heap.moveValue place) memory other

theorem moveValue_eq (slabs : another.slabs = heap.slabs) :
    another.moveValue place = heap.moveValue place := by
  funext value
  unfold moveValue Heap.contains
  rw [slabs]

theorem moveValue_of_none (none : value.address? = none) : heap.moveValue place value = value := by
  simp only [moveValue, none]

theorem Places.address?_moveValue (places : heap.Places copy place)
    (inside : ∀ address, value.address? = some address → heap.contains address = true) :
    (heap.moveValue place value).address? = value.address?.map place := by
  cases found : value.address? with
  | none => simp only [moveValue_of_none found, found, Option.map_none]
  | some address =>
      have inHeap := inside address found
      have whole := Value.address?_aligned found
      have aligned := places.aligned address inHeap
      simp only [moveValue, found, inHeap, if_true, Option.map_some]
      exact Value.address?_reference (by omega) (places.bounded address inHeap)

namespace Mirrors

theorem reroot (mirrors : heap.Mirrors copy place tiling copied memory other)
    (slabs : another.slabs = heap.slabs) (shapes : another.shapes = heap.shapes)
    (features : another.features = heap.features) (copySlabs : anotherCopy.slabs = copy.slabs)
    (copyShapes : anotherCopy.shapes = copy.shapes)
    (copyFeatures : anotherCopy.features = copy.features) :
    another.Mirrors anotherCopy place tiling copied memory other := by
  have blocks : another.blocks tiling = heap.blocks tiling := by rw [Heap.blocks, slabs, Heap.blocks]
  have copyBlocks : anotherCopy.blocks copied = copy.blocks copied := by
    rw [Heap.blocks, copySlabs, Heap.blocks]
  have contains : another.contains = heap.contains := by
    unfold Heap.contains
    rw [slabs]
  have copyContains : anotherCopy.contains = copy.contains := by
    unfold Heap.contains
    rw [copySlabs]
  refine ⟨?_, by rw [features, copyFeatures, mirrors.features], ?_, ?_, ?_⟩
  · obtain ⟨inside, bounded, aligned, injective⟩ := mirrors.places
    constructor <;> simpa only [contains, copyContains]
  · rw [blocks, shapes, copyShapes]
    exact mirrors.shapes
  · rw [blocks, copyBlocks]
    exact mirrors.objects
  · rw [blocks, shapes, moveValue_eq slabs]
    exact mirrors.imaged

section Images

variable (mirrors : heap.Mirrors copy place tiling copied memory other)

include mirrors

theorem member (member : block ∈ heap.blocks tiling) (isObject : block.kind = .object) :
    block.moved place ∈ copy.blocks copied :=
  (mirrors.objects (block.moved place) isObject).mpr ⟨block, member, isObject, rfl⟩

theorem object (isObject : heap.Object tiling address) : copy.Object copied (place address) := by
  obtain ⟨block, member, kind, rfl⟩ := isObject
  exact ⟨block.moved place, mirrors.member member kind, kind, rfl⟩

/-- What an object is called in the copy is known there as it is in the heap. -/
theorem known (member : block ∈ heap.blocks tiling) (isObject : block.kind = .object) :
    copy.shapes.get? (other.tag (place block.start)) =
      heap.shapes.get? (memory.tag block.start) := by
  rw [(mirrors.imaged block member isObject).tag]
  exact mirrors.shapes block member isObject

theorem lengths (tiled : heap.Tiled memory tiling) (member : block ∈ heap.blocks tiling)
    (isObject : block.kind = .object) {shape : Shape}
    (known : heap.shapes.get? (memory.tag block.start) = some shape) :
    ∀ length ∈ shape.lengths, other.read (place block.start + length.offset) =
      memory.read (block.start + length.offset) :=
  (mirrors.imaged block member isObject).lengths known
    (tiled.describes member (by simp [isObject]) known).2

variable (tiled : heap.Tiled memory tiling)

include tiled

theorem address?_eq (refers : heap.RefersToObject tiling value) :
    (heap.moveValue place value).address? = value.address?.map place :=
  mirrors.places.address?_moveValue (tiled.contains_of_refers refers)

/-- References to objects become references to their images. -/
theorem refers (refers : heap.RefersToObject tiling value) :
    copy.RefersToObject copied (heap.moveValue place value) := by
  intro address found
  rw [mirrors.address?_eq tiled refers, Option.map_eq_some_iff] at found
  obtain ⟨original, found, rfl⟩ := found
  exact mirrors.object (refers original found)

end Images

theorem intact (mirrors : heap.Mirrors copy place tiling copied
      machine.memory image.memory) (intact : heap.Intact tiling machine)
    (tiled : copy.Tiled image.memory copied)
    (valid : ∀ block ∈ heap.blocks tiling, block.kind = .object →
      (image.memory.header (place block.start)).isValid = true)
    (unmarked : ∀ block ∈ heap.blocks tiling, block.kind = .object →
      image.Unmarked (place block.start)) : copy.Intact copied image where
  tiled := tiled
  valid block member isObject := by
    obtain ⟨original, before, kind, rfl⟩ := (mirrors.objects block isObject).mp member
    exact valid original before kind
  unmarked block member isObject := by
    obtain ⟨original, before, kind, rfl⟩ := (mirrors.objects block isObject).mp member
    exact unmarked original before kind
  slots block member isObject shape known offset followed := by
    obtain ⟨original, before, kind, rfl⟩ := (mirrors.objects block isObject).mp member
    rw [Block.moved, mirrors.known before kind] at known
    rw [mirrors.features, Block.moved,
      Shape.followed_congr (mirrors.lengths intact.tiled before kind known)] at followed
    have imaged := (mirrors.imaged original before kind).slots shape known offset followed.slot
    rw [Block.moved, imaged]
    exact mirrors.refers intact.tiled
      (intact.slots original before kind shape known offset followed)

section Marking

variable (mirrors : heap.Mirrors copy place tiling copied machine.memory image.memory)

include mirrors

/-- What an image keeps alive is the image of what the object keeps alive. -/
theorem keptValues_eq (tiled : heap.Tiled machine.memory tiling)
    (member : block ∈ heap.blocks tiling) (isObject : block.kind = .object)
    (saved : machine.memory.tag block.start = Tag.context →
      (Context.mk (place block.start)).savedValues image =
        ((Context.mk block.start).savedValues machine).map (heap.moveValue place)) :
    copy.keptValues image (place block.start) =
      (heap.keptValues machine block.start).map (heap.moveValue place) := by
  obtain ⟨slab, inHeap, inSlab⟩ := mem_blocks.mp member
  obtain ⟨shape, known, describes⟩ := (tiled.layout slab inHeap).object inSlab isObject
  have imaged := mirrors.imaged block member isObject
  have count := Shape.strongCount_congr (imaged.lengths known describes)
  have words : (image.memory.words (place block.start + shape.strong.offset)
        (shape.strong.slotCount machine.memory block.start)).map Value.mk =
      ((machine.memory.words (block.start + shape.strong.offset)
        (shape.strong.slotCount machine.memory block.start)).map Value.mk).map
          (heap.moveValue place) := by
    simp only [Memory.words, List.map_map]
    refine List.map_congr_left fun index listed => ?_
    have slot : shape.Slot machine.memory block.start (shape.strong.offset + wordBytes * index) :=
      .inl ⟨index, List.mem_range.mp listed, rfl⟩
    have value := imaged.slots shape known _ slot
    rwa [← Nat.add_assoc, ← Nat.add_assoc] at value
  simp only [keptValues, imaged.tag, mirrors.shapes block member isObject, known, List.map_append,
    count, words]
  by_cases isContext : machine.memory.tag block.start = Tag.context
  · simp only [isContext, if_true, saved isContext]
  · simp only [isContext, if_false, List.map_nil]

variable (traced : heap.Traced machine tiling roots) (ready : copy.Ready copied image)
  (saved : ∀ object, heap.Reach machine machine.Unmarked roots object →
    machine.memory.tag object = Tag.context → (Context.mk (place object)).savedValues image =
      ((Context.mk object).savedValues machine).map (heap.moveValue place))

include traced ready

/-- Marking finds the images of what it finds behind values of the heap. -/
theorem target?_eq (refers : heap.RefersToObject tiling value) :
    copy.target? image.memory (heap.moveValue place value) = value.address?.map place := by
  rw [ready.target?_eq (mirrors.refers traced.tiled refers)]
  exact mirrors.address?_eq traced.tiled refers

include saved

/-- Marking reaches the images of what it reaches in the heap. -/
theorem reach_iff : copy.Reach image image.Unmarked (roots.map (heap.moveValue place)) address ↔
    ∃ object, heap.Reach machine machine.Unmarked roots object ∧ place object = address := by
  have kept {owner : Nat} (reached : heap.Reach machine machine.Unmarked roots owner) :
      copy.keptValues image (place owner) =
        (heap.keptValues machine owner).map (heap.moveValue place) := by
    obtain ⟨block, member, isObject, rfl⟩ := traced.object_of_reach reached
    exact mirrors.keptValues_eq traced.tiled member isObject (saved _ reached)
  constructor
  · intro reached
    induction reached with
    | root listed found _ =>
        obtain ⟨value, isRoot, rfl⟩ := List.mem_map.mp listed
        rw [mirrors.target?_eq traced ready (traced.roots value isRoot),
          Option.map_eq_some_iff] at found
        obtain ⟨object, refers, same⟩ := found
        exact ⟨object, traced.reach_root isRoot refers, same⟩
    | kept _ held found _ ih =>
        obtain ⟨owner, reached, rfl⟩ := ih
        rw [kept reached] at held
        obtain ⟨value, inside, rfl⟩ := List.mem_map.mp held
        rw [mirrors.target?_eq traced ready (traced.kept owner reached value inside),
          Option.map_eq_some_iff] at found
        obtain ⟨object, refers, same⟩ := found
        exact ⟨object, traced.reach_kept reached inside refers, same⟩
  · rintro ⟨object, reached, rfl⟩
    have isImage {object : Nat} (isObject : heap.Object tiling object) :
        image.Unmarked (place object) := ready.unmarked_object (mirrors.object isObject)
    induction reached with
    | root listed found _ =>
        have refers := traced.roots _ listed
        have isObject := refers _ (address?_of_target? found)
        refine .root (List.mem_map_of_mem listed) ?_ (isImage isObject)
        rw [mirrors.target?_eq traced ready refers, address?_of_target? found, Option.map_some]
    | kept reached held found _ ih =>
        have refers := traced.kept _ reached _ held
        have isObject := refers _ (address?_of_target? found)
        refine .kept ih (kept reached ▸ List.mem_map_of_mem held) ?_ (isImage isObject)
        rw [mirrors.target?_eq traced ready refers, address?_of_target? found, Option.map_some]

/-- The image of an object is reached if the object is. -/
theorem reach_image_iff (isObject : heap.Object tiling address) :
    copy.Reach image image.Unmarked (roots.map (heap.moveValue place)) (place address) ↔
      heap.Reach machine machine.Unmarked roots address := by
  rw [mirrors.reach_iff traced ready saved]
  refine ⟨?_, fun reached => ⟨address, reached, rfl⟩⟩
  rintro ⟨object, reached, same⟩
  obtain ⟨block, member, _, rfl⟩ := isObject
  obtain ⟨other, otherMember, _, rfl⟩ := traced.object_of_reach reached
  exact mirrors.places.injective _ _ (traced.tiled.contains otherMember)
    (traced.tiled.contains member) same ▸ reached

/-- Marking meets images of objects in the copy. -/
theorem traced_copy : copy.Traced image copied (roots.map (heap.moveValue place)) where
  toReady := ready
  roots value listed := by
    obtain ⟨value, isRoot, rfl⟩ := List.mem_map.mp listed
    exact mirrors.refers traced.tiled (traced.roots value isRoot)
  kept owner reached value held := by
    obtain ⟨object, before, rfl⟩ := (mirrors.reach_iff traced ready saved).mp reached
    obtain ⟨block, member, isObject, rfl⟩ := traced.object_of_reach before
    rw [mirrors.keptValues_eq traced.tiled member isObject (saved _ before)] at held
    obtain ⟨value, inside, rfl⟩ := List.mem_map.mp held
    exact mirrors.refers traced.tiled (traced.kept _ before value inside)

omit traced ready in
/-- The copy is as grounded as the heap. -/
theorem grounded_copy (grounded : heap.Grounded machine tiling roots)
    (intact : copy.Intact copied image) :
    copy.Grounded image copied (roots.map (heap.moveValue place)) where
  toIntact := intact
  roots := (mirrors.traced_copy grounded.traced intact.ready saved).roots
  kept := (mirrors.traced_copy grounded.traced intact.ready saved).kept

end Marking

section Collections

variable (mirrors : heap.Mirrors copy place tiling copied machine.memory image.memory)
  (ready : heap.Ready tiling machine) (copyReady : copy.Ready copied image)
  (same : ∀ object, heap.Object tiling object → (copyLive (place object) ↔ live object))

include mirrors ready copyReady same

/-- An image is lost if what the heap refers to is lost. -/
theorem lost_iff (alike : heap.RefersAlike copy tiling value) :
    copy.Lost image copyLive (heap.moveValue place value) ↔ heap.Lost machine live value := by
  by_cases refers : heap.RefersToObject tiling value
  · have image := mirrors.refers ready.tiled refers
    unfold Lost
    rw [copyReady.target?_eq image, ready.target?_eq refers, mirrors.address?_eq ready.tiled refers]
    cases found : value.address? with
    | none => simp
    | some address =>
        have isObject := refers address found
        have isImage := mirrors.object isObject
        have inHeap := ready.tiled.contains_of_refers refers address found
        have inCopy := mirrors.places.contains address inHeap
        simp only [Option.map_some, Option.some.injEq, exists_eq_left', inHeap, inCopy, true_and,
          ready.unmarked_object isObject, copyReady.unmarked_object isImage, same address isObject]
  · obtain ⟨address, found, foreign, foreignToo⟩ := alike.foreign refers
    have stays : heap.moveValue place value = value := by
      simp only [moveValue, found, foreign, Bool.false_eq_true, if_false]
    rw [stays]
    exact iff_of_false (not_lost_of_foreign found foreignToo) (not_lost_of_foreign found foreign)

variable (weakAlike : heap.features.weakReferences = true → ∀ block ∈ heap.blocks tiling,
  block.kind = .object → ∀ shape, heap.shapes.get? (machine.memory.tag block.start) = some shape →
    ∀ offset, shape.WeakSlot machine.memory block.start offset →
      heap.RefersAlike copy tiling (machine.memory.value (block.start + offset)))

include weakAlike

section Weak

variable (member : block ∈ heap.blocks tiling) (isObject : block.kind = .object)

include member isObject

theorem lost_slot_iff (weak : heap.features.weakReferences = true) {shape : Shape} {offset : Nat}
    (known : heap.shapes.get? (machine.memory.tag block.start) = some shape)
    (slot : shape.WeakSlot machine.memory block.start offset) :
    copy.Lost image copyLive (image.memory.value (place block.start + offset)) ↔
      heap.Lost machine live (machine.memory.value (block.start + offset)) := by
  rw [(mirrors.imaged block member isObject).slots shape known offset (.inr (.inl slot))]
  exact mirrors.lost_iff ready copyReady same
    (weakAlike weak block member isObject shape known offset slot)

/-- Collections break the same objects. -/
theorem breaks_iff : copy.Breaks image copyLive (block.moved place) ↔
    heap.Breaks machine live block := by
  unfold Breaks
  rw [mirrors.features, Block.moved, mirrors.known member isObject]
  refine and_congr_right fun weak => exists_congr fun shape => and_congr_right fun known => ?_
  exact Shape.breaks_congr (mirrors.lengths ready.tiled member isObject known) fun _ slot =>
    mirrors.lost_slot_iff ready copyReady same weakAlike member isObject weak known slot

theorem drops_iff (offset : Nat) : copy.Drops image copyLive (block.moved place) offset ↔
    heap.Drops machine live block offset := by
  unfold Drops
  rw [mirrors.features, Block.moved, mirrors.known member isObject]
  refine and_congr_right fun weak => exists_congr fun shape => and_congr_right fun known => ?_
  refine Shape.drops_congr (mirrors.lengths ready.tiled member isObject known) (fun _ slot => ?_) offset
  exact mirrors.lost_slot_iff ready copyReady same weakAlike member isObject weak known slot

end Weak

/-- Where an object and its image survive, the image stays one. -/
theorem imaged_swept (collected : heap.Collected tiling swept machine final live)
    (copyCollected : copy.Collected copied copySwept image copyFinal copyLive)
    (member : block ∈ heap.blocks tiling) (isObject : block.kind = .object)
    (alive : live block.start) :
    block.Imaged heap.shapes place (heap.moveValue place) final.memory copyFinal.memory := by
  have imaged := mirrors.imaged block member isObject
  have copyMember := mirrors.member member isObject
  have copyAlive := (same _ ⟨block, member, isObject, rfl⟩).mpr alive
  have alike := collected.alike ready.tiled member isObject alive
  have copyAlike := copyCollected.alike copyReady.tiled copyMember isObject copyAlive
  refine ⟨(copyAlike.tag.trans imaged.tag).trans alike.tag.symm,
    fun shape known offset slot => ?_, fun shape known offset lower upper beyond clear => ?_⟩
  · rw [alike.tag] at known
    rw [Shape.slot_congr (alike.lengths isObject shape known)] at slot
    have copyKnown := (mirrors.known member isObject).trans known
    have copySlot := (Shape.slot_congr (imaged.lengths known
      (ready.tiled.describes member (by simp [isObject]) known).2)).mpr slot
    have drops := mirrors.drops_iff ready copyReady same weakAlike member isObject offset
    by_cases dropped : heap.Drops machine live block offset
    · have first := (collected.objects block member isObject alive).dropped offset dropped
      have second := (copyCollected.objects _ copyMember isObject copyAlive).dropped offset
        (drops.mpr dropped)
      rw [first, moveValue_of_none rfl]
      exact second
    · rw [collected.value_eq ready.tiled member isObject alive known slot dropped,
        ← imaged.slots shape known offset slot]
      exact copyCollected.value_eq copyReady.tiled copyMember isObject copyAlive copyKnown copySlot
        fun both => dropped (drops.mp both)
  · rw [alike.tag] at known beyond
    have describes := (ready.tiled.describes member (by simp [isObject]) known).2
    have copyKnown := (mirrors.known member isObject).trans known
    have slots {slot : Nat} : shape.Slot final.memory block.start slot ↔
        shape.Slot machine.memory block.start slot :=
      Shape.slot_congr (alike.lengths isObject shape known)
    have images {slot : Nat} : shape.Slot image.memory (place block.start) slot ↔
        shape.Slot machine.memory block.start slot :=
      Shape.slot_congr (imaged.lengths known describes)
    have apart : ∀ slot, shape.Slot machine.memory block.start slot →
        ¬ (slot ≤ offset ∧ offset < slot + 8) := fun slot isSlot => clear slot (slots.mpr isSlot)
    rw [collected.read_eq member isObject alive (by omega) (by simp only [Block.stop]; omega) ?_,
      ← imaged.words shape known offset lower upper beyond apart]
    · refine copyCollected.read_eq copyMember isObject copyAlive (by simp only [Block.moved]; omega)
        (by simp only [Block.stop, Block.moved]; omega) fun found foundKnown slot isSlot inside => ?_
      obtain rfl := Option.some.inj (copyKnown.symm.trans foundKnown)
      simp only [Block.moved] at inside
      exact apart slot (images.mp isSlot) (by omega)
    · intro found foundKnown slot isSlot inside
      obtain rfl := Option.some.inj (known.symm.trans foundKnown)
      exact apart slot isSlot (by omega)

/-- Collections that keep the same leave mirrors of each other. -/
theorem collected (collected : heap.Collected tiling swept machine final live)
    (copyCollected : copy.Collected copied copySwept image copyFinal copyLive) :
    heap.Mirrors copy place swept copySwept final.memory copyFinal.memory where
  places := mirrors.places
  features := mirrors.features
  shapes block member isObject := by
    obtain ⟨before, alive⟩ := (collected.mem_swept (by simp [isObject])).mp member
    rw [(collected.alike ready.tiled before isObject (alive isObject)).tag]
    exact mirrors.shapes block before isObject
  objects block isObject := by
    rw [copyCollected.mem_swept (by simp [isObject]), mirrors.objects block isObject]
    constructor
    · rintro ⟨⟨original, before, kind, rfl⟩, alive⟩
      have alive := (same _ ⟨original, before, kind, rfl⟩).mp (alive isObject)
      exact ⟨original, (collected.mem_swept (by simp [kind])).mpr ⟨before, fun _ => alive⟩, kind, rfl⟩
    · rintro ⟨original, member, kind, rfl⟩
      obtain ⟨before, alive⟩ := (collected.mem_swept (by simp [kind])).mp member
      exact ⟨⟨original, before, kind, rfl⟩, fun _ =>
        (same _ ⟨original, before, kind, rfl⟩).mpr (alive kind)⟩
  imaged block member isObject := by
    obtain ⟨before, alive⟩ := (collected.mem_swept (by simp [isObject])).mp member
    exact mirrors.imaged_swept ready copyReady same weakAlike collected copyCollected before isObject
      (alive isObject)

end Collections

end Mirrors

end Heap

end SlabHeap
