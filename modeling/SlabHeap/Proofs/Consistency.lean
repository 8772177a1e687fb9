import SlabHeap.Proofs.Carving
import SlabHeap.Proofs.Collection
import SlabHeap.Proofs.Growth
import SlabHeap.Proofs.SavedFrames
import SlabHeap.Proofs.Standard

namespace SlabHeap

/-! Consistent heaps.

`Heap.Consistent` is what all operations of a heap preserve: slabs are divided without two free blocks
that touch, objects are valid and unmarked, and what they and their frames hold refers to storage in
use, wherever a collection follows it. This module says how a block and how a whole heap stay so.
-/

open Block

/-- The chain of the context ends, and the values on it are of a kind. -/
def Machine.Holds (machine : Machine) (denotes : Value → Prop) (context : Context) : Prop :=
  ∃ numbers, machine.Chained context (context.saves machine.memory) numbers ∧
    ∀ number ∈ numbers, ∀ frame, machine.frame? number = some frame →
      ∀ value ∈ frame.values, denotes value

/-- A chain stays while its link stays and the frames on it keep theirs. -/
theorem Machine.Holds.change {machine after : Machine} {denotes alsoDenotes : Value → Prop}
    {context : Context} (holds : machine.Holds denotes context)
    (link : context.saves after.memory = context.saves machine.memory)
    (frames : ∀ number frame, machine.frame? number = some frame → frame.linked = true →
      frame.context = context → ∃ changed, after.frame? number = some changed ∧
        (changed.linked = true ∧ changed.context = context ∧ changed.outer = frame.outer) ∧
          ∀ value ∈ changed.values, value ∈ frame.values ∨ alsoDenotes value)
    (more : ∀ value, denotes value → alsoDenotes value) : after.Holds alsoDenotes context := by
  obtain ⟨numbers, chained, values⟩ := holds
  refine ⟨numbers, ?_, fun number member frame found value held => ?_⟩
  · rw [link]
    refine chained.change fun number member frame found => ?_
    obtain ⟨_, same, linked, owned⟩ := chained.present member
    obtain rfl := Option.some.inj (found.symm.trans same)
    obtain ⟨changed, still, ⟨stillLinked, stillOwned, outer⟩, _⟩ :=
      frames number frame found linked owned
    exact ⟨changed, still, stillLinked.trans linked.symm, stillOwned.trans owned.symm, outer⟩
  · obtain ⟨before, was, linked, owned⟩ := chained.present member
    obtain ⟨changed, still, _, kept⟩ := frames number before was linked owned
    obtain rfl := Option.some.inj (found.symm.trans still)
    exact (kept value held).elim (fun old => more value (values number member before was value old)) id

theorem Machine.Holds.keep {machine after : Machine} {denotes alsoDenotes : Value → Prop}
    {context : Context} (holds : machine.Holds denotes context)
    (link : context.saves after.memory = context.saves machine.memory)
    (same : ∀ number frame, machine.frame? number = some frame → frame.context = context →
      after.frame? number = some frame)
    (more : ∀ value, denotes value → alsoDenotes value) : after.Holds alsoDenotes context :=
  holds.change link (fun number frame found linked owned =>
    ⟨frame, same number frame found owned, ⟨linked, owned, rfl⟩, fun _ => .inl⟩) more

/-- The object in a block is valid and unmarked, and what it holds is of a kind. -/
structure Block.Sound (shapes : ShapeTable) (weak : Bool) (denotes : Value → Prop)
    (machine : Machine) (block : Block) : Prop where
  valid : (machine.memory.header block.start).isValid = true
  unmarked : machine.Unmarked block.start
  slots : ∀ shape, shapes.get? (machine.memory.tag block.start) = some shape → ∀ offset,
    shape.Followed weak machine.memory block.start offset →
      denotes (machine.memory.value (block.start + offset))
  chain : machine.memory.tag block.start = Tag.context → machine.Holds denotes ⟨block.start⟩

namespace Block.Sound

variable {shapes : ShapeTable} {weak : Bool} {denotes alsoDenotes : Value → Prop}
  {machine after : Machine} {block : Block}

/-- An object stays sound where its words stay the same, but for the link of a context, whose chain must
be of the kind then. -/
theorem rechain (sound : block.Sound shapes weak denotes machine) (isObject : block.kind = .object)
    (fits : block.Fits shapes machine.memory) (large : 16 ≤ block.size)
    (kept : ∀ address, block.Covers address → (machine.memory.tag block.start = Tag.context →
      ¬ (block.start + Layout.Context.saves ≤ address ∧
        address < block.start + Layout.Context.saves + 8)) →
      after.memory.read address = machine.memory.read address)
    (chain : machine.memory.tag block.start = Tag.context → after.Holds alsoDenotes ⟨block.start⟩)
    (more : ∀ value, denotes value → alsoDenotes value) :
    block.Sound shapes weak alsoDenotes after := by
  have inside {offset : Nat} (small : offset < block.size)
      (clear : machine.memory.tag block.start = Tag.context → offset < 16 ∨ 24 ≤ offset) :
      after.memory.read (block.start + offset) = machine.memory.read (block.start + offset) := by
    refine kept _ ⟨by omega, by simp only [Block.stop]; omega⟩ fun isContext => ?_
    have := clear isContext
    simp only [Layout.Context.saves]
    omega
  have header : after.memory.header block.start = machine.memory.header block.start :=
    congrArg Header.ofWord (@inside 0 (by omega) fun _ => .inl (by omega))
  have tag : after.memory.tag block.start = machine.memory.tag block.start :=
    congrArg Header.tag header
  simp only [Block.Fits, isObject] at fits
  obtain ⟨shape, known, describes⟩ := fits
  refine ⟨by rw [header]; exact sound.valid, ?_, fun found foundKnown offset followed => ?_,
    fun isContext => chain (tag ▸ isContext)⟩
  · rw [Machine.Unmarked, header]
    exact sound.unmarked
  · rw [tag] at foundKnown
    obtain rfl := Option.some.inj (known.symm.trans foundKnown)
    rw [Shape.followed_congr fun length listed => inside (by
      have := (describes.lengthInside length listed).2
      omega) fun isContext => by
        have none := Shape.lengths_of_context (isContext ▸ known)
        simp [none] at listed] at followed
    have place := describes.slotInside offset followed.slot
    have value := more _ (sound.slots shape known offset followed)
    rwa [Memory.value, inside (by omega) fun isContext =>
      .inr (Shape.slot_of_context (isContext ▸ known) followed.slot)]

theorem keep (sound : block.Sound shapes weak denotes machine) (isObject : block.kind = .object)
    (fits : block.Fits shapes machine.memory) (large : 16 ≤ block.size)
    (kept : block.Kept machine.memory after.memory)
    (frames : ∀ number frame, machine.frame? number = some frame → frame.context = ⟨block.start⟩ →
      after.frame? number = some frame)
    (more : ∀ value, denotes value → alsoDenotes value) :
    block.Sound shapes weak alsoDenotes after := by
  refine sound.rechain isObject fits large (fun address covers _ => kept address covers)
    (fun isContext => (sound.chain isContext).keep (congrArg UInt64.toNat (kept _ ?_)) frames more) more
  simp only [Block.Fits, isObject] at fits
  obtain ⟨shape, known, describes⟩ := fits
  have size := Shape.size_of_context (isContext ▸ known) describes
  refine ⟨?_, ?_⟩ <;> simp only [Layout.Context.saves, Block.stop] <;> omega

end Block.Sound

/-- Where a vector is, its length word holds a length. -/
def Block.Counted (shapes : ShapeTable) (memory : Memory) (block : Block) : Prop :=
  shapes.get? (memory.tag block.start) = some .vector → ∃ length : Nat,
    length < 0x4000000000000000 ∧
      memory.read (block.start + Layout.Sequence.length) = (Value.fixnum length).bits

theorem Block.Counted.congr {shapes : ShapeTable} {memory after : Memory} {block : Block}
    (counted : block.Counted shapes memory) (isObject : block.kind = .object)
    (alike : block.Alike shapes memory after) : block.Counted shapes after := by
  intro isVector
  rw [alike.tag] at isVector
  obtain ⟨length, small, stored⟩ := counted isVector
  refine ⟨length, small, (alike.lengths isObject _ isVector ⟨Layout.Sequence.length, wordBytes⟩ ?_).trans
    stored⟩
  decide

namespace Heap

variable {heap other : Heap} {machine final : Machine} {tiling swept taken : Slab → List Block}
  {block : Block} {object : Nat} {value : Value} {roots : List Value} {live : Nat → Prop}

/-- The heap is divided into blocks, in memory that was reserved, and its objects are sound. -/
structure Upheld (heap : Heap) (denotes : Value → Prop) (tiling : Slab → List Block)
    (machine : Machine) : Prop where
  tiled : heap.Tiled machine.memory tiling
  hosted : ∀ slab ∈ heap.slabs, machine.Hosts slab
  upper : ∀ slab ∈ heap.slabs, slab.stop ≤ Memory.pageLimit * Memory.pageBytes
  objects : ∀ block ∈ heap.blocks tiling, block.kind = .object →
    block.Sound heap.shapes heap.features.weakReferences denotes machine

/-- The objects stay sound, and their tags and lengths what they are. -/
structure Upholds (heap : Heap) (denotes : Value → Prop) (tiling : Slab → List Block)
    (machine final : Machine) : Prop where
  upheld : heap.Upheld denotes tiling final
  alike : ∀ block ∈ heap.blocks tiling, block.kind = .object →
    block.Alike heap.shapes machine.memory final.memory

section Created

variable {slab : Slab} (hosted : ∀ slab ∈ heap.slabs, machine.Hosts slab)
  (created : slab.Created heap.shapes machine final)

include hosted created

theorem mem_blocks_grown_of_hosted (inUse : block.kind ≠ .free) :
    block ∈ (heap.grown slab).blocks
        (Function.update tiling slab [⟨slab.objects, slab.size - blockUnit, .free⟩]) ↔
      block ∈ heap.blocks tiling := by
  have distinct {other : Slab} (inHeap : other ∈ heap.slabs) : other ≠ slab :=
    fun same => new_of_created hosted created (same ▸ inHeap)
  simp only [mem_blocks, Heap.grown, List.mem_append, List.mem_singleton, or_and_right, exists_or,
    exists_eq_left, Function.update_self]
  constructor
  · rintro (⟨other, inHeap, inSlab⟩ | rfl)
    · rw [Function.update_of_ne (distinct inHeap)] at inSlab
      exact ⟨other, inHeap, inSlab⟩
    · exact absurd rfl inUse
  · rintro ⟨other, inHeap, inSlab⟩
    refine .inl ⟨other, inHeap, ?_⟩
    rwa [Function.update_of_ne (distinct inHeap)]

theorem Tiled.kept_created {memory : Memory} (tiled : heap.Tiled memory tiling)
    (member : block ∈ heap.blocks tiling) : block.Kept machine.memory final.memory := by
  intro address covers
  obtain ⟨other, inHeap, inSlab⟩ := mem_blocks.mp member
  have inside := tiled.slab_covers inHeap inSlab covers
  exact created.outside address ((hosted other inHeap).reserved inside.1 inside.2)

end Created

namespace Upheld

variable {denotes alsoDenotes : Value → Prop} {slab : Slab} (upheld : heap.Upheld denotes tiling machine)

include upheld

theorem fits (member : block ∈ heap.blocks tiling) : block.Fits heap.shapes machine.memory := by
  obtain ⟨slab, inHeap, inSlab⟩ := mem_blocks.mp member
  exact (upheld.tiled.layout slab inHeap).fits block inSlab

theorem keep (same : ∀ slab ∈ heap.slabs, ∀ address, slab.start ≤ address → address < slab.stop →
      final.memory.read address = machine.memory.read address)
    (frames : ∀ number frame, machine.frame? number = some frame →
      heap.contains frame.context.address = true → final.frame? number = some frame)
    (pages : machine.pages.taken ⊆ final.pages.taken) : heap.Upholds denotes tiling machine final := by
  have kept {block : Block} (member : block ∈ heap.blocks tiling) :
      block.Kept machine.memory final.memory := by
    intro address covers
    obtain ⟨slab, inHeap, inSlab⟩ := mem_blocks.mp member
    have within := upheld.tiled.slab_covers inHeap inSlab covers
    exact same slab inHeap address within.1 within.2
  refine ⟨⟨⟨fun slab inHeap => (upheld.tiled.layout slab inHeap).keep (same slab inHeap),
    upheld.tiled.apart⟩, fun slab inHeap => (upheld.hosted slab inHeap).keep pages, upheld.upper,
    fun block member isObject => ?_⟩, fun block member _ => ?_⟩
  · refine (upheld.objects block member isObject).keep isObject (upheld.fits member)
      (upheld.tiled.bounds member).2.2.1 (kept member) (fun number frame found owned => ?_) fun _ => id
    exact frames number frame found (owned ▸ upheld.tiled.contains member)
  · exact (kept member).alike (upheld.fits member) (upheld.tiled.bounds member).2.2.1

theorem not_mem_of_created (created : slab.Created heap.shapes machine final) : slab ∉ heap.slabs :=
  new_of_created upheld.hosted created

theorem mem_blocks_grown (created : slab.Created heap.shapes machine final) (inUse : block.kind ≠ .free) :
    block ∈ (heap.grown slab).blocks
        (Function.update tiling slab [⟨slab.objects, slab.size - blockUnit, .free⟩]) ↔
      block ∈ heap.blocks tiling :=
  mem_blocks_grown_of_hosted upheld.hosted created inUse

theorem kept_created (created : slab.Created heap.shapes machine final)
    (member : block ∈ heap.blocks tiling) : block.Kept machine.memory final.memory :=
  upheld.tiled.kept_created upheld.hosted created member

theorem grown (created : slab.Created heap.shapes machine final)
    (more : ∀ value, denotes value → alsoDenotes value) :
    (heap.grown slab).Upheld alsoDenotes
      (Function.update tiling slab [⟨slab.objects, slab.size - blockUnit, .free⟩]) final := by
  refine ⟨upheld.tiled.grown upheld.hosted created, fun other member => ?_, fun other member => ?_,
    fun block member isObject => ?_⟩
  · rcases List.mem_append.mp member with inHeap | isLast
    · exact (upheld.hosted other inHeap).keep created.pages
    · obtain rfl := List.mem_singleton.mp isLast
      exact created.hosted
  · rcases List.mem_append.mp member with inHeap | isLast
    · exact upheld.upper other inHeap
    · obtain rfl := List.mem_singleton.mp isLast
      exact created.upper
  · have before := (upheld.mem_blocks_grown created (by simp [isObject])).mp member
    exact (upheld.objects block before isObject).keep isObject (upheld.fits before)
      (upheld.tiled.bounds before).2.2.1 (upheld.kept_created created before)
      (fun _ _ found _ => (Machine.frame?_congr created.frames _).trans found) more

theorem counted_grown (created : slab.Created heap.shapes machine final)
    (counted : ∀ block ∈ heap.blocks tiling, block.kind = .object →
      block.Counted heap.shapes machine.memory)
    (member : block ∈ (heap.grown slab).blocks
      (Function.update tiling slab [⟨slab.objects, slab.size - blockUnit, .free⟩]))
    (isObject : block.kind = .object) : block.Counted heap.shapes final.memory := by
  have before := (upheld.mem_blocks_grown created (by simp [isObject])).mp member
  exact (counted block before isObject).congr isObject ((upheld.kept_created created before).alike
    (upheld.fits before) (upheld.tiled.bounds before).2.2.1)

end Upheld

/-- The heap is divided into free blocks that do not touch, sound objects and storage without a header,
in memory that was reserved. -/
structure Consistent (heap : Heap) (tiling : Slab → List Block) (machine : Machine) : Prop where
  tiled : heap.Tiled machine.memory tiling
  coalesced : ∀ slab ∈ heap.slabs, Coalesced (tiling slab)
  hosted : ∀ slab ∈ heap.slabs, machine.Hosts slab
  upper : ∀ slab ∈ heap.slabs, slab.stop ≤ Memory.pageLimit * Memory.pageBytes
  confined : ∀ tag shape, heap.shapes.get? tag = some shape → shape.Confined
  objects : ∀ block ∈ heap.blocks tiling, block.kind = .object →
    block.Sound heap.shapes heap.features.weakReferences (heap.Denotes tiling) machine
  counted : ∀ block ∈ heap.blocks tiling, block.kind = .object →
    block.Counted heap.shapes machine.memory
  globals : ∀ value ∈ heap.globals.getD [], heap.Denotes tiling value
  scratch : ∀ value ∈ heap.scratch, heap.Denotes tiling value

theorem Node.mono (more : ∀ block ∈ heap.blocks tiling, block.kind ≠ .free →
    block ∈ other.blocks taken) (node : heap.Node tiling object) : other.Node taken object := by
  obtain ⟨block, member, inUse, starts⟩ := node
  exact ⟨block, more block member inUse, inUse, starts⟩

theorem Denotes.mono (more : ∀ block ∈ heap.blocks tiling, block.kind ≠ .free →
    block ∈ other.blocks taken) (denotes : heap.Denotes tiling value) :
    other.Denotes taken value := fun address found => (denotes address found).mono more

namespace Consistent

variable (consistent : heap.Consistent tiling machine)

include consistent

theorem upheld : heap.Upheld (heap.Denotes tiling) tiling machine :=
  ⟨consistent.tiled, consistent.hosted, consistent.upper, consistent.objects⟩

theorem fits (member : block ∈ heap.blocks tiling) : block.Fits heap.shapes machine.memory :=
  consistent.upheld.fits member

/-- A heap stays consistent where its objects are upheld. -/
theorem renew (upholds : heap.Upholds (heap.Denotes tiling) tiling machine final) :
    heap.Consistent tiling final where
  tiled := upholds.upheld.tiled
  coalesced := consistent.coalesced
  hosted := upholds.upheld.hosted
  upper := upholds.upheld.upper
  confined := consistent.confined
  objects := upholds.upheld.objects
  counted block member isObject :=
    (consistent.counted block member isObject).congr isObject (upholds.alike block member isObject)
  globals := consistent.globals
  scratch := consistent.scratch

theorem clean : heap.Clean tiling machine where
  tiled := consistent.tiled
  unmarked block member isObject := (consistent.objects block member isObject).unmarked
  weak weak block member isObject shape known offset slot :=
    ((consistent.objects block member isObject).slots shape known offset (.inr ⟨weak, slot⟩)).within

/-- The values that an object keeps alive refer to storage in use. -/
theorem kept_denotes (node : heap.Node tiling object)
    (held : value ∈ heap.keptValues machine object) : heap.Denotes tiling value := by
  obtain ⟨block, member, inUse, rfl⟩ := node
  rcases mem_keptValues.mp held with
    ⟨isContext, frame, linked, held⟩ | ⟨shape, known, offset, strong, rfl⟩
  · have known : heap.shapes.get? (machine.memory.tag block.start) = some .context := by
      rw [isContext]
      rfl
    have isObject := (consistent.tiled.describes member inUse known).1
    obtain ⟨numbers, chained, values⟩ := (consistent.objects block member isObject).chain isContext
    obtain ⟨number, listed, found⟩ := chained.linked_iff.mp linked
    exact values number listed frame found value held
  · have isObject := (consistent.tiled.describes member inUse known).1
    exact (consistent.objects block member isObject).slots shape known offset (.inl strong)

theorem closed (rooted : ∀ value ∈ roots, heap.Denotes tiling value) :
    heap.Closed machine tiling roots where
  tiled := consistent.tiled
  roots value listed object found := rooted value listed object (address?_of_target? found)
  kept _ _ node _ held object found :=
    consistent.kept_denotes node held object (address?_of_target? found)

/-- What heaps hold beside their objects may change as long as it refers to storage in use. -/
theorem reroot (slabs : other.slabs = heap.slabs) (shapes : other.shapes = heap.shapes)
    (features : other.features = heap.features)
    (globals : ∀ value ∈ other.globals.getD [], heap.Denotes tiling value)
    (scratch : ∀ value ∈ other.scratch, heap.Denotes tiling value) :
    other.Consistent tiling machine := by
  obtain ⟨_, _, _, _, _, _, _, _, _⟩ := heap
  obtain ⟨_, _, _, _, _, _, _, _, _⟩ := other
  cases slabs
  cases shapes
  cases features
  exact ⟨⟨consistent.tiled.layout, consistent.tiled.apart⟩, consistent.coalesced, consistent.hosted,
    consistent.upper, consistent.confined, consistent.objects, consistent.counted, globals, scratch⟩

theorem recount (counters : Counters) : { heap with counters }.Consistent tiling machine :=
  consistent.reroot rfl rfl rfl consistent.globals consistent.scratch

theorem keep (same : ∀ slab ∈ heap.slabs, ∀ address, slab.start ≤ address → address < slab.stop →
      final.memory.read address = machine.memory.read address)
    (frames : ∀ number frame, machine.frame? number = some frame →
      heap.contains frame.context.address = true → final.frame? number = some frame)
    (pages : machine.pages.taken ⊆ final.pages.taken) :
    heap.Consistent tiling final :=
  consistent.renew (consistent.upheld.keep same frames pages)

theorem quiet (quiet : machine.Quiet final) : heap.Consistent tiling final :=
  consistent.keep (fun _ _ _ _ _ => by rw [quiet.memory])
    (fun _ _ found _ => (Machine.frame?_congr quiet.frames _).trans found)
    (quiet.toSteady.taken_subset)

theorem grown {slab : Slab} (created : slab.Created heap.shapes machine final) :
    (heap.grown slab).Consistent
      (Function.update tiling slab [⟨slab.objects, slab.size - blockUnit, .free⟩]) final := by
  have upheld := consistent.upheld
  have blocks {block : Block} (inUse : block.kind ≠ .free) := upheld.mem_blocks_grown created inUse
  have more (value : Value) (denotes : heap.Denotes tiling value) :
      (heap.grown slab).Denotes
        (Function.update tiling slab [⟨slab.objects, slab.size - blockUnit, .free⟩]) value :=
    denotes.mono fun block member inUse => (blocks inUse).mpr member
  have grown := upheld.grown created more
  refine ⟨grown.tiled, ?_, grown.hosted, grown.upper, consistent.confined, grown.objects, ?_,
    fun value listed => more value (consistent.globals value listed),
    fun value listed => more value (consistent.scratch value listed)⟩
  · intro other member
    rcases List.mem_append.mp member with inHeap | isLast
    · have distinct : other ≠ slab := fun same => upheld.not_mem_of_created created (same ▸ inHeap)
      rw [Function.update_of_ne distinct]
      exact consistent.coalesced other inHeap
    · obtain rfl := List.mem_singleton.mp isLast
      rw [Function.update_self]
      exact .singleton _
  · exact fun block => upheld.counted_grown created consistent.counted

section Survivors

variable (collected : heap.Collected tiling swept machine final live)

include collected

/-- What is not lost still refers to storage in use. -/
theorem denotes_swept (denotes : heap.Denotes tiling value)
    (followed : ∀ object, heap.target? machine.memory value = some object →
      machine.Unmarked object → live object) : heap.Denotes swept value := by
  intro address found
  obtain ⟨block, member, inUse, rfl⟩ := denotes address found
  refine ⟨block, (collected.mem_swept inUse).mpr ⟨member, fun isObject => ?_⟩, inUse, rfl⟩
  have sound := consistent.objects block member isObject
  exact followed _ (consistent.tiled.target?_eq_some member (fun _ => sound.valid) found) sound.unmarked

variable (kept : ∀ owner, live owner → ∀ value ∈ heap.keptValues machine owner, ∀ object,
  heap.target? machine.memory value = some object → machine.Unmarked object → live object)

include kept

theorem slots_swept (member : block ∈ heap.blocks tiling) (isObject : block.kind = .object)
    (alive : live block.start) {shape : Shape} {offset : Nat}
    (known : heap.shapes.get? (machine.memory.tag block.start) = some shape)
    (followed : shape.Followed heap.features.weakReferences machine.memory block.start offset) :
    heap.Denotes swept (final.memory.value (block.start + offset)) := by
  by_cases dropped : heap.Drops machine live block offset
  · rw [(collected.objects block member isObject alive).dropped offset dropped]
    intro address found
    cases found
  · rw [collected.value_eq consistent.tiled member isObject alive known followed.slot dropped]
    refine consistent.denotes_swept collected
      ((consistent.objects block member isObject).slots shape known offset followed) ?_
    rcases followed with strong | ⟨weak, slot⟩
    · exact kept block.start alive _ (slot_keptValues known strong)
    · intro object found unmarked
      by_contra dead
      have denotes := (consistent.objects block member isObject).slots shape known offset
        (.inr ⟨weak, slot⟩)
      obtain ⟨referent, inHeap, _, rfl⟩ := denotes object (address?_of_target? found)
      exact dropped ⟨weak, shape, known, .inl ⟨slot, referent.start, found,
        consistent.tiled.contains inHeap, unmarked, dead⟩⟩

theorem sound_swept (member : block ∈ heap.blocks tiling) (isObject : block.kind = .object)
    (alive : live block.start) :
    block.Sound heap.shapes heap.features.weakReferences (heap.Denotes swept) final := by
  have sound := consistent.objects block member isObject
  have weakened := collected.objects block member isObject alive
  have alike := collected.alike consistent.tiled member isObject alive
  refine ⟨weakened.isValid.trans sound.valid, weakened.isMarked.trans sound.unmarked,
    fun shape known offset followed => ?_, fun isContext => ?_⟩
  · rw [alike.tag] at known
    rw [Shape.followed_congr (alike.lengths isObject shape known)] at followed
    exact consistent.slots_swept collected kept member isObject alive known followed
  · rw [alike.tag] at isContext
    obtain ⟨numbers, chained, values⟩ := sound.chain isContext
    have same := Machine.frame?_congr collected.steady.frames
    have link := collected.saves_eq consistent.tiled member isObject alive isContext
    refine ⟨numbers, ?_, fun number listed frame found value held => ?_⟩
    · rw [link]
      exact chained.congr fun number _ => same number
    · rw [same] at found
      refine consistent.denotes_swept collected (values number listed frame found value held) ?_
      have linked := chained.linked_iff.mpr ⟨number, listed, found⟩
      exact kept block.start alive value (saved_keptValues isContext linked held)

/-- A collection that keeps what its survivors hold leaves a consistent heap. -/
theorem survive (rooted : ∀ value ∈ heap.globals.getD [] ++ heap.scratch, ∀ object,
      heap.target? machine.memory value = some object → machine.Unmarked object → live object) :
    heap.Consistent swept final where
  tiled := collected.tiled
  coalesced slab inHeap := collected.coalesced slab inHeap (consistent.coalesced slab inHeap)
  hosted slab inHeap :=
    (consistent.hosted slab inHeap).keep collected.steady.taken_subset
  upper := consistent.upper
  confined := consistent.confined
  objects block member isObject := by
    obtain ⟨before, alive⟩ := (collected.mem_swept (by simp [isObject])).mp member
    exact consistent.sound_swept collected kept before isObject (alive isObject)
  counted block member isObject := by
    obtain ⟨before, alive⟩ := (collected.mem_swept (by simp [isObject])).mp member
    exact (consistent.counted block before isObject).congr isObject
      (collected.alike consistent.tiled before isObject (alive isObject))
  globals value listed := consistent.denotes_swept collected (consistent.globals value listed)
    (rooted value (List.mem_append_left _ listed))
  scratch value listed := consistent.denotes_swept collected (consistent.scratch value listed)
    (rooted value (List.mem_append_right _ listed))

end Survivors

/-- What is reached when marking begins keeps what it holds. -/
theorem collected_reach {context : Option Context} (collected : heap.Collected tiling swept machine
    final (heap.Reach machine machine.Unmarked (heap.roots context))) :
    heap.Consistent swept final := by
  refine consistent.survive collected (fun _ alive _ held _ found unmarked => ?_)
    fun value listed object found unmarked => ?_
  · exact .kept alive held found unmarked
  · refine .root (List.mem_append_left _ ?_) found unmarked
    rw [List.mem_append] at listed ⊢
    exact listed.symm

end Consistent

end Heap

end SlabHeap
