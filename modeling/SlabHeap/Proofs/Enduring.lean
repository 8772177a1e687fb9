import SlabHeap.Proofs.Parallel

namespace SlabHeap

/-! What parallel heaps keep.

Heaps that got further slabs lead what lies in the earlier ones to where it was led before,
`Heap.Prolongs`. Heaps stay parallel while each of them retains its objects and further objects stand for each
other, `Heap.Parallel.extend`.
-/

open Block

namespace Heap

variable {heap copy mid copyMid after copyAfter : Heap} {value : Value} {context : Context} {slab image : Slab}

/-- Later heaps lead the addresses of earlier ones to where these led them. -/
structure Prolongs (heap copy after copyAfter : Heap) : Prop where
  contains : ∀ address, heap.contains address = true → after.contains address = true
  place : ∀ address, heap.contains address = true → after.place copyAfter address = heap.place copy address

namespace Prolongs

theorem of_slabs (slabs : after.slabs = heap.slabs) (copySlabs : copyAfter.slabs = copy.slabs) :
    heap.Prolongs copy after copyAfter where
  contains address inside := by rwa [Heap.contains, slabs]
  place address _ := by rw [Heap.place, Heap.place, slabs, copySlabs]

theorem trans (first : heap.Prolongs copy mid copyMid) (second : mid.Prolongs copyMid after copyAfter) :
    heap.Prolongs copy after copyAfter where
  contains address inside := second.contains address (first.contains address inside)
  place address inside :=
    (second.place address (first.contains address inside)).trans (first.place address inside)

theorem grown (resembles : heap.Resembles copy) : heap.Prolongs copy (heap.grown slab) (copy.grown image) where
  contains _ inside := contains_grown inside
  place _ inside := resembles.place_grown inside

variable (prolongs : heap.Prolongs copy after copyAfter)

include prolongs

theorem inside (inside : heap.RefersInside value) : after.RefersInside value :=
  fun address found => prolongs.contains address (inside address found)

theorem carry_eq (inside : heap.RefersInside value) : after.carry copyAfter value = heap.carry copy value := by
  cases found : value.address? with
  | none => rw [carry, carry, moveValue_of_none found, moveValue_of_none found]
  | some address =>
      have known := inside address found
      simp only [carry, moveValue, found, known, prolongs.contains address known, if_true,
        prolongs.place address known]

theorem carryContext_eq (inside : heap.contains context.address = true) :
    after.carryContext copyAfter context = heap.carryContext copy context :=
  congrArg Context.mk (prolongs.place _ inside)

end Prolongs

end Heap

theorem Frame.Echoed.prolong {heap copy after copyAfter : Heap} {frame image : Frame}
    (echoed : frame.Echoed heap copy image) (prolongs : heap.Prolongs copy after copyAfter) :
    frame.Echoed after copyAfter image where
  owned := prolongs.contains _ echoed.owned
  context := echoed.context.trans (prolongs.carryContext_eq echoed.owned).symm
  linked := echoed.linked
  used := echoed.used
  fixed := by
    rw [echoed.fixed]
    exact Vector.map_congr_left fun value listed => (prolongs.carry_eq (echoed.inside value (.inl listed))).symm
  overflow := by
    rw [echoed.overflow]
    exact Array.map_congr_left fun value listed => (prolongs.carry_eq (echoed.inside value (.inr listed))).symm
  inside value listed := prolongs.inside (echoed.inside value listed)

namespace Block.Echoed

variable {heap copy after copyAfter : Heap} {links more : List (Nat × Nat)}
  {machine final image copyFinal : Machine} {block : Block}
  (echoed : block.Echoed heap copy links machine image) (prolongs : heap.Prolongs copy after copyAfter)
  (inHeap : heap.contains block.start = true) (isObject : block.kind = .object)
  (fits : block.Fits heap.shapes machine.memory) (large : 16 ≤ block.size)
  (shapes : ∀ tag shape, heap.shapes.get? tag = some shape → after.shapes.get? tag = some shape)

include echoed prolongs inHeap isObject fits large shapes

/-- An object stands for another one while nothing changes of both but the links of contexts, whose chains must
run alongside then. -/
theorem rechain
    (kept : ∀ address, block.Covers address → (machine.memory.tag block.start = Tag.context →
      ¬ (block.start + Layout.Context.saves ≤ address ∧ address < block.start + Layout.Context.saves + 8)) →
      final.memory.read address = machine.memory.read address)
    (copyKept : ∀ address, (block.moved (heap.place copy)).Covers address →
      (machine.memory.tag block.start = Tag.context →
        ¬ (heap.place copy block.start + Layout.Context.saves ≤ address ∧
          address < heap.place copy block.start + Layout.Context.saves + 8)) →
      copyFinal.memory.read address = image.memory.read address)
    (chain : machine.memory.tag block.start = Tag.context → ∃ chain : List (Nat × Nat), chain ⊆ more ∧
      final.Chained ⟨block.start⟩ ((Context.mk block.start).saves final.memory) (chain.map Prod.fst) ∧
      copyFinal.Chained ⟨heap.place copy block.start⟩
        ((Context.mk (heap.place copy block.start)).saves copyFinal.memory) (chain.map Prod.snd)) :
    block.Echoed after copyAfter more final copyFinal := by
  have place := prolongs.place _ inHeap
  have read {offset : Nat} (inside : offset < block.size)
      (clear : machine.memory.tag block.start = Tag.context → offset < 16 ∨ 24 ≤ offset) :
      final.memory.read (block.start + offset) = machine.memory.read (block.start + offset) := by
    refine kept _ ⟨by omega, by simp only [Block.stop]; omega⟩ fun isContext => ?_
    have := clear isContext
    simp only [Layout.Context.saves]
    omega
  have copyRead {offset : Nat} (inside : offset < block.size)
      (clear : machine.memory.tag block.start = Tag.context → offset < 16 ∨ 24 ≤ offset) :
      copyFinal.memory.read (heap.place copy block.start + offset) =
        image.memory.read (heap.place copy block.start + offset) := by
    refine copyKept _ ⟨by simp only [start_moved]; omega, by
      simp only [Block.stop, start_moved, size_moved]; omega⟩ fun isContext => ?_
    have := clear isContext
    simp only [Layout.Context.saves]
    omega
  have tag : final.memory.tag block.start = machine.memory.tag block.start :=
    congrArg (Header.tag ∘ Header.ofWord) (@read 0 (by omega) fun _ => .inl (by omega))
  have copyTag : copyFinal.memory.tag (heap.place copy block.start) =
      image.memory.tag (heap.place copy block.start) :=
    congrArg (Header.tag ∘ Header.ofWord) (@copyRead 0 (by omega) fun _ => .inl (by omega))
  simp only [Block.Fits, isObject] at fits
  obtain ⟨shape, known, describes⟩ := fits
  -- Lengths are not among the words that change, so that the slots are where they were.
  have slots {offset : Nat} : shape.Slot final.memory block.start offset ↔
      shape.Slot machine.memory block.start offset := by
    refine Shape.slot_congr fun length listed => read ?_ fun isContext => ?_
    · have := (describes.lengthInside length listed).2
      omega
    · have none := Shape.lengths_of_context (isContext ▸ known)
      simp [none] at listed
  have slotInside {offset : Nat} (slot : shape.Slot machine.memory block.start offset) :
      offset < block.size ∧ (machine.memory.tag block.start = Tag.context → offset < 16 ∨ 24 ≤ offset) := by
    have bounds := describes.slotInside offset slot
    exact ⟨by omega, fun isContext => .inr (Shape.slot_of_context (isContext ▸ known) slot)⟩
  have only {found : Shape} (listed : after.shapes.get? (final.memory.tag block.start) = some found) :
      found = shape := by
    rw [tag, shapes _ _ known] at listed
    exact (Option.some.inj listed).symm
  refine ⟨⟨?_, fun found listed offset slot => ?_, fun found listed offset lower upper beyond clear => ?_⟩,
    fun found listed offset slot => ?_, fun isContext => ?_⟩
  · rw [place, copyTag, echoed.imaged.tag, tag]
  · obtain rfl := only listed
    have slot := slots.mp slot
    obtain ⟨inside, unlinked⟩ := slotInside slot
    rw [Memory.value, Memory.value, place, copyRead inside unlinked, read inside unlinked]
    exact (echoed.imaged.slots found known offset slot).trans
      (prolongs.carry_eq (echoed.inside found known offset slot)).symm
  · obtain rfl := only listed
    have beyond : machine.memory.tag block.start = Tag.context → 24 ≤ offset :=
      fun isContext => beyond (tag.trans isContext)
    rw [place, copyRead upper fun isContext => .inr (beyond isContext),
      read upper fun isContext => .inr (beyond isContext)]
    exact echoed.imaged.words found known offset lower upper beyond
      fun slot isSlot => clear slot (slots.mpr isSlot)
  · obtain rfl := only listed
    have slot := slots.mp slot
    obtain ⟨inside, unlinked⟩ := slotInside slot
    rw [Memory.value, read inside unlinked]
    exact prolongs.inside (echoed.inside found known offset slot)
  · rw [place]
    exact chain (tag.symm.trans isContext)

theorem keep (kept : block.Kept machine.memory final.memory)
    (copyKept : (block.moved (heap.place copy)).Kept image.memory copyFinal.memory)
    (frames : ∀ number frame, machine.frame? number = some frame → frame.context = ⟨block.start⟩ →
      final.frame? number = some frame)
    (copyFrames : ∀ number frame, image.frame? number = some frame →
      frame.context = ⟨heap.place copy block.start⟩ → copyFinal.frame? number = some frame)
    (linked : ∀ link ∈ links, ∀ frame, machine.frame? link.1 = some frame → frame.context = ⟨block.start⟩ →
      link ∈ more) : block.Echoed after copyAfter more final copyFinal := by
  refine echoed.rechain prolongs inHeap isObject fits large shapes (fun address covers _ => kept address covers)
    (fun address covers _ => copyKept address covers) fun isContext => ?_
  obtain ⟨chain, listed, chained, copyChained⟩ := echoed.chain isContext
  simp only [Block.Fits, isObject] at fits
  obtain ⟨shape, known, describes⟩ := fits
  have size := Shape.size_of_context (isContext ▸ known) describes
  have link : (Context.mk block.start).saves final.memory = (Context.mk block.start).saves machine.memory := by
    refine congrArg UInt64.toNat (kept _ ⟨?_, ?_⟩) <;> simp only [Layout.Context.saves, Block.stop] <;> omega
  have copyLink : (Context.mk (heap.place copy block.start)).saves copyFinal.memory =
      (Context.mk (heap.place copy block.start)).saves image.memory := by
    refine congrArg UInt64.toNat (copyKept _ ⟨?_, ?_⟩) <;>
      simp only [Layout.Context.saves, Block.stop, start_moved, size_moved] <;> omega
  refine ⟨chain, fun link member => ?_, ?_, ?_⟩
  · obtain ⟨frame, found, _, owned⟩ := chained.present (List.mem_map_of_mem member)
    exact linked link (listed member) frame found owned
  · rw [link]
    refine chained.congr fun number member => ?_
    obtain ⟨frame, found, _, owned⟩ := chained.present member
    rw [frames number frame found owned, found]
  · rw [copyLink]
    refine copyChained.congr fun number member => ?_
    obtain ⟨frame, found, _, owned⟩ := copyChained.present member
    rw [copyFrames number frame found owned, found]

end Block.Echoed

namespace Heap

variable {heap copy after copyAfter : Heap} {machine final image copyFinal : Machine}
  {links : List (Nat × Nat)} {tiling taken copied copyTaken : Slab → List Block} {block : Block}
  {slab : Slab}

/-- A heap became a sealed one that has all objects as they were. -/
structure Retains (heap after : Heap) (tiling taken : Slab → List Block) (machine final : Machine) : Prop where
  isSealed : after.Sealed taken final
  kept : ∀ block ∈ heap.blocks tiling, block.kind = .object → block.Kept machine.memory final.memory
  frames : ∀ number frame, machine.frame? number = some frame →
    heap.contains frame.context.address = true → final.frame? number = some frame
  orderly : final.Orderly

/-- Something happened that has nothing to do with the heap, nor with the frames of its contexts. -/
structure Bypassed (heap : Heap) (machine final : Machine) : Prop where
  untouched : heap.Untouched machine final
  frames : ∀ number frame, machine.frame? number = some frame →
    heap.contains frame.context.address = true → final.frame? number = some frame
  pages : machine.pages.taken ⊆ final.pages.taken
  orderly : final.Orderly

theorem Bypassed.of_quiet (quiet : machine.Quiet final) (orderly : machine.Orderly) : heap.Bypassed machine final where
  untouched _ _ _ _ _ := by rw [quiet.memory]
  frames number _ found _ := (Machine.frame?_congr quiet.frames number).trans found
  pages := quiet.taken_subset
  orderly := orderly.congr quiet.frames

/-- What a heap does spares the heaps apart from it. -/
theorem Within.bypassed {other : Heap} (within : heap.Within after machine final) (orderly : final.Orderly)
    (apart : heap.Apart other) (hosted : ∀ slab ∈ other.slabs, machine.Hosts slab) :
    other.Bypassed machine final where
  untouched := within.untouched apart hosted
  frames number frame found owned := by
    obtain ⟨slab, inOther, covers⟩ := contains_iff.mp owned
    have reserved := (hosted slab inOther).reserved_of_contains covers
    exact within.frames number frame found reserved (apart.not_contains owned)
  pages := within.pages
  orderly := orderly

namespace Sealed

variable (isSealed : heap.Sealed tiling machine)

include isSealed

theorem kept_of_untouched (untouched : heap.Untouched machine final) (member : block ∈ heap.blocks tiling) :
    block.Kept machine.memory final.memory := by
  intro address covers
  obtain ⟨slab, inHeap, inSlab⟩ := mem_blocks.mp member
  have within := isSealed.tiled.slab_covers inHeap inSlab covers
  exact untouched slab inHeap address within.1 within.2

theorem retains (bypassed : heap.Bypassed machine final) : heap.Retains heap tiling tiling machine final where
  isSealed := isSealed.renew (isSealed.toUpheld.keep bypassed.untouched bypassed.frames bypassed.pages)
  kept _ member _ := isSealed.kept_of_untouched bypassed.untouched member
  frames := bypassed.frames
  orderly := bypassed.orderly

variable (orderly : machine.Orderly)

include orderly

theorem retains_grown (created : slab.Created heap.shapes machine final) :
    heap.Retains (heap.grown slab) tiling
      (Function.update tiling slab [⟨slab.objects, slab.size - blockUnit, .free⟩]) machine final where
  isSealed := isSealed.grown created
  kept _ member _ := isSealed.toUpheld.kept_created created member
  frames number _ found _ := (Machine.frame?_congr created.frames number).trans found
  orderly := orderly.congr created.frames

end Sealed

theorem Carries.grown {memory other : Memory} {image : Slab} (carries : heap.Carries copy tiling copied)
    (resembles : heap.Resembles copy) (tiled : heap.Tiled memory tiling)
    (grown : (heap.grown slab).Tiled other
      (Function.update tiling slab [⟨slab.objects, slab.size - blockUnit, .free⟩]))
    (same : image.size = slab.size) (isNew : slab ∉ heap.slabs) (copyNew : image ∉ copy.slabs) :
    (heap.grown slab).Carries (copy.grown image)
      (Function.update tiling slab [⟨slab.objects, slab.size - blockUnit, .free⟩])
      (Function.update copied image [⟨image.objects, image.size - blockUnit, .free⟩]) := by
  intro old oldImage paired
  have pairs : (heap.grown slab).slabs.zip (copy.grown image).slabs =
      heap.slabs.zip copy.slabs ++ [(slab, image)] := List.zip_append (List.Forall₂.length_eq resembles)
  rw [pairs, List.mem_append, List.mem_singleton] at paired
  rcases paired with before | here
  · obtain ⟨inHeap, inCopy⟩ := List.of_mem_zip before
    have distinct : old ≠ slab := fun equal => isNew (equal ▸ inHeap)
    have copyDistinct : oldImage ≠ image := fun equal => copyNew (equal ▸ inCopy)
    rw [Function.update_of_ne distinct, Function.update_of_ne copyDistinct, carries old oldImage before]
    refine List.map_congr_left fun block inSlab => ?_
    have contained := tiled.contains (Heap.mem_blocks.mpr ⟨old, inHeap, inSlab⟩)
    simp only [Block.moved, resembles.place_grown contained]
  · cases here
    have paired : (slab, image) ∈ (heap.grown slab).slabs.zip (copy.grown image).slabs := by
      rw [pairs]
      exact List.mem_append_right _ List.mem_cons_self
    have large := (grown.layout slab (List.mem_append_right _ List.mem_cons_self)).placed.large
    have place : (heap.grown slab).place (copy.grown image) slab.objects = image.objects := by
      rw [Resembles.place_eq grown paired (Slab.contains_iff.mpr ?_)]
      · simp only [Slab.counterpart, Slab.objects]
        omega
      · simp only [Slab.objects, Slab.stop, minSlabSize, blockUnit] at *
        omega
    rw [Function.update_self, Function.update_self]
    simp only [List.map_cons, List.map_nil, Block.moved, place, same]

namespace Parallel

variable (parallel : heap.Parallel copy links tiling copied machine image)

include parallel

/-- The link stays, and so do the frames that it pairs. -/
theorem echoed_of_retains (retains : heap.Retains after tiling taken machine final)
    (copyRetains : copy.Retains copyAfter copied copyTaken image copyFinal)
    (prolongs : heap.Prolongs copy after copyAfter) {link : Nat × Nat} (listed : link ∈ links) :
    ∃ frame, final.frame? link.1 = some frame ∧
      ∃ other, copyFinal.frame? link.2 = some other ∧ frame.Echoed after copyAfter other := by
  obtain ⟨frame, found, other, copyFound, echoed⟩ := parallel.echoed link listed
  refine ⟨frame, retains.frames _ frame found echoed.owned, other, copyRetains.frames _ other copyFound ?_,
    echoed.prolong prolongs⟩
  rw [echoed.context]
  exact parallel.mirrors.places.contains _ echoed.owned

/-- Heaps stay parallel while each retains its objects, and what is new stands for each other. -/
theorem extend (retains : heap.Retains after tiling taken machine final)
    (copyRetains : copy.Retains copyAfter copied copyTaken image copyFinal)
    (prolongs : heap.Prolongs copy after copyAfter) (siblings : after.Siblings copyAfter)
    (carries : after.Carries copyAfter taken copyTaken)
    (scratch : copyAfter.scratch = after.scratch.map (after.carry copyAfter))
    (shapes : ∀ tag shape, heap.shapes.get? tag = some shape → after.shapes.get? tag = some shape)
    (objects : ∀ block ∈ after.blocks taken, block.kind = .object →
      block ∈ heap.blocks tiling ∨ block.Echoed after copyAfter links final copyFinal) :
    after.Parallel copyAfter links taken copyTaken final copyFinal where
  toSiblings := siblings
  echoed _ := parallel.echoed_of_retains retains copyRetains prolongs
  apart := parallel.apart
  orderly := retains.orderly
  copyOrderly := copyRetains.orderly
  carries := carries
  isSealed := retains.isSealed
  copySealed := copyRetains.isSealed
  scratch := scratch
  objects block member isObject := by
    rcases objects block member isObject with before | fresh
    · have inHeap := parallel.upheld.tiled.contains before
      refine (parallel.objects block before isObject).keep prolongs inHeap isObject (parallel.upheld.fits before)
        (parallel.upheld.tiled.bounds before).2.2.1 shapes (retains.kept block before isObject)
        (copyRetains.kept _ (parallel.mirrors.member before isObject) isObject)
        (fun number frame found owned => retains.frames number frame found ?_)
        (fun number frame found owned => copyRetains.frames number frame found ?_) fun _ listed _ _ _ => listed
      · rwa [owned]
      · rw [owned]
        exact parallel.mirrors.places.contains _ inHeap
    · exact fresh

theorem bypassed (bypassed : heap.Bypassed machine final) (copyBypassed : copy.Bypassed image copyFinal) :
    heap.Parallel copy links tiling copied final copyFinal :=
  parallel.extend (parallel.isSealed.retains bypassed) (parallel.copySealed.retains copyBypassed)
    (.of_slabs rfl rfl) parallel.toSiblings parallel.carries parallel.scratch (fun _ _ => id)
    fun _ member _ => .inl member

theorem quiet (quiet : machine.Quiet final) (copyQuiet : image.Quiet copyFinal) :
    heap.Parallel copy links tiling copied final copyFinal :=
  parallel.bypassed (.of_quiet quiet parallel.orderly) (.of_quiet copyQuiet parallel.copyOrderly)

/-- Heaps that grow by slabs of the same size stay parallel. -/
theorem grown {slab other : Slab} (same : other.size = slab.size)
    (created : slab.Created heap.shapes machine final) (copyCreated : other.Created copy.shapes image copyFinal) :
    (heap.grown slab).Parallel (copy.grown other) links
      (Function.update tiling slab [⟨slab.objects, slab.size - blockUnit, .free⟩])
      (Function.update copied other [⟨other.objects, other.size - blockUnit, .free⟩]) final copyFinal := by
  have resembles := parallel.resembles
  have prolongs : heap.Prolongs copy (heap.grown slab) (copy.grown other) := .grown resembles
  have retains := parallel.isSealed.retains_grown parallel.orderly created
  refine parallel.extend retains (parallel.copySealed.retains_grown parallel.copyOrderly copyCreated) prolongs
    { parallel.toSiblings with
      resembles := resembles.append same
      counters := { parallel.counters with growths := Nat.add_le_add_right parallel.counters.growths 1 } } ?_ ?_ (fun _ _ => id) fun block member isObject => ?_
  · exact parallel.carries.grown resembles parallel.upheld.tiled retains.isSealed.tiled same
      (parallel.upheld.not_mem_of_created created) (parallel.copyUpheld.not_mem_of_created copyCreated)
  · refine parallel.scratch.trans (List.map_congr_left fun value listed => ?_)
    exact (prolongs.carry_eq (parallel.upheld.tiled.refersInside (parallel.isSealed.scratch value listed))).symm
  · exact .inl ((parallel.upheld.mem_blocks_grown created (by simp [isObject])).mp member)

end Parallel

end Heap

end SlabHeap
