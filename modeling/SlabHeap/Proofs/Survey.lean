import SlabHeap.Proofs.Exactness

namespace SlabHeap

/-! Well-formedness by evaluation.

`Heap.surveys` looks through the slabs of a heap, block by block, when no save frames are open. What
it accepts is well-formed, `Heap.wellFormed_of_surveys`.
-/

open Block

instance Tiles.decidable : (start : Nat) → (blocks : List Block) → (stop : Nat) →
    Decidable (Tiles start blocks stop)
  | start, [], stop => inferInstanceAs (Decidable (start = stop))
  | start, block :: rest, stop =>
      have := Tiles.decidable block.stop rest stop
      inferInstanceAs (Decidable (block.start = start ∧ blockUnit ≤ block.size ∧
        block.size % blockUnit = 0 ∧ Tiles block.stop rest stop))

instance FreeList.Path.decidable (memory : Memory) : (node : Nat) → (blocks : List (Nat × Nat)) →
    (stop : Nat) → Decidable (FreeList.Path memory node blocks stop)
  | node, [], stop => inferInstanceAs (Decidable (node = stop))
  | node, block :: rest, stop =>
      have := FreeList.Path.decidable memory (FreeList.next memory node) rest stop
      inferInstanceAs (Decidable (node = block.1 ∧ node ≠ 0 ∧ FreeList.size memory node = block.2 ∧
        FreeList.Path memory (FreeList.next memory node) rest stop))

instance (slab other : Slab) : Decidable (slab.Apart other) :=
  inferInstanceAs (Decidable (slab.stop ≤ other.start ∨ other.stop ≤ slab.start))

def SlotRun.offsets (run : SlotRun) (memory : Memory) (object : Nat) : List Nat :=
  (List.range (run.slotCount memory object)).map fun index => run.offset + wordBytes * index

theorem SlotRun.mem_offsets {run : SlotRun} {memory : Memory} {object offset : Nat} :
    offset ∈ run.offsets memory object ↔
      ∃ index < run.slotCount memory object, offset = run.offset + wordBytes * index := by
  simp only [offsets, List.mem_map, List.mem_range, eq_comm]

namespace Heap

variable {heap : Heap} {machine : Machine} {tiling : Slab → List Block} {block : Block}
  {value : Value}

/-- Whether the value leads to an object, if it is a reference. -/
def leads (heap : Heap) (tiling : Slab → List Block) (value : Value) : Bool :=
  value.address?.all fun address =>
    (heap.blocks tiling).any fun block => block.kind = .object && block.start = address

theorem refersToObject_of_leads (leads : heap.leads tiling value = true) :
    heap.RefersToObject tiling value := by
  intro address found
  simpa [Heap.leads, found, Heap.Object] using leads

/-- Whether an object fits its block, is valid and unmarked, and whether its slots lead to objects. -/
def surveysObject (heap : Heap) (memory : Memory) (tiling : Slab → List Block) (block : Block) : Bool :=
  (heap.shapes.get? (memory.tag block.start)).any fun shape =>
    Size.alignUp? (max (shape.size.byteCount memory block.start) 1) 16 = some block.size &&
      (memory.header block.start).isValid && !(memory.header block.start).isMarked &&
      (shape.strong.offsets memory block.start ++
        shape.weak.elim [] fun run => run.offsets memory block.start).all fun offset =>
          heap.leads tiling (memory.value (block.start + offset))

/-- Whether the blocks tile the slab, and free ones are listed. -/
def surveysSlab (heap : Heap) (memory : Memory) (tiling : Slab → List Block) (slab : Slab) : Bool :=
  slab.start % blockUnit = 0 && 0 < slab.start && slab.size % blockUnit = 0 &&
    minSlabSize ≤ slab.size && slab.stop < Size.limit &&
    Tiles slab.objects (tiling slab) slab.stop && FreeList.size memory slab.start = 0 &&
    FreeList.Path memory (slab.firstFree memory) (frees (tiling slab)) 0 &&
    (tiling slab).all fun block =>
      match block.kind with
      | .free => true
      | .object => heap.surveysObject memory tiling block
      | .bare => block.size = blockUnit && memory.tag block.start = 0

def surveys (heap : Heap) (machine : Machine) (tiling : Slab → List Block) : Bool :=
  machine.frames.isEmpty && heap.slabs.Pairwise Slab.Apart &&
    heap.slabs.all (heap.surveysSlab machine.memory tiling) &&
    (heap.globals.getD [] ++ heap.scratch).all (heap.leads tiling)

section Slabs

variable {memory : Memory} {slab : Slab}

/-- What the survey of an object tells. -/
theorem of_surveysObject (surveyed : heap.surveysObject memory tiling block = true) :
    ∃ shape, heap.shapes.get? (memory.tag block.start) = some shape ∧
      Size.alignUp? (max (shape.size.byteCount memory block.start) 1) 16 = some block.size ∧
      (memory.header block.start).isValid = true ∧ (memory.header block.start).isMarked = false ∧
      ∀ offset, shape.StrongSlot memory block.start offset ∨ shape.WeakSlot memory block.start offset →
        heap.RefersToObject tiling (memory.value (block.start + offset)) := by
  simp only [surveysObject, Option.any_eq_true, Bool.and_eq_true, Bool.not_eq_true',
    decide_eq_true_eq, List.all_eq_true, List.mem_append] at surveyed
  obtain ⟨shape, known, ⟨⟨sized, valid⟩, unmarked⟩, slots⟩ := surveyed
  refine ⟨shape, known, sized, valid, unmarked, fun offset slot => ?_⟩
  apply refersToObject_of_leads
  apply slots offset
  cases slot with
  | inl strong => exact .inl (SlotRun.mem_offsets.mpr strong)
  | inr weak =>
      obtain ⟨run, isWeak, slot⟩ := weak
      rw [isWeak]
      exact .inr (SlotRun.mem_offsets.mpr slot)

variable (confined : ∀ tag shape, heap.shapes.get? tag = some shape → shape.Confined)
  (surveyed : heap.surveysSlab memory tiling slab = true)

include surveyed

theorem objects_of_surveysSlab (member : block ∈ tiling slab) (isObject : block.kind = .object) :
    heap.surveysObject memory tiling block = true := by
  simp only [surveysSlab, Bool.and_eq_true, List.all_eq_true] at surveyed
  simpa [isObject] using surveyed.2 block member

include confined

theorem layout_of_surveysSlab : slab.Layout heap.shapes memory (tiling slab) := by
  have objects {block : Block} (member : block ∈ tiling slab) (isObject : block.kind = .object) :=
    of_surveysObject (objects_of_surveysSlab surveyed member isObject)
  simp only [surveysSlab, Bool.and_eq_true, decide_eq_true_eq, List.all_eq_true] at surveyed
  obtain ⟨⟨⟨⟨⟨⟨⟨⟨aligned, positive⟩, sized⟩, large⟩, bounded⟩, tiles⟩, sentinel⟩, listed⟩, fits⟩ :=
    surveyed
  refine ⟨⟨aligned, positive, sized, large, bounded⟩, tiles, sentinel, listed, fun block member => ?_⟩
  have fits := fits block member
  unfold Block.Fits
  cases kind : block.kind with
  | free => trivial
  | object =>
      obtain ⟨shape, known, fitting, _⟩ := objects member kind
      exact ⟨shape, known, confined _ shape known memory block.start block.size fitting⟩
  | bare => simpa [kind] using fits

end Slabs

/-- What a survey accepts is well-formed. -/
theorem wellFormed_of_surveys
    (confined : ∀ tag shape, heap.shapes.get? tag = some shape → shape.Confined)
    (surveyed : heap.surveys machine tiling = true) : heap.WellFormed machine tiling := by
  simp only [surveys, Bool.and_eq_true, decide_eq_true_eq, List.all_eq_true, List.mem_append,
    Array.isEmpty_iff] at surveyed
  obtain ⟨⟨⟨none, apart⟩, slabs⟩, rooted⟩ := surveyed
  have objects {block : Block} (member : block ∈ heap.blocks tiling)
      (isObject : block.kind = .object) : heap.surveysObject machine.memory tiling block = true := by
    obtain ⟨slab, inHeap, inSlab⟩ := mem_blocks.mp member
    exact objects_of_surveysSlab (slabs slab inHeap) inSlab isObject
  refine ⟨⟨fun slab inHeap => layout_of_surveysSlab confined (slabs slab inHeap), apart⟩,
    fun block member isObject => ?_, fun block member isObject => ?_,
    fun block member isObject shape known => ?_, fun _ _ _ _ frame linked => ?_,
    fun value listed => refersToObject_of_leads (rooted value (.inl listed)),
    fun value listed => refersToObject_of_leads (rooted value (.inr listed))⟩
  · obtain ⟨_, _, _, valid, _⟩ := of_surveysObject (objects member isObject)
    exact valid
  · obtain ⟨_, _, _, _, unmarked, _⟩ := of_surveysObject (objects member isObject)
    exact unmarked
  · obtain ⟨found, foundKnown, _, _, _, slots⟩ := of_surveysObject (objects member isObject)
    obtain rfl := Option.some.inj (foundKnown.symm.trans known)
    exact slots
  · have closed (address : Nat) : machine.frameAt? address = Option.none := by
      simp [Machine.frameAt?, Machine.frameIndex?, none]
    cases linked with
    | here found => simp [closed] at found
    | outer found _ => simp [closed] at found

end Heap

end SlabHeap
