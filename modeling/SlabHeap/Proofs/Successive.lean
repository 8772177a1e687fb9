import SlabHeap.Proofs.Mirror

namespace SlabHeap

/-! Collections in succession.

A heap without roots of its own and its mirror are collected from one context, again and again.
`Heap.Paired` is what each collection preserves, and `Heap.Paired.collections_meets` follows both heaps
through any number of collections.
-/

open Block

/-- The object in a block lost nothing but weak and dependent slots. -/
structure Block.Worn (shapes : ShapeTable) (memory after : Memory) (block : Block) : Prop where
  tag : after.tag block.start = memory.tag block.start
  weak : ∀ shape, shapes.get? (memory.tag block.start) = some shape → ∀ offset,
    shape.WeakSlot memory block.start offset ∨ shape.DependentSlot memory block.start offset →
      after.value (block.start + offset) = .no ∨
        after.value (block.start + offset) = memory.value (block.start + offset)
  words : ∀ shape, shapes.get? (memory.tag block.start) = some shape → ∀ address,
    block.start + 8 ≤ address → address < block.stop →
      (∀ offset, shape.WeakSlot memory block.start offset ∨
          shape.DependentSlot memory block.start offset →
        ¬ (block.start + offset ≤ address ∧ address < block.start + offset + 8)) →
          after.read address = memory.read address

namespace Block.Worn

variable {shapes : ShapeTable} {memory mid after : Memory} {block : Block} {shape : Shape}

theorem refl (shapes : ShapeTable) (memory : Memory) (block : Block) :
    block.Worn shapes memory memory :=
  ⟨rfl, fun _ _ _ _ => .inr rfl, fun _ _ _ _ _ _ => rfl⟩

theorem lengths (worn : block.Worn shapes memory after)
    (known : shapes.get? (memory.tag block.start) = some shape)
    (describes : shape.Describes memory block.start block.size) :
    ∀ length ∈ shape.lengths,
      after.read (block.start + length.offset) = memory.read (block.start + length.offset) := by
  intro length listed
  obtain ⟨aligned, lower, upper⟩ := describes.lengthInside length listed
  refine worn.words shape known _ (by omega) (by simp only [Block.stop]; omega) ?_
  intro offset slot inside
  obtain ⟨slotAligned, _, _, apart⟩ := describes.slotInside offset (.inr slot)
  exact apart length listed (by omega)

theorem trans (first : block.Worn shapes memory mid) (second : block.Worn shapes mid after)
    (fits : ∀ shape, shapes.get? (memory.tag block.start) = some shape →
      shape.Describes memory block.start block.size) : block.Worn shapes memory after := by
  have slots {shape : Shape} (known : shapes.get? (memory.tag block.start) = some shape)
      (offset : Nat) : (shape.WeakSlot mid block.start offset ∨
        shape.DependentSlot mid block.start offset) ↔
          (shape.WeakSlot memory block.start offset ∨
            shape.DependentSlot memory block.start offset) := by
    have same := first.lengths known (fits shape known)
    rw [Shape.weakSlot_congr same, Shape.dependentSlot_congr same]
  refine ⟨second.tag.trans first.tag, fun shape known offset slot => ?_,
    fun shape known address lower upper clear => ?_⟩
  · have midKnown := first.tag.symm ▸ known
    rcases second.weak shape midKnown offset ((slots known offset).mpr slot) with lost | same
    · exact .inl lost
    · rw [same]
      exact first.weak shape known offset slot
  · have midKnown := first.tag.symm ▸ known
    rw [second.words shape midKnown address lower upper fun offset slot =>
      clear offset ((slots known offset).mp slot)]
    exact first.words shape known address lower upper clear

end Block.Worn

namespace Heap

variable {heap copy other otherCopy : Heap} {place : Nat → Nat} {context : Context}
  {machine image final copyFinal : Machine} {tiling swept copied copySwept : Slab → List Block}
  {block : Block} {object : Nat} {live : Nat → Prop}

/-- A collection wears its survivors. -/
theorem Collected.worn (collected : heap.Collected tiling swept machine final live)
    (tiled : heap.Tiled machine.memory tiling) (member : block ∈ heap.blocks tiling)
    (isObject : block.kind = .object) (alive : live block.start) :
    block.Worn heap.shapes machine.memory final.memory := by
  have weakened := collected.objects block member isObject alive
  refine ⟨weakened.tag, fun shape known offset slot => ?_,
    fun shape known address lower upper clear => ?_⟩
  · by_cases dropped : heap.Drops machine live block offset
    · exact .inl (weakened.dropped offset dropped)
    · exact .inr (collected.value_eq tiled member isObject alive known (.inr slot) dropped)
  · refine weakened.kept address lower upper fun offset dropped => clear offset ?_
    obtain ⟨_, found, foundKnown, drops⟩ := dropped
    obtain rfl := Option.some.inj (known.symm.trans foundKnown)
    exact drops.imp And.left And.left

def Rootless (heap : Heap) : Prop := heap.globals = none ∧ heap.scratch = []

theorem Rootless.roots_eq (rootless : heap.Rootless) (context : Context) :
    heap.roots (some context) = [context.toValue] := by
  simp [Heap.roots, rootless.1, rootless.2]

/-- The second heap mirrors the first one, as far as it can be reached from a context. -/
structure Paired (heap copy : Heap) (place : Nat → Nat) (context : Context)
    (tiling copied : Slab → List Block) (machine image : Machine) : Prop where
  mirrors : heap.Mirrors copy place tiling copied machine.memory image.memory
  grounded : heap.Grounded machine tiling [context.toValue]
  intact : copy.Intact copied image
  named : context.toValue.address? = some context.address
  saved : ∀ object, heap.Reach machine machine.Unmarked [context.toValue] object →
    machine.memory.tag object = Tag.context → (Context.mk (place object)).savedValues image =
      ((Context.mk object).savedValues machine).map (heap.moveValue place)

namespace Paired

variable (paired : heap.Paired copy place context tiling copied machine image)

include paired

theorem isObject : heap.Object tiling context.address :=
  paired.grounded.roots _ (List.mem_singleton.mpr rfl) _ paired.named

theorem map_roots : [context.toValue].map (heap.moveValue place) =
    [(Context.mk (place context.address)).toValue] := by
  have inHeap := paired.grounded.tiled.contains_of_refers
    (paired.grounded.roots _ (List.mem_singleton.mpr rfl)) _ paired.named
  simp only [List.map_cons, List.map_nil, moveValue, paired.named, inHeap, if_true]
  rfl

theorem groundedCopy :
    copy.Grounded image copied [(Context.mk (place context.address)).toValue] :=
  paired.map_roots ▸ paired.mirrors.grounded_copy paired.saved paired.grounded paired.intact

theorem reach_iff {address : Nat} :
    copy.Reach image image.Unmarked [(Context.mk (place context.address)).toValue] address ↔
      ∃ object, heap.Reach machine machine.Unmarked [context.toValue] object ∧
        place object = address := by
  rw [← paired.map_roots]
  exact paired.mirrors.reach_iff paired.grounded.traced paired.intact.ready paired.saved

theorem reach_image_iff (isObject : heap.Object tiling object) :
    copy.Reach image image.Unmarked [(Context.mk (place context.address)).toValue] (place object) ↔
      heap.Reach machine machine.Unmarked [context.toValue] object := by
  rw [← paired.map_roots]
  exact paired.mirrors.reach_image_iff paired.grounded.traced paired.intact.ready paired.saved isObject

theorem reroot (slabs : other.slabs = heap.slabs) (shapes : other.shapes = heap.shapes)
    (features : other.features = heap.features) (copySlabs : otherCopy.slabs = copy.slabs)
    (copyShapes : otherCopy.shapes = copy.shapes)
    (copyFeatures : otherCopy.features = copy.features) :
    other.Paired otherCopy place context tiling copied machine image where
  mirrors := paired.mirrors.reroot slabs shapes features copySlabs copyShapes copyFeatures
  grounded := paired.grounded.reroot slabs shapes features
  intact := paired.intact.reroot copySlabs copyShapes copyFeatures
  named := paired.named
  saved object reached isContext := by
    rw [moveValue_eq slabs]
    exact paired.saved object (reached.reroot slabs.symm shapes.symm features.symm) isContext

/-- Collections from the context and from its image leave a pair. -/
theorem survive (collected : heap.Collected tiling swept machine final
      (heap.Reach machine machine.Unmarked [context.toValue]))
    (copyCollected : copy.Collected copied copySwept image copyFinal
      (copy.Reach image image.Unmarked [(Context.mk (place context.address)).toValue])) :
    heap.Paired copy place context swept copySwept final copyFinal where
  mirrors := paired.mirrors.collected paired.grounded.toIntact.ready paired.intact.ready
    (fun _ => paired.reach_image_iff) paired.grounded.toIntact.weakAlike collected copyCollected
  grounded := paired.grounded.survive collected
  intact := (paired.groundedCopy.survive copyCollected).toIntact
  named := paired.named
  saved object reached isContext := by
    have before := paired.grounded.reach_swept collected reached
    obtain ⟨block, member, kind, rfl⟩ := paired.grounded.traced.object_of_reach before
    have copyMember := paired.mirrors.member member kind
    have copyBefore := paired.reach_iff.mpr ⟨_, before, rfl⟩
    rw [(collected.alike paired.grounded.tiled member kind before).tag] at isContext
    have copyContext : image.memory.tag (block.moved place).start = Tag.context :=
      (paired.mirrors.imaged block member kind).tag.trans isContext
    have saves := collected.saves_eq paired.grounded.tiled member kind before isContext
    have copySaves := copyCollected.saves_eq paired.intact.tiled copyMember kind copyBefore copyContext
    simp only [Block.moved] at copySaves
    rw [Context.savedValues_congr collected.steady.frames saves, ← paired.saved _ before isContext]
    exact Context.savedValues_congr copyCollected.steady.frames copySaves

/-- Both heaps can be collected. -/
theorem collect (rootless : heap.Rootless) (copyRootless : copy.Rootless) :
    ∃ stats copyStats final copyFinal swept copySwept,
      heap.Collected tiling swept machine final
        (heap.Reach machine machine.Unmarked [context.toValue]) ∧
      heap.Paired copy place context swept copySwept final copyFinal ∧
      stats.sumFreed + heap.usedBytes swept = heap.usedBytes tiling ∧
      copyStats.sumFreed + copy.usedBytes copySwept = copy.usedBytes copied ∧
      (heap.collect context).run machine =
        (if heap.counters.Counts 1 stats.sumFreed then
          .ok (heap.counted stats, stats) final else .error .additionOverflow final) ∧
      (copy.collect ⟨place context.address⟩).run image =
        if copy.counters.Counts 1 copyStats.sumFreed then
          .ok (copy.counted copyStats, copyStats) copyFinal
        else .error .additionOverflow copyFinal := by
  have roots := rootless.roots_eq context
  have copyRoots := copyRootless.roots_eq ⟨place context.address⟩
  obtain ⟨stats, final, swept, collected, freed, ran⟩ := paired.grounded.clean.collectFrom_run
    (roots ▸ paired.grounded.traced.closed : heap.Closed machine tiling (heap.roots (some context)))
  obtain ⟨copyStats, copyFinal, copySwept, copyCollected, copyFreed, copyRan⟩ :=
    paired.intact.clean.collectFrom_run (copyRoots ▸ paired.groundedCopy.traced.closed :
      copy.Closed image copied (copy.roots (some ⟨place context.address⟩)))
  rw [roots] at collected
  rw [copyRoots] at copyCollected
  exact ⟨stats, copyStats, final, copyFinal, swept, copySwept, collected,
    paired.survive collected copyCollected, freed, copyFreed, ran, copyRan⟩

end Paired

/-- Collects a heap from the same context several times. -/
def collections (context : Context) : Nat → Heap → Action Heap
  | 0, heap => return heap
  | count + 1, heap => do
      let (after, _) ← heap.collect context
      after.collections context count

/-- What can be reached of a heap was reached before, and at most worn since. -/
structure Outlasts (heap : Heap) (context : Context) (tiling divided : Slab → List Block)
    (machine mid : Machine) : Prop where
  objects : ∀ block ∈ heap.blocks divided, block.kind = .object →
    block ∈ heap.blocks tiling ∧ block.Worn heap.shapes machine.memory mid.memory
  reached : ∀ object, heap.Reachable mid [context.toValue] object →
    heap.Reachable machine [context.toValue] object

theorem Outlasts.reroot {mid : Machine} {divided : Slab → List Block}
    (outlasts : heap.Outlasts context tiling divided machine mid) (slabs : other.slabs = heap.slabs)
    (shapes : other.shapes = heap.shapes) : other.Outlasts context tiling divided machine mid where
  objects block member isObject := by
    rw [Heap.blocks, slabs] at member ⊢
    rw [shapes]
    exact outlasts.objects block member isObject
  reached object reached :=
    (outlasts.reached object (reached.reroot shapes.symm)).reroot shapes

/-- A collection leaves what outlasts it, and so do further collections. -/
theorem Outlasts.after {mid : Machine} {divided : Slab → List Block}
    (outlasts : heap.Outlasts context swept divided final mid)
    (grounded : heap.Grounded machine tiling [context.toValue])
    (collected : heap.Collected tiling swept machine final
      (heap.Reach machine machine.Unmarked [context.toValue])) :
    heap.Outlasts context tiling divided machine mid where
  objects block member isObject := by
    obtain ⟨inSwept, later⟩ := outlasts.objects block member isObject
    obtain ⟨before, alive⟩ := (collected.mem_swept (by simp [isObject])).mp inSwept
    refine ⟨before, (collected.worn grounded.tiled before isObject (alive isObject)).trans later ?_⟩
    exact fun shape known => (grounded.tiled.describes before (by simp [isObject]) known).2
  reached object reached := by
    have survivor := (grounded.survive collected).traced.reach_iff.mpr (outlasts.reached object reached)
    exact (grounded.reach_swept collected survivor).reachable

/-- Any number of collections from a context and from its image leave a pair, unless the copy cannot count them
any more, or the bytes that they free. -/
theorem Paired.collections_meets (count : Nat)
    (paired : heap.Paired copy place context tiling copied machine image)
    (rootless : heap.Rootless) (copyRootless : copy.Rootless)
    (behind : heap.counters.collections ≤ copy.counters.collections)
    (small : heap.counters.bytesFreed + heap.usedBytes tiling < Size.limit) :
    (copy.collections ⟨place context.address⟩ count).Meets image
      (fun answer final => ∃ copyCounters counters mid copyDivided divided,
        answer = { copy with counters := copyCounters } ∧
        (heap.collections context count).run machine = .ok { heap with counters } mid ∧
        heap.Outlasts context tiling divided machine mid ∧
        heap.Paired copy place context divided copyDivided mid final)
      fun _ => ¬ copy.counters.Counts count (copy.usedBytes copied) := by
  induction count generalizing heap copy machine image tiling copied with
  | zero =>
      exact .inl (Action.ensures_pure.mpr ⟨copy.counters, heap.counters, machine, copied, tiling, rfl, rfl,
        ⟨fun block member _ => ⟨member, .refl _ _ _⟩, fun _ => id⟩, paired⟩)
  | succ count ih =>
      obtain ⟨stats, copyStats, final, copyFinal, swept, copySwept, collected, later, freed, copyFreed,
        ran, copyRan⟩ := paired.collect rootless copyRootless
      rw [← copyFreed, Counters.counts_succ]
      by_cases copyCounts : copy.counters.Counts 1 copyStats.sumFreed
      · rw [if_pos copyCounts] at copyRan
        -- What the copy can count, the heap behind it can.
        rw [if_pos ⟨Nat.lt_of_le_of_lt (Nat.add_le_add_right behind 1) copyCounts.1, by omega⟩] at ran
        have further : (heap.counted stats).Paired (copy.counted copyStats) place context swept copySwept
            final copyFinal := later.reroot rfl rfl rfl rfl rfl rfl
        have meets := ih further rootless copyRootless (Nat.add_le_add_right behind 1) (by
          have same : (heap.counted stats).usedBytes swept = heap.usedBytes swept := rfl
          rw [same]
          simp only [counted]
          omega)
        rw [collections, Action.meets_bind_iff copyRan]
        refine meets.weaken ?_ fun _ uncounted both => uncounted both.2
        rintro _ after ⟨copyCounters, counters, mid, copyDivided, divided, rfl, goesOn, outlasts, ends⟩
        have outlasts : heap.Outlasts context swept divided final mid := outlasts.reroot rfl rfl
        refine ⟨copyCounters, counters, mid, copyDivided, divided, rfl, ?_,
          outlasts.after paired.grounded collected, ends.reroot rfl rfl rfl rfl rfl rfl⟩
        rw [collections, Action.run_bind ran]
        exact goesOn
      · rw [if_neg copyCounts] at copyRan
        refine .inr ⟨copyFinal, ?_, fun both => copyCounts both.1⟩
        rw [collections, EStateM.run_bind, copyRan]

end Heap

end SlabHeap
