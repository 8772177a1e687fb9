import SlabHeap.Proofs.Abreast
import SlabHeap.Proofs.Counterparts
import SlabHeap.Proofs.Sealing

namespace SlabHeap

/-! Heaps that run in parallel.

`Heap.Parallel` relates two heaps, each on a machine of its own: the blocks of one are those of the other
at other places, objects hold what corresponds, and so do the save frames that `links` pairs. Collections
of both achieve the same and leave them parallel, `Heap.Parallel.collectFrom`.
-/

open Block

/-- A frame and the one that stands for it. What their fixed slots hold corresponds even where it is out
of use. -/
structure Frame.Echoed (heap copy : Heap) (frame image : Frame) : Prop where
  owned : heap.contains frame.context.address = true
  context : image.context = ⟨heap.place copy frame.context.address⟩
  linked : image.linked = frame.linked
  used : image.used = frame.used
  fixed : image.fixed = frame.fixed.map (heap.carry copy)
  overflow : image.overflow = frame.overflow.map (heap.carry copy)
  inside : ∀ value, value ∈ frame.fixed ∨ value ∈ frame.overflow → heap.RefersInside value

namespace Frame.Echoed

variable {heap copy : Heap} {frame image : Frame} (echoed : frame.Echoed heap copy image)

include echoed

theorem size_eq : image.size = frame.size := by
  simp only [size, echoed.used, echoed.overflow, Array.size_map]

theorem values_eq : image.values = frame.values.map (heap.carry copy) := by
  simp only [values, echoed.used, echoed.fixed, echoed.overflow, List.map_append, List.map_take,
    Vector.toList_map, Array.toList_map]

theorem get_eq (index : Nat) : image.get index = (frame.get index).map (heap.carry copy) := by
  simp only [get, echoed.fixed, echoed.overflow, Array.size_map]
  split
  · simp only [Vector.getElem_map]
    rfl
  · split
    · simp only [Array.getElem_map]
      rfl
    · rfl

end Frame.Echoed

/-- The object in a block stands for one at its place: slots hold what corresponds, and chains of frames run
alongside. -/
structure Block.Echoed (heap copy : Heap) (links : List (Nat × Nat)) (machine image : Machine) (block : Block) :
    Prop where
  imaged : block.Imaged heap.shapes (heap.place copy) (heap.carry copy) machine.memory image.memory
  inside : ∀ shape, heap.shapes.get? (machine.memory.tag block.start) = some shape → ∀ offset,
    shape.Slot machine.memory block.start offset →
      heap.RefersInside (machine.memory.value (block.start + offset))
  chain : machine.memory.tag block.start = Tag.context → ∃ chain : List (Nat × Nat), chain ⊆ links ∧
    machine.Chained ⟨block.start⟩ ((Context.mk block.start).saves machine.memory) (chain.map Prod.fst) ∧
    image.Chained ⟨heap.place copy block.start⟩
      ((Context.mk (heap.place copy block.start)).saves image.memory) (chain.map Prod.snd)

/-- No count is higher than another one. -/
structure Counters.Within (counters most : Counters) : Prop where
  collections : counters.collections ≤ most.collections
  bytesFreed : counters.bytesFreed ≤ most.bytesFreed
  growths : counters.growths ≤ most.growths
  outOfMemory : counters.outOfMemory ≤ most.outOfMemory

theorem Counters.Within.fresh (most : Counters) : Counters.Within {} most :=
  ⟨Nat.zero_le _, Nat.zero_le _, Nat.zero_le _, Nat.zero_le _⟩

namespace Heap

variable {heap copy other otherCopy : Heap} {machine final image copyFinal : Machine}
  {links : List (Nat × Nat)} {tiling swept copied copySwept : Slab → List Block} {block : Block}
  {roots : List Value} {value : Value} {context : Context}

/-- The heaps are of one make, and neither has roots for all of it. -/
structure Siblings (heap copy : Heap) : Prop where
  resembles : heap.Resembles copy
  settings : copy.settings = heap.settings
  shapes : copy.shapes = heap.shapes
  features : copy.features = heap.features
  counters : copy.counters.Within heap.counters
  globals : heap.globals.getD [] = []
  copyGlobals : copy.globals.getD [] = []

/-- Each link pairs a frame with the one that stands for it. -/
structure Linking (heap copy : Heap) (links : List (Nat × Nat)) (machine image : Machine) : Prop where
  echoed : ∀ link ∈ links, ∃ frame, machine.frame? link.1 = some frame ∧
    ∃ other, image.frame? link.2 = some other ∧ frame.Echoed heap copy other
  apart : links.Pairwise fun first second => first.1 ≠ second.1 ∧ first.2 ≠ second.2
  orderly : machine.Orderly
  copyOrderly : image.Orderly

/-- What the first heap holds on its machine, the second one holds on its own, at other places. -/
structure Parallel (heap copy : Heap) (links : List (Nat × Nat)) (tiling copied : Slab → List Block)
    (machine image : Machine) : Prop extends heap.Siblings copy, heap.Linking copy links machine image where
  carries : heap.Carries copy tiling copied
  isSealed : heap.Sealed tiling machine
  copySealed : copy.Sealed copied image
  scratch : copy.scratch = heap.scratch.map (heap.carry copy)
  objects : ∀ block ∈ heap.blocks tiling, block.kind = .object → block.Echoed heap copy links machine image

theorem Siblings.refused (siblings : heap.Siblings copy) : heap.refused.Siblings copy.refused :=
  { siblings with
    counters := { siblings.counters with
      outOfMemory := Nat.add_le_add_right siblings.counters.outOfMemory 1 } }

/-- The context that stands for a context. -/
def carryContext (heap copy : Heap) (context : Context) : Context := ⟨heap.place copy context.address⟩

theorem Tiled.address?_toValue {memory : Memory} (tiled : heap.Tiled memory tiling)
    (isObject : heap.Object tiling context.address) : context.toValue.address? = some context.address := by
  obtain ⟨block, member, _, starts⟩ := isObject
  have bounds := tiled.bounds member
  simp only [starts, Block.stop] at bounds
  exact Value.address?_reference (by omega) (by omega)

namespace Parallel

variable (parallel : heap.Parallel copy links tiling copied machine image)

include parallel

theorem upheld : heap.Upheld (heap.RefersToObject tiling) tiling machine := parallel.isSealed.toUpheld

theorem copyUpheld : copy.Upheld (copy.RefersToObject copied) copied image := parallel.copySealed.toUpheld

theorem mirrors : heap.Mirrors copy (heap.place copy) tiling copied machine.memory image.memory where
  places := parallel.resembles.places parallel.upheld.tiled parallel.copyUpheld.tiled
  features := parallel.features
  shapes block _ _ := by rw [parallel.shapes]
  objects block isObject := by
    rw [parallel.carries.mem_blocks parallel.resembles]
    constructor
    · intro moved
      obtain ⟨original, inHeap, same⟩ := moved
      subst same
      exact ⟨original, inHeap, isObject, rfl⟩
    · intro moved
      obtain ⟨original, inHeap, _, same⟩ := moved
      exact ⟨original, inHeap, same⟩
  imaged block member isObject := (parallel.objects block member isObject).imaged

theorem refers (refers : heap.RefersToObject tiling value) :
    copy.RefersToObject copied (heap.carry copy value) :=
  parallel.mirrors.refers parallel.upheld.tiled refers

theorem carry_toValue (isObject : heap.Object tiling context.address) :
    heap.carry copy context.toValue = (heap.carryContext copy context).toValue := by
  obtain ⟨block, member, _, starts⟩ := isObject
  have bounds := parallel.upheld.tiled.bounds member
  have inHeap := parallel.upheld.tiled.contains member
  simp only [starts, Block.stop] at bounds inHeap
  exact Resembles.carry_reference inHeap (by omega) (by omega)

/-- Heaps with the same slabs are parallel as well, whatever they counted. -/
theorem reroot (slabs : other.slabs = heap.slabs) (copySlabs : otherCopy.slabs = copy.slabs)
    (shapes : other.shapes = heap.shapes) (features : other.features = heap.features)
    (siblings : other.Siblings otherCopy)
    (scratch : otherCopy.scratch = other.scratch.map (heap.carry copy))
    (rooted : ∀ value ∈ other.scratch, heap.RefersToObject tiling value) :
    other.Parallel otherCopy links tiling copied machine image := by
  have copyShapes : otherCopy.shapes = copy.shapes := by
    rw [siblings.shapes, parallel.shapes, shapes]
  have copyFeatures : otherCopy.features = copy.features := by
    rw [siblings.features, parallel.features, features]
  have isSealed : other.Sealed tiling machine :=
    parallel.isSealed.reroot slabs shapes features (by simp [siblings.globals]) rooted
  have copySealed : otherCopy.Sealed copied image := by
    refine parallel.copySealed.reroot copySlabs copyShapes copyFeatures (by simp [siblings.copyGlobals]) ?_
    rw [scratch]
    exact List.forall_mem_map.mpr fun value listed => parallel.refers (rooted value listed)
  obtain ⟨_, _, _, _, _, _, _, _, _⟩ := heap
  obtain ⟨_, _, _, _, _, _, _, _, _⟩ := copy
  obtain ⟨_, _, _, _, _, _, _, _, _⟩ := other
  obtain ⟨_, _, _, _, _, _, _, _, _⟩ := otherCopy
  cases slabs
  cases copySlabs
  cases shapes
  cases copyShapes
  cases features
  cases copyFeatures
  refine ⟨siblings, ⟨fun link listed => ?_, parallel.apart, parallel.orderly, parallel.copyOrderly⟩,
    parallel.carries, isSealed, copySealed, scratch, fun block member isObject => ?_⟩
  · obtain ⟨frame, found, image, copyFound, echoed⟩ := parallel.echoed link listed
    exact ⟨frame, found, image, copyFound, echoed.owned, echoed.context, echoed.linked, echoed.used,
      echoed.fixed, echoed.overflow, echoed.inside⟩
  · obtain ⟨imaged, inside, chain⟩ := parallel.objects block member isObject
    exact ⟨imaged, inside, chain⟩

/-- Contexts that stand for each other save values that do. -/
theorem savedValues_eq (member : block ∈ heap.blocks tiling) (isObject : block.kind = .object)
    (isContext : machine.memory.tag block.start = Tag.context) :
    (Context.mk (heap.place copy block.start)).savedValues image =
      ((Context.mk block.start).savedValues machine).map (heap.carry copy) := by
  obtain ⟨chain, inLinks, chained, copyChained⟩ := (parallel.objects block member isObject).chain isContext
  rw [Context.savedValues, Context.savedValues, Context.frames, Context.frames,
    chained.frameChain_eq chained.length_le, copyChained.frameChain_eq copyChained.length_le]
  clear chained copyChained
  induction chain with
  | nil => rfl
  | cons link chain ih =>
      obtain ⟨frame, found, other, otherFound, echoed⟩ := parallel.echoed link (inLinks List.mem_cons_self)
      simp only [List.map_cons, List.filterMap_cons, found, otherFound, List.flatMap_cons, List.map_append,
        echoed.values_eq, ih fun link listed => inLinks (List.mem_cons_of_mem _ listed)]

section Collecting

variable {from? : Option Context} (named : ∀ context ∈ from?, heap.Object tiling context.address)

include named

theorem rooted_roots : ∀ value ∈ heap.roots from?, heap.RefersToObject tiling value :=
  parallel.isSealed.rooted named

/-- Collections of both heaps start from roots that correspond. -/
theorem roots_eq : copy.roots (from?.map (heap.carryContext copy)) =
    (heap.roots from?).map (heap.carry copy) := by
  simp only [roots, parallel.globals, parallel.copyGlobals, parallel.scratch, List.append_nil,
    List.map_append]
  congr 1
  cases from? with
  | none => rfl
  | some context => exact congrArg (fun value => [value]) (parallel.carry_toValue (named context rfl)).symm

theorem saved (object : Nat) (reached : heap.Reach machine machine.Unmarked (heap.roots from?) object)
    (isContext : machine.memory.tag object = Tag.context) :
    (Context.mk (heap.place copy object)).savedValues image =
      ((Context.mk object).savedValues machine).map (heap.carry copy) := by
  have grounded := parallel.upheld.grounded (parallel.rooted_roots named)
  obtain ⟨block, member, isObject, rfl⟩ := grounded.traced.object_of_reach reached
  exact parallel.savedValues_eq member isObject isContext

theorem reach_iff {address : Nat} (isObject : heap.Object tiling address) :
    copy.Reach image image.Unmarked (copy.roots (from?.map (heap.carryContext copy)))
        (heap.place copy address) ↔
      heap.Reach machine machine.Unmarked (heap.roots from?) address := by
  rw [parallel.roots_eq named]
  exact parallel.mirrors.reach_image_iff (parallel.upheld.grounded (parallel.rooted_roots named)).traced
    parallel.copyUpheld.intact.ready (parallel.saved named) isObject

theorem copyRooted_roots : ∀ value ∈ copy.roots (from?.map (heap.carryContext copy)),
    copy.RefersToObject copied value := by
  intro value listed
  rw [parallel.roots_eq named] at listed
  obtain ⟨original, isRoot, same⟩ := List.mem_map.mp listed
  exact same ▸ parallel.refers (parallel.rooted_roots named original isRoot)

/-- Where both heaps were collected, they stay parallel. -/
theorem survive
    (collected : heap.Collected tiling swept machine final
      (heap.Reach machine machine.Unmarked (heap.roots from?)))
    (copyCollected : copy.Collected copied copySwept image copyFinal
      (copy.Reach image image.Unmarked (copy.roots (from?.map (heap.carryContext copy)))))
    (carries : heap.Carries copy swept copySwept) :
    heap.Parallel copy links swept copySwept final copyFinal := by
  have tiled := parallel.upheld.tiled
  have grounded := parallel.upheld.grounded (parallel.rooted_roots named)
  have mirrors := parallel.mirrors.collected parallel.upheld.intact.ready parallel.copyUpheld.intact.ready
    (fun _ => parallel.reach_iff named) parallel.upheld.intact.weakAlike collected copyCollected
  have frames := Machine.frame?_congr collected.steady.frames
  have copyFrames := Machine.frame?_congr copyCollected.steady.frames
  have before {block : Block} (member : block ∈ heap.blocks swept) (isObject : block.kind = .object) :
      block ∈ heap.blocks tiling ∧ heap.Reach machine machine.Unmarked (heap.roots from?) block.start := by
    obtain ⟨before, alive⟩ := (collected.mem_swept (by simp [isObject])).mp member
    exact ⟨before, alive isObject⟩
  refine { parallel with
    echoed := fun link listed => ?_
    orderly := parallel.orderly.congr collected.steady.frames
    copyOrderly := parallel.copyOrderly.congr copyCollected.steady.frames
    carries
    isSealed := parallel.isSealed.survive (parallel.rooted_roots named) (fun _ => List.mem_append_left _)
      collected
    copySealed := parallel.copySealed.survive (parallel.copyRooted_roots named)
      (fun _ => List.mem_append_left _) copyCollected
    objects := fun block member isObject => ⟨mirrors.imaged block member isObject, fun shape known offset slot => ?_,
      fun isContext => ?_⟩ }
  · rw [frames, copyFrames]
    exact parallel.echoed link listed
  · obtain ⟨before, alive⟩ := before member isObject
    have alike := collected.alike tiled before isObject alive
    rw [alike.tag] at known
    rw [Shape.slot_congr (alike.lengths isObject shape known)] at slot
    -- Weak slots that are dropped are empty on both sides; the others are as they were.
    by_cases dropped : heap.Drops machine (heap.Reach machine machine.Unmarked (heap.roots from?)) block
      offset
    · rw [(collected.objects block before isObject alive).dropped offset dropped]
      exact fun address found => by cases found
    · rw [collected.value_eq tiled before isObject alive known slot dropped]
      exact (parallel.objects block before isObject).inside shape known offset slot
  · obtain ⟨before, alive⟩ := before member isObject
    rw [(collected.alike tiled before isObject alive).tag] at isContext
    obtain ⟨chain, inLinks, chained, copyChained⟩ := (parallel.objects block before isObject).chain isContext
    have copyMember := parallel.mirrors.member before isObject
    have copyAlive := (parallel.reach_iff named ⟨block, before, isObject, rfl⟩).mpr alive
    have copyContext : image.memory.tag (block.moved (heap.place copy)).start = Tag.context :=
      (parallel.objects block before isObject).imaged.tag.trans isContext
    have saves := collected.saves_eq tiled before isObject alive isContext
    have copySaves := copyCollected.saves_eq parallel.copyUpheld.tiled copyMember isObject copyAlive
      copyContext
    simp only [Block.start_moved] at copySaves
    refine ⟨chain, inLinks, ?_, ?_⟩
    · rw [saves]
      exact chained.congr fun number _ => frames number
    · rw [copySaves]
      exact copyChained.congr fun number _ => copyFrames number

/-- Collections of both heaps achieve the same. Only the first heap may be unable to count them, since the other
one has counted no more. -/
theorem collectFrom : (heap.collectFrom from?).Abreast (copy.collectFrom (from?.map (heap.carryContext copy)))
    machine image (fun answer final copyAnswer copyFinal => ∃ stats swept copySwept,
      answer = (heap.counted stats, stats) ∧ copyAnswer = (copy.counted stats, stats) ∧
        heap.Collected tiling swept machine final
          (heap.Reach machine machine.Unmarked (heap.roots from?)) ∧
        image.Steady copyFinal ∧
        (heap.counted stats).Parallel (copy.counted stats) links swept copySwept final copyFinal)
    (heap.Exhausted tiling) := by
  have grounded := parallel.upheld.grounded (parallel.rooted_roots named)
  have copyGrounded := parallel.copyUpheld.grounded (parallel.copyRooted_roots named)
  obtain ⟨shown, final, dies, collected, _, ran⟩ := grounded.clean.collectFrom_swept grounded.traced.closed
  obtain ⟨copyShown, copyFinal, copyDies, copyCollected, _, copyRan⟩ :=
    copyGrounded.clean.collectFrom_swept copyGrounded.traced.closed
  have alike : ∀ block ∈ heap.blocks tiling,
      (block.moved (heap.place copy)).isDead copyShown = block.isDead shown := by
    intro block member
    have copyMember := (parallel.carries.mem_blocks parallel.resembles).mpr ⟨block, member, rfl⟩
    have same : (block.moved (heap.place copy)).isDead copyShown = false ↔ block.isDead shown = false := by
      rw [dies block member, copyDies _ copyMember]
      exact imp_congr_right fun isObject => parallel.reach_iff named ⟨block, member, isObject, rfl⟩
    exact Bool.eq_iff_iff.mpr (by simpa using not_congr same)
  have freed : (sweptStats shown tiling heap.slabs).sumFreed + heap.usedBytes (sweptTiling shown tiling) =
      heap.usedBytes tiling := Marked.sumFreed_eq
  rw [parallel.carries.sweptStats_eq parallel.resembles alike] at copyRan
  generalize sweptStats shown tiling heap.slabs = stats at ran copyRan freed
  have survives := parallel.survive named collected copyCollected (parallel.carries.swept alike)
  have siblings : (heap.counted stats).Siblings (copy.counted stats) :=
    { parallel.toSiblings with
      counters := { parallel.counters with
        collections := Nat.add_le_add_right parallel.counters.collections 1
        bytesFreed := Nat.add_le_add_right parallel.counters.bytesFreed _ } }
  have counted : (heap.counted stats).Parallel (copy.counted stats) links (sweptTiling shown tiling)
      (sweptTiling copyShown copied) final copyFinal :=
    survives.reroot rfl rfl rfl rfl siblings survives.scratch survives.isSealed.scratch
  have fewer := parallel.counters
  split at ran
  · next counts =>
    have copyCounts : copy.counters.Counts 1 stats.sumFreed :=
      ⟨Nat.lt_of_le_of_lt (Nat.add_le_add_right fewer.collections 1) counts.1,
        Nat.lt_of_le_of_lt (Nat.add_le_add_right fewer.bytesFreed _) counts.2⟩
    rw [if_pos copyCounts] at copyRan
    exact .answers ran copyRan ⟨_, _, _, rfl, rfl, collected, copyCollected.steady, counted⟩
  · next uncounted =>
    exact .overflows (.inr fun counts => uncounted (counts.mono (Nat.le_refl 1) (by omega))) ran

end Collecting

end Parallel

end Heap

end SlabHeap
