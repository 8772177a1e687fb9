import SlabHeap.Proofs.Driver
import SlabHeap.Proofs.PairedOperations
import SlabHeap.Proofs.Sealing

namespace SlabHeap

/-! A fork runs in tandem with its source.

A fork of a heap at rest is parallel to it, `Heap.Forks.parallel`. `Heap.Tandem` runs through the states that a
source and its fork come to when each is asked for the counterpart of what the other one is asked for, while
anything may happen on their machines that spares them. `Heap.AtRest.fork_accords`: the two go on answering alike
and have the same free lists, and where they share a machine neither touches the other one.
-/

open Block

namespace Heap

variable {heap copy now copyNow : Heap} {machine image mid copyMid made final : Machine} {context moved : Context}
  {links : List (Nat × Nat)} {tiling : Slab → List Block} {source target : Slab} {keepOwnership : Bool}

/-- A well-formed heap that rests: nothing is being allocated, no frames are linked to its contexts, and it has no
roots for all of it. Objects of all its types fit their blocks, vectors have lengths, and all slots hold
references to objects, if any. -/
structure AtRest (heap : Heap) (tiling : Slab → List Block) (machine : Machine) : Prop
    extends heap.WellFormed machine tiling where
  hosted : ∀ slab ∈ heap.slabs, machine.Hosts slab
  upper : ∀ slab ∈ heap.slabs, slab.stop ≤ Memory.pageLimit * Memory.pageBytes
  confined : ∀ tag shape, heap.shapes.get? tag = some shape → shape.Confined
  counted : ∀ block ∈ heap.blocks tiling, block.kind = .object → block.Counted heap.shapes machine.memory
  refer : ∀ block ∈ heap.blocks tiling, block.kind = .object → ∀ shape,
    heap.shapes.get? (machine.memory.tag block.start) = some shape → ∀ offset,
      shape.Slot machine.memory block.start offset →
        heap.RefersToObject tiling (machine.memory.value (block.start + offset))
  frameless : ∀ block ∈ heap.blocks tiling, block.kind = .object →
    machine.memory.tag block.start = Tag.context → (Context.mk block.start).saves machine.memory = 0
  rootless : heap.globals.getD [] = []
  idle : heap.scratch = []

theorem AtRest.isSealed (atRest : heap.AtRest tiling machine) : heap.Sealed tiling machine where
  tiled := atRest.tiled
  hosted := atRest.hosted
  upper := atRest.upper
  objects block member isObject :=
    ⟨atRest.valid block member isObject, atRest.unmarked block member isObject,
      fun shape known offset followed => atRest.refer block member isObject shape known offset followed.slot,
      fun isContext => ⟨[], atRest.frameless block member isObject isContext, by simp⟩⟩
  confined := atRest.confined
  counted := atRest.counted
  globals := atRest.globals
  scratch := atRest.scratch

/-- A fork is made of a slab of the same size. -/
theorem Upheld.forks_of_run {denotes : Value → Prop} (upheld : heap.Upheld denotes tiling machine)
    (isContext : heap.IsContext tiling machine.memory context)
    (ran : (heap.fork context keepOwnership).run machine = .ok (.ok (copy, moved)) final) :
    ∃ source target made, heap.Forks tiling keepOwnership machine made final source target ∧
      target.size = source.size ∧ copy = heap.forkOf (Machine.heapIdentity machine.identities) target ∧
      moved = ⟨source.counterpart target context.address⟩ := by
  cases checked : heap.checkSource context machine.memory with
  | error refusal =>
      unfold fork at ran
      rw [Action.run_bind (show Action.memory.run machine = .ok machine.memory machine from rfl)] at ran
      simp only [checked] at ran
      cases ran
  | ok source =>
      obtain ⟨single, isIn⟩ := of_checkSource checked
      obtain ⟨⟨block, member, isObject, starts⟩, tagged⟩ := isContext
      have inHeap : source ∈ heap.slabs := by simp [single]
      have inSlab : block ∈ tiling source := by simpa [blocks, single] using member
      have hosted := upheld.hosted source inHeap
      have layout := upheld.tiled.layout source inHeap
      rcases (Heap.ensures_fork single layout hosted inSlab isObject starts tagged isIn keepOwnership).of_run ran with
        ⟨refused, _⟩ | ⟨target, made, answered, sized, created, duplicated⟩
      · cases refused
      · obtain ⟨rfl, rfl⟩ := Prod.mk.inj (Except.ok.inj answered)
        have beside : source.Beside target := ⟨layout.placed, created.layout.placed, Nat.le_of_eq sized.symm,
          (created.vacant.apart hosted).symm⟩
        exact ⟨source, target, made, ⟨single, created, beside, duplicated⟩, sized, rfl, rfl⟩

/-- The copy of an object stands for it. -/
theorem Forks.echoed {block : Block} (forks : heap.Forks tiling keepOwnership machine made final source target)
    (atRest : heap.AtRest tiling machine) (member : block ∈ heap.blocks tiling) (isObject : block.kind = .object)
    (place : heap.place copy block.start = source.counterpart target block.start)
    (carries : heap.carry copy = heap.moveValue (source.counterpart target))
    (imaged : block.Imaged heap.shapes (source.counterpart target) (heap.moveValue (source.counterpart target))
      made.memory final.memory) :
    block.Echoed heap copy [] { made with identities := machine.identities + 1 } final := by
  have before := atRest.isSealed
  have kept : block.Kept machine.memory made.memory := by
    intro address covers
    obtain ⟨slab, inHeap, inSlab⟩ := Heap.mem_blocks.mp member
    have inside := before.tiled.slab_covers inHeap inSlab covers
    exact forks.created.outside address ((atRest.hosted slab inHeap).reserved inside.1 inside.2)
  have large := (before.tiled.bounds member).2.2.1
  have alike := kept.alike (before.fits member) large
  refine ⟨⟨?_, ?_, ?_⟩, fun shape known offset slot => ?_, fun isContext => ⟨[], List.nil_subset _, ?_, ?_⟩⟩
  · rw [place]
    exact imaged.tag
  · rw [place, carries]
    exact imaged.slots
  · rw [place]
    exact imaged.words
  · have known : heap.shapes.get? (machine.memory.tag block.start) = some shape := alike.tag ▸ known
    have describes := (before.tiled.describes member (by simp [isObject]) known).2
    have slot := (Shape.slot_congr (alike.lengths isObject shape known)).mp slot
    have bounds := describes.slotInside offset slot
    have same : made.memory.read (block.start + offset) = machine.memory.read (block.start + offset) :=
      kept _ ⟨by omega, by simp only [Block.stop]; omega⟩
    rw [Memory.value, same]
    exact before.tiled.refersInside (atRest.refer block member isObject shape known offset slot)
  · have tagged := alike.tag.symm.trans isContext
    have size := before.tiled.size_of_context member isObject tagged
    refine (congrArg UInt64.toNat (kept _ ⟨?_, ?_⟩)).trans (atRest.frameless block member isObject tagged) <;>
      simp only [Layout.Context.saves, Block.stop] <;> omega
  · have inSlab : block ∈ tiling source := by simpa [Heap.blocks, forks.single] using member
    have lower := ((before.tiled.layout source (by simp [forks.single])).bounds inSlab).1
    have saves := (forks.duplicated.adapted block inSlab isObject).saves isContext
    rw [Slab.counterpart_add (by omega), ← place] at saves
    exact congrArg UInt64.toNat saves

section Fork

variable (atRest : heap.AtRest tiling machine) (orderly : machine.Orderly)
  (forks : heap.Forks tiling keepOwnership machine made final source target) (sized : target.size = source.size)

include atRest orderly forks sized

/-- A fork is parallel to its source. -/
theorem Forks.parallel (identity : Nat) :
    heap.Parallel (heap.forkOf identity target) [] tiling (copiedTiling source target tiling) final final := by
  have single := forks.single
  have copySingle : (heap.forkOf identity target).slabs = [target] := rfl
  have sealedBefore := atRest.isSealed.extended forks.reserved
  have tiled := sealedBefore.tiled
  have mirrors := forks.duplicated.mirrors_copy single copySingle forks.beside sealedBefore.toUpheld
    (fun _ _ _ => rfl) rfl
  have resembles : heap.Resembles (heap.forkOf identity target) := by
    rw [Resembles, single, copySingle]
    exact .cons sized .nil
  have paired : (source, target) ∈ heap.slabs.zip (heap.forkOf identity target).slabs := by
    rw [single, copySingle]
    exact List.mem_cons_self
  have places {address : Nat} (inside : heap.contains address = true) :
      heap.place (heap.forkOf identity target) address = source.counterpart target address :=
    Resembles.place_eq tiled paired (contains_of_single single address ▸ inside)
  have carries : heap.carry (heap.forkOf identity target) = heap.moveValue (source.counterpart target) := by
    funext value
    unfold carry moveValue
    split
    · rfl
    · next address _ =>
      split
      · next inside => rw [places inside]
      · rfl
  have extended : machine.Extended { made with identities := machine.identities + 1 } := forks.reserved
  have before : heap.Parallel (heap.forkOf identity target) [] tiling (copiedTiling source target tiling)
      { made with identities := machine.identities + 1 } final := by
    refine ⟨⟨resembles, rfl, rfl, rfl, .fresh _, atRest.rootless, rfl⟩, ⟨by simp, .nil, orderly.congr extended.frames,
      orderly.congr forks.extended.frames⟩, fun slab image isPair => ?_, sealedBefore, forks.seals atRest.isSealed identity,
      by rw [atRest.idle]; rfl, fun block member isObject => ?_⟩
    · rw [single, copySingle] at isPair
      cases List.mem_singleton.mp isPair
      have none : Block.extend ((tiling source).map (source.moveBlock target)) (source.filled target).stop
          (target.size - source.size) = (tiling source).map (source.moveBlock target) := if_pos (by omega)
      rw [copiedTiling, none]
      refine List.map_congr_left fun block inSlab => ?_
      have inHeap := tiled.contains (Heap.mem_blocks.mpr ⟨source, by simp [single], inSlab⟩)
      rw [Slab.moveBlock, Block.moved, places inHeap]
    · exact forks.echoed atRest member isObject (places (tiled.contains member)) carries
        (mirrors.imaged block member isObject)
  refine before.bypassed ⟨fun slab inHeap address above below => ?_, fun number _ found _ => ?_,
    forks.duplicated.steady.taken_subset, orderly.congr forks.extended.frames⟩
    (.of_quiet (.refl final) (orderly.congr forks.extended.frames))
  · exact forks.duplicated.outside address
      (forks.created.vacant.outside ((atRest.hosted slab inHeap).reserved above below))
  · exact (Machine.frame?_congr forks.duplicated.steady.frames number).trans found

end Fork

/-- What a heap and one that is parallel to it have in common. -/
structure Accordant (now copyNow : Heap) (links : List (Nat × Nat)) (mid copyMid : Machine) : Prop where
  totalSize : copyNow.totalSize = now.totalSize
  freeOffsets : List.Forall₂ (fun slab image => image.freeOffsets copyMid.memory = slab.freeOffsets mid.memory)
    now.slabs copyNow.slabs
  next : ∀ op : Operation, op.Apt now mid (now.Allocated mid.memory) →
    op.Legible now mid (now.Allocated mid.memory) links → op.Accommodated now mid copyMid →
      (op.perform now).Abreast ((op.counterpart now copyNow links).perform copyNow) mid copyMid
        (fun answer _ copyAnswer _ => now.Prolongs copyNow answer.1 copyAnswer.1 ∧
          op.AnswersAlike answer.1 copyAnswer.1 (op.relink mid copyMid links) answer.2 copyAnswer.2)
        (∃ tiling, now.Tiled mid.memory tiling ∧ now.Exhausted tiling)

/-- The states that two heaps come to, each on a machine, where the second one is asked for the counterpart of
what the first one is asked for. The numbers of frames that stand for each other are linked. -/
inductive Tandem (heap copy : Heap) (machine image : Machine) :
    Heap → Heap → List (Nat × Nat) → Machine → Machine → Prop
  | start : Tandem heap copy machine image heap copy [] machine image
  | meanwhile {now copyNow : Heap} {links : List (Nat × Nat)} {mid copyMid final copyFinal : Machine}
      (before : Tandem heap copy machine image now copyNow links mid copyMid) (bypassed : now.Bypassed mid final)
      (copyBypassed : copyNow.Bypassed copyMid copyFinal) : Tandem heap copy machine image now copyNow links final copyFinal
  | step {now copyNow after copyAfter : Heap} {links : List (Nat × Nat)} {mid copyMid final copyFinal : Machine}
      {op : Operation} {answer copyAnswer : Answer}
      (before : Tandem heap copy machine image now copyNow links mid copyMid)
      (apt : op.Apt now mid (now.Allocated mid.memory)) (legible : op.Legible now mid (now.Allocated mid.memory) links)
      (accommodated : op.Accommodated now mid copyMid)
      (ran : (op.perform now).run mid = .ok (after, answer) final)
      (copyRan : ((op.counterpart now copyNow links).perform copyNow).run copyMid = .ok (copyAfter, copyAnswer) copyFinal) :
      Tandem heap copy machine image after copyAfter (op.relink mid copyMid links) final copyFinal

namespace Parallel

variable {copied : Slab → List Block} (parallel : heap.Parallel copy links tiling copied machine image)

include parallel

theorem accordant : heap.Accordant copy links machine image where
  totalSize := parallel.resembles.totalSize_eq
  freeOffsets := List.forall₂_iff_zip.mpr ⟨List.Forall₂.length_eq parallel.resembles,
    fun paired => parallel.carries.freeOffsets_eq parallel.upheld.tiled parallel.copyUpheld.tiled paired⟩
  next op apt legible accommodated := by
    have same : heap.Allocated machine.memory = heap.Object tiling :=
      funext fun address => propext parallel.upheld.tiled.allocated_iff
    rw [same] at apt legible
    exact (op.accords parallel apt legible accommodated).weaken (fun _ _ _ _ accords => ⟨accords.prolongs, accords.alike⟩)
      fun exhausted => ⟨tiling, parallel.upheld.tiled, exhausted⟩

end Parallel

/-- Heaps that run in tandem stay parallel. -/
theorem Tandem.parallel {copied : Slab → List Block} (parallel : heap.Parallel copy [] tiling copied machine image)
    (tandem : heap.Tandem copy machine image now copyNow links mid copyMid) :
    (∃ divided copyDivided, now.Parallel copyNow links divided copyDivided mid copyMid) ∧
      heap.Prolongs copy now copyNow := by
  induction tandem with
  | start => exact ⟨⟨tiling, copied, parallel⟩, .of_slabs rfl rfl⟩
  | meanwhile _ bypassed copyBypassed ih =>
      obtain ⟨⟨divided, copyDivided, still⟩, prolongs⟩ := ih
      exact ⟨⟨divided, copyDivided, still.bypassed bypassed copyBypassed⟩, prolongs⟩
  | @step now copyNow after copyAfter links mid copyMid final copyFinal op _ _ _ apt legible accommodated ran copyRan ih =>
      obtain ⟨⟨divided, copyDivided, still⟩, prolongs⟩ := ih
      have same : now.Allocated mid.memory = now.Object divided :=
        funext fun address => propext still.upheld.tiled.allocated_iff
      rw [same] at apt legible
      have accords := (op.accords still apt legible accommodated).of_runs ran copyRan
      exact ⟨accords.parallel, prolongs.trans accords.prolongs⟩

/-- The states that two heaps on one machine come to through operations that use each as it is meant to be used, in
any order. -/
inductive Interleaved (heap copy : Heap) (machine : Machine) : Heap → Heap → Machine → Prop
  | start : Interleaved heap copy machine heap copy machine
  | first {now copyNow after : Heap} {mid final : Machine} {op : Operation} {answer : Answer}
      (before : Interleaved heap copy machine now copyNow mid) (apt : op.Apt now mid (now.Allocated mid.memory))
      (ran : (op.perform now).run mid = .ok (after, answer) final) : Interleaved heap copy machine after copyNow final
  | second {now copyNow after : Heap} {mid final : Machine} {op : Operation} {answer : Answer}
      (before : Interleaved heap copy machine now copyNow mid) (apt : op.Apt copyNow mid (copyNow.Allocated mid.memory))
      (ran : (op.perform copyNow).run mid = .ok (after, answer) final) : Interleaved heap copy machine now after final

/-- Two sealed heaps that lie apart. -/
structure Neighbours (heap copy : Heap) (machine : Machine) : Prop where
  still : ∃ tiling, heap.Sealed tiling machine
  copyStill : ∃ tiling, copy.Sealed tiling machine
  apart : heap.Apart copy
  orderly : machine.Orderly

namespace Neighbours

variable (neighbours : heap.Neighbours copy machine)

include neighbours

theorem symm : copy.Neighbours heap machine :=
  ⟨neighbours.copyStill, neighbours.still, neighbours.apart.symm, neighbours.orderly⟩

/-- What is done to one heap spares the other one. -/
theorem step {op : Operation} {after : Heap} {answer : Answer}
    (apt : op.Apt heap machine (heap.Allocated machine.memory))
    (ran : (op.perform heap).run machine = .ok (after, answer) final) :
    copy.Bypassed machine final ∧ after.Neighbours copy final := by
  obtain ⟨tiling, still⟩ := neighbours.still
  obtain ⟨divided, copyStill⟩ := neighbours.copyStill
  have same : heap.Allocated machine.memory = heap.Object tiling :=
    funext fun address => propext still.tiled.allocated_iff
  rw [same] at apt
  have seals := op.seals still neighbours.orderly apt ran
  have bypassed := seals.within.bypassed seals.orderly neighbours.apart copyStill.hosted
  exact ⟨bypassed, seals.still, ⟨divided, (copyStill.retains bypassed).isSealed⟩,
    seals.within.apart neighbours.apart copyStill.hosted, seals.orderly⟩

theorem interleaved (interleaved : heap.Interleaved copy machine now copyNow mid) : now.Neighbours copyNow mid := by
  induction interleaved with
  | start => exact neighbours
  | first _ apt ran ih => exact (ih.step apt ran).2
  | second _ apt ran ih => exact (ih.symm.step apt ran).2.symm

end Neighbours

/-- What is done to a heap and to its fork spares the other one of them, wherever operations on both got. -/
structure Undisturbing (heap copy : Heap) (machine : Machine) : Prop where
  first : ∀ (op : Operation) (after : Heap) (answer : Answer) (final : Machine),
    op.Apt heap machine (heap.Allocated machine.memory) → (op.perform heap).run machine = .ok (after, answer) final →
      copy.Bypassed machine final
  second : ∀ (op : Operation) (after : Heap) (answer : Answer) (final : Machine),
    op.Apt copy machine (copy.Allocated machine.memory) → (op.perform copy).run machine = .ok (after, answer) final →
      heap.Bypassed machine final

/-- A fork behaves like its source. While both are asked for what corresponds, their answers do, as well as their
free lists and sizes, and what stands for a value once does so for good. Where they share a machine, no operation
on one of them changes a byte of the other one. -/
theorem AtRest.fork_accords (atRest : heap.AtRest tiling machine) (orderly : machine.Orderly)
    (isContext : heap.IsContext tiling machine.memory context)
    (ran : (heap.fork context keepOwnership).run machine = .ok (.ok (copy, moved)) final) :
    moved = heap.carryContext copy context ∧
      (∀ now copyNow links mid copyMid, heap.Tandem copy final final now copyNow links mid copyMid →
        now.Accordant copyNow links mid copyMid ∧ heap.Prolongs copy now copyNow) ∧
      ∀ now copyNow mid, heap.Interleaved copy final now copyNow mid →
        now.Undisturbing copyNow mid := by
  obtain ⟨source, target, made, forks, sized, rfl, rfl⟩ := atRest.isSealed.toUpheld.forks_of_run isContext ran
  have parallel := forks.parallel atRest orderly sized (Machine.heapIdentity machine.identities)
  have apart : heap.Apart (heap.forkOf (Machine.heapIdentity machine.identities) target) := by
    intro slab inHeap image inCopy
    obtain rfl : slab = source := by simpa [forks.single] using inHeap
    obtain rfl : image = target := by simpa [forkOf] using inCopy
    exact forks.beside.apart
  have neighbours : heap.Neighbours (heap.forkOf (Machine.heapIdentity machine.identities) target) final :=
    ⟨⟨_, parallel.isSealed⟩, ⟨_, parallel.copySealed⟩, apart, parallel.orderly⟩
  refine ⟨?_, fun now copyNow links mid copyMid tandem => ?_, fun now copyNow mid interleaved => ?_⟩
  · obtain ⟨block, member, _, starts⟩ := isContext.1
    have inside := atRest.tiled.contains member
    rw [starts, contains_of_single forks.single] at inside
    exact congrArg Context.mk (Resembles.place_eq atRest.tiled (by simp [forks.single, forkOf]) inside).symm
  · obtain ⟨⟨divided, copyDivided, still⟩, prolongs⟩ := tandem.parallel parallel
    exact ⟨still.accordant, prolongs⟩
  · have beside := neighbours.interleaved interleaved
    exact ⟨fun _ _ _ _ apt ran => (beside.step apt ran).1, fun _ _ _ _ apt ran => (beside.symm.step apt ran).1⟩

section Ring

theorem atRest_ring : ringHeap.AtRest (fun _ => ringBlocks) ringMachine := by
  obtain ⟨context, pair⟩ := header_ring
  have inHeap {block : Block} (member : block ∈ ringBlocks) : block ∈ ringHeap.blocks fun _ => ringBlocks :=
    blocks_ring ▸ member
  refine { wellFormed_ring with
    hosted := by decide
    upper := by decide
    confined := fun _ _ => ShapeTable.confined_standard
    counted := forall_objects_ring (fun isVector => ?_) fun isVector => ?_
    refer := forall_objects_ring (fun shape known offset slot => ?_) fun shape known offset slot => ?_
    frameless := forall_objects_ring (fun _ => ?_) fun isContext => ?_
    rootless := rfl
    idle := rfl }
  · simp only [Memory.tag, context] at isVector
    exact absurd isVector (by decide)
  · simp only [Memory.tag, pair] at isVector
    exact absurd isVector (by decide)
  · have standard := known
    simp only [Memory.tag, context] at standard
    obtain rfl : Shape.context = shape := Option.some.inj standard
    exact wellFormed_ring.slots _ (inHeap (by simp [ringBlocks])) rfl _ known _ (.inl (slot.strong rfl))
  · have standard := known
    simp only [Memory.tag, pair] at standard
    obtain rfl : Shape.pair = shape := Option.some.inj standard
    exact wellFormed_ring.slots _ (inHeap (by simp [ringBlocks])) rfl _ known _ (.inl (slot.strong rfl))
  · simp [Context.saves, ringMachine, ringWords, Memory.read_write, Layout.Context.saves]
  · simp only [Memory.tag, pair] at isContext
    cases isContext

/-- The ring and its fork answer alike when they are collected. -/
theorem fork_accords_ring : ∃ copy final, (ringHeap.fork ⟨0x3ffffffff010⟩ false).run ringMachine =
      .ok (.ok (copy, ringHeap.carryContext copy ⟨0x3ffffffff010⟩)) final ∧ copy.totalSize = ringHeap.totalSize ∧
    ((Operation.collect ⟨0x3ffffffff010⟩).perform ringHeap).Abreast
      ((Operation.collect (ringHeap.carryContext copy ⟨0x3ffffffff010⟩)).perform copy) final final
      (fun answer _ copyAnswer _ => copyAnswer.2 = answer.2.map (answer.1.carry copyAnswer.1)) False := by
  have member : ⟨0x3ffffffff010, 48, .object⟩ ∈ ringBlocks := by simp [ringBlocks]
  have isObject : ringHeap.Object (fun _ => ringBlocks) 0x3ffffffff010 := ⟨_, blocks_ring ▸ member, rfl, rfl⟩
  have tagged : ringMachine.memory.tag 0x3ffffffff010 = Tag.context := congrArg Header.tag header_ring.1
  have isContext : ringHeap.IsContext (fun _ => ringBlocks) ringMachine.memory ⟨0x3ffffffff010⟩ := ⟨isObject, tagged⟩
  have isIn : (Context.mk 0x3ffffffff010).isIn ringHeap ringMachine.memory = true := by
    simp [Context.isIn, Context.heapWord, ringMachine, ringWords, ringHeap, Memory.read_write, Layout.Context.heap]
  have orderly : ringMachine.Orderly := ⟨by decide, fun number frame found => by simp [Machine.frame?, ringMachine] at found⟩
  have room : ringMachine.Room ringSlab.size := ⟨0x1000, 0x3fffffffe, by decide, by decide⟩
  obtain ⟨_, final, ran, ⟨_, _, full⟩ | ⟨target, made, rfl, _⟩⟩ :=
    ensures_fork (show ringHeap.slabs = [ringSlab] from rfl) layout_ring (by decide) member rfl rfl tagged isIn false
  · exact absurd room full
  obtain ⟨moved, accordant, _⟩ := atRest_ring.fork_accords orderly isContext ran
  obtain ⟨_, _, _, forks, _⟩ := atRest_ring.isSealed.toUpheld.forks_of_run isContext ran
  have tiled := (atRest_ring.isSealed.extended forks.extended).tiled
  obtain ⟨⟨totalSize, _, next⟩, _⟩ := accordant _ _ _ _ _ .start
  refine ⟨_, final, moved ▸ ran, totalSize, ?_⟩
  refine (next (.collect ⟨0x3ffffffff010⟩) ⟨_, tiled, isObject⟩ trivial trivial).weaken
    (fun _ _ _ _ alike => alike.2) fun exhausted => ?_
  obtain ⟨divided, again, exhausted⟩ := exhausted
  have small : ringHeap.usedBytes divided = 80 := by
    rw [usedBytes, ← tiled.blocks_eq again, blocks_ring]
    decide
  rw [Exhausted, small] at exhausted
  exact absurd exhausted (by decide)

end Ring

end Heap

end SlabHeap
