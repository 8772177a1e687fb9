import SlabHeap.Proofs.Deliveries
import SlabHeap.Proofs.Enduring

namespace SlabHeap

/-! Allocation in parallel heaps.

Parallel heaps find free blocks at places that correspond, `Heap.Parallel.takeFrom`, and grow at the same time
by slabs of the same size, if there is as much room for both, `Heap.Parallel.growFor`. They stay parallel when
they are asked for a block, `Heap.Parallel.allocateBlock`.
-/

open Block FreeList

namespace Block

variable {place : Nat → Nat} {start size request : Nat} {front back : List Block}

/-- What is left of a block that is moved is moved with it. -/
theorem rest_moved (along : ∀ offset < size, place (start + offset) = place start + offset) :
    (rest start size request).map (Block.moved place) = rest (place start) size request := by
  simp only [rest]
  split
  · next splits =>
    simp only [blockUnit] at splits
    simp only [List.map_cons, List.map_nil, Block.moved, along request (by omega)]
  · rfl

/-- A free block with room behind others without is found where they were moved. -/
theorem split_moved {blocks : List Block} {otherFront otherBack : List Block} {otherStart otherSize : Nat}
    (split : blocks = front ++ ⟨start, size, .free⟩ :: back)
    (passed : ∀ entry ∈ frees front, entry.2 < request) (fits : request ≤ size)
    (moved : blocks.map (Block.moved place) = otherFront ++ ⟨otherStart, otherSize, .free⟩ :: otherBack)
    (otherPassed : ∀ entry ∈ frees otherFront, entry.2 < request) (otherFits : request ≤ otherSize) :
    otherFront = front.map (Block.moved place) ∧ otherStart = place start ∧ otherSize = size ∧
      otherBack = back.map (Block.moved place) := by
  subst split
  induction front generalizing otherFront with
  | nil =>
      cases otherFront with
      | nil =>
          simp only [List.nil_append, List.map_cons, List.cons.injEq] at moved
          obtain ⟨here, behind⟩ := moved
          cases here
          exact ⟨rfl, rfl, rfl, behind.symm⟩
      | cons first others =>
          simp only [List.nil_append, List.map_cons, List.cons_append, List.cons.injEq] at moved
          -- One search would have passed a block with room.
          have small := otherPassed (place start, size) (by simp [frees, ← moved.1])
          omega
  | cons first front ih =>
      cases otherFront with
      | nil =>
          simp only [List.nil_append, List.map_cons, List.cons_append, List.cons.injEq] at moved
          have same := congrArg Block.size moved.1
          have free := congrArg Block.kind moved.1
          simp only [size_moved, kind_moved] at same free
          have small := passed (first.start, first.size) (by simp [frees, free])
          omega
      | cons otherFirst others =>
          simp only [List.map_cons, List.cons_append, List.cons.injEq] at moved
          obtain ⟨here, behind⟩ := moved
          subst here
          have later {blocks : List Block} {block : Block} (smaller : ∀ entry ∈ frees (block :: blocks), entry.2 < request) :
              ∀ entry ∈ frees blocks, entry.2 < request := by
            intro entry listed
            refine smaller entry ?_
            simp only [frees]
            split
            · exact List.mem_cons_of_mem _ listed
            · exact listed
          obtain ⟨same, starts, sizes, ends⟩ := ih (later passed) (later otherPassed) behind
          exact ⟨by rw [same, List.map_cons], starts, sizes, ends⟩

end Block

namespace Heap

variable {heap copy : Heap} {machine image final copyFinal : Machine} {links : List (Nat × Nat)}
  {tiling copied : Slab → List Block} {slab imageSlab : Slab} {front back blocks : List Block}
  {start size request : Nat}

namespace Carries

theorem update (carries : heap.Carries copy tiling copied) (apart : heap.slabs.Pairwise Slab.Apart)
    (copyApart : copy.slabs.Pairwise Slab.Apart) (large : ∀ slab ∈ heap.slabs, 0 < slab.size)
    (copyLarge : ∀ slab ∈ copy.slabs, 0 < slab.size)
    (paired : (slab, imageSlab) ∈ heap.slabs.zip copy.slabs) :
    heap.Carries copy (Function.update tiling slab blocks)
      (Function.update copied imageSlab (blocks.map (Block.moved (heap.place copy)))) := by
  have distinct {slab : Slab} (positive : 0 < slab.size) : ¬ slab.Apart slab := by
    simp only [Slab.Apart, Slab.stop]
    omega
  intro other otherImage otherPaired
  cases Slab.zip_apart apart copyApart otherPaired paired with
  | inl same =>
      cases same
      rw [Function.update_self, Function.update_self]
  | inr parts =>
      obtain ⟨inHeap, inCopy⟩ := List.of_mem_zip paired
      have other : other ≠ slab := fun same => distinct (large slab inHeap) (same ▸ parts.1)
      have otherImage : otherImage ≠ imageSlab := fun same => distinct (copyLarge imageSlab inCopy) (same ▸ parts.2)
      rw [Function.update_of_ne other, Function.update_of_ne otherImage]
      exact carries _ _ otherPaired

end Carries

/-- A request was carved from free blocks that stand for each other. -/
structure CarvedAlike (heap copy : Heap) (tiling copied : Slab → List Block) (request start : Nat)
    (machine final image copyFinal : Machine) (slab imageSlab : Slab) (front : List Block) (size : Nat)
    (back : List Block) : Prop where
  paired : (slab, imageSlab) ∈ heap.slabs.zip copy.slabs
  split : tiling slab = front ++ ⟨start, size, .free⟩ :: back
  fits : request ≤ size
  steady : machine.Steady final
  copySteady : image.Steady copyFinal
  obtained : heap.Obtained tiling (Function.update tiling slab (carved front start size request back))
    machine.memory final.memory ⟨start, request, .bare⟩
  copyObtained : copy.Obtained copied (Function.update copied imageSlab
      (carved (front.map (Block.moved (heap.place copy))) (heap.place copy start) size request
        (back.map (Block.moved (heap.place copy)))))
    image.memory copyFinal.memory ⟨heap.place copy start, request, .bare⟩
  zero : ∀ address, start ≤ address → address < start + request → final.memory.read address = 0
  copyZero : ∀ address, heap.place copy start ≤ address → address < heap.place copy start + request →
    copyFinal.memory.read address = 0

/-- There is room for the slab that a heap would get for a request on both machines, or on neither. -/
def RoomsAlike (heap : Heap) (request : Nat) (machine image : Machine) : Prop :=
  ∀ size, heap.nextSize? request = some size → (machine.Room size ↔ image.Room size)

/-- Parallel heaps became others that are parallel, and still have what some values refer to. -/
structure Evolves (heap copy after copyAfter : Heap) (links : List (Nat × Nat))
    (tiling divided copyDivided : Slab → List Block) (kept : List Value) (final copyFinal : Machine) : Prop
    extends after.Parallel copyAfter links divided copyDivided final copyFinal where
  prolongs : heap.Prolongs copy after copyAfter
  holds : after.scratch = heap.scratch
  known : after.shapes = heap.shapes
  refusals : after.counters.outOfMemory = heap.counters.outOfMemory
  stays : ∀ value ∈ kept, heap.RefersToObject tiling value → after.RefersToObject divided value

theorem Evolves.trans {mid copyMid after copyAfter : Heap} {divided copyDivided taken copyTaken : Slab → List Block}
    {kept : List Value} {between copyBetween : Machine}
    (first : heap.Evolves copy mid copyMid links tiling divided copyDivided kept between copyBetween)
    (second : mid.Evolves copyMid after copyAfter links divided taken copyTaken kept final copyFinal) :
    heap.Evolves copy after copyAfter links tiling taken copyTaken kept final copyFinal :=
  { second.toParallel with
    prolongs := first.prolongs.trans second.prolongs
    holds := second.holds.trans first.holds
    known := second.known.trans first.known
    refusals := second.refusals.trans first.refusals
    stays := fun value listed refers => second.stays value listed (first.stays value listed refers) }

/-- Parallel heaps were asked for a block and gave blocks that stand for each other, or refused for the same
reason. -/
inductive AnsweredAlike (heap copy : Heap) (links : List (Nat × Nat)) (tiling : Slab → List Block)
    (kept : List Value) (size : Nat) :
    Heap × Except HeapError Nat → Machine → Heap × Except HeapError Nat → Machine → Prop
  | given {after copyAfter : Heap} {divided copyDivided : Slab → List Block} {mid copyMid final copyFinal : Machine}
      {request start free : Nat} {slab imageSlab : Slab} {front back : List Block}
      (evolves : heap.Evolves copy after copyAfter links tiling divided copyDivided kept mid copyMid)
      (rounded : Size.alignUp? (max size blockUnit) blockUnit = some request)
      (carved : after.CarvedAlike copyAfter divided copyDivided request start mid final copyMid copyFinal slab
        imageSlab front free back) :
      AnsweredAlike heap copy links tiling kept size (after, .ok start) final
        (copyAfter, .ok (after.place copyAfter start)) copyFinal
  | refused {after copyAfter : Heap} {divided copyDivided : Slab → List Block} {final copyFinal : Machine}
      (evolves : heap.Evolves copy after copyAfter links tiling divided copyDivided kept final copyFinal)
      (refusal : HeapError) :
      AnsweredAlike heap copy links tiling kept size (after.refused, .error refusal) final
        (copyAfter.refused, .error refusal) copyFinal

namespace Parallel

variable (parallel : heap.Parallel copy links tiling copied machine image)

include parallel

theorem takeFrom (whole : request % blockUnit = 0) (positive : 0 < request) {slabs images : List Slab}
    (paired : List.Forall₂ (fun slab image => (slab, image) ∈ heap.slabs.zip copy.slabs) slabs images) :
    (Heap.takeFrom request slabs).Abreast (Heap.takeFrom request images) machine image
      (fun answer final copyAnswer copyFinal =>
        (answer = none ∧ final = machine ∧ copyAnswer = none ∧ copyFinal = image) ∨
        ∃ start slab imageSlab front size back, answer = some start ∧
          copyAnswer = some (heap.place copy start) ∧
          heap.CarvedAlike copy tiling copied request start machine final image copyFinal slab imageSlab front size
            back) False := by
  have tiled := parallel.upheld.tiled
  have copyTiled := parallel.copyUpheld.tiled
  induction paired with
  | nil => exact .answers rfl rfl (.inl ⟨rfl, rfl, rfl, rfl⟩)
  | @cons slab imageSlab slabs images paired _ ih =>
      obtain ⟨inHeap, inCopy⟩ := List.of_mem_zip paired
      have carries := parallel.carries slab imageSlab paired
      have layout := tiled.layout slab inHeap
      have copyLayout := copyTiled.layout imageSlab inCopy
      have sizes : frees (copied imageSlab) = (frees (tiling slab)).map fun entry =>
          (heap.place copy entry.1, entry.2) := by rw [carries, frees_moved_blocks]
      unfold Heap.takeFrom
      rcases layout.fit?_eq request with ⟨small, none⟩ | ⟨front, start, size, back, split, passed, fits, found⟩
      · rcases copyLayout.fit?_eq request with
          ⟨_, copyNone⟩ | ⟨copyFront, copyStart, copySize, copyBack, copySplit, _, copyFits, _⟩
        · exact .memory (.check none copyNone ih)
        · have listed : (copyStart, copySize) ∈ frees (copied imageSlab) :=
            mem_frees.mpr (copySplit ▸ List.mem_append_right _ List.mem_cons_self)
          rw [sizes, List.mem_map] at listed
          obtain ⟨entry, isEntry, same⟩ := listed
          cases same
          have := small entry isEntry
          omega
      · rcases copyLayout.fit?_eq request with
          ⟨copySmall, _⟩ | ⟨copyFront, copyStart, copySize, copyBack, copySplit, copyPassed, copyFits, copyFound⟩
        · have listed : (start, size) ∈ frees (tiling slab) :=
            mem_frees.mpr (split ▸ List.mem_append_right _ List.mem_cons_self)
          have := copySmall (heap.place copy start, size) (sizes ▸ List.mem_map_of_mem listed)
          omega
        · obtain ⟨rfl, rfl, rfl, rfl⟩ :=
            split_moved split passed fits (carries.symm.trans copySplit) copyPassed copyFits
          obtain ⟨obtained, zero⟩ := tiled.carve inHeap split whole positive fits _ rfl
          obtain ⟨copyObtained, copyZero⟩ := copyTiled.carve inCopy copySplit whole positive fits _ rfl
          refine .memory (.check found copyFound ?_)
          exact .answers rfl rfl (.inr ⟨start, slab, imageSlab, front, _, back, rfl, rfl,
            ⟨paired, split, fits, machine.steady_withMemory _, image.steady_withMemory _, obtained, copyObtained,
              zero, copyZero⟩⟩)

theorem quietly {kept : List Value} (quiet : machine.Quiet final) (copyQuiet : image.Quiet copyFinal) :
    heap.Evolves copy heap copy links tiling tiling copied kept final copyFinal :=
  { parallel.quiet quiet copyQuiet with
    prolongs := .of_slabs rfl rfl
    holds := rfl
    known := rfl
    refusals := rfl
    stays := fun _ _ => id }

/-- Where the first heap can count a refusal, the other one can. -/
theorem countRefusal {α β : Type} {next : Heap → Action α} {otherNext : Heap → Action β}
    {last : α → Machine → β → Machine → Prop} {full : Prop}
    (isFull : Size.limit ≤ heap.counters.outOfMemory + 1 → full)
    (rest : (next heap.refused).Abreast (otherNext copy.refused) machine image last full) :
    ((liftM heap.countRefusal : Action Heap) >>= next).Abreast
      ((liftM copy.countRefusal : Action Heap) >>= otherNext) machine image last full :=
  .count heap.countRefusal_eq copy.countRefusal_eq
    (fun counts => Nat.lt_of_le_of_lt (Nat.add_le_add_right parallel.counters.outOfMemory 1) counts)
    (fun spent => isFull (Nat.not_lt.mp spent)) rest

section Growing

variable {swept : SweepStats} (kept : List Value) (rooms : heap.RoomsAlike request machine image)

include rooms

/-- Both heaps grow, or neither. -/
theorem appendSlab : (heap.appendSlab request).Abreast (copy.appendSlab request) machine image
    (fun answer final copyAnswer copyFinal => copyAnswer.2 = answer.2 ∧ ∃ divided copyDivided,
      heap.Evolves copy answer.1 copyAnswer.1 links tiling divided copyDivided kept final copyFinal)
    heap.counters.Spent := by
  have tiled := parallel.upheld.tiled
  have sized : copy.nextSize? request = heap.nextSize? request := by
    rw [nextSize?, nextSize?, parallel.resembles.lastSlab_size, parallel.resembles.totalSize_eq, parallel.settings]
  unfold Heap.appendSlab
  simp only
  rw [show nextSlabSize? copy.lastSlab.size request copy.totalSize copy.settings.maxSize = copy.nextSize? request
    from rfl, sized, show nextSlabSize? heap.lastSlab.size request heap.totalSize heap.settings.maxSize =
      heap.nextSize? request from rfl]
  cases next : heap.nextSize? request with
  | none => exact .note (.pure ⟨rfl, _, _, parallel.quietly (machine.quiet_logging _) (image.quiet_logging _)⟩)
  | some size =>
      have exact := (nextSlabSize?_eq_some tiled.lastSlab_large next).1
      -- Both slabs are made, or neither, so that two of the four cases cannot occur.
      have alike := rooms size next
      refine Action.Abreast.bind (.of_ensures (Slab.ensures_create heap.shapes) (Slab.ensures_create copy.shapes)
        fun _ _ _ _ made copyMade => And.intro made copyMade) ?_
      rintro _ final _ copyFinal
        ⟨⟨rfl, rfl, noRoom⟩ | ⟨slab, rfl, rounded, room, _, created⟩,
          ⟨rfl, rfl, copyNoRoom⟩ | ⟨copySlab, rfl, copyRounded, copyRoom, _, copyCreated⟩⟩
      · exact .note (.pure ⟨rfl, _, _, parallel.quietly (Machine.quiet_logging _ _) (Machine.quiet_logging _ _)⟩)
      · obtain rfl := Option.some.inj (exact.symm.trans copyRounded)
        exact absurd (alike.mpr copyRoom) (noRoom _ exact)
      · obtain rfl := Option.some.inj (exact.symm.trans rounded)
        exact absurd (alike.mp room) (copyNoRoom _ exact)
      · obtain rfl := Option.some.inj (exact.symm.trans rounded)
        have same : copySlab.size = slab.size := Option.some.inj (copyRounded.symm.trans exact)
        have created := created.quiet (final.quiet_logging (.notice (.grown slab.size (heap.totalSize + slab.size))))
        have copyCreated :=
          copyCreated.quiet (copyFinal.quiet_logging (.notice (.grown slab.size (copy.totalSize + slab.size))))
        have grows : heap.Evolves copy (heap.grown slab) (copy.grown copySlab) links tiling _ _ kept _ _ :=
          { parallel.grown same created copyCreated with
            prolongs := .grown parallel.resembles
            holds := rfl
            known := rfl
            refusals := rfl
            stays := fun value _ refers => refers.mono fun _ member inUse =>
              (parallel.upheld.mem_blocks_grown created inUse).mpr member }
        have total := grows.upheld.tiled.totalSize_lt
        have copyTotal := grows.copyUpheld.tiled.totalSize_lt
        have whole := heap.totalSize_grown slab
        have copyWhole := copy.totalSize_grown copySlab
        refine .check (Size.add_eq_ok (by omega)) (Size.add_eq_ok (by omega)) (.note ?_)
        exact .count heap.counters.grow_eq copy.counters.grow_eq
          (fun counts => Nat.lt_of_le_of_lt (Nat.add_le_add_right parallel.counters.growths 1) counts)
          (fun spent => .inl (Nat.not_lt.mp spent)) (.pure ⟨rfl, _, _, grows⟩)

/-- After collections that achieved the same, both heaps grow, or neither. -/
theorem growFor : (heap.growFor swept request).Abreast (copy.growFor swept request) machine image
    (fun after final copyAfter copyFinal => ∃ divided copyDivided,
      heap.Evolves copy after copyAfter links tiling divided copyDivided kept final copyFinal)
    heap.counters.Spent := by
  obtain ⟨counted, fits⟩ := parallel.upheld.tiled.freeBytes_eq_ok
  obtain ⟨copyCounted, copyFits⟩ := parallel.copyUpheld.tiled.freeBytes_eq_ok
  have free := parallel.carries.freeStorage_eq parallel.resembles
  have total := parallel.resembles.totalSize_eq
  rw [free] at copyCounted copyFits
  unfold Heap.growFor
  refine .memory (.check counted copyCounted (.check (Size.sub_eq_ok fits) (Size.sub_eq_ok copyFits) ?_))
  simp only [parallel.settings, total]
  split
  · split
    · exact .note (.pure ⟨_, _, parallel.quietly (machine.quiet_logging _) (image.quiet_logging _)⟩)
    · exact (parallel.appendSlab kept rooms).bind fun _ _ _ _ grew => .pure grew.2
  · exact .pure ⟨_, _, parallel.quietly (.refl machine) (.refl image)⟩

end Growing

theorem paired : List.Forall₂ (fun slab image => (slab, image) ∈ heap.slabs.zip copy.slabs) heap.slabs copy.slabs :=
  List.forall₂_iff_zip.mpr ⟨List.Forall₂.length_eq parallel.resembles, fun listed => listed⟩

section Collecting

variable {from? : Option Context} (named : ∀ context ∈ from?, heap.Object tiling context.address)

include named

/-- Collections of both heaps keep what their roots refer to. -/
theorem collects : (heap.collectFrom from?).Abreast (copy.collectFrom (from?.map (heap.carryContext copy)))
    machine image (fun answer final copyAnswer copyFinal => ∃ stats swept copySwept,
      answer = (heap.counted stats, stats) ∧ copyAnswer = (copy.counted stats, stats) ∧
        heap.Evolves copy (heap.counted stats) (copy.counted stats) links tiling swept copySwept
          (heap.roots from?) final copyFinal ∧
        final.pages = machine.pages ∧ copyFinal.pages = image.pages)
    (heap.Exhausted tiling) := by
  refine (parallel.collectFrom named).weaken ?_ id
  rintro _ final _ copyFinal ⟨stats, swept, copySwept, rfl, rfl, collected, copySteady, counted⟩
  refine ⟨stats, swept, copySwept, rfl, rfl, ?_, collected.steady.pages, copySteady.pages⟩
  have traced := (parallel.upheld.grounded (parallel.rooted_roots named)).traced
  have stays (value : Value) (listed : value ∈ heap.roots from?) (refers : heap.RefersToObject tiling value) :
      heap.RefersToObject swept value :=
    Intact.refers_swept collected refers fun _ found => traced.reach_root listed found
  exact { counted with prolongs := .of_slabs rfl rfl, holds := rfl, known := rfl, refusals := rfl, stays }

/-- Parallel heaps answer alike when they are asked for a block. -/
theorem allocateBlock {size : Nat} (rooms : ∀ request,
      Size.alignUp? (max size blockUnit) blockUnit = some request → heap.RoomsAlike request machine image) :
    (heap.allocateBlock from? size).Abreast (copy.allocateBlock (from?.map (heap.carryContext copy)) size)
      machine image (heap.AnsweredAlike copy links tiling (heap.roots from?) size) (heap.Exhausted tiling) := by
  unfold Heap.allocateBlock
  cases rounds : Size.alignUp? (max size blockUnit) blockUnit with
  | none =>
      exact parallel.countRefusal (fun spent => .inl (.inr spent))
        (.note (.pure (.refused (parallel.quietly (machine.quiet_logging _) (image.quiet_logging _)) _)))
  | some request =>
      obtain ⟨atLeast, _, whole, _⟩ := Size.alignUp?_eq_some
        (show Size.alignUp? (max size blockUnit) (1 <<< 4) = some request from rounds)
      have positive : 0 < request := by
        have : 0 < blockUnit := by decide
        omega
      refine (parallel.takeFrom whole positive parallel.paired).certain.bind ?_
      rintro _ final _ copyFinal (⟨rfl, rfl, rfl, rfl⟩ | ⟨start, slab, imageSlab, front, free, back, rfl, rfl, carved⟩)
      swap
      · exact .pure (.given (parallel.quietly (.refl machine) (.refl image)) rounds carved)
      refine (parallel.collects named).bind ?_
      rintro _ mid _ copyMid ⟨stats, swept, copySwept, rfl, rfl, collects, pages, copyPages⟩
      have alike : (heap.counted stats).RoomsAlike request mid copyMid := by
        intro size next
        rw [Machine.Room, Machine.Room, pages, copyPages]
        exact rooms request rounds size next
      refine ((collects.growFor (heap.roots from?) alike).weaken (fun _ _ _ _ => id) Or.inl).bind ?_
      rintro prepared last copyPrepared copyLast ⟨divided, copyDivided, grows⟩
      have evolves := collects.trans grows
      refine (grows.takeFrom whole positive grows.paired).certain.bind ?_
      rintro _ final _ copyFinal (⟨rfl, rfl, rfl, rfl⟩ | ⟨start, slab, imageSlab, front, free, back, rfl, rfl, carved⟩)
      · exact grows.countRefusal (fun spent => .inl (.inr (evolves.refusals ▸ spent)))
          (.note (.pure (.refused (evolves.trans
            (grows.quietly (Machine.quiet_logging _ _) (Machine.quiet_logging _ _))) _)))
      · exact .pure (.given evolves rounds carved)

end Collecting

end Parallel

end Heap

end SlabHeap
