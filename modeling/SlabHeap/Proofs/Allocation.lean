import SlabHeap.Proofs.Consistency

namespace SlabHeap

/-! Allocation.

A heap gives a block as it is, or after a collection, or after it has grown as well: `Heap.Prepared`.
`Heap.Collectable.allocateBlock_meets` says what block is given then. A block without a header becomes an
object once it holds one, `Heap.Obtained.become`.
-/

open FreeList Block

namespace Heap

variable {heap prepared : Heap} {machine mid final : Machine} {memory after : Memory}
  {tiling taken divided : Slab → List Block} {block other : Block} {start size request : Nat}
  {value : Value} {context : Option Context}

namespace Obtained

variable (obtained : heap.Obtained tiling taken memory after block)

include obtained

theorem perm : (used (heap.blocks taken)).Perm (block.pieces ++ used (heap.blocks tiling)) := by
  obtain ⟨slab, inHeap, front, back, rfl, before⟩ := obtained.place
  have distinct : heap.slabs.Nodup := by
    refine obtained.tiled.apart.imp_of_mem fun {left right} member _ apart same => ?_
    subst same
    have large := (obtained.tiled.layout left member).placed.large
    simp only [Slab.Apart, Slab.stop, minSlabSize] at apart large
    omega
  obtain ⟨left, right, split⟩ := List.append_of_mem inHeap
  rw [split, List.nodup_append] at distinct
  obtain ⟨_, notRight, notLeft⟩ := distinct
  have same (slabs : List Slab) (absent : slab ∉ slabs) :
      slabs.flatMap (Function.update tiling slab (front ++ (block.pieces ++ back))) =
        slabs.flatMap tiling :=
    List.flatMap_congr fun other member => by
      have other : other ≠ slab := fun equal => absent (equal ▸ member)
      rw [Function.update_of_ne other]
  have leftSame := same left fun member => notLeft slab member slab List.mem_cons_self rfl
  have rightSame := same right (List.nodup_cons.mp notRight).1
  simp only [Heap.blocks, split, List.flatMap_append, List.flatMap_cons, Function.update_self,
    used_append, leftSame, rightSame, before, used_pieces obtained.inUse]
  refine List.perm_iff_count.mpr fun entry => ?_
  simp only [List.count_append]
  omega

theorem mem_iff (inUse : other.kind ≠ .free) : other ∈ heap.blocks taken ↔
    other ∈ heap.blocks tiling ∨ other ∈ block.pieces := by
  have same := obtained.perm.mem_iff (a := other)
  rwa [List.mem_append, mem_used, mem_used, and_iff_left inUse, and_iff_left inUse, or_comm] at same

/-- An object among the pieces of the block is all of it. -/
theorem eq_of_mem_pieces (isNew : other ∈ block.pieces) (isObject : other.kind = .object) :
    other = block ∧ block.kind = .object := by
  cases kind : block.kind with
  | free => exact absurd kind obtained.inUse
  | object =>
      simp only [pieces, kind, List.mem_singleton] at isNew
      exact ⟨isNew, rfl⟩
  | bare =>
      simp only [pieces, kind, mem_units] at isNew
      obtain ⟨_, _, rfl⟩ := isNew
      contradiction

theorem denotes (denotes : heap.Denotes tiling value) : heap.Denotes taken value :=
  denotes.mono fun _ member inUse => (obtained.mem_iff inUse).mpr (.inl member)

end Obtained

theorem Obtained.apart (obtained : heap.Obtained tiling taken memory after block)
    (member : other ∈ heap.blocks tiling) (inUse : other.kind ≠ .free) {address : Nat}
    (covers : other.Covers address) : ¬ block.Covers address := by
  intro both
  obtain ⟨piece, inPieces, pieceCovers⟩ :=
    (tiles_pieces obtained.large.1 obtained.large.2).covered both.1 both.2
  have pieceUsed : piece.kind ≠ .free := by
    rw [← used_pieces obtained.inUse] at inPieces
    exact (mem_used.mp inPieces).2
  have same := obtained.tiled.eq_of_covers ((obtained.mem_iff inUse).mpr (.inl member))
    ((obtained.mem_iff pieceUsed).mpr (.inr inPieces)) covers pieceCovers
  have distinct := obtained.perm.nodup_iff.mp (obtained.tiled.nodup_blocks.filter _)
  exact (List.nodup_append.mp distinct).2.2 piece inPieces other (mem_used.mpr ⟨member, inUse⟩)
    same.symm

/-- The pieces of the block lie between what is in front of them and what is behind. -/
theorem Obtained.tiles {slab : Slab} {front back : List Block}
    (obtained : heap.Obtained tiling (Function.update tiling slab (front ++ (block.pieces ++ back)))
      memory after block) (inHeap : slab ∈ heap.slabs) :
    block.pieces ≠ [] ∧ Tiles slab.objects front block.start ∧
      Tiles block.start block.pieces block.stop ∧ Tiles block.stop back slab.stop := by
  obtain ⟨large, whole⟩ := obtained.large
  have laid := obtained.tiled.layout slab inHeap
  rw [Function.update_self] at laid
  obtain ⟨low, frontTiles, rest⟩ := Tiles.append_iff.mp laid.tiles
  obtain ⟨high, pieceTiles, backTiles⟩ := Tiles.append_iff.mp rest
  have unitTiles : Tiles block.start block.pieces block.stop := tiles_pieces large whole
  have some : block.pieces ≠ [] := by
    intro empty
    rw [empty] at unitTiles
    simp only [Tiles, Block.stop, blockUnit] at unitTiles large
    omega
  obtain ⟨rfl, rfl⟩ := pieceTiles.ends_eq unitTiles some
  exact ⟨some, frontTiles, pieceTiles, backTiles⟩

theorem Obtained.divides (obtained : heap.Obtained tiling taken memory after block) :
    ∃ slab ∈ heap.slabs, ∃ front back,
      taken = Function.update tiling slab (front ++ (block.pieces ++ back)) ∧
        used (tiling slab) = used front ++ used back ∧ block.pieces ≠ [] ∧
          Tiles slab.objects front block.start ∧ Tiles block.start block.pieces block.stop ∧
            Tiles block.stop back slab.stop := by
  obtain ⟨slab, inHeap, front, back, rfl, before⟩ := obtained.place
  exact ⟨slab, inHeap, front, back, rfl, before, obtained.tiles inHeap⟩

theorem Obtained.inside (obtained : heap.Obtained tiling taken memory after block) :
    ∃ slab ∈ heap.slabs, slab.objects ≤ block.start ∧ block.stop ≤ slab.stop ∧
      block.start % 16 = 0 := by
  obtain ⟨slab, inHeap, front, back, rfl, _, _, frontTiles, _, backTiles⟩ := obtained.divides
  have laid := obtained.tiled.layout slab inHeap
  rw [Function.update_self] at laid
  have aligned := laid.objectsAligned
  have wholeFront := frontTiles.whole
  have lower := frontTiles.le
  exact ⟨slab, inHeap, lower, backTiles.le, by omega⟩

/-- Units without a header that hold an object are one. -/
theorem Obtained.furnish {slab : Slab} {front back : List Block} {changed : Memory}
    (obtained : heap.Obtained tiling
      (Function.update tiling slab (front ++ (units start (size / blockUnit) ++ back))) memory after
      ⟨start, size, .bare⟩)
    (inHeap : slab ∈ heap.slabs) (before : used (tiling slab) = used front ++ used back)
    (same : ∀ address, ¬ (start ≤ address ∧ address < start + size) →
      changed.read address = after.read address)
    (fits : Block.Fits heap.shapes changed ⟨start, size, .object⟩) :
    heap.Obtained tiling (Function.update tiling slab (front ++ ([⟨start, size, .object⟩] ++ back)))
      memory changed ⟨start, size, .object⟩ := by
  have obtained : heap.Obtained tiling (Function.update tiling slab
      (front ++ ((⟨start, size, .bare⟩ : Block).pieces ++ back))) memory after ⟨start, size, .bare⟩ :=
    obtained
  obtain ⟨large, whole⟩ := obtained.large
  have kept : ∀ other ∈ heap.blocks tiling, other.kind ≠ .free → other.Kept memory changed := by
    intro other member inUse address covers
    rw [same address (obtained.apart member inUse covers)]
    exact obtained.kept other member inUse address covers
  obtain ⟨some, frontTiles, _, backTiles⟩ := obtained.tiles inHeap
  have laid := obtained.tiled.layout slab inHeap
  rw [Function.update_self] at laid
  obtain ⟨_, _, _, upper⟩ := laid.lastOr_bounds frontTiles
  simp only [Block.stop] at frontTiles backTiles large whole upper
  have objectTiles : Tiles start [⟨start, size, .object⟩] (start + size) :=
    ⟨rfl, large, whole, rfl⟩
  have within := backTiles.le
  have above := frontTiles.le
  have divided : slab.Layout heap.shapes changed (front ++ ([⟨start, size, .object⟩] ++ back)) := by
    refine laid.replace frontTiles objectTiles backTiles (fun address out _ => same address out) ?_ ?_
    -- The free list passes over the storage either way, so its link across is the one that was
    -- there.
    · have listed := laid.listed
      rw [frees_append, frees_append, frees_pieces (by simp), List.nil_append, path_append] at listed
      obtain ⟨mid, first, second⟩ := listed
      have reached := first.next_last
      rw [second.start_eq] at reached
      simp only [frees]
      rw [FreeList.next, same _ (by omega)]
      exact reached
    · intro block member
      obtain rfl := List.mem_singleton.mp member
      exact fits
  have outside : ∀ address, address < slab.start ∨ slab.stop ≤ address →
      changed.read address = after.read address := by
    intro address apart
    refine same address fun inside => ?_
    simp only [Slab.objects, blockUnit] at above
    omega
  have tiled := obtained.tiled.update inHeap divided outside
  rw [Function.update_idem] at tiled
  refine ⟨tiled, fun other otherInHeap coalesced => ?_,
    ⟨slab, inHeap, front, back, rfl, before⟩, by simp, ⟨large, whole⟩, kept, fun address apart => ?_⟩
  · have was := obtained.coalesced other otherInHeap coalesced
    by_cases here : other = slab
    · subst here
      rw [Function.update_self] at was ⊢
      -- An object parts what lies on both sides of it as its units did.
      have parts := (coalesced_around (fun block member => ?_) some).mp was
      · exact (coalesced_around (by simp) (by simp)).mpr parts
      · rw [← used_pieces (by simp)] at member
        exact (mem_used.mp member).2
    · rw [Function.update_of_ne here] at was ⊢
      exact was
  · rw [outside address (apart slab inHeap)]
    exact obtained.outside address apart

/-- Storage without a header that holds an object is one. -/
theorem Obtained.become (obtained : heap.Obtained tiling taken memory after ⟨start, size, .bare⟩)
    {changed : Memory} (same : ∀ address, ¬ (start ≤ address ∧ address < start + size) →
      changed.read address = after.read address)
    (fits : Block.Fits heap.shapes changed ⟨start, size, .object⟩) :
    ∃ furnished, heap.Obtained tiling furnished memory changed ⟨start, size, .object⟩ := by
  obtain ⟨slab, inHeap, front, back, rfl, before⟩ := obtained.place
  exact ⟨_, obtained.furnish inHeap before same fits⟩

/-- Objects stay sound when a block comes into use, be it with a sound object. -/
theorem Upheld.obtain {denotes alsoDenotes : Value → Prop} (upheld : heap.Upheld denotes tiling machine)
    (obtained : heap.Obtained tiling taken machine.memory final.memory block)
    (steady : machine.Steady final) (more : ∀ value, denotes value → alsoDenotes value)
    (fresh : block.kind = .object →
      block.Sound heap.shapes heap.features.weakReferences alsoDenotes final) :
    heap.Upheld alsoDenotes taken final where
  tiled := obtained.tiled
  hosted slab inHeap := (upheld.hosted slab inHeap).keep steady.taken_subset
  upper := upheld.upper
  objects other member isObject := by
    rcases (obtained.mem_iff (by simp [isObject])).mp member with before | isNew
    · exact (upheld.objects other before isObject).keep isObject (upheld.fits before)
        (upheld.tiled.bounds before).2.2.1
        (obtained.kept other before (by simp [isObject]))
        (fun _ _ found _ => (Machine.frame?_congr steady.frames _).trans found) more
    · obtain ⟨rfl, kind⟩ := obtained.eq_of_mem_pieces isNew isObject
      exact fresh kind

theorem Upheld.counted_obtain {denotes : Value → Prop} (upheld : heap.Upheld denotes tiling machine)
    (obtained : heap.Obtained tiling taken machine.memory final.memory block)
    (before : ∀ block ∈ heap.blocks tiling, block.kind = .object →
      block.Counted heap.shapes machine.memory)
    (counted : block.kind = .object → block.Counted heap.shapes final.memory)
    (member : other ∈ heap.blocks taken) (isObject : other.kind = .object) :
    other.Counted heap.shapes final.memory := by
  rcases (obtained.mem_iff (by simp [isObject])).mp member with old | isNew
  · exact (before other old isObject).congr isObject
      ((obtained.kept other old (by simp [isObject])).alike (upheld.fits old)
        (upheld.tiled.bounds old).2.2.1)
  · obtain ⟨rfl, kind⟩ := obtained.eq_of_mem_pieces isNew isObject
    exact counted kind

/-- A heap stays consistent when a block comes into use, be it with a sound object. -/
theorem Consistent.obtain (consistent : heap.Consistent tiling machine)
    (obtained : heap.Obtained tiling taken machine.memory final.memory block)
    (steady : machine.Steady final) (fresh : block.kind = .object →
      block.Sound heap.shapes heap.features.weakReferences (heap.Denotes taken) final)
    (counted : block.kind = .object → block.Counted heap.shapes final.memory) :
    heap.Consistent taken final where
  tiled := obtained.tiled
  coalesced slab inHeap := obtained.coalesced slab inHeap (consistent.coalesced slab inHeap)
  hosted slab inHeap := (consistent.hosted slab inHeap).keep steady.taken_subset
  upper := consistent.upper
  confined := consistent.confined
  objects :=
    (consistent.upheld.obtain obtained steady (fun _ denotes => obtained.denotes denotes) fresh).objects
  counted _ := consistent.upheld.counted_obtain obtained consistent.counted counted
  globals value listed := obtained.denotes (consistent.globals value listed)
  scratch value listed := obtained.denotes (consistent.scratch value listed)

/-- A collection from a context can run to its end: no object carries a mark, and marking meets nothing but
storage in use, in memory that was reserved. -/
structure Collectable (heap : Heap) (context : Option Context) (tiling : Slab → List Block)
    (machine : Machine) : Prop extends heap.Clean tiling machine where
  closed : heap.Closed machine tiling (heap.roots context)
  hosted : ∀ slab ∈ heap.slabs, machine.Hosts slab
  upper : ∀ slab ∈ heap.slabs, slab.stop ≤ Memory.pageLimit * Memory.pageBytes

/-- What becomes of a heap before it gives a block: nothing, or it is collected and may grow then. -/
inductive Prepared (heap : Heap) (context : Option Context) (tiling : Slab → List Block)
    (machine : Machine) : Heap → (Slab → List Block) → Machine → Prop
  | ready {final : Machine} (quiet : machine.Quiet final) :
      Prepared heap context tiling machine heap tiling final
  | collected {stats : SweepStats} {swept : Slab → List Block} {mid final : Machine}
      (collected : heap.Collected tiling swept machine mid
        (heap.Reach machine machine.Unmarked (heap.roots context))) (quiet : mid.Quiet final) :
      Prepared heap context tiling machine (heap.counted stats) swept final
  | grown {stats : SweepStats} {swept : Slab → List Block} {mid final : Machine} {slab : Slab}
      (collected : heap.Collected tiling swept machine mid
        (heap.Reach machine machine.Unmarked (heap.roots context)))
      (created : slab.Created heap.shapes mid final) :
      Prepared heap context tiling machine ((heap.counted stats).grown slab)
        (Function.update swept slab [⟨slab.objects, slab.size - blockUnit, .free⟩]) final

namespace Prepared

theorem quiet (prepares : heap.Prepared context tiling machine prepared divided mid)
    (quiet : mid.Quiet final) : heap.Prepared context tiling machine prepared divided final := by
  cases prepares with
  | ready before => exact .ready (before.trans quiet)
  | collected collected before => exact .collected collected (before.trans quiet)
  | grown collected created => exact .grown collected (created.quiet quiet)

theorem outOfMemory_eq (prepares : heap.Prepared context tiling machine prepared divided mid) :
    prepared.counters.outOfMemory = heap.counters.outOfMemory := by
  cases prepares <;> rfl

section Collectable

variable (prepares : heap.Prepared context tiling machine prepared divided mid)
  (collectable : heap.Collectable context tiling machine)

include prepares collectable

theorem tiled : prepared.Tiled mid.memory divided := by
  cases prepares with
  | ready quiet => exact quiet.memory ▸ collectable.tiled
  | collected collected quiet => exact ⟨quiet.memory ▸ collected.tiled.layout, collected.tiled.apart⟩
  | @grown stats _ _ _ _ collected created =>
      have tiled : (heap.counted stats).Tiled _ _ := ⟨collected.tiled.layout, collected.tiled.apart⟩
      exact tiled.grown (fun slab inHeap =>
        (collectable.hosted slab inHeap).keep collected.steady.taken_subset) created

theorem upper : ∀ slab ∈ prepared.slabs, slab.stop ≤ Memory.pageLimit * Memory.pageBytes := by
  cases prepares with
  | ready => exact collectable.upper
  | collected => exact collectable.upper
  | grown collected created =>
      intro slab member
      rcases List.mem_append.mp member with inHeap | isNew
      · exact collectable.upper slab inHeap
      · obtain rfl := List.mem_singleton.mp isNew
        exact created.upper

end Collectable

theorem consistent (prepares : heap.Prepared context tiling machine prepared divided mid)
    (consistent : heap.Consistent tiling machine) : prepared.Consistent divided mid := by
  cases prepares with
  | ready quiet => exact consistent.quiet quiet
  | collected collected quiet =>
      exact ((consistent.collected_reach collected).recount _).quiet quiet
  | grown collected created =>
      have still := consistent.collected_reach collected
      exact Consistent.grown (still.recount _) created

theorem denotes (prepares : heap.Prepared context tiling machine prepared divided mid)
    (consistent : heap.Consistent tiling machine) (denotes : heap.Denotes tiling value)
    (rooted : value ∈ heap.roots context) : prepared.Denotes divided value := by
  have survives {swept : Slab → List Block} {mid : Machine}
      (collected : heap.Collected tiling swept machine mid
        (heap.Reach machine machine.Unmarked (heap.roots context))) : heap.Denotes swept value :=
    consistent.denotes_swept collected denotes fun _ found unmarked => .root rooted found unmarked
  cases prepares with
  | ready => exact denotes
  | collected collected _ => exact survives collected
  | @grown stats swept mid final slab collected created =>
      have counted : (heap.counted stats).Consistent swept mid :=
        (consistent.collected_reach collected).recount _
      have still : (heap.counted stats).Denotes swept value := survives collected
      exact still.mono fun _ member inUse =>
        (mem_blocks_grown_of_hosted counted.hosted created inUse).mpr member

end Prepared

theorem Consistent.rooted (consistent : heap.Consistent tiling machine)
    (denotes : ∀ handle ∈ context, heap.Denotes tiling handle.toValue) :
    ∀ value ∈ heap.roots context, heap.Denotes tiling value := by
  intro value listed
  simp only [Heap.roots, List.mem_append] at listed
  rcases listed with (inScratch | inGlobals) | isContext
  · exact consistent.scratch value inScratch
  · exact consistent.globals value inGlobals
  · cases context with
    | none => simp at isContext
    | some handle =>
        obtain rfl : value = handle.toValue := by simpa using isContext
        exact denotes handle rfl

theorem Consistent.collectable (consistent : heap.Consistent tiling machine)
    (denotes : ∀ handle ∈ context, heap.Denotes tiling handle.toValue) :
    heap.Collectable context tiling machine :=
  ⟨consistent.clean, consistent.closed (consistent.rooted denotes), consistent.hosted, consistent.upper⟩

/-- A request is more than the heap can count over its lifetime: the slab that it may add, its refusal, or what
a collection from its context frees. -/
def Overflows (heap : Heap) (context : Option Context) (tiling : Slab → List Block) (machine : Machine) :
    Prop :=
  heap.counters.Spent ∨ ∃ (stats : SweepStats) (swept : Slab → List Block) (final : Machine),
    heap.Collected tiling swept machine final (heap.Reach machine machine.Unmarked (heap.roots context)) ∧
      stats.sumFreed + heap.usedBytes swept = heap.usedBytes tiling ∧
        ¬ heap.counters.Counts 1 stats.sumFreed

theorem Overflows.exhausted (overflows : heap.Overflows context tiling machine) :
    heap.Exhausted tiling := by
  refine overflows.imp_right ?_
  rintro ⟨stats, swept, _, _, freed, uncounted⟩ counts
  exact uncounted (counts.mono (Nat.le_refl 1) (by omega))

/-- A collection runs to its end, where it may fail to count what it did. -/
theorem Collectable.collectFrom_meets (collectable : heap.Collectable context tiling machine) :
    (heap.collectFrom context).Meets machine
      (fun answer final => answer.1 = heap.counted answer.2 ∧
        ∃ swept, heap.Collected tiling swept machine final
          (heap.Reach machine machine.Unmarked (heap.roots context)))
      fun _ => heap.Overflows context tiling machine := by
  obtain ⟨stats, final, swept, collected, freed, ran⟩ :=
    collectable.toClean.collectFrom_run collectable.closed
  split at ran
  · exact .inl ⟨_, final, ran, rfl, swept, collected⟩
  · next uncounted => exact .inr ⟨final, ran, .inr ⟨stats, swept, final, collected, freed, uncounted⟩⟩

/-- A block of zeros for at least `size` bytes came into use. -/
structure Given (heap : Heap) (tiling taken : Slab → List Block) (memory after : Memory)
    (size start request : Nat) : Prop where
  rounded : Size.alignUp? (max size blockUnit) blockUnit = some request
  obtained : heap.Obtained tiling taken memory after ⟨start, request, .bare⟩
  zero : ∀ address, start ≤ address → address < start + request → after.read address = 0

/-- The answer to a request for `size` bytes: a block that `fill` was applied to, or a refusal. -/
def Answered (heap : Heap) (tiling : Slab → List Block) (machine : Machine) (size : Nat)
    (fill : Nat → Memory → Memory) (answer : Heap × Except HeapError Nat) (final : Machine) : Prop :=
  (∃ start request taken after, answer = (heap, .ok start) ∧
    heap.Given tiling taken machine.memory after size start request ∧
    machine.Steady final ∧ final.memory = fill start after) ∨
  ∃ refusal, answer = (heap.refused, .error refusal) ∧ machine.Quiet final

/-- A heap gives a block at once, or after it was collected and perhaps grew, or not at all. -/
theorem Collectable.allocateBlock_meets (collectable : heap.Collectable context tiling machine) :
    (heap.allocateBlock context size).Meets machine
      (fun answer final => ∃ prepared divided mid,
        heap.Prepared context tiling machine prepared divided mid ∧
          prepared.Answered divided mid size (fun _ memory => memory) answer final)
      fun _ => heap.Overflows context tiling machine := by
  unfold allocateBlock
  cases rounds : Size.alignUp? (max size blockUnit) blockUnit with
  | none =>
      refine Action.meets_count heap.countRefusal_eq (fun _ => .inl ?_) fun spent => .inl (.inr (Nat.not_lt.mp spent))
      rw [Action.ensures_note]
      exact Action.ensures_pure.mpr ⟨heap, tiling, machine, .ready (.refl machine),
        .inr ⟨_, rfl, machine.quiet_logging _⟩⟩
  | some request =>
      obtain ⟨atLeast, _, whole, _⟩ := Size.alignUp?_eq_some
        (show Size.alignUp? (max size blockUnit) (1 <<< 4) = some request from rounds)
      have positive : 0 < request := by
        have : 0 < blockUnit := by decide
        omega
      have searched {prepared : Heap} {divided : Slab → List Block} {mid : Machine}
          (tiled : prepared.Tiled mid.memory divided) :=
        tiled.ensures_takeFrom whole positive fun slab (inHeap : slab ∈ prepared.slabs) => inHeap
      refine (Action.Ensures.meets (searched collectable.tiled)).bind ?_
      rintro _ final ⟨steady, ⟨rfl, rfl, _⟩ | ⟨start, taken, rfl, obtained, zero⟩⟩
      -- Nothing has room. The heap is collected, grows if it wants to, and is searched once more.
      · refine collectable.collectFrom_meets.bind ?_
        rintro ⟨_, stats⟩ mid ⟨(rfl : _ = heap.counted stats), swept, collected⟩
        have swift : heap.Prepared context tiling final (heap.counted stats) swept mid :=
          .collected collected (.refl mid)
        have below : ∀ slab ∈ heap.slabs, mid.Hosts slab := fun slab inHeap =>
          (collectable.hosted slab inHeap).keep collected.steady.taken_subset
        refine (((swift.tiled collectable).growFor_meets below).weaken (fun _ _ grew => grew)
          fun _ spent => .inl (.inl spent.1)).bind ?_
        intro prepared last grew
        obtain ⟨divided, prepares⟩ : ∃ divided, heap.Prepared context tiling final prepared divided last := by
          rcases grew with ⟨rfl, quiet, _⟩ | ⟨slab, rfl, _, _, _, created⟩
          · exact ⟨swept, .collected collected quiet⟩
          · exact ⟨_, .grown collected created⟩
        refine (Action.Ensures.meets (searched (prepares.tiled collectable))).bind ?_
        rintro _ final ⟨steady, ⟨rfl, rfl, _⟩ | ⟨start, taken, rfl, obtained, zero⟩⟩
        · refine Action.meets_count prepared.countRefusal_eq (fun _ => .inl ?_)
            fun spent => .inl (.inr (prepares.outOfMemory_eq ▸ Nat.not_lt.mp spent))
          rw [Action.ensures_note]
          exact Action.ensures_pure.mpr ⟨prepared, divided, _, prepares,
            .inr ⟨_, rfl, Machine.quiet_logging _ _⟩⟩
        · exact .inl (Action.ensures_pure.mpr ⟨prepared, divided, last, prepares,
            .inl ⟨start, request, taken, _, rfl, ⟨rounds, obtained, zero⟩, steady, rfl⟩⟩)
      · exact Action.Ensures.meets (Action.ensures_pure.mpr ⟨heap, tiling, machine,
          .ready (.refl machine),
          .inl ⟨start, request, taken, _, rfl, ⟨rounds, obtained, zero⟩, steady, rfl⟩⟩)

end Heap

end SlabHeap
