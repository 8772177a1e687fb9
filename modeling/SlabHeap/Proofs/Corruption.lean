import SlabHeap.Proofs.Clearance
import SlabHeap.Proofs.Collection
import SlabHeap.Proofs.Salvage

namespace SlabHeap

/-! Collections of corrupt heaps.

In a `Heap.Damaged` heap the free lists are in order, and so are the objects that can be reached from the
roots; all other words may be anything. Such a heap comes about when anything is written into objects that a
collection does not keep (`Heap.Spoiled.damaged`). `Heap.Damaged.collect_ends` says that a collection ends and
reports what its walks come by. It needs to know of that no more than `Heap.Unstained`: the weak pass takes no
stray mark for a survivor. It answers where `Heap.Modest` holds, so that all sums are sizes.
-/

open Block

namespace Heap

variable {heap : Heap} {machine mid final : Machine} {memory after : Memory} {objects : List Block}
  {block : Block} {address : Nat} {slab : Slab}

/-- What the weak pass does with an object that it comes by. -/
def breakMarked (heap : Heap) (_ : Unit) (object : Nat) : Action Unit := do
  if ((← Action.memory).header object).isMarked then heap.breakWeakSlots object

theorem respects_breakMarked {related : Machine → Machine → Prop} [Machine.Tolerant related] (state : Unit)
    (object : Nat) : (heap.breakMarked state object).Respects related :=
  Action.Respects.bind Action.respects_memory fun _ =>
    Action.Respects.ite (heap.respects_breakWeakSlots object) (Action.respects_pure ())

/-- The weak pass, where each of its walks may take `extra` more steps. -/
def breakWithin (heap : Heap) (extra : Nat) : Action Unit :=
  heap.slabs.foldlM (fun state slab => do
    let memory ← Action.memory
    slab.foldFrom heap.shapes heap.scrutiny heap.breakMarked slab.objects (slab.firstFree memory) state
      (slab.stepBound + extra)) ()

/-- The weak pass of a collection, in a build that has one. -/
def weakenWithin (heap : Heap) (extra : Nat) : Action Unit :=
  if heap.features.weakReferences then heap.breakWithin extra else pure ()

/-- A sweep of all slabs, where that of each slab may take `extra` more steps. -/
def sweepWithin (heap : Heap) (extra : Nat) : Action SweepStats :=
  heap.slabs.foldlM (fun stats slab => slab.sweepFrom heap.shapes heap.scrutiny slab.objects slab.start stats
    (slab.stepBound + extra)) {}

/-- A collection all of whose loops may take `extra` more steps. -/
def collectWithin (heap : Heap) (extra : Nat) (context : Context) : Action (Heap × SweepStats) := do
  heap.markWork (heap.roots (some context)) (Size.wordLimit + extra)
  Action.note (.collecting (some context) heap.identity heap.totalSize)
  heap.weakenWithin extra
  let swept ← heap.sweepWithin extra
  Action.note (.collected (some context) swept.sumFreed swept.maxFreed)
  let counters ← heap.counters.collect swept.sumFreed
  return ({ heap with counters }, swept)

theorem collectWithin_zero (context : Context) : heap.collectWithin 0 context = heap.collect context := by
  unfold collect collectFrom finishCollection collectWithin weakenWithin
  split <;> rfl

/-- A heap of which only the free lists and some objects are in order, which are all that can be reached.
All other words may be anything. -/
structure Damaged (heap : Heap) (machine : Machine) (objects : List Block)
    (lists : Slab → List (Nat × Nat)) (roots : List Value) : Prop where
  aligned : heap.shapes.Aligned
  apart : heap.slabs.Pairwise Slab.Apart
  whole : ∀ slab ∈ heap.slabs, slab.size % blockUnit = 0
  listed : ∀ slab ∈ heap.slabs, slab.Listed machine.memory (lists slab)
  graph : heap.Graph machine objects
  placed : ∀ block ∈ objects, ∃ slab ∈ heap.slabs, slab.objects ≤ block.start ∧ block.stop ≤ slab.stop ∧
    ∀ entry ∈ lists slab, block.stop ≤ entry.1 ∨ entry.1 + entry.2 ≤ block.start
  roots : ∀ value ∈ roots, LeadsInto objects value

/-- What a pass over a slab may find in it: whatever is outside, and in the slab what marking and the weak
pass leave. -/
def Finds (heap : Heap) (objects : List Block) (slab : Slab) (memory found : Memory) : Prop :=
  ∃ mid, heap.Altered objects memory mid ∧
    ∀ address, slab.start ≤ address → address < slab.stop → found.read address = mid.read address

/-- A pass comes by the unit, in a slab where it found some memory. -/
structure Passed (heap : Heap) (objects : List Block) (lists : Slab → List (Nat × Nat)) (memory : Memory)
    (slab : Slab) (found : Memory) (unit : Nat) : Prop where
  inHeap : slab ∈ heap.slabs
  finds : heap.Finds objects slab memory found
  comesBy : slab.ComesBy heap.shapes found (lists slab) unit

/-- Besides the objects, the weak pass comes by no mark on what may have weak slots. -/
def Unstained (heap : Heap) (objects : List Block) (lists : Slab → List (Nat × Nat)) (memory : Memory) :
    Prop :=
  ∀ slab found unit, heap.Passed objects lists memory slab found unit → ¬ StartsIn objects unit →
    (memory.header unit).isMarked = true → ∀ shape,
      heap.shapes.get? (memory.tag unit) = some shape → shape.weak = none

/-- Nothing that a pass comes by claims more than `most` bytes, and so much can be counted. -/
structure Modest (heap : Heap) (objects : List Block) (lists : Slab → List (Nat × Nat)) (memory : Memory)
    (most : Nat) : Prop where
  claims : ∀ slab found unit size, heap.Passed objects lists memory slab found unit →
    heap.shapes.blockSize? found unit = .ok (some size) → size ≤ most
  room : ∀ slab ∈ heap.slabs, slab.stop + most < Size.limit
  countable : heap.counters.Counts 1 (heap.totalSize + heap.slabs.length * most)

/-- Where the objects have no weak slots and lengths lie right behind headers, units claim what they claimed
before. -/
theorem Finds.blockSize?_eq {found : Memory} {unit : Nat} (finds : heap.Finds objects slab memory found)
    (plain : ∀ block ∈ objects, ∀ address, ¬ heap.WeakWord memory block address)
    (scattered : Scattered objects)
    (behind : ∀ tag shape, heap.shapes.get? tag = some shape → ∀ field ∈ shape.size.length, field.offset = 8)
    (aligned : unit % 16 = 0) (lower : slab.start ≤ unit) (upper : unit + 16 ≤ slab.stop) :
    heap.shapes.blockSize? found unit = heap.shapes.blockSize? memory unit := by
  obtain ⟨mid, altered, same⟩ := finds
  -- Headers start units, so that an object's header is at its start or outside of it.
  have contents (address : Nat) (starts : ∀ block ∈ objects, address ≠ block.start)
      (whole : address % 8 = 0) : mid.read address = memory.read address := by
    by_cases covered : ∃ block ∈ objects, block.Covers address
    · obtain ⟨block, member, first, last⟩ := covered
      have blockAligned := (scattered.bounds block member).2.1
      have later := starts block member
      refine (altered.contents block member address (by omega) last).resolve_right ?_
      rintro ⟨_, weak⟩
      exact plain block member address weak
    · exact altered.outside address fun block member covers => covered ⟨block, member, covers⟩
  refine ShapeTable.blockSize?_congr ?_ fun shape known field isLength => ?_
  · have header : found.header unit = mid.header unit :=
      congrArg Header.ofWord (same unit lower (by omega))
    rw [Memory.tag, header]
    by_cases starts : ∃ block ∈ objects, unit = block.start
    · obtain ⟨block, member, rfl⟩ := starts
      exact altered.tag member
    · refine congrArg (fun word => (Header.ofWord word).tag) (contents unit (fun block member first => ?_)
        (by omega))
      exact starts ⟨block, member, first⟩
  · rw [behind _ shape known field isLength, same _ (by omega) (by omega)]
    refine contents _ (fun block member first => ?_) (by omega)
    have := (scattered.bounds block member).2.1
    omega

/-- All that there is to report in some slabs is among the notices. -/
def Reported (heap : Heap) (objects : List Block) (lists : Slab → List (Nat × Nat)) (memory : Memory)
    (slabs : List Slab) (notices : List Notice) : Prop :=
  ∀ slab ∈ slabs, ∃ found, heap.Finds objects slab memory found ∧
    slab.Reported heap.scrutiny heap.shapes found (lists slab) notices

theorem Reported.add {lists : Slab → List (Nat × Nat)} {done : List Slab} {found : Memory}
    {notices more : List Notice} (reported : heap.Reported objects lists memory done notices)
    (finds : heap.Finds objects slab memory found)
    (also : slab.Reported heap.scrutiny heap.shapes found (lists slab) more) :
    heap.Reported objects lists memory (done ++ [slab]) (notices ++ more) := by
  intro other member
  rcases List.mem_append.mp member with before | last
  · obtain ⟨earlier, finds, told⟩ := reported other before
    exact ⟨earlier, finds, fun count inside =>
      List.Subset.trans (told count inside) (List.subset_append_left _ _)⟩
  · obtain rfl := List.mem_singleton.mp last
    exact ⟨found, finds, fun count inside =>
      List.Subset.trans (also count inside) (List.subset_append_right _ _)⟩

/-- A sweep of all slabs has the slabs `rest` ahead of it. They are as it found them in `weakened`, and no
byte was counted twice. -/
structure Sweeping (heap : Heap) (objects : List Block) (lists : Slab → List (Nat × Nat)) (memory : Memory)
    (most : Nat) (weakened mid : Machine) (stats : SweepStats) (rest : List Slab) : Prop where
  steady : weakened.Steady mid
  untouched : ∀ slab ∈ rest, ∀ address, slab.start ≤ address → address < slab.stop →
    mid.memory.read address = weakened.memory.read address
  counted : heap.Modest objects lists memory most →
    stats.sumFreed + (rest.foldr (fun slab total => slab.size + total) 0 + rest.length * most) ≤
      heap.totalSize + heap.slabs.length * most
  told : ∃ done sweeping, heap.slabs = done ++ rest ∧ mid.alarms = weakened.alarms ++ sweeping ∧
    heap.Reported objects lists memory done sweeping

/-- The weak pass of a heap, which began at `marked`, has the slabs `rest` ahead. -/
structure Breaking (heap : Heap) (objects : List Block) (lists : Slab → List (Nat × Nat)) (memory : Memory)
    (marked : Machine) (rest : List Slab) (mid : Machine) : Prop where
  steady : marked.Steady mid
  altered : heap.Altered objects memory mid.memory
  told : ∃ done weakening, heap.slabs = done ++ rest ∧ mid.alarms = marked.alarms ++ weakening ∧
    heap.Reported objects lists memory done weakening

/-- What a collection from a context leaves behind. -/
structure Ended (heap : Heap) (context : Context) (objects : List Block) (lists : Slab → List (Nat × Nat))
    (machine final : Machine) (answer : Heap × SweepStats) : Prop where
  steady : machine.Steady final
  counted : answer.1 = heap.counted answer.2
  logged : final.journal.head? =
    some (.notice (.collected (some context) answer.2.sumFreed answer.2.maxFreed))
  /-- Either pass reports all that it comes by. -/
  reports : ∃ marking weakening sweeping, final.alarms = machine.alarms ++ marking ++ weakening ++ sweeping ∧
    (heap.features.weakReferences = true →
      heap.Reported objects lists machine.memory heap.slabs weakening) ∧
    heap.Reported objects lists machine.memory heap.slabs sweeping

/-- In a well-formed heap, something was written into objects that a collection from the context does not
keep. It keeps the other objects. -/
structure Spoiled (heap : Heap) (tiling : Slab → List Block) (objects : List Block) (context : Context)
    (machine spoiled : Machine) : Prop where
  wellFormed : heap.WellFormed machine tiling
  isObject : heap.Object tiling context.address
  kept : ∀ block, block ∈ objects ↔ block ∈ heap.blocks tiling ∧ block.kind = .object ∧
    heap.Reachable machine (heap.roots (some context)) block.start
  steady : machine.Steady spoiled
  same : ∀ address, (∀ block ∈ heap.blocks tiling, block.Covers address → block.kind = .object →
    block ∈ objects) → spoiled.memory.read address = machine.memory.read address

namespace Spoiled

variable {tiling : Slab → List Block} {context : Context} {after : Machine} {value : Value}
  (spoiled : heap.Spoiled tiling objects context machine after)

include spoiled

section Kept

variable (member : block ∈ objects)

include member

theorem word (lower : block.start ≤ address) (upper : address < block.stop) :
    after.memory.read address = machine.memory.read address := by
  refine spoiled.same address fun other otherMember covers _ => ?_
  obtain rfl := spoiled.wellFormed.tiled.eq_of_covers ((spoiled.kept block).mp member).1 otherMember
    ⟨lower, upper⟩ covers
  exact member

theorem header : after.memory.header block.start = machine.memory.header block.start := by
  have large := (spoiled.wellFormed.tiled.bounds ((spoiled.kept block).mp member).1).2.2.1
  exact congrArg Header.ofWord
    (spoiled.word member (Nat.le_refl _) (by simp only [Block.stop]; omega))

theorem tag : after.memory.tag block.start = machine.memory.tag block.start :=
  congrArg Header.tag (spoiled.header member)

theorem lengths {shape : Shape} (describes : shape.Describes machine.memory block.start block.size) :
    ∀ length ∈ shape.lengths,
      after.memory.read (block.start + length.offset) = machine.memory.read (block.start + length.offset) := by
  intro length listed
  have inside := describes.lengthInside length listed
  exact spoiled.word member (by omega) (by simp only [Block.stop]; omega)

end Kept

theorem leads (refers : heap.RefersToObject tiling value) (reached : ∀ address,
    value.address? = some address → heap.Reachable machine (heap.roots (some context)) address) :
    LeadsInto objects value := by
  intro address found
  obtain ⟨block, member, kind, rfl⟩ := refers address found
  exact ⟨block, (spoiled.kept block).mpr ⟨member, kind, reached _ found⟩, rfl⟩

/-- The kept objects are in order. -/
theorem graph : heap.Graph after objects := by
  have tiled := spoiled.wellFormed.tiled
  have scattered : Scattered objects :=
    ⟨fun block member => tiled.scattered.bounds block ((spoiled.kept block).mp member).1,
      fun block member other otherMember => tiled.scattered.unique block ((spoiled.kept block).mp member).1
        other ((spoiled.kept other).mp otherMember).1⟩
  refine ⟨scattered, fun block member => ?_, fun _ block member => ?_,
    fun block member shape known offset strong => ?_, fun block member isContext frame linked value held => ?_⟩
  all_goals obtain ⟨inHeap, kind, reached⟩ := (spoiled.kept block).mp member
  · obtain ⟨shape, known⟩ := Option.isSome_iff_exists.mp (tiled.registered inHeap kind)
    have describes := (tiled.describes inHeap (by simp [kind]) known).2
    exact ⟨shape, spoiled.tag member ▸ known, describes.congr (spoiled.lengths member describes)⟩
  · exact ⟨tiled.contains inHeap, spoiled.header member ▸ spoiled.wellFormed.valid block inHeap kind⟩
  · rw [spoiled.tag member] at known
    have describes := (tiled.describes inHeap (by simp [kind]) known).2
    rw [Shape.strongSlot_congr (spoiled.lengths member describes)] at strong
    have inside := describes.slotInside offset (.inl strong)
    rw [Memory.value, spoiled.word member (by omega) (by simp only [Block.stop]; omega)]
    exact spoiled.leads (spoiled.wellFormed.slots block inHeap kind shape known offset (.inl strong))
      fun address found => .slot reached known strong found
  · rw [spoiled.tag member] at isContext
    have known : heap.shapes.get? Tag.context = some .context := rfl
    have describes := (tiled.describes inHeap (by simp [kind]) (isContext.symm ▸ known)).2
    have size := Shape.size_of_context known describes
    have saves : (Context.mk block.start).saves after.memory = (Context.mk block.start).saves machine.memory :=
      congrArg UInt64.toNat (spoiled.word member (by simp only [Layout.Context.saves]; omega)
        (by simp only [Block.stop, Layout.Context.saves]; omega))
    have find : after.frameAt? = machine.frameAt? := by
      funext address
      simp only [Machine.frameAt?, Machine.frameIndex?, spoiled.steady.frames]
    rw [Machine.Linked, find, saves] at linked
    exact spoiled.leads (spoiled.wellFormed.frames block inHeap kind isContext frame linked value held)
      fun address found => .saved reached isContext linked held found

theorem listed (inHeap : slab ∈ heap.slabs) : slab.Listed after.memory (frees (tiling slab)) := by
  have tiled := spoiled.wellFormed.tiled
  have lists := Slab.Listed.of_layout (tiled.layout slab inHeap)
  have large := (tiled.layout slab inHeap).placed.large
  refine lists.congr (spoiled.same _ fun block member covers _ => ?_) fun entry isFree => ?_
  · obtain ⟨other, otherInHeap, inSlab⟩ := mem_blocks.mp member
    obtain rfl := tiled.slab_eq inHeap otherInHeap
      ⟨by omega, by simp only [Slab.stop, minSlabSize] at *; omega⟩ (tiled.slab_covers otherInHeap inSlab covers)
    have bounds := (tiled.layout slab inHeap).bounds inSlab
    simp only [Block.Covers] at covers
    omega
  · have isBlock : ⟨entry.1, entry.2, .free⟩ ∈ heap.blocks tiling :=
      mem_blocks.mpr ⟨slab, inHeap, mem_frees.mp isFree⟩
    have node (address : Nat) (covers : Block.Covers ⟨entry.1, entry.2, .free⟩ address) :
        after.memory.read address = machine.memory.read address := by
      refine spoiled.same address fun other otherMember otherCovers isObject => ?_
      obtain rfl := tiled.eq_of_covers isBlock otherMember covers otherCovers
      cases isObject
    have := lists.bounds isFree
    exact ⟨node _ ⟨Nat.le_refl _, by simp only [Block.stop]; omega⟩,
      node _ ⟨by dsimp only; omega, by simp only [Block.stop]; omega⟩⟩

/-- Whatever was written into objects that a collection does not keep, a well-formed heap became no worse than
a damaged one. -/
theorem damaged (aligned : heap.shapes.Aligned) :
    heap.Damaged after objects (fun slab => frees (tiling slab)) (heap.roots (some context)) where
  aligned := aligned
  apart := spoiled.wellFormed.tiled.apart
  whole slab inHeap := (spoiled.wellFormed.tiled.layout slab inHeap).placed.sizeAligned
  listed _ inHeap := spoiled.listed inHeap
  graph := spoiled.graph
  placed block member := by
    have tiled := spoiled.wellFormed.tiled
    obtain ⟨inHeap, kind, _⟩ := (spoiled.kept block).mp member
    obtain ⟨slab, slabInHeap, inSlab⟩ := mem_blocks.mp inHeap
    obtain ⟨lower, upper, large, _⟩ := (tiled.layout slab slabInHeap).tiles.bounds inSlab
    refine ⟨slab, slabInHeap, lower, upper, fun entry isFree => ?_⟩
    by_contra overlap
    have bounds := (spoiled.listed slabInHeap).bounds isFree
    have covers : block.Covers (max block.start entry.1) :=
      ⟨by omega, by simp only [Block.stop] at *; omega⟩
    have same := (tiled.layout slab slabInHeap).tiles.eq_of_covers inSlab (mem_frees.mp isFree) covers
      ⟨by dsimp only; omega, by simp only [Block.stop] at *; omega⟩
    rw [same] at kind
    cases kind
  roots value inRoots := spoiled.leads (spoiled.wellFormed.rootsRefer spoiled.isObject inRoots)
    fun _ found => .root inRoots found

end Spoiled

namespace Damaged

variable {lists : Slab → List (Nat × Nat)} {roots : List Value} {most : Nat} {context : Context}
  (damaged : heap.Damaged machine objects lists roots)

include damaged

/-- No object lies in the sentinel of a slab, nor in a free block. -/
theorem beside (inHeap : slab ∈ heap.slabs) (member : block ∈ objects) (covers : block.Covers address)
    (lower : slab.start ≤ address) (upper : address < slab.stop) :
    slab.objects ≤ address ∧ ∀ entry ∈ lists slab, ¬ (entry.1 ≤ address ∧ address < entry.1 + entry.2) := by
  obtain ⟨other, otherInHeap, first, last, apart⟩ := damaged.placed block member
  obtain ⟨begins, ends⟩ := covers
  have same : other = slab := by
    by_contra distinct
    have separate := damaged.apart.forall otherInHeap inHeap distinct
    simp only [Slab.Apart, Slab.objects] at *
    omega
  subst same
  refine ⟨by omega, fun entry isFree inside => ?_⟩
  have := apart entry isFree
  omega

/-- The passes change no free list. -/
theorem listed_altered (altered : heap.Altered objects machine.memory after) (inHeap : slab ∈ heap.slabs) :
    slab.Listed after (lists slab) := by
  have lists := damaged.listed slab inHeap
  have room := lists.sentinel
  refine altered.stillListed lists (fun block member address lower upper covers => ?_)
    fun block member entry isFree address lower upper covers => ?_
  · have := (damaged.beside inHeap member covers lower (by omega)).1
    omega
  · have bounds := lists.bounds isFree
    exact (damaged.beside inHeap member covers (by omega) (by omega)).2 entry isFree ⟨lower, upper⟩

/-- A pass comes by whole units of the slab. -/
theorem passed_whole {found : Memory} {unit : Nat}
    (passed : heap.Passed objects lists machine.memory slab found unit) :
    unit % 16 = 0 ∧ slab.start + 16 ≤ unit ∧ unit + 16 ≤ slab.stop := by
  obtain ⟨inHeap, ⟨mid, altered, same⟩, comesBy⟩ := passed
  have listed := (damaged.listed_altered altered inHeap).keep same
  obtain ⟨lower, aligned⟩ := listed.comesBy_whole damaged.aligned comesBy
  have first := listed.startAligned
  have size := damaged.whole slab inHeap
  have inside := comesBy.1
  simp only [Slab.stop, blockUnit] at *
  omega

/-- Marking ends, and marks objects that are in order. -/
theorem settles_mark {sure : Prop} :
    Action.Settles (fun extra => heap.markWork roots (Size.wordLimit + extra)) machine sure fun _ after =>
      machine.Steady after ∧ heap.Altered objects machine.memory after.memory ∧ machine.Recalls after := by
  have confined := damaged.graph.confined damaged.roots
  obtain ⟨final, ran, steady, marked⟩ := confined.run_markInOrder arranges_reverseAux
  simp only [markInOrder_reverseAux] at ran
  refine .inl ⟨(), final, fun extra => ran _ (Nat.le_add_right _ _), steady,
    .of_marked damaged.graph.scattered (fun object reached => confined.node reached) marked, ?_⟩
  exact (heap.respects_mark roots).of_run (ran _ (Nat.le_refl _))

/-- The weak pass comes by a unit. Where no object starts there is nothing for it to do. -/
theorem ensures_breakMarked {unit size : Nat} {found : Memory}
    (unstained : heap.Unstained objects lists machine.memory)
    (altered : heap.Altered objects machine.memory mid.memory)
    (passed : heap.Passed objects lists machine.memory slab found unit) (aligned : unit % 16 = 0)
    (claimed : heap.shapes.blockSize? mid.memory unit = .ok (some size)) :
    (heap.breakMarked () unit).Ensures mid fun _ after => mid.Steady after ∧
      heap.Altered objects machine.memory after.memory ∧
      ∀ address, unit + size ≤ address → after.memory.read address = mid.memory.read address := by
  have scattered := damaged.graph.scattered
  unfold breakMarked
  rw [Action.ensures_memory]
  split
  · next marked =>
    by_cases starts : StartsIn objects unit
    · obtain ⟨block, member, rfl⟩ := starts
      obtain ⟨shape, known, describes⟩ := damaged.graph.shaped block member
      have wordAligned : block.start % 8 = 0 := by omega
      have sized : heap.shapes.blockSize? mid.memory block.start = .ok (some block.size) :=
        ShapeTable.blockSize?_eq_some wordAligned (altered.tag member ▸ known)
          (describes.congr (altered.lengths member known describes wordAligned))
      obtain rfl : block.size = size := Option.some.inj (Except.ok.inj (sized.symm.trans claimed))
      refine (altered.ensures_breakWeakSlots scattered member known describes).weaken ?_
      rintro _ after ⟨steady, altered, elsewhere⟩
      exact ⟨steady, altered, fun address behind => elsewhere address fun covers => by
        simp only [Block.Covers, Block.stop] at covers
        omega⟩
    · have header := altered.unmarked scattered aligned starts marked
      rw [header] at marked
      have nothing : (heap.breakWeakSlots unit).Ensures mid fun _ after => after = mid := by
        unfold breakWeakSlots
        rw [Action.ensures_memory, Memory.tag, header]
        cases known : heap.shapes.get? (machine.memory.header unit).tag with
        | none => exact Action.ensures_pure.mpr rfl
        | some shape =>
            simp only [unstained slab found unit passed starts marked shape known]
            exact Action.ensures_pure.mpr rfl
      refine nothing.weaken ?_
      rintro _ _ rfl
      exact ⟨.refl _, altered, fun _ _ => rfl⟩
  · exact Action.ensures_pure.mpr ⟨.refl mid, altered, fun _ _ => rfl⟩

theorem settles_breakSlab {marked : Machine} {rest : List Slab}
    (unstained : heap.Unstained objects lists machine.memory)
    (breaking : heap.Breaking objects lists machine.memory marked (slab :: rest) mid) :
    Action.Settles (fun extra => do
        let memory ← Action.memory
        slab.foldFrom heap.shapes heap.scrutiny heap.breakMarked slab.objects (slab.firstFree memory) ()
          (slab.stepBound + extra)) mid (heap.Modest objects lists machine.memory most) fun _ after =>
      heap.Breaking objects lists machine.memory marked rest after := by
  obtain ⟨steady, altered, done, weakening, split, alarms, reported⟩ := breaking
  have inHeap : slab ∈ heap.slabs := split ▸ List.mem_append_right _ List.mem_cons_self
  have finds : heap.Finds objects slab machine.memory mid.memory := ⟨mid.memory, altered, fun _ _ _ => rfl⟩
  refine (Slab.Listed.settles_walk
    (fun _ after => mid.Steady after ∧ heap.Altered objects machine.memory after.memory)
    (fun _ _ _ holds quiet => ⟨holds.1.trans quiet.toSteady, quiet.memory ▸ holds.2⟩)
    (fun modest unit size comesBy claimed => ?_)
    (fun _ unit size after holds _ comesBy aligned claimed => ?_)
    (fun state object => heap.respects_breakMarked state object) damaged.aligned
    (damaged.listed_altered altered inHeap) rfl ⟨.refl mid, altered⟩).weaken ?_
  · have := modest.claims slab _ unit size ⟨inHeap, finds, comesBy⟩ claimed
    have := modest.room slab inHeap
    have := comesBy.1
    omega
  · refine (damaged.ensures_breakMarked unstained holds.2 ⟨inHeap, finds, comesBy⟩ aligned claimed).weaken ?_
    rintro _ final ⟨onward, altered, behind⟩
    exact ⟨⟨holds.1.trans onward, altered⟩, damaged.listed_altered altered inHeap, behind⟩
  · rintro _ after ⟨⟨onward, altered⟩, _, notices, told, also⟩
    refine ⟨steady.trans onward, altered, done ++ [slab], weakening ++ notices, by simp [split], ?_,
      reported.add finds also⟩
    rw [told, alarms, List.append_assoc]

/-- The weak pass ends and reports what it comes by, or fails where an object claims to reach past all
addresses. -/
theorem settles_breakWithin {marked : Machine} (unstained : heap.Unstained objects lists machine.memory)
    (altered : heap.Altered objects machine.memory marked.memory) :
    Action.Settles heap.breakWithin marked (heap.Modest objects lists machine.memory most) fun _ after =>
      marked.Steady after ∧ heap.Altered objects machine.memory after.memory ∧
        ∃ weakening, after.alarms = marked.alarms ++ weakening ∧
          heap.Reported objects lists machine.memory heap.slabs weakening := by
  have start : heap.Breaking objects lists machine.memory marked heap.slabs marked :=
    ⟨.refl marked, altered, [], [], rfl, (List.append_nil _).symm, by simp [Reported]⟩
  refine (Action.settles_foldlM (fun _ => heap.Breaking objects lists machine.memory marked)
    (fun _ _ _ _ breaking => damaged.settles_breakSlab unstained breaking) start).weaken ?_
  rintro _ after ⟨steady, altered, done, weakening, split, alarms, reported⟩
  rw [List.append_nil] at split
  exact ⟨steady, altered, weakening, alarms, split ▸ reported⟩

theorem settles_sweepSlab {weakened : Machine} {stats : SweepStats} {rest : List Slab}
    (altered : heap.Altered objects machine.memory weakened.memory)
    (sweeping : heap.Sweeping objects lists machine.memory most weakened mid stats (slab :: rest)) :
    Action.Settles (fun extra => slab.sweepFrom heap.shapes heap.scrutiny slab.objects slab.start stats
      (slab.stepBound + extra)) mid (heap.Modest objects lists machine.memory most) fun stats after =>
        heap.Sweeping objects lists machine.memory most weakened after stats rest := by
  obtain ⟨steady, untouched, counted, done, notices, split, alarms, reported⟩ := sweeping
  have inHeap : slab ∈ heap.slabs := split ▸ List.mem_append_right _ List.mem_cons_self
  have asFound := untouched slab List.mem_cons_self
  have finds : heap.Finds objects slab machine.memory mid.memory := ⟨weakened.memory, altered, asFound⟩
  have listed : slab.Listed mid.memory (lists slab) := (damaged.listed_altered altered inHeap).keep asFound
  have slabAligned : slab.stop % 16 = 0 := by
    have first := listed.startAligned
    have size := damaged.whole slab inHeap
    simp only [Slab.stop, blockUnit] at *
    omega
  have separate : ∀ other ∈ rest, slab.Apart other := by
    have apart := damaged.apart
    rw [split, List.pairwise_append] at apart
    exact (List.pairwise_cons.mp apart.2.1).1
  simp only [List.foldr_cons, List.length_cons, Nat.succ_mul] at counted
  refine (listed.settles_sweep damaged.aligned slabAligned
    (fun modest unit size comesBy => modest.claims slab _ unit size ⟨inHeap, finds, comesBy⟩)
    (fun modest => ⟨modest.room slab inHeap, ?_⟩) rfl rfl).weaken ?_
  · have := counted modest
    have := modest.countable.2
    omega
  · rintro final after ⟨onward, outside, freed, more, told, also⟩
    refine ⟨steady.trans onward, fun other member address lower upper => ?_, fun modest => ?_, done ++ [slab],
      notices ++ more, by simp [split], by rw [told, alarms, List.append_assoc], reported.add finds also⟩
    · have apart := separate other member
      simp only [Slab.Apart] at apart
      exact (outside address (by omega)).trans
        (untouched other (List.mem_cons_of_mem _ member) address lower upper)
    · have := counted modest
      have := freed modest
      omega

theorem settles_sweepWithin {weakened : Machine}
    (altered : heap.Altered objects machine.memory weakened.memory) :
    Action.Settles heap.sweepWithin weakened (heap.Modest objects lists machine.memory most) fun stats after =>
      heap.Sweeping objects lists machine.memory most weakened after stats [] :=
  Action.settles_foldlM
    (fun stats rest mid => heap.Sweeping objects lists machine.memory most weakened mid stats rest)
    (fun _ _ _ _ sweeping => damaged.settles_sweepSlab altered sweeping)
    ⟨.refl weakened, fun _ _ _ _ _ => rfl, fun _ => by simp [totalSize], [], [], rfl,
      (List.append_nil _).symm, by simp [Reported]⟩

/-- The weak pass of a collection, if there is one. -/
theorem settles_weakenWithin {marked : Machine}
    (unstained : heap.features.weakReferences = true → heap.Unstained objects lists machine.memory)
    (altered : heap.Altered objects machine.memory marked.memory) :
    Action.Settles heap.weakenWithin marked (heap.Modest objects lists machine.memory most) fun _ after =>
      marked.Steady after ∧ heap.Altered objects machine.memory after.memory ∧
        ∃ weakening, after.alarms = marked.alarms ++ weakening ∧ (heap.features.weakReferences = true →
          heap.Reported objects lists machine.memory heap.slabs weakening) := by
  unfold weakenWithin
  cases weakly : heap.features.weakReferences with
  | false => exact Action.settles_pure ⟨.refl marked, altered, [], by simp, by simp⟩
  | true =>
      refine (damaged.settles_breakWithin (unstained weakly) altered).weaken ?_
      rintro _ after ⟨steady, altered, weakening, told, reported⟩
      exact ⟨steady, altered, weakening, told, fun _ => reported⟩

omit damaged in
/-- A collection of a damaged heap ends: more steps than its loops may take would change nothing. It answers
with what it freed and reports what it comes by. If it fails, then for a sum that is no size, and something
that it came by claims more than `most`. -/
theorem collect_ends (damaged : heap.Damaged machine objects lists (heap.roots (some context)))
    (unstained : heap.features.weakReferences = true → heap.Unstained objects lists machine.memory)
    (most : Nat) :
    heap.collectWithin 0 context = heap.collect context ∧
      Action.Settles (fun extra => heap.collectWithin extra context) machine
        (heap.Modest objects lists machine.memory most) fun answer final =>
          heap.Ended context objects lists machine final answer := by
  refine ⟨collectWithin_zero context, ?_⟩
  unfold collectWithin
  refine damaged.settles_mark.bind ?_
  rintro _ marked ⟨steady, altered, marking, recalled⟩
  rw [Action.settles_note]
  refine Action.Settles.bind (damaged.settles_weakenWithin unstained ?_) ?_
  · exact altered
  rintro _ mid ⟨onward, altered, weakening, told, reported⟩
  have steady := (steady.trans (marked.quiet_logging _).toSteady).trans onward
  refine (damaged.settles_sweepWithin altered).bind ?_
  rintro swept after ⟨onward, _, counted, done, sweeping, split, also, found⟩
  rw [List.append_nil] at split
  rw [Action.settles_note]
  refine Action.settles_count (heap.counters.collect_eq _) (fun modest => ?_) fun _ => Action.settles_pure
    ⟨(steady.trans onward).trans (after.quiet_logging _).toSteady, rfl, rfl, marking, weakening, sweeping, ?_,
      reported, split ▸ found⟩
  · have := counted modest
    refine modest.countable.mono (Nat.le_refl 1) ?_
    simp only [List.foldr_nil, List.length_nil] at *
    omega
  · rw [Machine.alarms_logging, also, told, Machine.alarms_logging, ← recalled]
    simp [Event.alarm?, Notice.level]

end Damaged

section Corrupt

/-- The heap of `sampleMachine` in a build that checks objects. -/
def corruptHeap : Heap := { sampleHeap with features := { validating := true } }

/-- `sampleMachine` with the header of a vector over the garbage, without the mark of validity, and with any
word for its length. -/
def corruptMachine (length : UInt64) : Machine :=
  sampleMachine.withMemory ((sampleMachine.memory.write 4192
    { Header.fresh Tag.vector with magic := 0 }.toWord).write 4200 length)

/-- The context and the pair in its environment. -/
def keptBlocks : List Block := [⟨4112, 48, .object⟩, ⟨4160, 32, .object⟩]

theorem spoiled_corrupt (length : UInt64) : corruptHeap.Spoiled (fun _ => sampleBlocks) keptBlocks ⟨4112⟩
    sampleMachine (corruptMachine length) where
  wellFormed := by
    obtain ⟨tiled, valid, unmarked, slots, frames, globals, scratch⟩ := wellFormed_sample
    exact ⟨⟨tiled.layout, tiled.apart⟩, valid, unmarked, slots, frames, globals, scratch⟩
  isObject := ⟨⟨4112, 48, .object⟩, by decide, rfl, rfl⟩
  kept block := by
    have context : corruptHeap.Reachable sampleMachine (corruptHeap.roots (some ⟨4112⟩)) 4112 :=
      .root (List.mem_singleton.mpr rfl) rfl
    have pair : corruptHeap.Reachable sampleMachine (corruptHeap.roots (some ⟨4112⟩)) 4160 := by
      refine .slot context (by rw [Memory.tag, header_sample.1]; rfl) ⟨1, by decide, rfl⟩ ?_
      exact congrArg Value.address? value_sample.2.1
    constructor
    · intro member
      rcases List.mem_pair.mp member with rfl | rfl
      · exact ⟨by decide, rfl, context⟩
      · exact ⟨by decide, rfl, pair⟩
    · rintro ⟨member, kind, reached⟩
      have alive : sampleHeap.Reachable sampleMachine (corruptHeap.roots (some ⟨4112⟩)) block.start :=
        reached.reroot (show sampleHeap.shapes = corruptHeap.shapes from rfl)
      have listed : ∀ block ∈ sampleBlocks, block.kind = .object → block.start = 4112 ∨ block.start = 4160 →
          block ∈ keptBlocks := by decide
      exact listed block member kind (sample_reachable alive)
  steady := sampleMachine.steady_withMemory _
  same address untouched := by
    have elsewhere : ¬ Block.Covers ⟨4192, 32, .object⟩ address := fun covers =>
      absurd (untouched _ (by decide) covers rfl) (by decide)
    simp only [Block.Covers, Block.stop] at elsewhere
    simp only [corruptMachine, Machine.memory_withMemory, Memory.read_write]
    rw [if_neg (by omega), if_neg (by omega)]

theorem damaged_corrupt (length : UInt64) : corruptHeap.Damaged (corruptMachine length) keptBlocks
    (fun _ => frees sampleBlocks) (corruptHeap.roots (some ⟨4112⟩)) :=
  (spoiled_corrupt length).damaged ShapeTable.aligned_standard

/-- The units that a pass may come by. -/
theorem passed_corrupt {length : UInt64} {found : Memory} {unit : Nat}
    (passed : corruptHeap.Passed keptBlocks (fun _ => frees sampleBlocks) (corruptMachine length).memory slab
      found unit) : slab = sampleSlab ∧ ∃ index < 11, unit = 4112 + 16 * index := by
  obtain ⟨aligned, lower, upper⟩ := (damaged_corrupt length).passed_whole passed
  obtain rfl : slab = sampleSlab := List.mem_singleton.mp passed.inHeap
  simp only [sampleSlab, Slab.stop] at lower upper
  exact ⟨rfl, (unit - 4112) / 16, by omega, by omega⟩

theorem unstained_corrupt (length : UInt64) :
    corruptHeap.Unstained keptBlocks (fun _ => frees sampleBlocks) (corruptMachine length).memory := by
  intro slab found unit passed _ marked
  obtain ⟨_, index, small, rfl⟩ := passed_corrupt passed
  have header : (corruptMachine length).memory.header (4112 + 16 * index) =
      (corruptMachine 0).memory.header (4112 + 16 * index) := by
    have elsewhere : ¬ (4112 + 16 * index) / 8 = 4200 / 8 := by omega
    simp only [corruptMachine, Machine.memory_withMemory, Memory.header, Memory.read_write, if_neg elsewhere]
  have none : ∀ index < 11, ((corruptMachine 0).memory.header (4112 + 16 * index)).isMarked = false := by
    decide +kernel
  cases (none index small).symm.trans (header ▸ marked)

/-- Taken for a vector of ten, the garbage reaches over the whole free block behind it; nothing claims more. -/
theorem modest_corrupt : corruptHeap.Modest keptBlocks (fun _ => frees sampleBlocks)
    (corruptMachine 20).memory 96 where
  claims slab found unit size passed claimed := by
    obtain ⟨aligned, lower, upper⟩ := (damaged_corrupt 20).passed_whole passed
    obtain ⟨rfl, index, small, rfl⟩ := passed_corrupt passed
    have kinds : ∀ block ∈ keptBlocks, ∀ shape,
        corruptHeap.shapes.get? ((corruptMachine 20).memory.tag block.start) = some shape →
          shape.weak = none := by
      have context : (corruptMachine 20).memory.tag 4112 = Tag.context := by decide +kernel
      have pair : (corruptMachine 20).memory.tag 4160 = Tag.pair := by decide +kernel
      simp only [keptBlocks, List.forall_mem_cons, context, pair]
      refine ⟨?_, ?_, by simp⟩ <;> rintro shape known <;> cases known <;> rfl
    have plain : ∀ block ∈ keptBlocks, ∀ address,
        ¬ corruptHeap.WeakWord (corruptMachine 20).memory block address := by
      rintro block member address ⟨shape, offset, known, ⟨run, weak, _⟩ | ⟨run, weak, _⟩, _⟩ <;>
        cases (kinds block member shape known).symm.trans weak
    rw [passed.finds.blockSize?_eq plain (damaged_corrupt 20).graph.scattered
      (fun _ _ known => ShapeTable.length_standard known) aligned (by omega) upper] at claimed
    have claims : ∀ index < 11, ∀ size ∈ (corruptHeap.shapes.blockSize? (corruptMachine 20).memory
        (4112 + 16 * index)).toOption.join, size ≤ 96 := by decide +kernel
    exact claims index small size (by rw [claimed]; rfl)
  room slab inHeap := by
    obtain rfl : slab = sampleSlab := List.mem_singleton.mp inHeap
    decide
  countable := by decide

/-- Both passes report the garbage, and the sweep frees all that it claims. -/
theorem collect_ends_corrupt : ∃ answer final,
    (corruptHeap.collect ⟨4112⟩).run (corruptMachine 20) = .ok answer final ∧
      corruptHeap.Ended ⟨4112⟩ keptBlocks (fun _ => frees sampleBlocks) (corruptMachine 20) final answer ∧
        final.alarms = [.badMagic 4192 0, .badSize 4192 96 4224, .badMagic 4192 0, .badSize 4192 96 4224] := by
  obtain ⟨bounded, settles⟩ := (damaged_corrupt 20).collect_ends (fun _ => unstained_corrupt 20) 96
  obtain ⟨answer, final, ran, ended⟩ := settles.ensures modest_corrupt 0
  rw [bounded] at ran
  refine ⟨answer, final, ran, ended, ?_⟩
  have told : (match (corruptHeap.collect ⟨4112⟩).run (corruptMachine 20) with
      | .ok _ final => final.alarms
      | .error _ _ => []) =
      [.badMagic 4192 0, .badSize 4192 96 4224, .badMagic 4192 0, .badSize 4192 96 4224] := by decide +kernel
  rwa [ran] at told

/-- A length of which the size is just below the range of addresses: it is reported as corrupt, and then the
collection fails for the end of the object. -/
theorem collect_fails_corrupt :
    corruptHeap.Damaged (corruptMachine 0x3ffffffffffffff8) keptBlocks (fun _ => frees sampleBlocks)
      (corruptHeap.roots (some ⟨4112⟩)) ∧
    corruptHeap.Unstained keptBlocks (fun _ => frees sampleBlocks)
      (corruptMachine 0x3ffffffffffffff8).memory ∧
    ∃ final, (corruptHeap.collect ⟨4112⟩).run (corruptMachine 0x3ffffffffffffff8) =
      .error .additionOverflow final ∧ final.alarms = [.badMagic 4192 0] := by
  refine ⟨damaged_corrupt _, unstained_corrupt _, ?_⟩
  have failed : (match (corruptHeap.collect ⟨4112⟩).run (corruptMachine 0x3ffffffffffffff8) with
      | .ok _ _ => none
      | .error fault final => some (fault, final.alarms)) =
      some (.additionOverflow, [.badMagic 4192 0]) := by decide +kernel
  split at failed
  · cases failed
  · next fault final ran =>
    obtain ⟨rfl, told⟩ := Prod.mk.inj (Option.some.inj failed)
    exact ⟨final, ran, told⟩

end Corrupt

end Heap

end SlabHeap
