import SlabHeap.Proofs.Canonical
import SlabHeap.Proofs.Staying

namespace SlabHeap

/-! Storage that has no header yet.

A program that asks for storage alone may write into it what it likes, `Block.Rewritten`, as long as no unit
of it has a tag. The heap leaves such storage to the program, `Operation.idles`: a collection that meets a
unit may mark it and does no more. What is kept alive does not depend on the words there,
`Heap.Accounted.keeps_rewritten`.
-/

open Block

namespace Block

variable {memory mid after : Memory} {block unit : Block} {met also : Prop}

/-- Nothing but words of the block changed, and no unit of it has a tag. -/
structure Rewritten (memory after : Memory) (block : Block) : Prop where
  outside : ∀ address, ¬ block.Covers address → after.read address = memory.read address
  untagged : ∀ unit ∈ block.pieces, after.tag unit.start = 0

/-- A unit stays as it is, but for a mark where it is met. -/
structure Idles (met : Prop) (memory after : Memory) (unit : Block) : Prop where
  header : after.header unit.start = memory.header unit.start ∨
    met ∧ after.header unit.start = (memory.header unit.start).mark
  contents : ∀ address, unit.start + 8 ≤ address → address < unit.stop →
    after.read address = memory.read address

theorem kind_of_mem_pieces (isBare : block.kind = .bare) (inPieces : unit ∈ block.pieces) :
    unit.kind = .bare := by
  simp only [pieces, isBare, mem_units] at inPieces
  obtain ⟨_, _, rfl⟩ := inPieces
  rfl

namespace Idles

theorem of_kept (kept : unit.Kept memory after) (covers : unit.Covers unit.start) :
    unit.Idles met memory after where
  header := .inl (congrArg Header.ofWord (kept _ covers))
  contents address lower upper := kept address ⟨by omega, upper⟩

variable (idles : unit.Idles met memory mid)

include idles

theorem weaken (more : met → also) : unit.Idles also memory mid :=
  ⟨idles.header.imp_right (And.imp_left more), idles.contents⟩

theorem keep (kept : unit.Kept mid after) (covers : unit.Covers unit.start) : unit.Idles met memory after where
  header := by
    have same : after.header unit.start = mid.header unit.start := congrArg Header.ofWord (kept _ covers)
    rw [same]
    exact idles.header
  contents address lower upper :=
    (kept address ⟨by omega, upper⟩).trans (idles.contents address lower upper)

end Idles

end Block

namespace Heap

variable {heap prepared : Heap} {machine mid final : Machine} {memory : Memory}
  {tiling swept divided : Slab → List Block} {entries : List Block} {block raw unit : Block}
  {live : Nat → Prop} {context : Option Context} {roots : List Value} {object : Nat}

/-- Marking from some roots meets the address: something that can be reached refers to it, and a header is
there if marking looks for one. -/
def Encounters (heap : Heap) (machine : Machine) (roots : List Value) (address : Nat) : Prop :=
  heap.Reachable machine roots address ∧
    (heap.features.validating = true → (machine.memory.header address).isValid = true)

theorem Reach.encounters {passable : Nat → Prop} (reached : heap.Reach machine passable roots object) :
    heap.Encounters machine roots object := by
  refine ⟨reached.reachable, fun validating => ?_⟩
  have valid {value : Value} (found : heap.target? machine.memory value = some object) :
      (machine.memory.header object).isValid = true := by
    have checked := (Option.filter_eq_some_iff.mp found).2
    rw [if_pos validating, decide_eq_true_eq] at checked
    exact checked.2.2
  cases reached with
  | root _ found _ => exact valid found
  | kept _ _ found _ => exact valid found

/-- No collection takes storage without a header. -/
theorem spares_of_bare (isBare : raw.kind = .bare) : heap.Spares machine roots raw := by
  intro isObject
  rw [isBare] at isObject
  cases isObject

/-- A collection leaves storage without a header alone but for marks. -/
theorem Collected.idles (collected : heap.Collected tiling swept machine final live)
    (member : unit ∈ heap.blocks tiling) (isBare : unit.kind = .bare) :
    unit.Idles (live unit.start) machine.memory final.memory :=
  ⟨collected.bareHeaders unit member isBare, collected.bareContents unit member isBare⟩

/-- So does a heap that is prepared for a request. -/
theorem Prepared.idles (prepares : heap.Prepared context tiling machine prepared divided mid)
    (consistent : heap.Consistent tiling machine) (member : unit ∈ heap.blocks tiling)
    (isBare : unit.kind = .bare) :
    unit.Idles (prepared.counters.collections ≠ heap.counters.collections ∧
      heap.Reach machine machine.Unmarked (heap.roots context) unit.start) machine.memory mid.memory := by
  have covers := consistent.tiled.start_covers member
  cases prepares with
  | ready quiet => exact .of_kept (fun address _ => by rw [quiet.memory]) covers
  | collected collected quiet =>
      rw [quiet.memory]
      exact (collected.idles member isBare).weaken fun reached => ⟨by simp [counted], reached⟩
  | grown collected created =>
      obtain ⟨slab, inHeap, inSlab⟩ := mem_blocks.mp member
      have hosted := (consistent.collected_reach collected).hosted slab inHeap
      refine ((collected.idles member isBare).weaken fun reached => ⟨by simp [counted, Heap.grown], reached⟩).keep
        (fun address inside => ?_) covers
      have inside := consistent.tiled.slab_covers inHeap inSlab inside
      exact created.outside address (hosted.reserved inside.1 inside.2)

/-- Words of objects are none of storage without a header. -/
theorem Edits.kept (edits : heap.Edits tiling machine final entries)
    (tiled : heap.Tiled machine.memory tiling) (member : unit ∈ heap.blocks tiling)
    (isBare : unit.kind = .bare) : unit.Kept machine.memory final.memory := by
  intro address covers
  obtain same | ⟨other, otherMember, isObject, lower, upper⟩ := edits.words address
  · exact same
  · have equal := tiled.eq_of_covers member otherMember covers ⟨by omega, upper⟩
    rw [equal, isObject] at isBare
    cases isBare

/-- What holds no tag keeps nothing alive. -/
theorem keptValues_of_untagged (untagged : machine.memory.tag object = 0) :
    heap.keptValues machine object = [] := by
  simp [keptValues, untagged, Tag.context]

/-- What can be reached is kept alive by objects alone. -/
theorem Consistent.reachable_of_kept (consistent : heap.Consistent tiling machine)
    (rooted : ∀ value ∈ roots, heap.Denotes tiling value)
    (same : ∀ block ∈ heap.blocks tiling, block.kind = .object → block.Kept machine.memory final.memory)
    (frames : final.frames = machine.frames) (reached : heap.Reachable machine roots object) :
    heap.Reachable final roots object := by
  have passes {owner object : Nat} {value : Value} (node : heap.Node tiling owner)
      (reached : heap.Reachable final roots owner) (held : value ∈ heap.keptValues machine owner)
      (refers : value.address? = some object) :
      heap.Node tiling object ∧ heap.Reachable final roots object := by
    refine ⟨consistent.kept_denotes node held object refers, reached.kept ?_ refers⟩
    obtain ⟨block, member, inUse, rfl⟩ := node
    cases kind : block.kind with
    | free => exact absurd kind inUse
    | bare =>
        obtain ⟨slab, inHeap, inSlab⟩ := mem_blocks.mp member
        rw [keptValues_of_untagged ((consistent.tiled.layout slab inHeap).bare inSlab kind).2] at held
        cases held
    | object =>
        have kept := same block member kind
        have covers := consistent.tiled.start_covers member
        rwa [consistent.tiled.keptValues_congr member inUse frames
          (congrArg (fun word => (Header.ofWord word).tag) (kept _ covers))
          fun address lower upper => kept address ⟨by omega, upper⟩]
  have goes : heap.Node tiling object ∧ heap.Reachable final roots object := by
    induction reached with
    | root listed refers => exact ⟨rooted _ listed _ refers, .root listed refers⟩
    | slot _ known strong refers ih => exact passes ih.1 ih.2 (slot_keptValues known strong) refers
    | saved _ isContext linked held refers ih =>
        exact passes ih.1 ih.2 (saved_keptValues isContext linked held) refers
  exact goes.2

namespace Accounted

variable (accounted : heap.Accounted tiling machine entries) (listed : raw ∈ entries)
  (isBare : raw.kind = .bare)

include accounted listed

/-- The units of storage without a header cover it. -/
theorem exists_piece {address : Nat} (covers : raw.Covers address) :
    ∃ unit ∈ raw.pieces, unit ∈ heap.blocks tiling ∧ unit.kind ≠ .free ∧ unit.Covers address := by
  obtain ⟨large, whole⟩ := accounted.records.whole raw listed
  obtain ⟨unit, inPieces, inside⟩ := (tiles_pieces large whole).covered covers.1 covers.2
  obtain ⟨member, inUse⟩ := accounted.records.piece listed inPieces
  exact ⟨unit, inPieces, member, inUse, inside⟩

variable (rewritten : raw.Rewritten machine.memory memory)

include rewritten

/-- Other blocks do not notice what is written. -/
theorem kept_rewritten (member : block ∈ heap.blocks tiling) (other : block ∉ raw.pieces) :
    block.Kept machine.memory memory := by
  refine fun address covers => rewritten.outside address fun inside => other ?_
  obtain ⟨unit, inPieces, unitMember, _, unitCovers⟩ := accounted.exists_piece listed inside
  exact accounted.consistent.tiled.eq_of_covers member unitMember covers unitCovers ▸ inPieces

include isBare

theorem kept_object (member : block ∈ heap.blocks tiling) (isObject : block.kind = .object) :
    block.Kept machine.memory memory := by
  refine accounted.kept_rewritten listed rewritten member fun inPieces => ?_
  rw [kind_of_mem_pieces isBare inPieces] at isObject
  cases isObject

/-- The books are right whatever is written there. -/
theorem rewrite : heap.Accounted tiling (machine.withMemory memory) entries := by
  have consistent := accounted.consistent
  have tiled := consistent.tiled
  have alike {block : Block} (member : block ∈ heap.blocks tiling) :
      block.Alike heap.shapes machine.memory memory := by
    by_cases inPieces : block ∈ raw.pieces
    · have kind := kind_of_mem_pieces isBare inPieces
      obtain ⟨slab, inHeap, inSlab⟩ := mem_blocks.mp member
      have untagged := ((tiled.layout slab inHeap).bare inSlab kind).2
      exact ⟨(rewritten.untagged block inPieces).trans untagged.symm, by simp [kind]⟩
    · exact (accounted.kept_rewritten listed rewritten member inPieces).alike (consistent.fits member)
        (tiled.bounds member).2.2.1
  refine ⟨consistent.renew ⟨⟨tiled.congr_used (fun address clear => rewritten.outside address fun inside => ?_)
    fun block member _ => alike member, consistent.hosted, consistent.upper, fun block member isObject => ?_⟩,
    fun block member _ => alike member⟩, accounted.records⟩
  · obtain ⟨unit, _, member, inUse, covers⟩ := accounted.exists_piece listed inside
    exact clear unit member inUse covers
  · exact (consistent.objects block member isObject).keep isObject (consistent.fits member)
      (tiled.bounds member).2.2.1 (accounted.kept_object listed isBare rewritten member isObject)
      (fun _ _ found _ => found) fun _ => id

/-- What can be reached does not depend on the words there. -/
theorem reachable_rewritten (rooted : ∀ value ∈ roots, heap.Denotes tiling value) :
    heap.Reachable (machine.withMemory memory) roots object ↔ heap.Reachable machine roots object := by
  have same {block : Block} (member : block ∈ heap.blocks tiling) (isObject : block.kind = .object) :=
    accounted.kept_object listed isBare rewritten member isObject
  constructor
  · exact (accounted.rewrite listed isBare rewritten).consistent.reachable_of_kept rooted
      (fun block member isObject address covers => (same member isObject address covers).symm) rfl
  · exact accounted.consistent.reachable_of_kept rooted (fun _ => same) rfl

theorem named_rewritten (snapshot : Snapshot) :
    heap.named memory snapshot (heap.blocks tiling) = heap.named machine.memory snapshot (heap.blocks tiling) := by
  refine congrArg _ (List.filter_congr fun block member => ?_)
  by_cases isObject : block.kind = .object
  · have kept := accounted.kept_object listed isBare rewritten member isObject
    have tag : memory.tag block.start = machine.memory.tag block.start :=
      congrArg (fun word => (Header.ofWord word).tag) (kept _ (accounted.consistent.tiled.start_covers member))
    rw [tag]
  · simp [isObject]

end Accounted

end Heap

namespace Operation

variable {heap after : Heap} {machine final : Machine} {memory : Memory} {tiling : Slab → List Block}
  {entries : List Block} {op : Operation} {answer : Answer} {block raw : Block}

/-- What a collection meets that the operation makes of the heap, if it makes one. -/
def Encounters (heap after : Heap) (machine : Machine) (entries : List Block) : Operation → Nat → Prop
  | make order, address => after.counters.collections ≠ heap.counters.collections ∧
      heap.Encounters machine (order.roots heap) address
  | collect context, address => heap.Encounters machine (heap.roots (some context)) address
  | scan context snapshot, address => heap.Encounters machine
      (heap.roots (some context) ++ heap.named machine.memory snapshot entries) address
  | _, _ => False

variable (accounted : heap.Accounted tiling machine entries)
  (apt : op.Apt heap machine (Listed entries)) (listed : raw ∈ entries) (isBare : raw.kind = .bare)

include accounted apt listed isBare

/-- What an operation keeps does not depend on the words of storage without a header. -/
theorem keeps_rewritten (rewritten : raw.Rewritten machine.memory memory) :
    op.Keeps heap after (machine.withMemory memory) entries block ↔
      op.Keeps heap after machine entries block := by
  have consistent := accounted.consistent
  have spares {roots : List Value} (rooted : ∀ value ∈ roots, heap.Denotes tiling value) :
      heap.Spares (machine.withMemory memory) roots block ↔ heap.Spares machine roots block :=
    forall_congr' fun _ => accounted.reachable_rewritten listed isBare rewritten rooted
  cases op with
  | make order =>
      have rooted := Order.rooted_of_apt accounted apt
      exact or_congr_right (spares ((consistent.holding rooted.held).rooted rooted.root))
  | collect context =>
      exact spares (consistent.rooted (by simpa using accounted.denotes_handle apt))
  | scan context snapshot =>
      have same := spares (consistent.rooted_named snapshot (accounted.denotes_handle apt))
      have still := accounted.rewrite listed isBare rewritten
      have named := accounted.named_rewritten listed isBare rewritten snapshot
      rw [Keeps, Keeps, Heap.Spares, Heap.Spares, ← still.reachable_named, ← accounted.reachable_named]
      rw [Machine.memory_withMemory, named]
      exact same
  | _ => exact .rfl

variable (orderly : machine.Orderly) (ran : (op.perform heap).run machine = .ok (after, answer) final)

include orderly ran

/-- An operation leaves storage without a header alone but for marks. -/
theorem idles : ∀ unit ∈ raw.pieces,
    unit.Idles (op.Encounters heap after machine entries unit.start) machine.memory final.memory := by
  intro unit inPieces
  have consistent := accounted.consistent
  have kind := kind_of_mem_pieces isBare inPieces
  obtain ⟨member, inUse⟩ := accounted.records.piece listed inPieces
  have covers := consistent.tiled.start_covers member
  by_cases only : op.Edits
  · exact .of_kept ((edits only accounted orderly apt ran).2.kept consistent.tiled member kind) covers
  cases op with
  | make order =>
      obtain ⟨⟨_, _⟩, same, acts⟩ := Action.of_run_map ran
      cases same
      obtain ⟨prepared, divided, mid, ready, collections, _, _, _, _, _, records, kept⟩ :=
        Order.prepares accounted apt acts
      have rooted := Order.rooted_of_apt accounted apt
      have inPrepared := records.piece (Heap.mem_remaining.mpr ⟨listed, .inr (Heap.spares_of_bare isBare)⟩) inPieces
      have still := kept unit inPrepared.1 inUse
      refine ((ready.idles (consistent.holding rooted.held) member kind).weaken fun met => ?_).keep still covers
      obtain ⟨reached, valid⟩ := met.2.encounters
      rw [Heap.reachable_holding] at reached
      exact ⟨collections ▸ met.1, reached, valid⟩
  | collect context =>
      obtain ⟨⟨_, _⟩, same, acts⟩ := Action.of_run_map ran
      cases same
      have denotes : ∀ handle ∈ some context, heap.Denotes tiling handle.toValue := by
        simpa using accounted.denotes_handle apt
      obtain ⟨_, swept, collected⟩ := (consistent.collectable denotes).collectFrom_meets.of_run acts
      exact (collected.idles member kind).weaken Heap.Reach.encounters
  | scan context snapshot =>
      obtain ⟨⟨_, _⟩, same, acts⟩ := Action.of_run_map ran
      cases same
      have denotes := accounted.denotes_handle apt
      obtain ⟨_, swept, collected⟩ := (consistent.collectWithSnapshot_meets denotes).of_run acts
      refine (collected.idles member kind).weaken fun reached => ?_
      rw [Encounters, Heap.Encounters, ← accounted.reachable_named]
      exact reached.encounters
  | append request =>
      obtain ⟨⟨_, _⟩, same, acts⟩ := Action.of_run_map ran
      cases same
      rcases (consistent.tiled.appendSlab_meets consistent.hosted).of_run acts with
        ⟨same, quiet, _⟩ | ⟨slab, same, _, _, created⟩
      all_goals
        cases same
      · exact .of_kept (fun _ _ => by rw [quiet.memory]) covers
      · exact .of_kept (consistent.upheld.kept_created created member) covers
  | register shape =>
      cases ran
      exact .of_kept (fun _ _ => rfl) covers
  | _ => exact absurd trivial only

end Operation

end SlabHeap
