import SlabHeap.Proofs.Allocation
import SlabHeap.Proofs.Exactness

namespace SlabHeap

/-! Ledgers.

A ledger lists the blocks that a heap gave out and did not take back: objects, and storage without a
header of any length. `Heap.Records` says that a heap has exactly these blocks in use. A block leaves
the ledger in the first collection that cannot reach it, `Heap.survivors`.
-/

open Block

namespace Heap

variable {heap prepared : Heap} {machine mid final : Machine} {memory after : Memory}
  {tiling taken swept divided : Slab → List Block} {block other : Block} {entries : List Block}
  {object : Nat} {value : Value} {roots : List Value} {live : Nat → Prop}
  {context : Option Context} {slab : Slab}

/-- The blocks in use are those of the ledger, each in one slab. -/
structure Records (heap : Heap) (tiling : Slab → List Block) (entries : List Block) : Prop where
  inUse : ∀ entry ∈ entries, entry.kind ≠ .free
  whole : ∀ entry ∈ entries, blockUnit ≤ entry.size ∧ entry.size % blockUnit = 0
  inside : ∀ entry ∈ entries, ∃ slab ∈ heap.slabs,
    slab.objects ≤ entry.start ∧ entry.stop ≤ slab.stop
  perm : (entries.flatMap Block.pieces).Perm (used (heap.blocks tiling))

open Classical in
/-- The entries that a collection with some roots leaves: storage without a header, and the objects
that can be reached. -/
noncomputable def survivors (heap : Heap) (machine : Machine) (roots : List Value)
    (entries : List Block) : List Block :=
  entries.filter fun entry => entry.kind = .object → heap.Reachable machine roots entry.start

/-- The entries that are left when the heap became `after`: fewer if it was collected. -/
noncomputable def remaining (heap after : Heap) (machine : Machine) (roots : List Value)
    (entries : List Block) : List Block :=
  if after.counters.collections = heap.counters.collections then entries
  else heap.survivors machine roots entries

theorem mem_survivors : block ∈ heap.survivors machine roots entries ↔
    block ∈ entries ∧ (block.kind = .object → heap.Reachable machine roots block.start) := by
  simp [survivors]

/-- Marking reaches the objects that a program can reach. -/
theorem Consistent.reach_iff (consistent : heap.Consistent tiling machine)
    (rooted : ∀ value ∈ roots, heap.Denotes tiling value) (member : block ∈ heap.blocks tiling)
    (isObject : block.kind = .object) :
    heap.Reach machine machine.Unmarked roots block.start ↔
      heap.Reachable machine roots block.start := by
  constructor
  · exact Reach.reachable
  · intro reached
    -- Storage without a header holds nothing, so that whatever holds something was marked.
    have met {value : Value} {address : Nat} (denotes : heap.Denotes tiling value)
        (refers : value.address? = some address)
        (marks : ∀ block ∈ heap.blocks tiling, block.kind = .object → block.start = address →
          heap.target? machine.memory value = some address → machine.Unmarked address →
            heap.Reach machine machine.Unmarked roots address) :
        ∃ block ∈ heap.blocks tiling, block.start = address ∧ block.kind ≠ .free ∧
          (block.kind = .object → heap.Reach machine machine.Unmarked roots address) := by
      obtain ⟨block, member, inUse, rfl⟩ := denotes address refers
      refine ⟨block, member, rfl, inUse, fun isObject => ?_⟩
      have sound := consistent.objects block member isObject
      exact marks block member isObject rfl
        (consistent.tiled.target?_eq_some member (fun _ => sound.valid) refers) sound.unmarked
    have holder {block : Block} {value : Value} (member : block ∈ heap.blocks tiling)
        (inUse : block.kind ≠ .free) (held : value ∈ heap.keptValues machine block.start) :
        block.kind = .object := by
      cases kind : block.kind with
      | free => exact absurd kind inUse
      | object => rfl
      | bare =>
          obtain ⟨slab, inHeap, inSlab⟩ := mem_blocks.mp member
          have untagged := ((consistent.tiled.layout slab inHeap).bare inSlab kind).2
          simp [mem_keptValues, untagged, Tag.context] at held
    have goes {object : Nat} (reached : heap.Reachable machine roots object) :
        ∃ block ∈ heap.blocks tiling, block.start = object ∧ block.kind ≠ .free ∧
          (block.kind = .object → heap.Reach machine machine.Unmarked roots object) := by
      induction reached with
      | root listed refers =>
          exact met (rooted _ listed) refers fun _ _ _ _ found unmarked =>
            .root listed found unmarked
      | slot _ known strong refers ih =>
          obtain ⟨owner, member, rfl, inUse, marks⟩ := ih
          have held := slot_keptValues known strong
          refine met (consistent.kept_denotes ⟨owner, member, inUse, rfl⟩ held) refers ?_
          exact fun _ _ _ _ found unmarked =>
            .kept (marks (holder member inUse held)) held found unmarked
      | saved _ isContext linked held refers ih =>
          obtain ⟨owner, member, rfl, inUse, marks⟩ := ih
          have held : _ ∈ heap.keptValues machine owner.start :=
            saved_keptValues isContext linked held
          refine met (consistent.kept_denotes ⟨owner, member, inUse, rfl⟩ held) refers ?_
          exact fun _ _ _ _ found unmarked =>
            .kept (marks (holder member inUse held)) held found unmarked
    obtain ⟨other, otherMember, same, _, marks⟩ := goes reached
    obtain rfl := consistent.tiled.eq_of_start_eq otherMember member same
    exact marks isObject

namespace Records

theorem piece (records : heap.Records tiling entries) (member : block ∈ entries)
    (inPieces : other ∈ block.pieces) : other ∈ heap.blocks tiling ∧ other.kind ≠ .free :=
  mem_used.mp (records.perm.mem_iff.mp (List.mem_flatMap.mpr ⟨block, member, inPieces⟩))

theorem mem_blocks_of_object (records : heap.Records tiling entries) (member : block ∈ entries)
    (isObject : block.kind = .object) : block ∈ heap.blocks tiling :=
  (records.piece member (by simp [pieces, isObject])).1

theorem mem_iff_of_object (records : heap.Records tiling entries) (isObject : block.kind = .object) :
    block ∈ entries ↔ block ∈ heap.blocks tiling := by
  refine ⟨fun member => records.mem_blocks_of_object member isObject, fun member => ?_⟩
  have inUse : block ∈ used (heap.blocks tiling) := mem_used.mpr ⟨member, by simp [isObject]⟩
  obtain ⟨entry, inLedger, piece⟩ := List.mem_flatMap.mp (records.perm.mem_iff.mpr inUse)
  cases kind : entry.kind with
  | free => exact absurd kind (records.inUse entry inLedger)
  | object =>
      simp only [pieces, kind, List.mem_singleton] at piece
      exact piece ▸ inLedger
  | bare =>
      simp only [pieces, kind, mem_units] at piece
      obtain ⟨_, _, rfl⟩ := piece
      contradiction

theorem node (records : heap.Records tiling entries) (member : block ∈ entries) :
    heap.Node tiling block.start := by
  obtain ⟨large, whole⟩ := records.whole block member
  have positive : block.start < block.stop := by
    simp only [Block.stop, blockUnit] at *
    omega
  cases parts : block.pieces with
  | nil =>
      have tiles := tiles_pieces large whole
      rw [parts] at tiles
      exact absurd tiles (Nat.ne_of_lt positive)
  | cons first rest =>
      have tiles := tiles_pieces large whole
      rw [parts] at tiles
      obtain ⟨inHeap, inUse⟩ := records.piece member (parts ▸ List.mem_cons_self)
      exact ⟨first, inHeap, inUse, tiles.1⟩

theorem obtain (records : heap.Records tiling entries)
    (obtained : heap.Obtained tiling taken memory after block) :
    heap.Records taken (entries ++ [block]) where
  inUse := List.forall_mem_append.mpr ⟨records.inUse, by simpa using obtained.inUse⟩
  whole := List.forall_mem_append.mpr ⟨records.whole, by simpa using obtained.large⟩
  inside := List.forall_mem_append.mpr ⟨records.inside, by
    obtain ⟨slab, inHeap, lower, upper, _⟩ := obtained.inside
    simpa using ⟨slab, inHeap, lower, upper⟩⟩
  perm := by
    rw [List.flatMap_append, List.flatMap_singleton]
    exact (records.perm.append_right _).trans (List.perm_append_comm.trans obtained.perm.symm)

theorem flatMap_survivors (inUse : ∀ entry ∈ entries, entry.kind ≠ .free) :
    (heap.survivors machine roots entries).flatMap Block.pieces =
      heap.survivors machine roots (entries.flatMap Block.pieces) := by
  induction entries with
  | nil => rfl
  | cons entry rest ih =>
      have later := ih fun other member => inUse other (List.mem_cons_of_mem _ member)
      have here := inUse entry List.mem_cons_self
      have alone : (heap.survivors machine roots [entry]).flatMap Block.pieces =
          heap.survivors machine roots entry.pieces := by
        cases kind : entry.kind with
        | free => exact absurd kind here
        | object =>
            simp only [survivors, pieces, kind, List.filter_cons, List.filter_nil]
            split <;> simp [pieces, kind]
        | bare =>
            have all : heap.survivors machine roots entry.pieces = entry.pieces := by
              refine List.filter_eq_self.mpr fun piece member => ?_
              simp only [pieces, kind, mem_units] at member
              obtain ⟨_, _, rfl⟩ := member
              simp
            rw [all]
            simp [survivors, kind]
      have split : heap.survivors machine roots (entry :: rest) =
          heap.survivors machine roots [entry] ++ heap.survivors machine roots rest := by
        rw [survivors, ← List.singleton_append, List.filter_append]
        rfl
      rw [split, List.flatMap_append, alone, later, List.flatMap_cons, survivors, survivors,
        survivors, List.filter_append]

/-- A collection takes the objects that it does not keep off the ledger. -/
theorem survive (records : heap.Records tiling entries) (tiled : heap.Tiled memory tiling)
    (collected : heap.Collected tiling swept machine final live)
    (reaches : ∀ block ∈ heap.blocks tiling, block.kind = .object →
      (live block.start ↔ heap.Reachable machine roots block.start)) :
    heap.Records swept (heap.survivors machine roots entries) where
  inUse entry member := records.inUse entry (mem_survivors.mp member).1
  whole entry member := records.whole entry (mem_survivors.mp member).1
  inside entry member := records.inside entry (mem_survivors.mp member).1
  perm := by
    rw [flatMap_survivors records.inUse]
    refine (records.perm.filter _).trans ((List.perm_ext_iff_of_nodup
      ((tiled.nodup_blocks.filter _).filter _) (collected.tiled.nodup_blocks.filter _)).mpr ?_)
    intro block
    rw [← survivors, mem_survivors, ← used, ← used, mem_used, mem_used]
    constructor
    · rintro ⟨⟨member, inUse⟩, alive⟩
      refine ⟨(collected.mem_swept inUse).mpr ⟨member, fun isObject => ?_⟩, inUse⟩
      exact (reaches block member isObject).mpr (alive isObject)
    · rintro ⟨member, inUse⟩
      obtain ⟨before, alive⟩ := (collected.mem_swept inUse).mp member
      exact ⟨⟨before, inUse⟩, fun isObject => (reaches block before isObject).mp (alive isObject)⟩

theorem grown (records : heap.Records tiling entries) (new : slab ∉ heap.slabs) (size : Nat) :
    (heap.grown slab).Records (Function.update tiling slab [⟨slab.objects, size, .free⟩])
      entries where
  inUse := records.inUse
  whole := records.whole
  inside entry member := by
    obtain ⟨other, inHeap, within⟩ := records.inside entry member
    exact ⟨other, List.mem_append_left _ inHeap, within⟩
  perm := by
    have same : heap.slabs.flatMap (Function.update tiling slab [⟨slab.objects, size, .free⟩]) =
        heap.slabs.flatMap tiling :=
      List.flatMap_congr fun other member => by
        have distinct : other ≠ slab := fun equal => new (equal ▸ member)
        rw [Function.update_of_ne distinct]
    have free : used [(⟨slab.objects, size, .free⟩ : Block)] = [] := rfl
    simp only [Heap.blocks, Heap.grown, List.flatMap_append, List.flatMap_singleton, same,
      Function.update_self, used_append, free, List.append_nil]
    exact records.perm

/-- What a heap is prepared for a request with changes the ledger as a collection does. -/
theorem prepare (records : heap.Records tiling entries)
    (consistent : heap.Consistent tiling machine)
    (rooted : ∀ value ∈ heap.roots context, heap.Denotes tiling value)
    (prepares : heap.Prepared context tiling machine prepared divided mid) :
    prepared.Records divided (heap.remaining prepared machine (heap.roots context) entries) := by
  have fewer {stats : SweepStats} {swept : Slab → List Block} {final : Machine}
      (collected : heap.Collected tiling swept machine final
        (heap.Reach machine machine.Unmarked (heap.roots context))) :
      (heap.counted stats).Records swept (heap.survivors machine (heap.roots context) entries) := by
    have swept := records.survive consistent.tiled collected fun block member isObject =>
      consistent.reach_iff rooted member isObject
    exact ⟨swept.inUse, swept.whole, swept.inside, swept.perm⟩
  cases prepares with
  | ready =>
      rw [remaining, if_pos rfl]
      exact records
  | collected collected _ =>
      rw [remaining, if_neg (by simp [counted])]
      exact fewer collected
  | @grown stats swept mid final slab collected created =>
      rw [remaining, if_neg (by simp [counted, Heap.grown])]
      have counted : (heap.counted stats).Consistent swept mid :=
        (consistent.collected_reach collected).recount _
      exact (fewer collected).grown (new_of_created counted.hosted created) _

end Records

end Heap

end SlabHeap
