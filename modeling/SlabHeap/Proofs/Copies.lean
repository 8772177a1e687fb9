import SlabHeap.Proofs.Accounts
import SlabHeap.Proofs.Overwrite

namespace SlabHeap

/-! Copies are consistent.

A copy of the slab of a consistent heap makes a heap with the same shapes consistent,
`Heap.Duplicated.consistent`, and its ledger lists the copies of what is in use,
`Heap.Duplicated.records`.
-/

open Block

namespace Block

variable {place : Nat → Nat} {blocks : List Block} {block : Block} {start stop extra : Nat}
  {source target : Slab}

theorem Coalesced.extend (coalesced : Coalesced blocks) : Coalesced (extend blocks stop extra) := by
  simp only [Block.extend]
  split
  · exact coalesced
  · exact coalesced.reverse.reclaim.reverse

theorem Coalesced.moved (coalesced : Coalesced blocks) :
    Coalesced (blocks.map (source.moveBlock target)) :=
  List.isChain_map_of_isChain (source.moveBlock target) (fun _ _ separate => separate) coalesced

theorem used_moved : used (blocks.map (source.moveBlock target)) =
    (used blocks).map (source.moveBlock target) := by
  simp only [used, List.filter_map]
  rfl

theorem pieces_moved (lower : source.start ≤ block.start) :
    (source.moveBlock target block).pieces = block.pieces.map (source.moveBlock target) := by
  have shifted (count : Nat) : ∀ start, source.start ≤ start →
      units (source.counterpart target start) count =
        (units start count).map (source.moveBlock target) := by
    induction count with
    | zero => exact fun _ _ => rfl
    | succ count ih =>
        intro start lower
        simp only [units, List.map_cons, ← ih (start + blockUnit) (by omega)]
        refine congrArg₂ _ rfl (congrArg (units · count) ?_)
        simp only [Slab.counterpart]
        omega
  cases kind : block.kind with
  | bare =>
      simp only [pieces, Slab.moveBlock, kind]
      exact shifted _ _ lower
  | free | object => simp only [pieces, Slab.moveBlock, kind, List.map_cons, List.map_nil]

end Block

namespace Heap

variable {heap copy : Heap} {fromSlab toSlab : Slab} {machine final : Machine}
  {tiling : Slab → List Block} {entries : List Block} {keepOwnership : Bool} {copyIdentity : Nat}

/-- The copies of objects have the headers of these, but for ownership unless it is kept. -/
def Headed (fromSlab toSlab : Slab) (keepOwnership : Bool) (memory after : Memory)
    (entries : List Block) : Prop :=
  ∀ entry ∈ entries, entry.kind = .object → after.header (fromSlab.moveBlock toSlab entry).start =
    if keepOwnership then memory.header entry.start else (memory.header entry.start).remove .owned

/-- The blocks of a copy. -/
def copiedTiling (fromSlab toSlab : Slab) (tiling : Slab → List Block) : Slab → List Block :=
  fun _ => Block.extend ((tiling fromSlab).map (fromSlab.moveBlock toSlab))
    (fromSlab.filled toSlab).stop (toSlab.size - fromSlab.size)

namespace Duplicated

variable (duplicated : heap.Duplicated fromSlab toSlab (tiling fromSlab) keepOwnership copyIdentity
    machine final)
  (single : heap.slabs = [fromSlab]) (copySingle : copy.slabs = [toSlab])

include single copySingle

omit duplicated in
theorem mem_blocks_copy {block : Block} (inUse : block.kind ≠ .free) :
    block ∈ copy.blocks (copiedTiling fromSlab toSlab tiling) ↔
      ∃ original ∈ heap.blocks tiling, fromSlab.moveBlock toSlab original = block := by
  simp only [Heap.blocks, single, copySingle, List.flatMap_cons, List.flatMap_nil, List.append_nil,
    copiedTiling, Block.mem_extend inUse, List.mem_map]

variable (beside : fromSlab.Beside toSlab)

include beside

omit duplicated in
theorem address?_moved {value : Value} {address : Nat}
    (inside : ∀ original, value.address? = some original → heap.contains original = true)
    (found : (fromSlab.moveValue toSlab value).address? = some address) : ∃ original,
      value.address? = some original ∧ fromSlab.counterpart toSlab original = address := by
  have places := places_counterpart single copySingle beside
  rw [← moveValue_counterpart single, places.address?_moveValue inside] at found
  exact Option.map_eq_some_iff.mp found

omit duplicated in
theorem denotes_moved (tiled : heap.Tiled machine.memory tiling) {value : Value}
    (denotes : heap.Denotes tiling value) :
    copy.Denotes (copiedTiling fromSlab toSlab tiling) (fromSlab.moveValue toSlab value) := by
  intro address found
  obtain ⟨original, holds, rfl⟩ := address?_moved single copySingle beside (fun original holds => by
    obtain ⟨block, member, _, rfl⟩ := denotes original holds
    exact tiled.contains member) found
  obtain ⟨block, member, inUse, rfl⟩ := denotes original holds
  exact ⟨fromSlab.moveBlock toSlab block,
    (mem_blocks_copy single copySingle (show (fromSlab.moveBlock toSlab block).kind ≠ .free from
      inUse)).mpr ⟨block, member, rfl⟩, inUse, rfl⟩

variable {denotes alsoDenotes : Value → Prop} (upheld : heap.Upheld denotes tiling machine)
  (agree : ∀ block ∈ heap.blocks tiling, block.kind = .object →
    copy.shapes.get? (machine.memory.tag block.start) = heap.shapes.get? (machine.memory.tag block.start))
  (features : copy.features = heap.features)

include duplicated upheld agree features

theorem mirrors_copy : heap.Mirrors copy (fromSlab.counterpart toSlab) tiling
    (copiedTiling fromSlab toSlab tiling) machine.memory final.memory :=
  duplicated.mirrors (upheld.tiled.layout fromSlab (by simp [single])) beside single copySingle
    features agree

section Sound

variable (moved : ∀ value, denotes value → alsoDenotes (fromSlab.moveValue toSlab value))

include moved

theorem sound {block : Block} (member : block ∈ heap.blocks tiling) (isObject : block.kind = .object) :
    (fromSlab.moveBlock toSlab block).Sound copy.shapes copy.features.weakReferences alsoDenotes
      final := by
  have inSlab : block ∈ tiling fromSlab := by simpa [Heap.blocks, single] using member
  have mirrors := duplicated.mirrors_copy single copySingle beside upheld agree features
  have adapted := duplicated.adapted block inSlab isObject
  have sound := upheld.objects block member isObject
  have lower := ((upheld.tiled.layout fromSlab (by simp [single])).bounds inSlab).1
  have header : final.memory.header (fromSlab.moveBlock toSlab block).start =
    if keepOwnership then machine.memory.header block.start
    else (machine.memory.header block.start).remove .owned := adapted.header
  have tag : final.memory.tag (fromSlab.moveBlock toSlab block).start =
    machine.memory.tag block.start := (mirrors.imaged block member isObject).tag
  refine ⟨?_, ?_, fun shape known offset followed => ?_, fun isContext => ⟨[], ?_, by simp⟩⟩
  · rw [header]
    split
    · exact sound.valid
    · exact sound.valid
  · rw [Machine.Unmarked, header]
    split
    · exact sound.unmarked
    · rw [Header.isMarked_remove_owned]
      exact sound.unmarked
  · rw [tag, agree block member isObject] at known
    have lengths : ∀ length ∈ shape.lengths,
        final.memory.read ((fromSlab.moveBlock toSlab block).start + length.offset) =
          machine.memory.read (block.start + length.offset) :=
      mirrors.lengths upheld.tiled member isObject known
    rw [features, Shape.followed_congr lengths] at followed
    have value := adapted.slots shape known offset followed.slot
    rw [Slab.counterpart_add (by omega)] at value
    rw [show final.memory.value ((fromSlab.moveBlock toSlab block).start + offset) = _ from value]
    exact moved _ (sound.slots shape known offset followed)
  · have saves := adapted.saves (tag ▸ isContext)
    rw [Slab.counterpart_add (by omega)] at saves
    exact congrArg UInt64.toNat saves

theorem upheld_copy (hosted : final.Hosts toSlab)
    (upper : toSlab.stop ≤ Memory.pageLimit * Memory.pageBytes) :
    copy.Upheld alsoDenotes (copiedTiling fromSlab toSlab tiling) final := by
  have mirrors := duplicated.mirrors_copy single copySingle beside upheld agree features
  refine ⟨⟨fun slab inCopy => ?_, by simp [copySingle]⟩, ?_, ?_, fun block member isObject => ?_⟩
  · obtain rfl : slab = toSlab := by simpa [copySingle] using inCopy
    refine duplicated.layout.refit fun block inSlab isObject => ?_
    obtain ⟨before, inHeap, rfl⟩ := (mem_blocks_copy single copySingle (by simp [isObject])).mp
      (mem_blocks.mpr ⟨slab, inCopy, inSlab⟩)
    rw [show final.memory.tag (fromSlab.moveBlock slab before).start = _ from
      (mirrors.imaged before inHeap isObject).tag, agree before inHeap isObject]
  · simpa [copySingle] using hosted
  · simpa [copySingle] using upper
  · obtain ⟨before, inHeap, rfl⟩ := (mem_blocks_copy single copySingle (by simp [isObject])).mp member
    exact duplicated.sound single copySingle beside upheld agree features moved inHeap isObject

end Sound

theorem counted_copy (counted : ∀ block ∈ heap.blocks tiling, block.kind = .object →
      block.Counted heap.shapes machine.memory) {block : Block}
    (member : block ∈ copy.blocks (copiedTiling fromSlab toSlab tiling)) (isObject : block.kind = .object) :
    block.Counted copy.shapes final.memory := by
  have mirrors := duplicated.mirrors_copy single copySingle beside upheld agree features
  obtain ⟨before, inHeap, rfl⟩ := (mem_blocks_copy single copySingle (by simp [isObject])).mp member
  intro isVector
  have tag : final.memory.tag (fromSlab.moveBlock toSlab before).start =
    machine.memory.tag before.start := (mirrors.imaged before inHeap isObject).tag
  rw [tag, agree before inHeap isObject] at isVector
  obtain ⟨length, small, stored⟩ := counted before inHeap isObject isVector
  have word := mirrors.lengths upheld.tiled inHeap isObject isVector
    ⟨Layout.Sequence.length, wordBytes⟩ (by decide)
  exact ⟨length, small, word.trans stored⟩

omit upheld in
/-- A heap that got the copy is consistent. -/
theorem consistent_copy (consistent : heap.Consistent tiling machine)
    (confined : ∀ tag shape, copy.shapes.get? tag = some shape → shape.Confined)
    (globals : copy.globals = none) (scratch : copy.scratch = [])
    (hosted : final.Hosts toSlab)
    (upper : toSlab.stop ≤ Memory.pageLimit * Memory.pageBytes) :
    copy.Consistent (copiedTiling fromSlab toSlab tiling) final := by
  have upheld := duplicated.upheld_copy single copySingle beside consistent.upheld agree features
    (fun _ denotes => denotes_moved single copySingle beside consistent.tiled denotes) hosted upper
  refine ⟨upheld.tiled, fun slab inCopy => ?_, upheld.hosted, upheld.upper, confined, upheld.objects,
    fun block member isObject => ?_, by simp [globals], by simp [scratch]⟩
  · exact (consistent.coalesced fromSlab (by simp [single])).moved.extend
  · exact duplicated.counted_copy single copySingle beside consistent.upheld agree features
      consistent.counted member isObject

omit duplicated copySingle beside upheld agree features in
/-- What the ledger lists has copies with the same headers. -/
theorem headed (duplicated : heap.Duplicated fromSlab toSlab (tiling fromSlab) keepOwnership copyIdentity
      machine final) (records : heap.Records tiling entries) :
    Headed fromSlab toSlab keepOwnership machine.memory final.memory entries := by
  intro entry listed isObject
  have member := (records.mem_iff_of_object isObject).mp listed
  simp only [Heap.blocks, single, List.flatMap_cons, List.flatMap_nil, List.append_nil] at member
  exact (duplicated.adapted entry member isObject).header

omit duplicated beside upheld agree features in
/-- The ledger of a copy lists the copies of what is in use. -/
theorem records (records : heap.Records tiling entries)
    (beside : fromSlab.Beside toSlab) :
    copy.Records (copiedTiling fromSlab toSlab tiling) (entries.map (fromSlab.moveBlock toSlab)) where
  inUse := by simpa [Slab.moveBlock] using records.inUse
  whole := by simpa [Slab.moveBlock] using records.whole
  inside entry member := by
    obtain ⟨before, listed, rfl⟩ := List.mem_map.mp member
    obtain ⟨slab, inHeap, above, below⟩ := records.inside before listed
    obtain rfl : slab = fromSlab := by simpa [single] using inHeap
    have large := beside.large
    refine ⟨toSlab, by simp [copySingle], ?_⟩
    simp only [Slab.objects, Slab.stop, Slab.moveBlock, Slab.counterpart, Block.stop] at *
    omega
  perm := by
    have pieces : (entries.map (fromSlab.moveBlock toSlab)).flatMap Block.pieces =
        (entries.flatMap Block.pieces).map (fromSlab.moveBlock toSlab) := by
      rw [List.flatMap_map, List.map_flatMap]
      refine List.flatMap_congr fun entry listed => Block.pieces_moved ?_
      obtain ⟨slab, inHeap, above, _⟩ := records.inside entry listed
      obtain rfl : slab = fromSlab := by simpa [single] using inHeap
      simp only [Slab.objects] at above
      omega
    have blocks : used (copy.blocks (copiedTiling fromSlab toSlab tiling)) =
        (used (heap.blocks tiling)).map (fromSlab.moveBlock toSlab) := by
      simp only [Heap.blocks, single, copySingle, List.flatMap_cons, List.flatMap_nil,
        List.append_nil, copiedTiling, used_extend, used_moved]
    rw [pieces, blocks]
    exact records.perm.map _

end Duplicated

end Heap

end SlabHeap
