import SlabHeap.Proofs.Survey
import SlabHeap.Proofs.Traceable

namespace SlabHeap

/-! What snapshots keep alive.

A snapshot has a `Heap.Hit` on an object if one of its words is the object's address or the reference
to it. A collection with a snapshot keeps what can be reached from its roots and from the hits, whatever
else the snapshot holds and in which order slabs are scanned: `Heap.Traceable.snapshot_exact`.
-/

open Block

/-- What was done to a block is determined by what was dropped. -/
theorem Block.Weakened.determined {memory after other : Memory} {block : Block} {breaks : Prop}
    {drops : Nat → Prop} (aligned : block.start % 16 = 0)
    (slots : ∀ offset, drops offset → offset % 8 = 0)
    (first : block.Weakened memory after breaks drops)
    (second : block.Weakened memory other breaks drops) : block.Kept after other := by
  apply Kept.of_header aligned
  · by_cases broken : breaks
    · rw [first.broken broken, second.broken broken]
    · rw [first.whole broken, second.whole broken]
  · intro address lower upper
    by_cases dropped : ∃ offset, drops offset ∧ block.start + offset ≤ address ∧
        address < block.start + offset + 8
    · obtain ⟨offset, drops, inside⟩ := dropped
      have whole := slots offset drops
      have sameWord : address / 8 = (block.start + offset) / 8 := by omega
      rw [after.read_congr sameWord, other.read_congr sameWord]
      exact congrArg Value.bits ((second.dropped offset drops).trans (first.dropped offset drops).symm)
    · have clear : ∀ offset, drops offset →
          ¬ (block.start + offset ≤ address ∧ address < block.start + offset + 8) :=
        fun offset drops inside => dropped ⟨offset, drops, inside⟩
      rw [first.kept address lower upper clear, second.kept address lower upper clear]

namespace Heap

variable {heap other : Heap} {machine final : Machine} {tiling swept : Slab → List Block}
  {memory : Memory} {object : Nat} {value : Value} {roots : List Value} {context : Context}
  {snapshot again : Snapshot}

section Words

variable (same : ∀ word, word ∈ again.words ↔ word ∈ snapshot.words)

include same

theorem names_congr : again.names = snapshot.names := by
  funext address
  rw [Bool.eq_iff_iff]
  simp only [Snapshot.names, Bool.or_eq_true, List.contains_iff_mem, same]

/-- The order of the words in a snapshot makes no difference, nor how often they occur. -/
theorem collectWithSnapshot_congr :
    heap.collectWithSnapshot context again = heap.collectWithSnapshot context snapshot := by
  have empty : again.words.isEmpty = snapshot.words.isEmpty := by
    rw [Bool.eq_iff_iff, List.isEmpty_iff, List.isEmpty_iff, List.eq_nil_iff_forall_not_mem,
      List.eq_nil_iff_forall_not_mem]
    exact forall_congr' fun word => not_congr (same word)
  simp only [collectWithSnapshot, markNamed, names_congr same, empty]

end Words

/-- A word of the snapshot is the address of an object or the reference to it, and the object has the
tag that the settings preserve, if they name one. -/
structure Hit (heap : Heap) (memory : Memory) (snapshot : Snapshot) (object : Nat) : Prop where
  allocated : heap.Allocated memory object
  listed : UInt64.ofNat object ∈ snapshot.words ∨ (Value.reference object).bits ∈ snapshot.words
  preserved : ∀ tag, heap.settings.preserveTag = some tag → memory.tag object = tag

theorem Hit.mono (hit : heap.Hit memory snapshot object)
    (more : ∀ word ∈ snapshot.words, word ∈ again.words) : heap.Hit memory again object where
  allocated := hit.allocated
  listed := hit.listed.imp (more _) (more _)
  preserved := hit.preserved

/-- What the snapshot names are its hits. -/
theorem Tiled.mem_named_iff (tiled : heap.Tiled memory tiling) :
    value ∈ heap.named memory snapshot (heap.blocks tiling) ↔
      ∃ object, heap.Hit memory snapshot object ∧ .reference object = value := by
  have preserves (tag : UInt8) : heap.preserves tag = true ↔
      ∀ preserved, heap.settings.preserveTag = some preserved → tag = preserved := by
    unfold Heap.preserves
    cases heap.settings.preserveTag with
    | none => simp
    | some preserved => simp [eq_comm]
  rw [mem_named]
  constructor
  · intro isNamed
    obtain ⟨block, member, ⟨isObject, named, preserved⟩, rfl⟩ := isNamed
    refine ⟨block.start, ⟨tiled.allocated_iff.mpr ⟨block, member, isObject, rfl⟩, ?_,
      (preserves _).mp preserved⟩, rfl⟩
    simpa [Snapshot.names] using named
  · intro hits
    obtain ⟨object, hit, rfl⟩ := hits
    obtain ⟨block, member, isObject, rfl⟩ := tiled.allocated_iff.mp hit.allocated
    refine ⟨block, member, ⟨isObject, ?_, (preserves _).mpr hit.preserved⟩, rfl⟩
    simpa [Snapshot.names] using hit.listed

/-- What can be reached is reached from one of the roots. -/
theorem reachable_iff_exists : heap.Reachable machine roots object ↔
    ∃ value ∈ roots, heap.Reachable machine [value] object := by
  constructor
  · intro reached
    induction reached with
    | root listed refers => exact ⟨_, listed, .root (List.mem_singleton_self _) refers⟩
    | slot _ known strong refers ih =>
        obtain ⟨value, listed, reached⟩ := ih
        exact ⟨value, listed, .slot reached known strong refers⟩
    | saved _ isContext linked held refers ih =>
        obtain ⟨value, listed, reached⟩ := ih
        exact ⟨value, listed, .saved reached isContext linked held refers⟩
  · intro found
    obtain ⟨value, listed, reached⟩ := found
    exact reached.mono fun _ only => List.mem_singleton.mp only ▸ listed

/-- What a collection with a snapshot keeps. -/
def Spared (heap : Heap) (machine : Machine) (context : Context) (snapshot : Snapshot)
    (object : Nat) : Prop :=
  heap.Reachable machine (heap.roots (some context)) object ∨
    ∃ hit, heap.Hit machine.memory snapshot hit ∧
      heap.Reachable machine [.reference hit] object

theorem Spared.mono (spared : heap.Spared machine context snapshot object)
    (more : ∀ hit, heap.Hit machine.memory snapshot hit → heap.Hit machine.memory again hit) :
    heap.Spared machine context again object := by
  cases spared with
  | inl reached => exact .inl reached
  | inr behind =>
      obtain ⟨hit, isHit, reached⟩ := behind
      exact .inr ⟨hit, more hit isHit, reached⟩

theorem Tiled.spared_iff (tiled : heap.Tiled machine.memory tiling) :
    heap.Reachable machine ((Collection.scanning context snapshot).roots heap machine.memory
      (heap.blocks tiling)) object ↔ heap.Spared machine context snapshot object := by
  unfold Collection.roots Spared
  rw [reachable_iff_exists, reachable_iff_exists]
  simp only [List.mem_append, or_and_right, exists_or, tiled.mem_named_iff]
  refine or_congr_right ⟨?_, ?_⟩
  · intro found
    obtain ⟨_, ⟨hit, isHit, rfl⟩, reached⟩ := found
    exact ⟨hit, isHit, reached⟩
  · intro found
    obtain ⟨hit, isHit, reached⟩ := found
    exact ⟨_, ⟨hit, isHit, rfl⟩, reached⟩

/-- The other heap has the same slabs in any order, and keeps the same values alive. -/
structure Reordered (heap other : Heap) : Prop where
  slabs : other.slabs.Perm heap.slabs
  shapes : other.shapes = heap.shapes
  features : other.features = heap.features
  settings : other.settings = heap.settings
  globals : other.globals = heap.globals
  scratch : other.scratch = heap.scratch

namespace Reordered

variable (reordered : heap.Reordered other)

include reordered

theorem mem_blocks_iff {block : Block} :
    block ∈ other.blocks tiling ↔ block ∈ heap.blocks tiling :=
  (reordered.slabs.flatMap_right tiling).mem_iff

theorem object_iff : other.Object tiling object ↔ heap.Object tiling object := by
  simp only [Heap.Object, reordered.mem_blocks_iff]

theorem refers_iff : other.RefersToObject tiling value ↔ heap.RefersToObject tiling value := by
  simp only [RefersToObject, reordered.object_iff]

theorem contains_eq (address : Nat) : other.contains address = heap.contains address := by
  rw [Heap.contains, Heap.contains]
  exact reordered.slabs.any_eq

theorem roots_eq (handle : Option Context) : other.roots handle = heap.roots handle := by
  simp only [Heap.roots, reordered.globals, reordered.scratch]

theorem tiled_iff : other.Tiled memory tiling ↔ heap.Tiled memory tiling := by
  have layouts : (∀ slab ∈ other.slabs, slab.Layout other.shapes memory (tiling slab)) ↔
      ∀ slab ∈ heap.slabs, slab.Layout heap.shapes memory (tiling slab) := by
    simp only [reordered.slabs.mem_iff, reordered.shapes]
  have apart : other.slabs.Pairwise Slab.Apart ↔ heap.slabs.Pairwise Slab.Apart :=
    reordered.slabs.pairwise_iff Or.symm
  exact ⟨fun tiled => ⟨layouts.mp tiled.layout, apart.mp tiled.apart⟩,
    fun tiled => ⟨layouts.mpr tiled.layout, apart.mpr tiled.apart⟩⟩

theorem allocated_iff : other.Allocated memory object ↔ heap.Allocated memory object := by
  simp only [Allocated, reordered.tiled_iff, reordered.object_iff]

theorem hit_iff : other.Hit memory snapshot object ↔ heap.Hit memory snapshot object := by
  constructor <;> intro hit
  · exact ⟨reordered.allocated_iff.mp hit.allocated, hit.listed, reordered.settings ▸ hit.preserved⟩
  · exact ⟨reordered.allocated_iff.mpr hit.allocated, hit.listed,
      reordered.settings.symm ▸ hit.preserved⟩

theorem reachable_iff : other.Reachable machine roots object ↔ heap.Reachable machine roots object :=
  ⟨fun reached => reached.reroot reordered.shapes.symm, fun reached => reached.reroot reordered.shapes⟩

theorem spared_iff : other.Spared machine context snapshot object ↔
    heap.Spared machine context snapshot object := by
  simp only [Spared, reordered.reachable_iff, reordered.hit_iff, reordered.roots_eq]

theorem traceable (traceable : heap.Traceable machine tiling) : other.Traceable machine tiling where
  tiled := reordered.tiled_iff.mpr traceable.tiled
  valid validating block member :=
    traceable.valid (reordered.features ▸ validating) block (reordered.mem_blocks_iff.mp member)
  unmarked block member := traceable.unmarked block (reordered.mem_blocks_iff.mp member)
  strong block member isObject shape known offset slot :=
    reordered.refers_iff.mpr (traceable.strong block (reordered.mem_blocks_iff.mp member) isObject shape
      (reordered.shapes ▸ known) offset slot)
  weak block member isObject shape known offset slot address found inHeap :=
    reordered.object_iff.mpr (traceable.weak block (reordered.mem_blocks_iff.mp member) isObject shape
      (reordered.shapes ▸ known) offset slot address found (reordered.contains_eq address ▸ inHeap))
  frames block member isObject isContext frame linked value held :=
    reordered.refers_iff.mpr (traceable.frames block (reordered.mem_blocks_iff.mp member) isObject
      isContext frame linked value held)
  globals value listed :=
    reordered.refers_iff.mpr (traceable.globals value (reordered.globals ▸ listed))
  scratch value listed :=
    reordered.refers_iff.mpr (traceable.scratch value (reordered.scratch ▸ listed))

variable {live : Nat → Prop} {block : Block}

theorem lost_iff : other.Lost machine live value ↔ heap.Lost machine live value := by
  simp only [Lost, target?, reordered.features, reordered.contains_eq]

theorem breaks_iff : other.Breaks machine live block ↔ heap.Breaks machine live block := by
  simp only [Breaks, Shape.Breaks, reordered.features, reordered.shapes, reordered.lost_iff]

theorem drops_iff (offset : Nat) :
    other.Drops machine live block offset ↔ heap.Drops machine live block offset := by
  simp only [Drops, Shape.Drops, reordered.features, reordered.shapes, reordered.lost_iff]

variable {moreFinal : Machine} {moreSwept : Slab → List Block}
  (tiled : heap.Tiled machine.memory tiling)
  (collected : heap.Collected tiling swept machine final live)
  (moreCollected : other.Collected tiling moreSwept machine moreFinal live)

include collected moreCollected

/-- Collections that keep the same keep the same blocks. -/
theorem mem_swept_iff (inUse : block.kind ≠ .free) :
    block ∈ other.blocks moreSwept ↔ block ∈ heap.blocks swept := by
  rw [collected.mem_swept inUse, moreCollected.mem_swept inUse, reordered.mem_blocks_iff]

include tiled

/-- Collections that keep the same leave the same words in what they keep. -/
theorem kept (member : block ∈ heap.blocks swept) (isObject : block.kind = .object) :
    block.Kept final.memory moreFinal.memory := by
  obtain ⟨before, alive⟩ := (collected.mem_swept (by simp [isObject])).mp member
  have weakened := collected.objects block before isObject (alive isObject)
  have moreWeakened := (moreCollected.objects block (reordered.mem_blocks_iff.mpr before) isObject
    (alive isObject)).congr reordered.breaks_iff reordered.drops_iff
  refine weakened.determined (tiled.bounds before).2.1 (fun offset drops => ?_) moreWeakened
  obtain ⟨_, shape, known, drops⟩ := drops
  exact ((tiled.describes before (by simp [isObject]) known).2.slotInside offset drops.slot).1

omit collected moreCollected tiled reordered in
/-- Divisions with the same blocks in use have the same number of bytes in use. -/
theorem usedBytes_eq {memory after : Memory} {others : Slab → List Block}
    (tiled : heap.Tiled memory tiling) (also : other.Tiled after others)
    (same : ∀ block, block.kind ≠ .free → (block ∈ other.blocks others ↔ block ∈ heap.blocks tiling)) :
    other.usedBytes others = heap.usedBytes tiling := by
  have perm : (used (other.blocks others)).Perm (used (heap.blocks tiling)) := by
    rw [used, used, List.perm_ext_iff_of_nodup (also.nodup_blocks.filter _) (tiled.nodup_blocks.filter _)]
    intro block
    rw [← used, ← used, mem_used, mem_used]
    exact and_congr_left (same block)
  exact (perm.map Block.size).sum_eq

end Reordered

/-- A collection with a snapshot keeps what can be reached from its roots or from a hit, and nothing
else. Only the hits matter: not what other words the snapshot holds, nor in which order it holds
them or slabs are scanned. More words keep no less. -/
theorem Traceable.snapshot_exact (traceable : heap.Traceable machine tiling)
    (isContext : heap.Object tiling context.address) (snapshot : Snapshot) :
    ∃ stats final swept,
      (heap.collectWithSnapshot context snapshot).run machine = heap.finished stats final ∧
      heap.Tiled final.memory swept ∧
      (∀ object, heap.Allocated final.memory object ↔ heap.Spared machine context snapshot object) ∧
      (∀ again, (∀ word, word ∈ Snapshot.words again ↔ word ∈ snapshot.words) →
        heap.collectWithSnapshot context again = heap.collectWithSnapshot context snapshot) ∧
      ∀ other again, heap.Reordered other → ∃ moreStats moreFinal,
        (other.collectWithSnapshot context again).run machine =
          other.finished moreStats moreFinal ∧
        ((∀ word ∈ snapshot.words, word ∈ again.words) → ∀ object,
          heap.Allocated final.memory object → heap.Allocated moreFinal.memory object) ∧
        ((∀ hit, heap.Hit machine.memory again hit ↔ heap.Hit machine.memory snapshot hit) →
          moreStats.sumFreed = stats.sumFreed ∧
          (∀ object, heap.Allocated moreFinal.memory object ↔
            heap.Allocated final.memory object) ∧
          ∀ block ∈ heap.blocks swept, block.kind = .object →
            block.Kept final.memory moreFinal.memory) := by
  have objects {heap : Heap} (isContext : heap.Object tiling context.address) (snapshot : Snapshot) :
      ∀ handle ∈ (Collection.scanning context snapshot).context, heap.Object tiling handle.address := by
    intro handle listed
    obtain rfl := Option.some.inj listed
    exact isContext
  obtain ⟨_, stats, final, swept, _, _, collected, freed, ran⟩ :=
    traceable.perform_run (objects isContext snapshot)
  have allocated (object : Nat) : heap.Allocated final.memory object ↔
      heap.Spared machine context snapshot object :=
    (traceable.allocated_iff (objects isContext snapshot) collected).trans traceable.tiled.spared_iff
  refine ⟨stats, final, swept, ran, collected.tiled, allocated,
    fun again same => collectWithSnapshot_congr same, fun other again reordered => ?_⟩
  have also := reordered.traceable traceable
  have alsoContext := reordered.object_iff.mpr isContext
  obtain ⟨_, moreStats, moreFinal, moreSwept, _, _, moreCollected, moreFreed, moreRan⟩ :=
    also.perform_run (objects alsoContext again)
  have moreAllocated (object : Nat) : heap.Allocated moreFinal.memory object ↔
      heap.Spared machine context again object := by
    rw [← reordered.allocated_iff, ← reordered.spared_iff]
    exact (also.allocated_iff (objects alsoContext again) moreCollected).trans also.tiled.spared_iff
  refine ⟨moreStats, moreFinal, moreRan, fun more object isAllocated => ?_, fun same => ?_⟩
  · rw [allocated] at isAllocated
    rw [moreAllocated]
    exact isAllocated.mono fun _ hit => hit.mono more
  · have spared (object : Nat) : heap.Spared machine context again object ↔
        heap.Spared machine context snapshot object :=
      ⟨fun spared => spared.mono fun hit => (same hit).mp,
        fun spared => spared.mono fun hit => (same hit).mpr⟩
    -- The roots may differ, but not in what can be reached from them.
    have live : other.Reachable machine ((Collection.scanning context again).roots other
        machine.memory (other.blocks tiling)) = heap.Reachable machine
          ((Collection.scanning context snapshot).roots heap machine.memory (heap.blocks tiling)) := by
      funext object
      rw [also.tiled.spared_iff, traceable.tiled.spared_iff, reordered.spared_iff, spared]
    rw [live] at moreCollected
    have before := Reordered.usedBytes_eq traceable.tiled also.tiled fun _ _ =>
      reordered.mem_blocks_iff
    have after := Reordered.usedBytes_eq collected.tiled moreCollected.tiled fun _ =>
      reordered.mem_swept_iff collected moreCollected
    refine ⟨by omega, fun object => ?_, fun block member isObject => ?_⟩
    · rw [allocated, moreAllocated, spared]
    · exact reordered.kept traceable.tiled collected moreCollected member isObject

section Named

/-- A word that equals the address of the garbage in `sampleHeap`. -/
theorem snapshot_exact_sample : ∃ stats final swept,
    (sampleHeap.collectWithSnapshot ⟨4112⟩ ⟨[4192, 7]⟩).run sampleMachine =
      sampleHeap.finished stats final ∧
    sampleHeap.Tiled final.memory swept ∧ sampleHeap.Allocated final.memory 4192 := by
  have isContext : sampleHeap.Object (fun _ => sampleBlocks) (Context.mk 4112).address :=
    ⟨⟨4112, 48, .object⟩, by decide, rfl, rfl⟩
  obtain ⟨stats, final, swept, ran, tiled, allocated, _⟩ :=
    wellFormed_sample.traceable.snapshot_exact isContext ⟨[4192, 7]⟩
  have hit : sampleHeap.Hit sampleMachine.memory ⟨[4192, 7]⟩ 4192 := by
    refine ⟨wellFormed_sample.tiled.allocated_iff.mpr ?_, .inl (by decide), fun tag none => ?_⟩
    · exact ⟨⟨4192, 32, .object⟩, by decide, rfl, rfl⟩
    · cases none
  refine ⟨stats, final, swept, ran, tiled, (allocated 4192).mpr (.inr ⟨4192, hit, ?_⟩)⟩
  exact .root (List.mem_singleton_self _) rfl

end Named

end Heap

end SlabHeap
