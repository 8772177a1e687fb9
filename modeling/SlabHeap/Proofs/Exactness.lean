import SlabHeap.Proofs.Grounded

namespace SlabHeap

/-! Collections are exact.

`Heap.Reachable` says what a program can reach from given values, in terms of slots and save frames
alone. `Heap.WellFormed.collect_exact` says that a collection of a well-formed heap keeps this and
nothing else, where it is and as it is but for weak slots.
-/

open Block

namespace Heap

variable {heap : Heap} {machine final : Machine} {tiling swept : Slab → List Block} {block : Block}
  {object : Nat} {value : Value} {roots : List Value} {context : Context}

/-- Every slab is tiled by its sentinel, free blocks, objects and units without a header; objects are
valid and unmarked; and references in slots, in linked frames and among the roots lead to objects. -/
structure WellFormed (heap : Heap) (machine : Machine) (tiling : Slab → List Block) : Prop where
  tiled : heap.Tiled machine.memory tiling
  valid : ∀ block ∈ heap.blocks tiling, block.kind = .object →
    (machine.memory.header block.start).isValid = true
  unmarked : ∀ block ∈ heap.blocks tiling, block.kind = .object →
    (machine.memory.header block.start).isMarked = false
  slots : ∀ block ∈ heap.blocks tiling, block.kind = .object → ∀ shape,
    heap.shapes.get? (machine.memory.tag block.start) = some shape → ∀ offset,
      shape.StrongSlot machine.memory block.start offset ∨
        shape.WeakSlot machine.memory block.start offset →
      heap.RefersToObject tiling (machine.memory.value (block.start + offset))
  frames : ∀ block ∈ heap.blocks tiling, block.kind = .object →
    machine.memory.tag block.start = Tag.context → ∀ frame,
      machine.Linked ((Context.mk block.start).saves machine.memory) frame →
        ∀ value ∈ frame.values, heap.RefersToObject tiling value
  globals : ∀ value ∈ heap.globals.getD [], heap.RefersToObject tiling value
  scratch : ∀ value ∈ heap.scratch, heap.RefersToObject tiling value

/-- The value refers to what cannot be reached from some roots. -/
def Unreachable (heap : Heap) (machine : Machine) (roots : List Value) (value : Value) : Prop :=
  ∃ object, value.address? = some object ∧ ¬ heap.Reachable machine roots object

/-- The value refers to what the collection from a context does not keep. -/
def Gone (heap : Heap) (machine : Machine) (context : Context) (value : Value) : Prop :=
  ∃ object, value.address? = some object ∧
    ¬ heap.Reachable machine (heap.roots (some context)) object

/-- A collection from a context kept what can be reached, and nothing else. Survivors stay where they
are and keep their words, except that weak slots lose what is gone, that dependent slots are dropped
once all the weak slots were, and that a flag tells of lost weak slots. -/
structure CollectedExactly (heap : Heap) (tiling swept : Slab → List Block)
    (machine final : Machine) (context : Context) : Prop where
  steady : machine.Steady final
  tiled : heap.Tiled final.memory swept
  allocated : ∀ object, heap.Allocated final.memory object ↔
    heap.Reachable machine (heap.roots (some context)) object
  blocks : ∀ block, block.kind ≠ .free → (block ∈ heap.blocks swept ↔
    block ∈ heap.blocks tiling ∧
      (block.kind = .object → heap.Reachable machine (heap.roots (some context)) block.start))
  survivors : ∀ block ∈ heap.blocks swept, block.kind = .object → ∀ shape,
    heap.shapes.get? (machine.memory.tag block.start) = some shape →
      block.Weakened machine.memory final.memory
        (heap.features.weakReferences = true ∧
          shape.Breaks machine.memory (heap.Gone machine context) block.start)
        fun offset => heap.features.weakReferences = true ∧
          shape.Drops machine.memory (heap.Gone machine context) block.start offset
  bare : ∀ block ∈ heap.blocks tiling, block.kind = .bare →
    block.Kept machine.memory final.memory
  outside : ∀ address, (∀ slab ∈ heap.slabs, address < slab.start ∨ slab.stop ≤ address) →
    final.memory.read address = machine.memory.read address

namespace WellFormed

variable (wellFormed : heap.WellFormed machine tiling)

include wellFormed

theorem keep (same : ∀ slab ∈ heap.slabs, ∀ address, slab.start ≤ address → address < slab.stop →
      final.memory.read address = machine.memory.read address)
    (frames : final.frames = machine.frames) : heap.WellFormed final tiling := by
  have word {block : Block} (member : block ∈ heap.blocks tiling) (offset : Nat)
      (inside : offset < block.size) :
      final.memory.read (block.start + offset) = machine.memory.read (block.start + offset) := by
    obtain ⟨slab, inHeap, inSlab⟩ := mem_blocks.mp member
    have covers : block.Covers (block.start + offset) :=
      ⟨by omega, by simp only [Block.stop]; omega⟩
    have covered := wellFormed.tiled.slab_covers inHeap inSlab covers
    exact same slab inHeap _ covered.1 covered.2
  have header {block : Block} (member : block ∈ heap.blocks tiling) :
      final.memory.header block.start = machine.memory.header block.start := by
    have large := (wellFormed.tiled.bounds member).2.2.1
    exact congrArg Header.ofWord (word member 0 (by omega))
  have tag {block : Block} (member : block ∈ heap.blocks tiling) :
      final.memory.tag block.start = machine.memory.tag block.start :=
    congrArg Header.tag (header member)
  have find : final.frameAt? = machine.frameAt? := by
    funext address
    simp only [Machine.frameAt?, Machine.frameIndex?, frames]
  refine ⟨⟨fun slab inHeap => (wellFormed.tiled.layout slab inHeap).keep (same slab inHeap),
    wellFormed.tiled.apart⟩, fun block member isObject => ?_, fun block member isObject => ?_,
    fun block member isObject shape known offset slot => ?_,
    fun block member isObject isContext frame linked => ?_, wellFormed.globals, wellFormed.scratch⟩
  · rw [header member]
    exact wellFormed.valid block member isObject
  · rw [header member]
    exact wellFormed.unmarked block member isObject
  · rw [tag member] at known
    have describes := (wellFormed.tiled.describes member (by simp [isObject]) known).2
    have lengths : ∀ length ∈ shape.lengths, final.memory.read (block.start + length.offset) =
        machine.memory.read (block.start + length.offset) := by
      intro length listed
      have inside := describes.lengthInside length listed
      exact word member _ (by omega)
    rw [Shape.strongSlot_congr lengths, Shape.weakSlot_congr lengths] at slot
    have inside := describes.slotInside offset (slot.imp_right .inl)
    rw [Memory.value, word member offset (by omega)]
    exact wellFormed.slots block member isObject shape known offset slot
  · rw [tag member] at isContext
    have known : heap.shapes.get? Tag.context = some .context := rfl
    have describes := (wellFormed.tiled.describes member (by simp [isObject])
      (isContext.symm ▸ known)).2
    have size := Shape.size_of_context known describes
    have saves : (Context.mk block.start).saves final.memory =
        (Context.mk block.start).saves machine.memory :=
      congrArg UInt64.toNat (word member _ (by simp only [Layout.Context.saves]; omega))
    rw [Machine.Linked, find, saves] at linked
    exact wellFormed.frames block member isObject isContext frame linked

theorem intact : heap.Intact tiling machine where
  tiled := wellFormed.tiled
  valid := wellFormed.valid
  unmarked := wellFormed.unmarked
  slots block member isObject shape known offset followed :=
    wellFormed.slots block member isObject shape known offset
      (followed.imp_right fun both => both.2)

theorem clean : heap.Clean tiling machine := wellFormed.intact.clean

theorem grounded (rooted : ∀ value ∈ roots, heap.RefersToObject tiling value) :
    heap.Grounded machine tiling roots :=
  wellFormed.intact.grounded rooted fun block member isObject _ isContext frame linked value held =>
    wellFormed.frames block member isObject isContext frame linked value held

/-- What a collection from some roots loses is what cannot be reached from them. -/
theorem lost_iff_unreachable (rooted : ∀ value ∈ roots, heap.RefersToObject tiling value)
    (refers : heap.RefersToObject tiling value) :
    heap.Lost machine (heap.Reach machine machine.Unmarked roots) value ↔
      heap.Unreachable machine roots value := by
  unfold Lost Unreachable
  rw [wellFormed.intact.ready.target?_eq refers]
  refine exists_congr fun object => and_congr_right fun found => ?_
  obtain ⟨block, member, kind, rfl⟩ := refers object found
  rw [(wellFormed.grounded rooted).traced.reach_iff, and_iff_right (wellFormed.tiled.contains member)]
  exact and_iff_right (wellFormed.unmarked block member kind)

theorem rootsRefer (isObject : heap.Object tiling context.address)
    (listed : value ∈ heap.roots (some context)) : heap.RefersToObject tiling value := by
  simp only [Heap.roots, List.append_assoc, List.mem_append, Option.map_some, Option.toList_some,
    List.mem_singleton] at listed
  rcases listed with inScratch | inGlobals | rfl
  · exact wellFormed.scratch value inScratch
  · exact wellFormed.globals value inGlobals
  · exact wellFormed.tiled.refersToObject isObject

theorem closed (isObject : heap.Object tiling context.address) :
    heap.Closed machine tiling (heap.roots (some context)) :=
  (wellFormed.grounded fun _ listed => wellFormed.rootsRefer isObject listed).traced.closed

variable (isObject : heap.Object tiling context.address)

include isObject

theorem reach_roots_iff : heap.Reach machine machine.Unmarked (heap.roots (some context)) object ↔
    heap.Reachable machine (heap.roots (some context)) object :=
  (wellFormed.grounded fun _ listed => wellFormed.rootsRefer isObject listed).traced.reach_iff

theorem lost_iff (refers : heap.RefersToObject tiling value) :
    heap.Lost machine (heap.Reach machine machine.Unmarked (heap.roots (some context))) value ↔
      heap.Gone machine context value :=
  wellFormed.lost_iff_unreachable (fun _ listed => wellFormed.rootsRefer isObject listed) refers

/-- A collection keeps what can be reached from its context and from the heap's own roots, and nothing
else. It fails only if it, or the bytes that it freed, cannot be counted any more, after it has freed them. -/
theorem collect_exact :
    ∃ stats final swept,
      heap.CollectedExactly tiling swept machine final context ∧
      stats.sumFreed + heap.usedBytes swept = heap.usedBytes tiling ∧
      (heap.collect context).run machine =
        if heap.counters.Counts 1 stats.sumFreed then
          .ok ({ heap with counters := { heap.counters with
            collections := heap.counters.collections + 1
            bytesFreed := heap.counters.bytesFreed + stats.sumFreed } }, stats) final
        else .error .additionOverflow final := by
  obtain ⟨stats, final, swept, collected, freed, ran⟩ :=
    wellFormed.clean.collectFrom_run (wellFormed.closed isObject)
  -- References lead to objects, so that marking does not come by storage without a header.
  have reached (object : Nat) :
      heap.Reach machine machine.Unmarked (heap.roots (some context)) object ↔
        heap.Reachable machine (heap.roots (some context)) object :=
    wellFormed.reach_roots_iff isObject
  have blocks : ∀ block, block.kind ≠ .free → (block ∈ heap.blocks swept ↔
      block ∈ heap.blocks tiling ∧ (block.kind = .object →
        heap.Reachable machine (heap.roots (some context)) block.start)) := by
    intro block inUse
    rw [collected.mem_swept inUse, reached]
  refine ⟨stats, final, swept, ?_, freed, ran⟩
  refine ⟨collected.steady, collected.tiled, fun object => ?_, blocks,
    fun block member kind shape known => ?_, fun block member isBare => ?_, collected.outside⟩
  · rw [collected.tiled.allocated_iff]
    constructor
    · rintro ⟨block, member, kind, rfl⟩
      exact ((blocks block (by simp [kind])).mp member).2 kind
    · intro alive
      obtain ⟨block, member, kind, rfl⟩ := (wellFormed.grounded fun _ listed =>
        wellFormed.rootsRefer isObject listed).object_of_reachable alive
      exact ⟨block, (blocks block (by simp [kind])).mpr ⟨member, fun _ => alive⟩, kind, rfl⟩
  · obtain ⟨before, alive⟩ := (blocks block (by simp [kind])).mp member
    have lost : ∀ offset, shape.WeakSlot machine.memory block.start offset → (heap.Lost machine
        (heap.Reach machine machine.Unmarked (heap.roots (some context)))
          (machine.memory.value (block.start + offset)) ↔
        heap.Gone machine context (machine.memory.value (block.start + offset))) :=
      fun offset slot => wellFormed.lost_iff isObject
        (wellFormed.slots block before kind shape known offset (.inr slot))
    refine (collected.objects block before kind ((reached _).mpr (alive kind))).congr ?_ ?_
    · simp only [Breaks, known, Option.some.injEq, exists_eq_left']
      exact and_congr_right fun _ => Shape.breaks_congr (fun _ _ => rfl) lost
    · intro offset
      simp only [Drops, known, Option.some.injEq, exists_eq_left']
      exact and_congr_right fun _ => Shape.drops_congr (fun _ _ => rfl) lost offset
  · have dead : ¬ heap.Reach machine machine.Unmarked (heap.roots (some context)) block.start := by
      intro alive
      obtain ⟨other, otherMember, kind, same⟩ := (wellFormed.grounded fun _ listed =>
        wellFormed.rootsRefer isObject listed).object_of_reachable ((reached _).mp alive)
      obtain rfl := wellFormed.tiled.eq_of_start_eq otherMember member same
      simp [isBare] at kind
    have header := (collected.bareHeaders block member isBare).resolve_right fun both => dead both.1
    exact .of_header (wellFormed.tiled.bounds member).2.1 header
      (collected.bareContents block member isBare)

end WellFormed

section Sample

/-- A context, a pair in its environment that refers to itself, a pair that nothing refers to, and a
free block. -/
def sampleBlocks : List Block :=
  [⟨4112, 48, .object⟩, ⟨4160, 32, .object⟩, ⟨4192, 32, .object⟩, ⟨4224, 64, .free⟩]

def sampleWords : List (Nat × UInt64) :=
  [(4104, 4224), (4112, (Header.fresh Tag.context).toWord), (4136, Value.no.bits),
    (4144, (Value.reference 4160).bits), (4160, (Header.fresh Tag.pair).toWord),
    (4168, (Value.reference 4160).bits), (4176, Value.nil.bits),
    (4192, (Header.fresh Tag.pair).toWord), (4200, (Value.reference 4160).bits),
    (4208, Value.nil.bits), (4224, 64)]

def sampleMachine : Machine :=
  { memory := sampleWords.foldl (fun memory entry => memory.write entry.1 entry.2) .empty }

def sampleSlab : Slab := { start := 4096, size := 192, maxSize := 0 }

def sampleHeap : Heap :=
  { identity := 0, settings := {}, shapes := .standard, features := {}, slabs := [sampleSlab]
    slabs_nonempty := by simp }

theorem blocks_sample : sampleHeap.blocks (fun _ => sampleBlocks) = sampleBlocks := by
  simp [Heap.blocks, sampleHeap]

theorem header_sample : sampleMachine.memory.header 4112 = .fresh Tag.context ∧
    sampleMachine.memory.header 4160 = .fresh Tag.pair ∧
      sampleMachine.memory.header 4192 = .fresh Tag.pair := by
  simp [sampleMachine, sampleWords, Memory.header, Memory.read_write, Header.ofWord_toWord]

theorem value_sample : sampleMachine.memory.value 4136 = .no ∧
    sampleMachine.memory.value 4144 = .reference 4160 ∧
      sampleMachine.memory.value 4168 = .reference 4160 ∧
        sampleMachine.memory.value 4176 = .nil ∧
          sampleMachine.memory.value 4200 = .reference 4160 ∧
            sampleMachine.memory.value 4208 = .nil := by
  simp [sampleMachine, sampleWords, Memory.value, Memory.read_write]

theorem layout_sample : sampleSlab.Layout .standard sampleMachine.memory sampleBlocks where
  placed := ⟨by decide, by decide, by decide, by decide, by decide⟩
  tiles := by simp [Tiles, sampleBlocks, sampleSlab, Slab.objects, Slab.stop, Block.stop, blockUnit]
  sentinel := by
    simp [FreeList.size, sampleMachine, sampleWords, sampleSlab, Memory.read_write]
  listed := by
    simp [FreeList.Path, FreeList.size, Slab.firstFree, FreeList.next, sampleMachine, sampleWords, sampleSlab,
      Memory.read_write, sampleBlocks, frees]
  fits := by
    obtain ⟨context, pair, garbage⟩ := header_sample
    simp only [sampleBlocks, List.forall_mem_cons, Block.Fits, Memory.tag, context, pair, garbage]
    exact ⟨⟨.context, rfl, Shape.describes_context _ _⟩, ⟨.pair, rfl, Shape.describes_pair _ _⟩,
      ⟨.pair, rfl, Shape.describes_pair _ _⟩, trivial, by simp⟩

theorem sample_refers (value : Value)
    (known : value = .no ∨ value = .nil ∨ value = .reference 4160) :
    sampleHeap.RefersToObject (fun _ => sampleBlocks) value := by
  intro address found
  rcases known with rfl | rfl | rfl <;> cases found
  exact ⟨⟨4160, 32, .object⟩, by rw [blocks_sample]; simp [sampleBlocks], rfl, rfl⟩

theorem sample_frameAt? (address : Nat) : sampleMachine.frameAt? address = none := by
  simp [Machine.frameAt?, Machine.frameIndex?, sampleMachine]

theorem wellFormed_sample : sampleHeap.WellFormed sampleMachine fun _ => sampleBlocks := by
  obtain ⟨context, pair, garbage⟩ := header_sample
  obtain ⟨parent, environment, car, cdr, garbageCar, garbageCdr⟩ := value_sample
  refine ⟨⟨?_, by simp [sampleHeap]⟩, ?_, ?_, ?_, ?_, by simp [sampleHeap], by simp [sampleHeap]⟩
  · intro slab member
    obtain rfl : slab = sampleSlab := by simpa [sampleHeap] using member
    exact layout_sample
  · rw [blocks_sample]
    simp [sampleBlocks, context, pair, garbage, Header.fresh, Header.isValid]
  · rw [blocks_sample]
    simp only [sampleBlocks, List.forall_mem_cons, context, pair, garbage]
    exact ⟨fun _ => by decide, fun _ => by decide, fun _ => by decide, by simp, by simp⟩
  · rw [blocks_sample]
    have contextSlots (offset : Nat)
        (slot : Shape.context.Slot sampleMachine.memory 4112 offset) :
        sampleHeap.RefersToObject (fun _ => sampleBlocks)
          (sampleMachine.memory.value (4112 + offset)) := by
      rcases Shape.slot_context.mp slot with rfl | rfl
      · exact sample_refers _ (.inl parent)
      · exact sample_refers _ (.inr (.inr environment))
    have pairSlots (offset : Nat) (slot : Shape.pair.Slot sampleMachine.memory 4160 offset) :
        sampleHeap.RefersToObject (fun _ => sampleBlocks)
          (sampleMachine.memory.value (4160 + offset)) := by
      rcases Shape.slot_pair.mp slot with rfl | rfl
      · exact sample_refers _ (.inr (.inr car))
      · exact sample_refers _ (.inr (.inl cdr))
    have garbageSlots (offset : Nat) (slot : Shape.pair.Slot sampleMachine.memory 4192 offset) :
        sampleHeap.RefersToObject (fun _ => sampleBlocks)
          (sampleMachine.memory.value (4192 + offset)) := by
      rcases Shape.slot_pair.mp slot with rfl | rfl
      · exact sample_refers _ (.inr (.inr garbageCar))
      · exact sample_refers _ (.inr (.inl garbageCdr))
    simp only [sampleBlocks, List.forall_mem_cons, Memory.tag, context, pair, garbage]
    refine ⟨fun _ shape known offset slot => ?_, fun _ shape known offset slot => ?_,
      fun _ shape known offset slot => ?_, by simp, by simp⟩
    · obtain rfl : Shape.context = shape := Option.some.inj known
      exact contextSlots offset (slot.imp_right .inl)
    · obtain rfl : Shape.pair = shape := Option.some.inj known
      exact pairSlots offset (slot.imp_right .inl)
    · obtain rfl : Shape.pair = shape := Option.some.inj known
      exact garbageSlots offset (slot.imp_right .inl)
  · intro block _ _ _ frame linked
    cases linked with
    | here found => simp [sample_frameAt?] at found
    | outer found _ => simp [sample_frameAt?] at found

theorem sample_reachable {object : Nat}
    (reached : sampleHeap.Reachable sampleMachine (sampleHeap.roots (some ⟨4112⟩)) object) :
    object = 4112 ∨ object = 4160 := by
  obtain ⟨context, pair, _⟩ := header_sample
  obtain ⟨parent, environment, car, cdr, _⟩ := value_sample
  induction reached with
  | root listed refers =>
      obtain rfl := List.mem_singleton.mp listed
      cases refers
      exact .inl rfl
  | saved reached isContext linked =>
      cases linked with
      | here found => simp [sample_frameAt?] at found
      | outer found _ => simp [sample_frameAt?] at found
  | @slot owner object offset shape _ known strong refers ih =>
      rcases ih with rfl | rfl
      · rw [Memory.tag, context] at known
        obtain rfl : Shape.context = shape := Option.some.inj known
        rcases Shape.slot_context.mp (.inl strong) with rfl | rfl
        · cases (congrArg Value.address? parent).symm.trans refers
        · cases (congrArg Value.address? environment).symm.trans refers
          exact .inr rfl
      · rw [Memory.tag, pair] at known
        obtain rfl : Shape.pair = shape := Option.some.inj known
        rcases Shape.slot_pair.mp (.inl strong) with rfl | rfl
        · cases (congrArg Value.address? car).symm.trans refers
          exact .inr rfl
        · cases (congrArg Value.address? cdr).symm.trans refers

/-- The ring survives, what nothing refers to does not. -/
theorem collect_exact_sample : ∃ stats final swept,
    sampleHeap.CollectedExactly (fun _ => sampleBlocks) swept sampleMachine final ⟨4112⟩ ∧
      sampleHeap.Allocated final.memory 4160 ∧ ¬ sampleHeap.Allocated final.memory 4192 ∧
        (sampleHeap.collect ⟨4112⟩).run sampleMachine = .ok ({ sampleHeap with counters := {
          collections := 1, bytesFreed := stats.sumFreed } }, stats) final := by
  have isObject : sampleHeap.Object (fun _ => sampleBlocks) (Context.mk 4112).address :=
    ⟨⟨4112, 48, .object⟩, by rw [blocks_sample]; simp [sampleBlocks], rfl, rfl⟩
  obtain ⟨stats, final, swept, exactly, freed, ran⟩ := wellFormed_sample.collect_exact isObject
  refine ⟨stats, final, swept, exactly, (exactly.allocated _).mpr ?_, fun garbage => ?_, ?_⟩
  · have root : sampleHeap.Reachable sampleMachine (sampleHeap.roots (some ⟨4112⟩)) 4112 :=
      .root (List.mem_singleton.mpr rfl) rfl
    refine .slot root (by rw [Memory.tag, header_sample.1]; rfl) ⟨1, by decide, rfl⟩ ?_
    exact congrArg Value.address? value_sample.2.1
  · have kept := sample_reachable ((exactly.allocated _).mp garbage)
    omega
  · have used : sampleHeap.usedBytes (fun _ => sampleBlocks) = 112 := by
      rw [usedBytes, blocks_sample]
      rfl
    have counts : sampleHeap.counters.Counts 1 stats.sumFreed := by
      have none : sampleHeap.counters.bytesFreed = 0 := rfl
      refine ⟨by decide, ?_⟩
      simp only [none, Size.limit]
      omega
    rw [ran, if_pos counts]
    simp [sampleHeap]

end Sample

end Heap

end SlabHeap
