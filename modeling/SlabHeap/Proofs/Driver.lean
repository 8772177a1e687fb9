import SlabHeap.Proofs.Allocation
import SlabHeap.Proofs.Exactness
import SlabHeap.Proofs.Fork

namespace SlabHeap

/-! The allocation driver gives up only when it must.

`Heap.WellFormed.allocateBlock_driven` says when an allocation takes a block at once, that it otherwise
collects once and appends one slab at most, and when it is refused. What the growth policy reads is the
largest run that the sweep counted; `Heap.le_maxFreed_iff` says why this decides whether the request
finds a block after the sweep.
-/

open Block

namespace Heap

variable {heap : Heap} {memory after : Memory} {machine mid final : Machine}
  {tiling swept : Slab → List Block} {context : Context} {slab : Slab} {request size start : Nat}

theorem hasRoom_blocks : HasRoom (heap.blocks tiling) request ↔
    ∃ slab ∈ heap.slabs, HasRoom (tiling slab) request := by
  simp only [HasRoom, mem_blocks]
  constructor
  · rintro ⟨block, ⟨slab, inHeap, inSlab⟩, holds⟩
    exact ⟨slab, inHeap, block, inSlab, holds⟩
  · rintro ⟨slab, inHeap, block, inSlab, holds⟩
    exact ⟨block, ⟨slab, inHeap, inSlab⟩, holds⟩

/-- A search finds nothing only where there is no room. -/
theorem not_hasRoom_iff : ¬ HasRoom (heap.blocks tiling) request ↔
    ∀ slab ∈ heap.slabs, ∀ entry ∈ frees (tiling slab), entry.2 < request := by
  rw [hasRoom_blocks]
  constructor
  · intro noRoom slab inHeap entry listed
    by_contra fits
    exact noRoom ⟨slab, inHeap, _, mem_frees.mp listed, rfl, Nat.not_lt.mp fits⟩
  · rintro small ⟨slab, inHeap, ⟨start, size, kind⟩, inSlab, isFree, fits⟩
    simp only at isFree fits
    subst isFree
    have := small slab inHeap (start, size) (mem_frees.mpr inSlab)
    simp only at this
    omega

/-- The start of a free block with room for the request came into use, with zeros in it. -/
structure Granted (heap : Heap) (tiling : Slab → List Block) (memory after : Memory)
    (start request : Nat) : Prop where
  free : ∃ block ∈ heap.blocks tiling, block.kind = .free ∧ request ≤ block.size ∧
    block.start = start
  obtained : ∃ taken, heap.Obtained tiling taken memory after ⟨start, request, .bare⟩
  zero : ∀ address, start ≤ address → address < start + request → after.read address = 0

/-- The second attempt of an allocation on a heap that was just collected: it may append a slab, and it
is refused if neither this nor the collection made room. -/
structure Retried (heap : Heap) (swept : Slab → List Block) (mid : Machine) (request : Nat)
    (answer : Heap × Except HeapError Nat) (final : Machine) : Prop where
  refused_iff : (∃ refusal, answer.2 = .error refusal) ↔
    ¬ HasRoom (heap.blocks swept) request ∧ answer.1.slabs = heap.slabs
  refusal : ∀ refusal, answer.2 = .error refusal →
    refusal = .outOfMemory request ∧ answer.1 = heap.refused ∧ mid.Quiet final
  barred : ∀ refusal, answer.2 = .error refusal → heap.settings.growPolicy = .either →
    heap.Barred mid request ∧
      (heap.appendSlab request).Ensures mid fun answer _ => answer = (heap, false)
  granted : ∀ start, answer.2 = .ok start →
    (answer.1 = heap ∧ mid.Steady final ∧
      heap.Granted swept mid.memory final.memory start request) ∨
    ∃ slab grown, answer.1 = heap.grown slab ∧ heap.nextSize? request = some slab.size ∧
      slab.Created heap.shapes mid grown ∧ grown.Steady final ∧
      (heap.grown slab).Granted
        (Function.update swept slab [⟨slab.objects, slab.size - blockUnit, .free⟩])
        grown.memory final.memory start request

section Attempts

/-- A slab that was made for a request has room for it. -/
theorem Tiled.hasRoom_grown (tiled : heap.Tiled memory tiling)
    (sized : heap.nextSize? request = some slab.size) : HasRoom ((heap.grown slab).blocks
      (Function.update tiling slab [⟨slab.objects, slab.size - blockUnit, .free⟩])) request := by
  obtain ⟨_, room, _⟩ := nextSlabSize?_eq_some tiled.lastSlab_large sized
  refine hasRoom_blocks.mpr ⟨slab, by simp [Heap.grown], ?_⟩
  rw [Function.update_self]
  exact ⟨_, List.mem_singleton.mpr rfl, rfl, Nat.le_sub_of_add_le room⟩

variable (whole : request % blockUnit = 0) (positive : 0 < request)

include whole positive

/-- An attempt succeeds where there is room. -/
theorem Tiled.ensures_attempt (tiled : heap.Tiled machine.memory tiling) :
    (takeFrom request heap.slabs).Ensures machine fun answer final =>
      (answer = none ∧ final = machine ∧ ¬ HasRoom (heap.blocks tiling) request) ∨
        ∃ start, answer = some start ∧ machine.Steady final ∧
          HasRoom (heap.blocks tiling) request ∧
          heap.Granted tiling machine.memory final.memory start request := by
  refine (tiled.ensures_takeFirst whole positive fun _ inHeap => inHeap).weaken ?_
  rintro answer final
    ⟨steady, ⟨rfl, rfl, small⟩ | ⟨slab, front, start, size, back, rfl, fit, obtained, zero⟩⟩
  · exact .inl ⟨rfl, rfl, not_hasRoom_iff.mpr small⟩
  · obtain ⟨earlier, later, split, _⟩ := fit.place
    have inHeap : slab ∈ heap.slabs := by simp [split]
    have member : ⟨start, size, .free⟩ ∈ heap.blocks tiling :=
      mem_blocks.mpr ⟨slab, inHeap, by simp [fit.split]⟩
    exact .inr ⟨start, rfl, steady, ⟨_, member, rfl, fit.fits⟩,
      ⟨_, member, rfl, fit.fits, rfl⟩, ⟨_, obtained⟩, zero⟩

/-- After a collection that the request found no room before, a heap grows if it must and can, and the
request is tried once more. This fails only where the slab, or the refusal, cannot be counted. -/
theorem Tiled.retry_meets {shown : Memory} (tiled : heap.Tiled mid.memory (sweptTiling shown tiling))
    (hosted : ∀ slab ∈ heap.slabs, mid.Hosts slab)
    (noRoom : ¬ HasRoom (heap.blocks tiling) request) :
    (heap.retry (sweptStats shown tiling heap.slabs) request).Meets mid
      (heap.Retried (sweptTiling shown tiling) mid request) fun _ => heap.counters.Spent := by
  -- There was no room before the sweep, so that what it counted tells whether there is now.
  have fragmented : request ≤ (sweptStats shown tiling heap.slabs).maxFreed ↔
      HasRoom (heap.blocks (sweptTiling shown tiling)) request := by
    rw [hasRoom_blocks]
    exact le_maxFreed_iff positive fun slab inHeap room =>
      noRoom (hasRoom_blocks.mpr ⟨slab, inHeap, room⟩)
  refine ((tiled.growFor_meets hosted).weaken (fun _ _ grew => grew) fun _ spent => .inl spent.1).bind ?_
  rintro prepared later (⟨same, quiet, stays⟩ | ⟨slab, rfl, _, sized, _, created⟩)
  · subst prepared
    refine (Action.Ensures.meets (Tiled.ensures_attempt whole positive (quiet.memory ▸ tiled))).bind ?_
    rintro _ final (⟨rfl, rfl, still⟩ | ⟨start, rfl, steady, room, granted⟩)
    · refine Action.meets_count heap.countRefusal_eq (fun _ => .inl ?_) fun spent => .inr (Nat.not_lt.mp spent)
      rw [Action.ensures_note]
      refine Action.ensures_pure.mpr ⟨?_, ?_, ?_, ?_⟩
      · exact iff_of_true ⟨_, rfl⟩ ⟨still, rfl⟩
      · rintro _ ⟨⟩
        exact ⟨rfl, rfl, quiet.trans (Machine.quiet_logging _ _)⟩
      · intro _ _ either
        -- The heap wanted to grow, having no room, and did not.
        rcases stays with unwanted | barred
        · have small : (sweptStats shown tiling heap.slabs).maxFreed < request :=
            Nat.lt_of_not_le fun fits => still (fragmented.mp fits)
          simp [wantsGrowth, either, GrowPolicy.combine, small] at unwanted
        · exact barred
      · rintro _ ⟨⟩
    · refine .inl (Action.ensures_pure.mpr ⟨?_, ?_, ?_, ?_⟩)
      · exact iff_of_false (fun ⟨_, failed⟩ => by cases failed) fun both => both.1 room
      · rintro _ ⟨⟩
      · rintro _ ⟨⟩
      · rintro _ ⟨⟩
        exact .inl ⟨rfl, quiet.toSteady.trans steady, quiet.memory ▸ granted⟩
  · have grows := tiled.grown hosted created
    refine (Action.Ensures.meets (Tiled.ensures_attempt whole positive grows)).bind ?_
    rintro _ final (⟨rfl, rfl, still⟩ | ⟨start, rfl, steady, _, granted⟩)
    · exact absurd (tiled.hasRoom_grown sized) still
    · refine .inl (Action.ensures_pure.mpr ⟨?_, ?_, ?_, ?_⟩)
      · exact iff_of_false (fun ⟨_, failed⟩ => by cases failed) fun both => by
          simp [Heap.grown] at both
      · rintro _ ⟨⟩
      · rintro _ ⟨⟩
      · rintro _ ⟨⟩
        exact .inr ⟨slab, later, rfl, sized, created, steady, granted⟩

end Attempts

namespace WellFormed

variable (wellFormed : heap.WellFormed machine tiling)
  (hosted : ∀ slab ∈ heap.slabs, machine.Hosts slab)
  (isObject : heap.Object tiling context.address)

include wellFormed hosted isObject

/-- An allocation takes a block at once if one has room. Otherwise it collects once, appends one slab
at most, and is refused if and only if neither made room; where either reason to grow suffices, the
heap could not grow then. A request that cannot be rounded is refused at once. What is counted on the way
is counted with a check. -/
theorem allocateBlock_driven (size : Nat) :
    (Size.alignUp? (max size blockUnit) blockUnit = none → ∃ final, machine.Quiet final ∧
      (heap.allocateBlock (some context) size).run machine =
        if heap.counters.outOfMemory + 1 < Size.limit then
          .ok (heap.refused, .error (.outOfMemory size)) final
        else .error .additionOverflow machine) ∧
    ∀ request, Size.alignUp? (max size blockUnit) blockUnit = some request →
      (HasRoom (heap.blocks tiling) request → ∃ start final, machine.Steady final ∧
        heap.Granted tiling machine.memory final.memory start request ∧
        (heap.allocateBlock (some context) size).run machine = .ok (heap, .ok start) final) ∧
      (¬ HasRoom (heap.blocks tiling) request → ∃ stats swept mid,
        heap.Collected tiling swept machine mid
          (heap.Reachable machine (heap.roots (some context))) ∧
        stats.sumFreed + heap.usedBytes swept = heap.usedBytes tiling ∧
        if heap.counters.Counts 1 stats.sumFreed then
          (heap.collect context).run machine = .ok (heap.counted stats, stats) mid ∧
            (heap.allocateBlock (some context) size).Meets machine
              ((heap.counted stats).Retried swept mid request) fun _ => heap.counters.Spent
        else
          (heap.allocateBlock (some context) size).run machine = .error .additionOverflow mid) := by
  refine ⟨fun none => ?_, fun request rounds => ?_⟩
  · refine ⟨_, machine.quiet_logging (.notice (.unroundable size)), ?_⟩
    simp only [allocateBlock, none, countRefusal_eq]
    split <;> rfl
  obtain ⟨atLeast, _, whole, _⟩ := Size.alignUp?_eq_some
    (show Size.alignUp? (max size blockUnit) (1 <<< 4) = some request from rounds)
  have positive : 0 < request := by
    have : 0 < blockUnit := by decide
    omega
  obtain ⟨answer, first, tried, outcome⟩ :=
    Tiled.ensures_attempt whole positive wellFormed.tiled
  refine ⟨fun room => ?_, fun noRoom => ?_⟩
  · obtain ⟨_, _, none⟩ | ⟨start, rfl, steady, _, granted⟩ := outcome
    · exact absurd room none
    · refine ⟨start, first, steady, granted, ?_⟩
      simp only [allocateBlock, rounds]
      rw [Action.run_bind tried]
      rfl
  · obtain ⟨rfl, rfl, _⟩ | ⟨_, _, _, room, _⟩ := outcome
    swap
    · exact absurd room noRoom
    obtain ⟨shown, mid, _, collected, _, ran⟩ :=
      wellFormed.clean.collectFrom_swept (wellFormed.closed isObject)
    have reached : heap.Reach first first.Unmarked (heap.roots (some context)) =
        heap.Reachable first (heap.roots (some context)) :=
      funext fun _ => propext (wellFormed.reach_roots_iff isObject)
    rw [reached] at collected
    refine ⟨sweptStats shown tiling heap.slabs, _, mid, collected, Marked.sumFreed_eq, ?_⟩
    -- The search that failed changed nothing, so that the collection begins where one that is asked
    -- for does.
    have begins : (heap.allocateBlock (some context) size).run first =
        (heap.collectFrom (some context) >>= fun swept => swept.1.retry swept.2 request).run first := by
      simp only [allocateBlock, rounds]
      exact (Action.run_bind tried).trans rfl
    split
    · next small =>
      rw [if_pos small] at ran
      have below : ∀ slab ∈ heap.slabs, mid.Hosts slab := fun slab inHeap =>
        (hosted slab inHeap).keep collected.steady.taken_subset
      have tiled : (heap.counted (sweptStats shown tiling heap.slabs)).Tiled mid.memory
          (sweptTiling shown tiling) := ⟨collected.tiled.layout, collected.tiled.apart⟩
      refine ⟨ran, ?_⟩
      rw [Action.meets_congr (begins.trans (Action.run_bind ran))]
      exact tiled.retry_meets whole positive below noRoom
    · next large =>
      rw [if_neg large] at ran
      rw [begins, EStateM.run_bind, ran]

end WellFormed

section Ring

theorem blocks_ring : ringHeap.blocks (fun _ => ringBlocks) = ringBlocks := by
  simp [Heap.blocks, ringHeap]

/-- The objects of the ring are its context and the pair. -/
theorem forall_objects_ring {holds : Block → Prop} (ofContext : holds ⟨0x3ffffffff010, 48, .object⟩)
    (ofPair : holds ⟨0x3ffffffff040, 32, .object⟩) :
    ∀ block ∈ ringHeap.blocks fun _ => ringBlocks, block.kind = .object → holds block := by
  intro block member isObject
  rw [blocks_ring] at member
  simp only [ringBlocks, List.mem_cons, List.not_mem_nil, or_false] at member
  rcases member with rfl | rfl | rfl
  · exact ofContext
  · exact ofPair
  · cases isObject

theorem ring_refers (value : Value)
    (known : value = .no ∨ value = .nil ∨ value = .reference 0x3ffffffff040) :
    ringHeap.RefersToObject (fun _ => ringBlocks) value := by
  intro address found
  rcases known with rfl | rfl | rfl <;> cases found
  exact ⟨⟨0x3ffffffff040, 32, .object⟩, by rw [blocks_ring]; simp [ringBlocks], rfl, rfl⟩

theorem value_ring : ringMachine.memory.value 0x3ffffffff028 = .no ∧
    ringMachine.memory.value 0x3ffffffff030 = .reference 0x3ffffffff040 ∧
      ringMachine.memory.value 0x3ffffffff048 = .reference 0x3ffffffff040 ∧
        ringMachine.memory.value 0x3ffffffff050 = .nil := by
  simp [ringMachine, ringWords, Memory.value, Memory.read_write]

theorem wellFormed_ring : ringHeap.WellFormed ringMachine fun _ => ringBlocks := by
  obtain ⟨context, pair⟩ := header_ring
  obtain ⟨parent, environment, car, cdr⟩ := value_ring
  refine ⟨⟨?_, by simp [ringHeap]⟩, ?_, ?_, ?_, ?_, by simp [ringHeap], by simp [ringHeap]⟩
  · intro slab member
    obtain rfl : slab = ringSlab := by simpa [ringHeap] using member
    exact layout_ring
  · rw [blocks_ring]
    simp [ringBlocks, context, pair, Header.fresh, Header.isValid]
  · rw [blocks_ring]
    simp only [ringBlocks, List.forall_mem_cons, context, pair]
    exact ⟨fun _ => by decide, fun _ => by decide, by simp, by simp⟩
  · rw [blocks_ring]
    simp only [ringBlocks, List.forall_mem_cons, Memory.tag, context, pair]
    refine ⟨fun _ shape known offset slot => ?_, fun _ shape known offset slot => ?_, by simp,
      by simp⟩
    · obtain rfl : Shape.context = shape := Option.some.inj known
      rcases Shape.slot_context.mp (slot.imp_right .inl) with rfl | rfl
      · exact ring_refers _ (.inl parent)
      · exact ring_refers _ (.inr (.inr environment))
    · obtain rfl : Shape.pair = shape := Option.some.inj known
      rcases Shape.slot_pair.mp (slot.imp_right .inl) with rfl | rfl
      · exact ring_refers _ (.inr (.inr car))
      · exact ring_refers _ (.inr (.inl cdr))
  · intro block _ _ _ frame linked
    cases linked with
    | here found => simp [Machine.frameAt?, Machine.frameIndex?, ringMachine] at found
    | outer found _ => simp [Machine.frameAt?, Machine.frameIndex?, ringMachine] at found

/-- The free block of 32 bytes serves a request that it holds. A request that is larger than the slab
makes the heap grow. -/
theorem allocateBlock_driven_ring :
    (∃ final, (ringHeap.allocateBlock (some ⟨0x3ffffffff010⟩) 24).run ringMachine =
      .ok (ringHeap, .ok 0x3ffffffff060) final) ∧
    (ringHeap.allocateBlock (some ⟨0x3ffffffff010⟩) 200).Ensures ringMachine fun answer _ =>
      ∃ slab stats, answer.1 = (ringHeap.counted stats).grown slab ∧ slab.size = 416 := by
  have hosted : ∀ slab ∈ ringHeap.slabs, ringMachine.Hosts slab := by
    intro slab member
    obtain rfl : slab = ringSlab := by simpa [ringHeap] using member
    decide
  have isObject : ringHeap.Object (fun _ => ringBlocks) (Context.mk 0x3ffffffff010).address :=
    ⟨⟨0x3ffffffff010, 48, .object⟩, by rw [blocks_ring]; simp [ringBlocks], rfl, rfl⟩
  refine ⟨?_, ?_⟩
  · obtain ⟨served, _⟩ :=
      (wellFormed_ring.allocateBlock_driven hosted isObject 24).2 32 (by decide)
    obtain ⟨start, final, _, granted, ran⟩ := served (by
      rw [blocks_ring]
      exact ⟨⟨0x3ffffffff060, 32, .free⟩, by simp [ringBlocks], rfl, Nat.le_refl _⟩)
    obtain ⟨block, member, isFree, _, rfl⟩ := granted.free
    rw [blocks_ring] at member
    simp only [ringBlocks, List.mem_cons, List.not_mem_nil, or_false] at member
    rcases member with rfl | rfl | rfl
    · contradiction
    · contradiction
    · exact ⟨final, ran⟩
  · obtain ⟨_, driven⟩ :=
      (wellFormed_ring.allocateBlock_driven hosted isObject 200).2 208 (by decide)
    obtain ⟨stats, swept, mid, collected, freed, outcome⟩ := driven (by
      rw [blocks_ring]
      simp [HasRoom, ringBlocks])
    have used : ringHeap.usedBytes (fun _ => ringBlocks) = 80 := by
      rw [usedBytes, blocks_ring]
      rfl
    have counts : ringHeap.counters.Counts 1 stats.sumFreed := by
      have none : ringHeap.counters.bytesFreed = 0 := rfl
      refine ⟨by decide, ?_⟩
      simp only [none, Size.limit]
      omega
    rw [if_pos counts] at outcome
    refine (outcome.2.ensures fun _ => by decide).weaken fun answer final retried => ?_
    have next : (ringHeap.counted stats).nextSize? 208 = some 416 :=
      show ringHeap.nextSize? 208 = some 416 by decide
    cases result : answer.2 with
    | error refusal =>
        obtain ⟨barred, _⟩ := retried.barred refusal result rfl
        cases barred with
        | atLimit limited _ => exact absurd rfl limited
        | clamped limited _ => exact absurd rfl limited
        | overflow doubled =>
            have fits : Size.alignUp? (Size.saturate (max ringHeap.lastSlab.size 208 * 2)) blockUnit =
              some 416 := by decide
            cases fits.symm.trans doubled
        | reservation sized noRoom =>
            obtain rfl := Option.some.inj (next.symm.trans sized)
            refine absurd ⟨0x1000, 0x3fffffffe, by decide, ?_⟩ noRoom
            rw [collected.steady.pages]
            decide
    | ok start =>
        rcases retried.granted start result with ⟨_, _, granted⟩ | ⟨slab, _, grown, sized, _⟩
        · obtain ⟨block, member, _, fits, _⟩ := granted.free
          obtain ⟨slab, inHeap, inSlab⟩ := mem_blocks.mp member
          obtain rfl : slab = ringSlab := by simpa [ringHeap, counted] using inHeap
          have bounds := (collected.tiled.layout ringSlab inHeap).bounds inSlab
          simp only [ringSlab, Slab.stop] at bounds
          omega
        · exact ⟨slab, stats, grown, (Option.some.inj (next.symm.trans sized)).symm⟩

end Ring

end Heap

end SlabHeap
