import Mathlib.Algebra.Order.BigOperators.Group.List
import Mathlib.Algebra.Order.Group.Nat
import SlabHeap.Proofs.Ephemerons
import SlabHeap.Proofs.Resting
import SlabHeap.Proofs.Successive

namespace SlabHeap

/-! Collections that are repeated.

A collection after which no slot that depends on weak ones has lost a reference leaves nothing to do for
another one. Each collection that takes such a reference away leaves fewer of them, `Heap.promises`, so
that repeated collections come to an end: `Heap.WellFormed.collect_settles`.
-/

open Block

namespace Shape

variable {shape : Shape} {memory after : Memory} {object offset : Nat}

/-- The offsets of the slots that are dropped with the weak ones. -/
def dependentOffsets (shape : Shape) (memory : Memory) (object : Nat) : List Nat :=
  match shape.weak with
  | none => []
  | some run => (List.range shape.dependent).map fun index =>
      run.offset + wordBytes * (run.slotCount memory object + index)

theorem mem_dependentOffsets :
    offset ∈ shape.dependentOffsets memory object ↔ shape.DependentSlot memory object offset := by
  unfold dependentOffsets DependentSlot
  cases shape.weak with
  | none => simp
  | some run => simp [eq_comm]

theorem dependentOffsets_congr (kept : ∀ length ∈ shape.lengths,
      after.read (object + length.offset) = memory.read (object + length.offset)) :
    shape.dependentOffsets after object = shape.dependentOffsets memory object := by
  unfold dependentOffsets
  cases weak : shape.weak with
  | none => rfl
  | some run => simp only [weakCount_congr kept weak]

end Shape

/-- No word is another one, and no finalizer was called. -/
def Machine.Still (machine final : Machine) : Prop :=
  (∀ address, final.memory.read address = machine.memory.read address) ∧ final.calls = machine.calls

theorem Machine.Still.trans {machine mid final : Machine} (first : machine.Still mid)
    (second : mid.Still final) : machine.Still final :=
  ⟨fun address => (second.1 address).trans (first.1 address), second.2.trans first.2⟩

namespace Heap

variable {heap other : Heap} {machine final : Machine} {tiling swept : Slab → List Block} {block : Block}
  {live : Nat → Prop} {roots : List Value} {context : Context}

/-- The slots of a block that depend on weak ones and hold a reference. -/
def promised (heap : Heap) (memory : Memory) (block : Block) : List Nat :=
  match heap.shapes.get? (memory.tag block.start) with
  | none => []
  | some shape => (shape.dependentOffsets memory block.start).filter fun offset =>
      (memory.value (block.start + offset)).address?.isSome

/-- How many slots of objects depend on weak ones and hold a reference. -/
def promises (heap : Heap) (tiling : Slab → List Block) (memory : Memory) : Nat :=
  (((heap.blocks tiling).filter (·.kind = .object)).map fun block =>
    (heap.promised memory block).length).sum

namespace Collected

variable (collected : heap.Collected tiling swept machine final live)
  (tiled : heap.Tiled machine.memory tiling)

include collected tiled

/-- A survivor makes no new promises. -/
theorem promised_eq (member : block ∈ heap.blocks tiling) (isObject : block.kind = .object)
    (alive : live block.start) : heap.promised final.memory block =
      (heap.promised machine.memory block).filter fun offset =>
        (final.memory.value (block.start + offset)).address?.isSome := by
  have alike := collected.alike tiled member isObject alive
  unfold promised
  rw [alike.tag]
  cases known : heap.shapes.get? (machine.memory.tag block.start) with
  | none => rfl
  | some shape =>
      simp only [Shape.dependentOffsets_congr (alike.lengths isObject shape known), List.filter_filter]
      refine List.filter_congr fun offset slot => ?_
      have worn := (collected.worn tiled member isObject alive).weak shape known offset
        (.inr (Shape.mem_dependentOffsets.mp slot))
      rcases worn with lost | same
      · simp [lost, show (Value.no).address? = none from rfl]
      · simp [same]

end Collected

/-- The objects that a sweep leaves are those that live. -/
theorem objects_sweptTiling {shown : Memory} :
    (heap.blocks (sweptTiling shown tiling)).filter (·.kind = .object) =
      ((heap.blocks tiling).filter (·.kind = .object)).filter fun block => !isDead shown block := by
  have fromUsed (blocks : List Block) :
      blocks.filter (·.kind = .object) = (used blocks).filter (·.kind = .object) := by
    rw [used, List.filter_filter]
    refine List.filter_congr fun block _ => ?_
    cases block.kind <;> simp
  have swept (slab : Slab) : used (sweptTiling shown tiling slab) =
      (used (tiling slab)).filter fun block => !isDead shown block := used_sweep fun _ => isDead_used
  simp only [Heap.blocks, List.filter_flatMap]
  refine congrArg heap.slabs.flatMap (funext fun slab => ?_)
  rw [fromUsed, swept, List.filter_filter, fromUsed (tiling slab), List.filter_filter]
  simp only [Bool.and_comm]

namespace Grounded

variable (grounded : heap.Grounded machine tiling roots)

include grounded

/-- A collection that takes a reference out of a slot that depends on weak ones leaves fewer of them. -/
theorem promises_lt {shown : Memory}
    (collected : heap.Collected tiling (sweptTiling shown tiling) machine final
      (heap.Reach machine machine.Unmarked roots))
    (dies : ∀ block ∈ heap.blocks tiling, block.isDead shown = false ↔
      (block.kind = .object → heap.Reach machine machine.Unmarked roots block.start))
    (lost : ¬ heap.KeepsDependents tiling machine final (heap.Reach machine machine.Unmarked roots)) :
    heap.promises (sweptTiling shown tiling) final.memory < heap.promises tiling machine.memory := by
  have tiled := grounded.tiled
  have survivor {block : Block} (listed : block ∈ ((heap.blocks tiling).filter (·.kind = .object)).filter
      fun block => !isDead shown block) : block ∈ heap.blocks tiling ∧ block.kind = .object ∧
        heap.Reach machine machine.Unmarked roots block.start := by
    simp only [List.mem_filter, decide_eq_true_eq, Bool.not_eq_true'] at listed
    obtain ⟨⟨member, isObject⟩, lives⟩ := listed
    exact ⟨member, isObject, (dies block member).mp lives isObject⟩
  have fewer {block : Block} (listed : block ∈ ((heap.blocks tiling).filter (·.kind = .object)).filter
      fun block => !isDead shown block) :
      (heap.promised final.memory block).length ≤ (heap.promised machine.memory block).length := by
    obtain ⟨member, isObject, reached⟩ := survivor listed
    rw [collected.promised_eq tiled member isObject reached]
    exact List.length_filter_le _ _
  have strictly : ∃ block ∈ ((heap.blocks tiling).filter (·.kind = .object)).filter
      fun block => !isDead shown block,
        (heap.promised final.memory block).length < (heap.promised machine.memory block).length := by
    simp only [KeepsDependents, not_forall] at lost
    obtain ⟨block, member, isObject, reached, shape, known, offset, slot, held, changed⟩ := lost
    refine ⟨block, ?_, ?_⟩
    · simp only [List.mem_filter, decide_eq_true_eq, Bool.not_eq_true']
      exact ⟨⟨member, isObject⟩, (dies block member).mpr fun _ => reached⟩
    · rw [collected.promised_eq tiled member isObject reached, List.length_filter_lt_length_iff_exists]
      refine ⟨offset, ?_, ?_⟩
      · simp only [promised, known]
        exact List.mem_filter.mpr ⟨Shape.mem_dependentOffsets.mpr slot, held⟩
      · have worn := (collected.worn tiled member isObject reached).weak shape known offset (.inr slot)
        rw [worn.resolve_right changed]
        decide
  unfold promises
  rw [objects_sweptTiling]
  refine Nat.lt_of_lt_of_le (List.sum_lt_sum _ _ (fun _ => fewer) strictly) ?_
  exact (List.filter_sublist.map _).sum_le_sum fun _ _ => Nat.zero_le _

end Grounded

theorem Rested.counted (rested : heap.Rested machine tiling roots) (stats : SweepStats) :
    (heap.counted stats).Rested machine tiling roots where
  grounded := rested.grounded.reroot rfl rfl rfl
  reached block member isObject := by
    have slabs : (heap.counted stats).slabs = heap.slabs := rfl
    exact (rested.reached block member isObject).reroot slabs rfl rfl
  vacant := rested.vacant

/-- Any number of collections changes no word of a heap at rest, even where there are more of them than can be
counted. -/
theorem Rested.collections (rested : heap.Rested machine tiling (heap.roots (some context))) (further : Nat) :
    (heap.collections context further).Meets machine (fun _ last => machine.Still last)
      fun last => ¬ heap.counters.Counts further 0 ∧ machine.Still last := by
  induction further generalizing heap machine tiling with
  | zero => exact .inl (Action.ensures_pure.mpr ⟨fun _ => rfl, rfl⟩)
  | succ further ih =>
      obtain ⟨final, ran, words, calls, swept, again⟩ := rested.collect rfl
      have still : machine.Still final := ⟨words, calls⟩
      split at ran
      · refine (Action.meets_bind_iff ran).mpr ((ih (again.counted {})).weaken (fun _ _ => still.trans) ?_)
        rintro last ⟨uncounted, later⟩
        refine ⟨fun counts => uncounted ⟨?_, counts.2⟩, still.trans later⟩
        have := counts.1
        simp only [Heap.counted]
        omega
      · next uncounted =>
        have failed : (heap.collect context).run machine = .error .additionOverflow final := ran
        refine .inr ⟨final, ?_, fun counts => uncounted (counts.mono (by omega) (Nat.le_refl 0)), still⟩
        rw [Heap.collections, EStateM.run_bind, failed]

/-- Some number of collections, bounded by the references in slots that depend on weak ones, brings a heap
to rest. -/
theorem Grounded.collections_rest (grounded : heap.Grounded machine tiling (heap.roots (some context)))
    (counts : heap.counters.Counts (1 + heap.promises tiling machine.memory) (heap.usedBytes tiling)) :
    ∃ count ≤ 1 + heap.promises tiling machine.memory, ∃ settled mid,
      (heap.collections context count).run machine = .ok settled mid ∧
        ∃ swept, settled.Rested mid swept (settled.roots (some context)) := by
  induction bound : heap.promises tiling machine.memory using Nat.strong_induction_on
    generalizing heap machine tiling with
  | _ most ih =>
      obtain ⟨shown, final, dies, collected, _, ran⟩ :=
        grounded.clean.collectFrom_swept grounded.traced.closed
      have freed : (sweptStats shown tiling heap.slabs).sumFreed +
          heap.usedBytes (sweptTiling shown tiling) = heap.usedBytes tiling := Marked.sumFreed_eq
      rw [if_pos (counts.mono (by omega) (by omega))] at ran
      by_cases keeps : heap.KeepsDependents tiling machine final
        (heap.Reach machine machine.Unmarked (heap.roots (some context)))
      · have rested := (grounded.rested collected keeps).counted (sweptStats shown tiling heap.slabs)
        exact ⟨1, by omega, heap.counted _, final, Action.run_bind ran, _, rested⟩
      · have less := grounded.promises_lt collected dies keeps
        rw [bound] at less
        have again : (heap.counted (sweptStats shown tiling heap.slabs)).Grounded final
            (sweptTiling shown tiling) (heap.roots (some context)) :=
          (grounded.survive collected).reroot rfl rfl rfl
        -- What is freed from here on is in use now.
        have still : (heap.counted (sweptStats shown tiling heap.slabs)).counters.Counts
            (1 + heap.promises (sweptTiling shown tiling) final.memory)
            (heap.usedBytes (sweptTiling shown tiling)) := by
          have := counts.1
          have := counts.2
          constructor <;> simp only [Heap.counted] <;> omega
        obtain ⟨count, few, settled, mid, later, rest⟩ := ih _ less again still rfl
        exact ⟨count + 1, by omega, settled, mid, (Action.run_bind ran).trans later, rest⟩

/-- Where a collection took no reference out of a slot that depends on weak ones, another one has nothing to
do. Repeated collections settle after one for each such reference, and one more: further ones change no
word. The number of collections is counted with a check, and so are the bytes that they free. -/
theorem WellFormed.collect_settles (wellFormed : heap.WellFormed machine tiling)
    (isObject : heap.Object tiling context.address) :
    (∀ after stats final, (heap.collect context).run machine = .ok (after, stats) final →
      heap.KeepsDependents tiling machine final (heap.Reachable machine (heap.roots (some context))) →
        ∃ last, final.Still last ∧ (after.collect context).run final =
          if after.counters.Counts 1 0 then .ok (after.counted {}, {}) last else .error .additionOverflow last) ∧
    (heap.counters.Counts (1 + heap.promises tiling machine.memory) (heap.usedBytes tiling) →
      ∃ count ≤ 1 + heap.promises tiling machine.memory, ∃ settled mid,
        (heap.collections context count).run machine = .ok settled mid ∧
          ∀ further, (settled.collections context further).Meets mid (fun _ last => mid.Still last)
            fun last => ¬ settled.counters.Counts further 0 ∧ mid.Still last) := by
  have grounded : heap.Grounded machine tiling (heap.roots (some context)) :=
    wellFormed.grounded fun _ listed => wellFormed.rootsRefer isObject listed
  refine ⟨fun after stats final ran keeps => ?_, fun counts => ?_⟩
  · obtain ⟨shown, last, _, collected, _, again⟩ :=
      grounded.clean.collectFrom_swept grounded.traced.closed
    have keepsReached : heap.KeepsDependents tiling machine final
        (heap.Reach machine machine.Unmarked (heap.roots (some context))) :=
      fun block member kind reached => keeps block member kind reached.reachable
    have ranFrom : (heap.collectFrom (some context)).run machine = .ok (after, stats) final := ran
    rw [ranFrom] at again
    split at again
    · cases again
      have rested := (grounded.rested collected keepsReached).counted (sweptStats shown tiling heap.slabs)
      obtain ⟨last, ran, same, silent, _⟩ := rested.collect rfl
      exact ⟨last, ⟨same, silent⟩, ran⟩
    · cases again
  · obtain ⟨count, few, settled, mid, ran, _, rested⟩ := grounded.collections_rest counts
    exact ⟨count, few, settled, mid, ran, rested.collections⟩

section Chain

/-- A context whose environment is a pair of two ephemerons. Nothing else refers to the key of the first one,
and its value, a pair, is the key of the second one. -/
def chainBlocks : List Block :=
  [⟨4112, 48, .object⟩, ⟨4160, 32, .object⟩, ⟨4192, 32, .object⟩, ⟨4224, 32, .object⟩,
    ⟨4256, 32, .object⟩, ⟨4288, 32, .object⟩, ⟨4320, 32, .free⟩]

def chainWords : List (Nat × UInt64) :=
  [(4104, 4320), (4112, (Header.fresh Tag.context).toWord), (4136, Value.no.bits),
    (4144, (Value.reference 4160).bits), (4160, (Header.fresh Tag.pair).toWord),
    (4168, (Value.reference 4192).bits), (4176, (Value.reference 4224).bits),
    (4192, (Header.fresh Tag.ephemeron).toWord), (4200, (Value.reference 4256).bits),
    (4208, (Value.reference 4288).bits), (4224, (Header.fresh Tag.ephemeron).toWord),
    (4232, (Value.reference 4288).bits), (4240, (Value.reference 4160).bits),
    (4256, (Header.fresh Tag.pair).toWord), (4264, Value.nil.bits), (4272, Value.nil.bits),
    (4288, (Header.fresh Tag.pair).toWord), (4296, Value.nil.bits), (4304, Value.nil.bits), (4320, 32)]

def chainMachine : Machine :=
  { memory := chainWords.foldl (fun memory entry => memory.write entry.1 entry.2) .empty }

theorem wellFormed_chain : boxHeap.WellFormed chainMachine fun _ => chainBlocks := by
  apply wellFormed_of_surveys
  · exact fun _ _ known => ShapeTable.confined_standard known
  · decide +kernel

theorem keepsDependents_knot {final : Machine}
    (same : final.memory.value 4176 = knotMachine.memory.value 4176) :
    boxHeap.KeepsDependents (fun _ => knotBlocks) knotMachine final live := by
  intro block member isObject _ shape known offset slot _
  have context : boxHeap.shapes.get? (knotMachine.memory.tag 4112) = some .context := by decide +kernel
  have ephemeron : boxHeap.shapes.get? (knotMachine.memory.tag 4160) = some .ephemeron := by
    decide +kernel
  have key : boxHeap.shapes.get? (knotMachine.memory.tag 4192) = some .pair := by decide +kernel
  have value : boxHeap.shapes.get? (knotMachine.memory.tag 4224) = some .pair := by decide +kernel
  have inKnot : block ∈ knotBlocks := by simpa [Heap.blocks, boxHeap] using member
  obtain ⟨run, isWeak, index, inside, rfl⟩ := slot
  simp only [knotBlocks, List.mem_cons, List.not_mem_nil, or_false] at inKnot
  rcases inKnot with rfl | rfl | rfl | rfl | rfl
  · cases Option.some.inj (context.symm.trans known)
    cases isWeak
  · cases Option.some.inj (ephemeron.symm.trans known)
    cases isWeak
    obtain rfl : index = 0 := Nat.lt_one_iff.mp inside
    exact same
  · cases Option.some.inj (key.symm.trans known)
    cases isWeak
  · cases Option.some.inj (value.symm.trans known)
    cases isWeak
  · cases isObject

/-- The knot is at rest after one collection, the chain after three: each of the first two takes one reference
away. -/
theorem collect_settles_chain :
    (∃ after stats final last, (boxHeap.collect ⟨4112⟩).run knotMachine = .ok (after, stats) final ∧
      (after.collect ⟨4112⟩).run final = .ok (after.counted {}, {}) last ∧ final.Still last) ∧
    boxHeap.promises (fun _ => chainBlocks) chainMachine.memory = 2 ∧
    ∃ count ≤ 3, ∃ settled mid, (boxHeap.collections ⟨4112⟩ count).run chainMachine = .ok settled mid ∧
      ∀ further, (settled.collections ⟨4112⟩ further).Meets mid (fun _ last => mid.Still last)
        fun last => ¬ settled.counters.Counts further 0 ∧ mid.Still last := by
  have promises : boxHeap.promises (fun _ => chainBlocks) chainMachine.memory = 2 := by decide +kernel
  refine ⟨?_, promises, ?_⟩
  · have isObject : boxHeap.Object (fun _ => knotBlocks) (Context.mk 4112).address :=
      ⟨⟨4112, 48, .object⟩, by decide, rfl, rfl⟩
    have outcome : (boxHeap.collect ⟨4112⟩).leaves knotMachine
        (fun final => final.memory.value 4176 = knotMachine.memory.value 4176) = true := by
      decide +kernel
    obtain ⟨⟨after, stats⟩, final, ran, kept⟩ := Action.ensures_of_leaves outcome
    obtain ⟨last, same, again⟩ := (wellFormed_knot.collect_settles isObject).1 after stats final ran
      (keepsDependents_knot (of_decide_eq_true kept))
    have counted : after = boxHeap.counted stats := answers_collectFrom_counted _ _ _ _ _ ran
    have counts : after.counters.Counts 1 0 := by
      have := (answers_collectFrom_counts _ _ _ _ _ ran).2
      rw [counted]
      exact ⟨show 1 + 1 < Size.limit by decide, this.2⟩
    exact ⟨after, stats, final, last, ran, again.trans (if_pos counts), same⟩
  · have isObject : boxHeap.Object (fun _ => chainBlocks) (Context.mk 4112).address :=
      ⟨⟨4112, 48, .object⟩, by decide, rfl, rfl⟩
    obtain ⟨count, few, rest⟩ := (wellFormed_chain.collect_settles isObject).2 (by
      rw [promises]
      decide)
    exact ⟨count, by omega, rest⟩

end Chain

end Heap

end SlabHeap
