import SlabHeap.Proofs.WeakLaw

namespace SlabHeap

/-! What ephemerons hold.

The value of an ephemeron lies in a strong slot. A collection from a context clears key and value if
the key cannot be reached at all, `Heap.Traceable.ephemeron_law`; but it counts paths through values
of ephemerons, so that a value that leads to its own key holds both.
-/

open Block

/-- An ephemeron keeps its key and its value. -/
structure Memory.KeepsEphemeron (memory after : Memory) (object : Nat) : Prop where
  key : after.value (object + Layout.Ephemeron.key) = memory.value (object + Layout.Ephemeron.key)
  value : after.value (object + Layout.Ephemeron.value) =
    memory.value (object + Layout.Ephemeron.value)

/-- An ephemeron lost its key and its value. -/
structure Memory.ClearsEphemeron (after : Memory) (object : Nat) : Prop where
  key : after.value (object + Layout.Ephemeron.key) = .no
  value : after.value (object + Layout.Ephemeron.value) = .no

namespace Shape

variable {memory : Memory} {object offset : Nat}

theorem weakSlot_ephemeron :
    Shape.ephemeron.WeakSlot memory object offset ↔ offset = Layout.Ephemeron.key := by
  constructor
  · intro slot
    obtain ⟨run, isRun, index, inside, rfl⟩ := slot
    cases isRun
    obtain rfl : index = 0 := Nat.lt_one_iff.mp inside
    rfl
  · intro isKey
    exact ⟨_, rfl, 0, Nat.zero_lt_one, isKey⟩

theorem strongSlot_ephemeron :
    Shape.ephemeron.StrongSlot memory object Layout.Ephemeron.value :=
  ⟨0, Nat.zero_lt_one, rfl⟩

theorem dependentSlot_ephemeron :
    Shape.ephemeron.DependentSlot memory object Layout.Ephemeron.value :=
  ⟨_, rfl, 0, Nat.zero_lt_one, rfl⟩

end Shape

namespace Block.Settled

variable {forgotten : Value → Prop} {memory after : Memory} {block : Block}
  (settled : block.Settled .ephemeron forgotten memory after)

include settled

theorem clearsEphemeron
    (gone : forgotten (memory.value (block.start + Layout.Ephemeron.key))) :
    after.ClearsEphemeron block.start where
  key := settled.cleared _ (Shape.weakSlot_ephemeron.mpr rfl) gone
  value := by
    apply settled.dropped
    · intro offset slot
      rw [Shape.weakSlot_ephemeron.mp slot]
      exact gone
    · exact Shape.dependentSlot_ephemeron

theorem keepsEphemeron
    (stays : ¬ forgotten (memory.value (block.start + Layout.Ephemeron.key))) :
    memory.KeepsEphemeron after block.start where
  key := settled.held _ (Shape.weakSlot_ephemeron.mpr rfl) stays
  value := settled.spared _ (Shape.weakSlot_ephemeron.mpr rfl) stays _ Shape.dependentSlot_ephemeron

end Block.Settled

namespace Heap

variable {heap : Heap} {machine : Machine} {tiling : Slab → List Block} {block : Block}
  {context : Context}

/-- A reachable ephemeron loses key and value if its key cannot be reached, and neither of them
otherwise. The slots that count are all strong ones, its own value slot among them. -/
theorem Traceable.ephemeron_law (traceable : heap.Traceable machine tiling)
    (weak : heap.features.weakReferences = true) (isContext : heap.Object tiling context.address)
    (member : block ∈ heap.blocks tiling) (isObject : block.kind = .object)
    (known : heap.shapes.get? (machine.memory.tag block.start) = some .ephemeron)
    (reached : heap.Reachable machine (heap.roots (some context)) block.start) :
    ∃ stats final, (heap.collect context).run machine = heap.finished stats final ∧
      (∀ object, heap.Allocated final.memory object ↔
        heap.Reachable machine (heap.roots (some context)) object) ∧
      (∀ key, (machine.memory.value (block.start + Layout.Ephemeron.key)).address? = some key →
        heap.contains key = true → ¬ heap.Reachable machine (heap.roots (some context)) key →
          final.memory.ClearsEphemeron block.start) ∧
      ((∀ key, (machine.memory.value (block.start + Layout.Ephemeron.key)).address? = some key →
          heap.contains key = true → heap.Reachable machine (heap.roots (some context)) key) →
        machine.memory.KeepsEphemeron final.memory block.start) ∧
      ∀ key, (machine.memory.value (block.start + Layout.Ephemeron.key)).address? = some key →
        heap.Reachable machine
            [machine.memory.value (block.start + Layout.Ephemeron.value)] key →
          machine.memory.KeepsEphemeron final.memory block.start := by
  have objects : ∀ handle ∈ (Collection.plain (some context)).context,
      heap.Object tiling handle.address := by
    intro handle listed
    obtain rfl := Option.some.inj listed
    exact isContext
  obtain ⟨marked, stats, final, swept, _, isMarked, collected, _, ran⟩ :=
    traceable.perform_run objects
  have obeys := traceable.obeys weak isMarked collected
  have survives : block ∈ heap.blocks swept :=
    (collected.mem_swept (by simp [isObject])).mpr ⟨member, fun _ => reached⟩
  obtain ⟨shape, found, settled⟩ := obeys.settled block survives isObject
  obtain rfl := Option.some.inj (known.symm.trans found)
  -- The only weak slot is the key's.
  have forgotten := isMarked.forgotten_iff traceable.toReady
    (traceable.weak block member isObject _ known _ (Shape.weakSlot_ephemeron.mpr rfl))
  have keeps (alive : ∀ key,
      (machine.memory.value (block.start + Layout.Ephemeron.key)).address? = some key →
        heap.contains key = true → heap.Reachable machine (heap.roots (some context)) key) :
      machine.memory.KeepsEphemeron final.memory block.start := by
    apply settled.keepsEphemeron
    intro gone
    obtain ⟨key, target, inHeap, _, dead⟩ := forgotten.mp gone
    exact dead (alive key (address?_of_target? target) inHeap)
  refine ⟨stats, final, ran, fun _ => traceable.allocated_iff objects collected, ?_, keeps, ?_⟩
  · intro key refers inHeap dead
    apply settled.clearsEphemeron
    obtain ⟨keyBlock, keyMember, keyKind, rfl⟩ := traceable.weak block member isObject _ known _
      (Shape.weakSlot_ephemeron.mpr rfl) key refers inHeap
    refine ⟨keyBlock.start, refers, inHeap, ?_⟩
    rw [← Bool.not_eq_true, isMarked.isMarked_iff keyMember keyKind]
    exact dead
  · intro key refers behind
    apply keeps
    intro also alsoRefers _
    obtain rfl := Option.some.inj (refers.symm.trans alsoRefers)
    exact behind.through fun start found => .slot reached known Shape.strongSlot_ephemeron found

/-- What can be reached from some roots without following the slot at an address. -/
inductive ReachableAround (heap : Heap) (machine : Machine) (roots : List Value) (barred : Nat) :
    Nat → Prop
  | root {value : Value} {object : Nat} (listed : value ∈ roots)
      (refers : value.address? = some object) : ReachableAround heap machine roots barred object
  | slot {owner object offset : Nat} {shape : Shape}
      (reached : ReachableAround heap machine roots barred owner)
      (known : heap.shapes.get? (machine.memory.tag owner) = some shape)
      (strong : shape.StrongSlot machine.memory owner offset) (other : owner + offset ≠ barred)
      (refers : (machine.memory.value (owner + offset)).address? = some object) :
      ReachableAround heap machine roots barred object
  | saved {owner object : Nat} {frame : Frame} {value : Value}
      (reached : ReachableAround heap machine roots barred owner)
      (isContext : machine.memory.tag owner = Tag.context)
      (linked : machine.Linked ((Context.mk owner).saves machine.memory) frame)
      (held : value ∈ frame.values) (refers : value.address? = some object) :
      ReachableAround heap machine roots barred object

section Knot

/-- A context whose environment is an ephemeron, its key, and its value, a pair that holds the key. -/
def knotBlocks : List Block :=
  [⟨4112, 48, .object⟩, ⟨4160, 32, .object⟩, ⟨4192, 32, .object⟩, ⟨4224, 32, .object⟩,
    ⟨4256, 96, .free⟩]

def knotWords : List (Nat × UInt64) :=
  [(4104, 4256), (4112, (Header.fresh Tag.context).toWord), (4136, Value.no.bits),
    (4144, (Value.reference 4160).bits), (4160, (Header.fresh Tag.ephemeron).toWord),
    (4168, (Value.reference 4192).bits), (4176, (Value.reference 4224).bits),
    (4192, (Header.fresh Tag.pair).toWord), (4200, Value.nil.bits), (4208, Value.nil.bits),
    (4224, (Header.fresh Tag.pair).toWord), (4232, (Value.reference 4192).bits),
    (4240, Value.nil.bits), (4256, 96)]

def knotMachine : Machine :=
  { memory := knotWords.foldl (fun memory entry => memory.write entry.1 entry.2) .empty }

theorem wellFormed_knot : boxHeap.WellFormed knotMachine fun _ => knotBlocks := by
  apply wellFormed_of_surveys
  · exact fun _ _ known => ShapeTable.confined_standard known
  · decide +kernel

theorem reachable_knot :
    boxHeap.Reachable knotMachine (boxHeap.roots (some ⟨4112⟩)) 4160 := by
  have root : boxHeap.Reachable knotMachine (boxHeap.roots (some ⟨4112⟩)) 4112 :=
    .root (List.mem_singleton.mpr rfl) rfl
  have known : boxHeap.shapes.get? (knotMachine.memory.tag 4112) = some .context := by
    decide +kernel
  exact .slot root known ⟨1, by decide, rfl⟩ (by decide +kernel)

/-- Without the value slot of the ephemeron, only the context and the ephemeron can be reached. -/
theorem reachableAround_knot {object : Nat}
    (reached : boxHeap.ReachableAround knotMachine (boxHeap.roots (some ⟨4112⟩)) 4176 object) :
    object = 4112 ∨ object = 4160 := by
  have context : boxHeap.shapes.get? (knotMachine.memory.tag 4112) = some .context := by
    decide +kernel
  have ephemeron : boxHeap.shapes.get? (knotMachine.memory.tag 4160) = some .ephemeron := by
    decide +kernel
  have parent : (knotMachine.memory.value 4136).address? = none := by decide +kernel
  have environment : (knotMachine.memory.value 4144).address? = some 4160 := by decide +kernel
  induction reached with
  | root listed refers =>
      obtain rfl := List.mem_singleton.mp listed
      exact .inl (Option.some.inj refers).symm
  | saved _ _ linked _ _ _ =>
      have noFrame (address : Nat) : knotMachine.frameAt? address = none := by
        simp [Machine.frameAt?, Machine.frameIndex?, knotMachine]
      cases linked with
      | here found => simp [noFrame] at found
      | outer found _ => simp [noFrame] at found
  | slot _ known strong other refers ih =>
      cases ih with
      | inl isContext =>
          subst isContext
          obtain rfl := Option.some.inj (context.symm.trans known)
          cases Shape.slot_context.mp (.inl strong) with
          | inl isParent =>
              subst isParent
              cases parent.symm.trans refers
          | inr isEnvironment =>
              subst isEnvironment
              exact .inr (Option.some.inj (environment.symm.trans refers)).symm
      | inr isEphemeron =>
          subst isEphemeron
          obtain rfl := Option.some.inj (ephemeron.symm.trans known)
          obtain ⟨index, inside, rfl⟩ := strong
          obtain rfl : index = 0 := Nat.lt_one_iff.mp inside
          exact absurd rfl other

/-- Every path to the key leads through the value of its own ephemeron, and a collection keeps both. -/
theorem ephemeron_holds_itself :
    boxHeap.WellFormed knotMachine (fun _ => knotBlocks) ∧
    boxHeap.features.weakReferences = true ∧ boxHeap.Object (fun _ => knotBlocks) 4112 ∧
    boxHeap.Object (fun _ => knotBlocks) 4160 ∧ knotMachine.memory.tag 4160 = Tag.ephemeron ∧
    boxHeap.Reachable knotMachine (boxHeap.roots (some ⟨4112⟩)) 4160 ∧
    knotMachine.memory.value (4160 + Layout.Ephemeron.key) = .reference 4192 ∧
    ¬ boxHeap.ReachableAround knotMachine (boxHeap.roots (some ⟨4112⟩))
      (4160 + Layout.Ephemeron.value) 4192 ∧
    ∃ answer final, (boxHeap.collect ⟨4112⟩).run knotMachine = .ok answer final ∧
      final.memory.value (4160 + Layout.Ephemeron.key) = .reference 4192 ∧
      final.memory.value (4160 + Layout.Ephemeron.value) = .reference 4224 := by
  have outcome : (boxHeap.collect ⟨4112⟩).leaves knotMachine
      (fun final => final.memory.value 4168 = .reference 4192 &&
        final.memory.value 4176 = .reference 4224) = true := by
    decide +kernel
  obtain ⟨answer, final, ran, kept⟩ := Action.ensures_of_leaves outcome
  simp only [Bool.and_eq_true, decide_eq_true_eq] at kept
  refine ⟨wellFormed_knot, rfl, ⟨⟨4112, 48, .object⟩, by decide, rfl, rfl⟩,
    ⟨⟨4160, 32, .object⟩, by decide, rfl, rfl⟩, by decide +kernel, reachable_knot,
    by decide +kernel, fun reached => ?_, answer, final, ran, kept⟩
  have near := reachableAround_knot reached
  omega

/-- The value leads to the key, so that the ephemeron keeps both. -/
theorem ephemeron_law_knot : ∃ stats final,
    (boxHeap.collect ⟨4112⟩).run knotMachine = boxHeap.finished stats final ∧
    knotMachine.memory.KeepsEphemeron final.memory 4160 := by
  have pair : boxHeap.shapes.get? (knotMachine.memory.tag 4224) = some .pair := by decide +kernel
  have behind : boxHeap.Reachable knotMachine
      [knotMachine.memory.value (4160 + Layout.Ephemeron.value)] 4192 := by
    have root : boxHeap.Reachable knotMachine
        [knotMachine.memory.value (4160 + Layout.Ephemeron.value)] 4224 :=
      .root (List.mem_singleton.mpr rfl) (by decide +kernel)
    exact .slot root pair ⟨0, by decide, rfl⟩ (by decide +kernel)
  have isContext : boxHeap.Object (fun _ => knotBlocks) (Context.mk 4112).address :=
    ⟨⟨4112, 48, .object⟩, by decide, rfl, rfl⟩
  have member : ⟨4160, 32, .object⟩ ∈ boxHeap.blocks fun _ => knotBlocks := by decide
  obtain ⟨stats, final, ran, _, _, _, keeps⟩ := wellFormed_knot.traceable.ephemeron_law rfl
    isContext member rfl (by decide +kernel) reachable_knot
  exact ⟨stats, final, ran, keeps 4192 (by decide +kernel) behind⟩

end Knot

end Heap

end SlabHeap
