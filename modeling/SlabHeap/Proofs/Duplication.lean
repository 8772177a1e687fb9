import SlabHeap.Proofs.Extension
import SlabHeap.Proofs.Standard
import SlabHeap.Proofs.Walk

namespace SlabHeap

/-! What becomes of objects in a copy of their slab.

`Slab.SlotsMoved` says that some slots were shifted; shifting them twice is shifting them once.
`Slab.Adapted` compares an object with its copy word for word, and
`Slab.Layout.ensures_adaptCopies` says that all objects of a slab end up so.
-/

open FreeList Block

namespace Slab

variable {source target : Slab} {memory mid after : Memory} {machine : Machine} {value : Value}
  {address copy offset count : Nat} {slots others : Nat → Prop}

/-- The values at some offsets from a copy were shifted. -/
structure SlotsMoved (source target : Slab) (copy : Nat) (slots : Nat → Prop)
    (memory after : Memory) : Prop where
  moved : ∀ offset, slots offset →
    after.value (copy + offset) = source.moveValue target (memory.value (copy + offset))
  kept : ∀ address, (∀ offset, slots offset →
      ¬ (copy + offset ≤ address ∧ address < copy + offset + 8)) →
    after.read address = memory.read address

/-- What was moved lies in the copy and is not moved again. -/
theorem moveValue_moveValue (beside : source.Beside target) (value : Value) :
    source.moveValue target (source.moveValue target value) = source.moveValue target value := by
  cases found : value.address? with
  | none => simp only [moveValue, found]
  | some address =>
      by_cases inside : source.contains address = true
      · have moved : source.moveValue target value =
            .reference (source.counterpart target address) := by
          simp only [moveValue, found, inside, if_true]
        have word := Value.address?_aligned found
        obtain ⟨lower, upper⟩ := Slab.contains_iff.mp inside
        have sourceAligned := beside.sourcePlaced.startAligned
        have targetAligned := beside.targetPlaced.startAligned
        have bounded := beside.targetPlaced.bounded
        have large := beside.large
        have apart := beside.apart
        simp only [blockUnit, Slab.Apart, Slab.stop] at *
        have reread : (Value.reference (source.counterpart target address)).address? =
            some (source.counterpart target address) := by
          refine Value.address?_reference ?_ ?_ <;> simp only [counterpart] <;> omega
        have outside : source.contains (source.counterpart target address) = false := by
          refine Bool.eq_false_iff.mpr fun again => ?_
          have := Slab.contains_iff.mp again
          simp only [Slab.stop, counterpart] at this
          omega
        rw [moved]
        simp [moveValue, reread, outside]
      · simp only [moveValue, found, inside]
        simp [found, inside]

namespace SlotsMoved

theorem congr (moved : source.SlotsMoved target copy slots memory after)
    (same : ∀ offset, slots offset ↔ others offset) :
    source.SlotsMoved target copy others memory after := by
  obtain rfl : slots = others := funext fun offset => propext (same offset)
  exact moved

theorem trans (beside : source.Beside target)
    (aligned : ∀ offset, slots offset ∨ others offset → offset % 8 = 0)
    (first : source.SlotsMoved target copy slots memory mid)
    (second : source.SlotsMoved target copy others mid after) :
    source.SlotsMoved target copy (fun offset => slots offset ∨ others offset) memory after where
  moved offset member := by
    have apart (family : Nat → Prop) (whole : ∀ place, family place → place % 8 = 0)
        (absent : ¬ family offset) : ∀ place, family place →
          ¬ (copy + place ≤ copy + offset ∧ copy + offset < copy + place + 8) := by
      intro place present inside
      have := whole place present
      have := aligned offset member
      obtain rfl : place = offset := by omega
      exact absent present
    have before : mid.value (copy + offset) = memory.value (copy + offset) ∨
        mid.value (copy + offset) = source.moveValue target (memory.value (copy + offset)) := by
      by_cases inFirst : slots offset
      · exact .inr (first.moved offset inFirst)
      · exact .inl (congrArg Value.mk
          (first.kept _ (apart slots (fun place present => aligned place (.inl present)) inFirst)))
    by_cases inSecond : others offset
    · rw [second.moved offset inSecond]
      rcases before with same | moved
      · rw [same]
      · rw [moved, moveValue_moveValue beside]
    · have same : after.value (copy + offset) = mid.value (copy + offset) :=
        congrArg Value.mk
          (second.kept _ (apart others (fun place present => aligned place (.inr present)) inSecond))
      rw [same]
      exact first.moved offset (member.resolve_right inSecond)
  kept address clear := by
    rw [second.kept address fun offset present => clear offset (.inr present)]
    exact first.kept address fun offset present => clear offset (.inl present)

end SlotsMoved

/-- Shifting goes through a run of slots. -/
theorem ensures_relocateSlots (beside : source.Beside target) (copyAligned : copy % 8 = 0)
    (aligned : count ≠ 0 → offset % 8 = 0) :
    (relocateSlots source target copy offset count).Ensures machine fun _ final =>
      machine.Steady final ∧ source.SlotsMoved target copy
        (fun place => ∃ index < count, place = offset + wordBytes * index) machine.memory
          final.memory := by
  induction count generalizing offset machine with
  | zero => exact Action.ensures_pure.mpr ⟨.refl machine, by simp, fun _ _ => rfl⟩
  | succ count ih =>
      have whole := aligned (Nat.succ_ne_zero count)
      -- Whatever becomes of the first slot, the others follow.
      have onward {next : Machine} (steady : machine.Steady next)
          (first : source.SlotsMoved target copy (· = offset) machine.memory next.memory) :
          (relocateSlots source target copy (offset + wordBytes) count).Ensures next
            fun _ final => machine.Steady final ∧ source.SlotsMoved target copy
              (fun place => ∃ index < count + 1, place = offset + wordBytes * index)
              machine.memory final.memory := by
        have later : count ≠ 0 → (offset + wordBytes) % 8 = 0 := by
          simp only [wordBytes]
          omega
        refine Action.Ensures.weaken (ih later) ?_
        rintro _ final ⟨further, second⟩
        refine ⟨steady.trans further, (first.trans beside ?_ second).congr fun place => ?_⟩
        · rintro place (rfl | ⟨index, _, rfl⟩)
          · exact whole
          · simp only [wordBytes]
            omega
        · constructor
          · rintro (rfl | ⟨index, inRun, rfl⟩)
            · exact ⟨0, Nat.succ_pos count, by simp⟩
            · exact ⟨index + 1, Nat.succ_lt_succ inRun, by rw [Nat.mul_succ]; omega⟩
          · rintro ⟨index, inRun, rfl⟩
            cases index with
            | zero => exact .inl (by simp)
            | succ index => exact .inr ⟨index, by omega, by rw [Nat.mul_succ]; omega⟩
      -- A slot that refers to nothing in the slab is left alone.
      have unmoved (fixed : source.moveValue target (machine.memory.value (copy + offset)) =
          machine.memory.value (copy + offset)) :
          source.SlotsMoved target copy (· = offset) machine.memory machine.memory :=
        ⟨fun place same => same ▸ fixed.symm, fun _ _ => rfl⟩
      have word : (⟨machine.memory.read (copy + offset)⟩ : Value) =
          machine.memory.value (copy + offset) := rfl
      rw [relocateSlots, Action.ensures_memory, Action.ensures_check (Memory.field_eq_ok whole), word]
      cases found : (machine.memory.value (copy + offset)).address? with
      | none => exact onward (.refl machine) (unmoved (by simp only [moveValue, found]))
      | some address =>
          by_cases inside : source.contains address = true
          · have bounds : source.start ≤ address ∧ address < source.stop := by
              have := Slab.contains_iff.mp inside
              omega
            simp only [inside, if_true]
            rw [Action.ensures_check (relocate_eq_ok beside _ bounds), Action.ensures_storeValue]
            refine onward (machine.steady_withMemory _) ⟨?_, fun address clear => ?_⟩
            · rintro place rfl
              have moved : source.moveValue target (machine.memory.value (copy + place)) =
                  .reference (source.counterpart target address) := by
                simp only [moveValue, found, inside, if_true]
              rw [moved, Memory.value, Machine.memory_withMemory, Memory.read_write_same]
            · have := clear offset rfl
              rw [Machine.memory_withMemory, Memory.read_write, if_neg (by omega)]
          · simp only [inside]
            exact onward (.refl machine) (unmoved (by simp [moveValue, found, inside]))

/-- Shifting goes through several runs of slots, which may overlap. -/
theorem ensures_relocateRuns {runs : List (Nat × Nat)} (beside : source.Beside target)
    (copyAligned : copy % 8 = 0) (aligned : ∀ run ∈ runs, run.2 ≠ 0 → run.1 % 8 = 0) :
    (runs.forM fun (offset, count) => relocateSlots source target copy offset count).Ensures machine
      fun _ final => machine.Steady final ∧ source.SlotsMoved target copy
        (fun place => ∃ run ∈ runs, ∃ index < run.2, place = run.1 + wordBytes * index)
        machine.memory final.memory := by
  induction runs generalizing machine with
  | nil => exact Action.ensures_pure.mpr ⟨.refl machine, by simp, fun _ _ => rfl⟩
  | cons run rest ih =>
      have here := aligned run List.mem_cons_self
      have later := fun other member => aligned other (List.mem_cons_of_mem run member)
      have whole : ∀ other ∈ run :: rest, ∀ index < other.2,
          (other.1 + wordBytes * index) % 8 = 0 := by
        intro other member index inRun
        have := aligned other member (by omega)
        simp only [wordBytes]
        omega
      simp only [List.forM_eq_forM] at ih ⊢
      rw [List.forM_cons]
      refine (ensures_relocateSlots beside copyAligned here).bind ?_
      rintro _ mid ⟨steady, first⟩
      refine (ih later).weaken ?_
      rintro _ final ⟨further, second⟩
      refine ⟨steady.trans further, (first.trans beside ?_ second).congr fun place => ?_⟩
      · rintro place (⟨index, inRun, rfl⟩ | ⟨other, member, index, inRun, rfl⟩)
        · exact whole run List.mem_cons_self index inRun
        · exact whole other (List.mem_cons_of_mem _ member) index inRun
      · simp only [List.mem_cons, or_and_right, exists_or, exists_eq_left]

/-- The copy of an object in a block: its slots are shifted, the mark of ownership is taken off unless
it is kept, and a context has no frames and names the heap of the copy. -/
structure Adapted (source target : Slab) (shapes : ShapeTable) (keepOwnership : Bool)
    (identity copyIdentity : Nat) (memory after : Memory) (block : Block) : Prop where
  slots : ∀ shape, shapes.get? (memory.tag block.start) = some shape → ∀ offset,
    shape.Slot memory block.start offset →
      after.value (source.counterpart target (block.start + offset)) =
        source.moveValue target (memory.value (block.start + offset))
  header : after.header (source.counterpart target block.start) =
    if keepOwnership then memory.header block.start else (memory.header block.start).remove .owned
  saves : memory.tag block.start = Tag.context →
    after.read (source.counterpart target (block.start + Layout.Context.saves)) = 0
  heapWord : memory.tag block.start = Tag.context →
    after.read (source.counterpart target (block.start + Layout.Context.heap)) =
      if (Context.mk block.start).heapWord memory = identity then .ofNat copyIdentity
      else memory.read (block.start + Layout.Context.heap)
  same : ∀ address, block.start + 8 ≤ address → address < block.stop →
    (∀ shape, shapes.get? (memory.tag block.start) = some shape → ∀ offset,
      shape.Slot memory block.start offset →
        ¬ (block.start + offset ≤ address ∧ address < block.start + offset + 8)) →
    (memory.tag block.start = Tag.context → block.start + 24 ≤ address) →
      after.read (source.counterpart target address) = memory.read address

theorem Adapted.keep {shapes : ShapeTable} {keepOwnership : Bool} {identity copyIdentity : Nat}
    {block : Block} {shape : Shape} (large : 16 ≤ block.size)
    (known : shapes.get? (memory.tag block.start) = some shape)
    (describes : shape.Describes memory block.start block.size)
    (adapted : source.Adapted target shapes keepOwnership identity copyIdentity memory mid block)
    (same : ∀ address, block.Covers address →
      after.read (source.counterpart target address) = mid.read (source.counterpart target address)) :
    source.Adapted target shapes keepOwnership identity copyIdentity memory after block where
  slots found foundKnown offset slot := by
    obtain rfl := Option.some.inj (known.symm.trans foundKnown)
    have inside := describes.slotInside offset slot
    rw [← adapted.slots shape known offset slot]
    exact congrArg Value.mk (same _ ⟨by omega, by simp only [Block.stop]; omega⟩)
  header := by
    rw [← adapted.header]
    exact congrArg Header.ofWord (same _ ⟨Nat.le_refl _, by simp only [Block.stop]; omega⟩)
  saves isContext := by
    have size := Shape.size_of_context (isContext ▸ known) describes
    rw [same _ ⟨by omega, by simp only [Block.stop, Layout.Context.saves]; omega⟩]
    exact adapted.saves isContext
  heapWord isContext := by
    have size := Shape.size_of_context (isContext ▸ known) describes
    rw [same _ ⟨by omega, by simp only [Block.stop, Layout.Context.heap]; omega⟩]
    exact adapted.heapWord isContext
  same address lower upper clear beyond := by
    rw [same address ⟨by omega, upper⟩]
    exact adapted.same address lower upper clear beyond

/-- The making of free what a copy does not fill leaves the word at the address alone. -/
structure Unpatched (source target : Slab) (blocks : List Block) (address : Nat) : Prop where
  last : ¬ (source.counterpart target (lastOr source.start (frees blocks)) ≤ address ∧
    address < source.counterpart target (lastOr source.start (frees blocks)) + 16)
  stop : ¬ ((source.filled target).stop ≤ address ∧ address < (source.filled target).stop + 16)

/-- The header of a copy lost the mark of ownership, unless this is kept. Nothing else changed. -/
structure Disowned (keepOwnership : Bool) (copy : Nat) (mid next : Machine) : Prop where
  steady : mid.Steady next
  header : next.memory.header copy =
    if keepOwnership then mid.memory.header copy else (mid.memory.header copy).remove .owned
  kept : ∀ address, ¬ (copy ≤ address ∧ address < copy + 8) →
    next.memory.read address = mid.memory.read address

theorem Disowned.of_kept {keepOwnership : Bool} (keeps : keepOwnership = true) :
    Disowned keepOwnership copy machine machine :=
  ⟨.refl machine, by rw [if_pos keeps], fun _ _ => rfl⟩

theorem Disowned.of_removed {keepOwnership : Bool} (whole : copy % 8 = 0)
    (drops : ¬ keepOwnership = true) :
    (Action.onHeader copy (·.remove .owned)).Ensures machine fun _ next =>
      Disowned keepOwnership copy machine next := by
  refine Action.ensures_last_onMemory.mpr ⟨machine.steady_withMemory _, ?_, ?_⟩
  · rw [if_neg drops, Machine.memory_withMemory, Memory.header_setHeader]
  · exact fun address outside => Memory.read_setHeader (by omega) outside

/-- The copy of a context has no frames, and names the heap of the copy if it named that of the source.
Nothing else changed. -/
structure Rehomed (identity copyIdentity copy : Nat) (next final : Machine) : Prop where
  steady : next.Steady final
  saves : next.memory.tag copy = Tag.context → final.memory.read (copy + Layout.Context.saves) = 0
  heapWord : next.memory.tag copy = Tag.context → final.memory.read (copy + Layout.Context.heap) =
    if (Context.mk copy).heapWord next.memory = identity then .ofNat copyIdentity
    else next.memory.read (copy + Layout.Context.heap)
  kept : ∀ address,
    ¬ (next.memory.tag copy = Tag.context ∧ copy + 8 ≤ address ∧ address < copy + 24) →
      final.memory.read address = next.memory.read address

/-- The last step of the copying of an object concerns contexts alone. -/
theorem ensures_rehome (whole : copy % 8 = 0) (identity copyIdentity : Nat) (notice : Notice) :
    (do
      let memory ← Action.memory
      if memory.tag copy = Tag.context then
        Action.onMemory ((Context.mk copy).setSaves · 0)
        if (Context.mk copy).heapWord memory = identity then
          Action.store (copy + Layout.Context.heap) (.ofNat copyIdentity)
      Action.note notice : Action Unit).Ensures machine fun _ final =>
        Rehomed identity copyIdentity copy machine final := by
  have unlinked (address : Nat) (outside : ¬ (copy + 16 ≤ address ∧ address < copy + 24)) :
      ((Context.mk copy).setSaves machine.memory 0).read address = machine.memory.read address := by
    simp only [Context.setSaves, Layout.Context.saves]
    rw [Memory.read_write, if_neg (by omega)]
  have noFrames : ((Context.mk copy).setSaves machine.memory 0).read
      (copy + Layout.Context.saves) = 0 := by
    rw [Context.setSaves, Memory.read_write_same]
    rfl
  rw [Action.ensures_memory]
  split
  · next isContext =>
    rw [Action.ensures_onMemory]
    split
    · next own =>
      rw [Action.ensures_store]
      refine Action.ensures_last_note.mpr
        ⟨⟨rfl, rfl, rfl⟩, fun _ => ?_, fun _ => ?_, fun address outside => ?_⟩
      · simp only [Machine.memory_logging, Machine.memory_withMemory, Layout.Context.heap]
        rw [Memory.read_write, if_neg (by simp only [Layout.Context.saves]; omega)]
        exact noFrames
      · rw [if_pos own, Machine.memory_logging, Machine.memory_withMemory, Memory.read_write_same]
      · have apart : ¬ (copy + 8 ≤ address ∧ address < copy + 24) :=
          fun inside => outside ⟨isContext, inside⟩
        simp only [Machine.memory_logging, Machine.memory_withMemory, Layout.Context.heap]
        rw [Memory.read_write, if_neg (by omega), unlinked _ (by omega)]
    · next foreign =>
      refine Action.ensures_last_note.mpr
        ⟨⟨rfl, rfl, rfl⟩, fun _ => noFrames, fun _ => ?_, fun address outside => ?_⟩
      · rw [if_neg foreign]
        exact unlinked _ (by simp only [Layout.Context.heap]; omega)
      · have apart : ¬ (copy + 8 ≤ address ∧ address < copy + 24) :=
          fun inside => outside ⟨isContext, inside⟩
        exact unlinked _ (by omega)
  · next other =>
    exact Action.ensures_last_note.mpr ⟨⟨rfl, rfl, rfl⟩, fun isContext => absurd isContext other,
      fun isContext => absurd isContext other, fun _ _ => rfl⟩

end Slab

namespace Heap

open Slab

variable {heap : Heap} {source target : Slab} {memory after : Memory} {machine : Machine}
  {block : Block} {blocks : List Block} {shape : Shape}

/-- The runs that the copying of an object goes through are all of its slots. -/
theorem slotRuns_eq_ok {object size : Nat} (known : heap.shapes.get? (memory.tag object) = some shape)
    (describes : shape.Describes memory object size) :
    ∃ runs, heap.slotRuns memory object = .ok runs ∧ ∀ place, shape.Slot memory object place ↔
      ∃ run ∈ runs, ∃ index < run.2, place = run.1 + wordBytes * index := by
  have strong := describes.strongSlots
  cases weak : shape.weak with
  | none =>
      refine ⟨[(shape.strong.offset, shape.strong.slotCount memory object)], ?_, fun place => ?_⟩
      · simp only [slotRuns, known, strong, weak]
        rfl
      · simp [Shape.Slot, Shape.StrongSlot, Shape.WeakSlot, Shape.DependentSlot, weak]
  | some run =>
      have counted := describes.weakSlots weak
      have small := describes.weakSlots_lt weak
      refine ⟨[(shape.strong.offset, shape.strong.slotCount memory object),
        (run.offset, run.slotCount memory object + shape.dependent)], ?_, fun place => ?_⟩
      · simp only [slotRuns, known, strong, weak, counted, bind, Except.bind, Size.add_eq_ok small]
        rfl
      · simp only [Shape.Slot, Shape.StrongSlot, Shape.WeakSlot, Shape.DependentSlot, weak,
          Option.some.injEq, exists_eq_left', List.mem_cons, List.not_mem_nil, or_false,
          or_and_right, exists_or, exists_eq_left]
        refine or_congr_right ⟨?_, ?_⟩
        · rintro (⟨index, inRun, rfl⟩ | ⟨index, inRun, rfl⟩)
          · exact ⟨index, by omega, rfl⟩
          · exact ⟨run.slotCount memory object + index, by omega, rfl⟩
        · rintro ⟨index, inRun, rfl⟩
          by_cases isWeak : index < run.slotCount memory object
          · exact .inl ⟨index, isWeak, rfl⟩
          · refine .inr ⟨index - run.slotCount memory object, by omega, ?_⟩
            congr 2
            omega

section Objects

variable {keepOwnership : Bool} {copyIdentity : Nat}
  (layout : source.Layout heap.shapes memory blocks) (beside : source.Beside target)

include layout beside

omit beside in
/-- A copy is adapted once its slots were shifted, its ownership was settled and it was rehomed. Nothing
outside of it changed. -/
theorem adapted_of_steps {mid next final : Machine} (member : block ∈ blocks)
    (isObject : block.kind = .object)
    (known : heap.shapes.get? (memory.tag block.start) = some shape)
    (raw : ∀ address, block.Covers address →
      machine.memory.read (source.counterpart target address) = memory.read address)
    (moved : source.SlotsMoved target (source.counterpart target block.start)
      (shape.Slot memory block.start) machine.memory mid.memory)
    (disowned : Disowned keepOwnership (source.counterpart target block.start) mid next)
    (rehomed : Rehomed heap.identity copyIdentity (source.counterpart target block.start) next final) :
    source.Adapted target heap.shapes keepOwnership heap.identity copyIdentity memory final.memory
        block ∧
      ∀ address, ¬ (source.counterpart target block.start ≤ address ∧
        address < source.counterpart target block.start + block.size) →
          final.memory.read address = machine.memory.read address := by
  obtain ⟨found, foundKnown, describes⟩ := layout.object member isObject
  obtain rfl := Option.some.inj (known.symm.trans foundKnown)
  have bounds := layout.bounds member
  have place (offset : Nat) : source.counterpart target (block.start + offset) =
      source.counterpart target block.start + offset := by
    simp only [counterpart]
    omega
  have contents (offset : Nat) (inside : offset < block.size) :
      machine.memory.read (source.counterpart target block.start + offset) =
        memory.read (block.start + offset) := by
    rw [← place]
    exact raw _ ⟨by omega, by simp only [Block.stop]; omega⟩
  -- Slots lie behind the header, and in a context behind its fixed words, so that no step undoes
  -- another.
  have beyondHeader (offset : Nat) (slot : shape.Slot memory block.start offset) : 8 ≤ offset :=
    (describes.slotInside offset slot).2.1
  have header : mid.memory.header (source.counterpart target block.start) =
      memory.header block.start := by
    refine congrArg Header.ofWord ((moved.kept _ fun offset slot => ?_).trans (contents 0 (by omega)))
    have := beyondHeader offset slot
    omega
  have tag : next.memory.tag (source.counterpart target block.start) = memory.tag block.start := by
    rw [Memory.tag, disowned.header, header]
    split <;> rfl
  have contextSlots (isContext : memory.tag block.start = Tag.context) (offset : Nat)
      (slot : shape.Slot memory block.start offset) : 24 ≤ offset :=
    Shape.slot_of_context (isContext ▸ known) slot
  have contextSize (isContext : memory.tag block.start = Tag.context) : block.size = 48 :=
    Shape.size_of_context (isContext ▸ known) describes
  refine ⟨⟨?_, ?_, ?_, ?_, ?_⟩, ?_⟩
  · intro found foundKnown offset slot
    obtain rfl := Option.some.inj (known.symm.trans foundKnown)
    have inside := describes.slotInside offset slot
    have value : final.memory.value (source.counterpart target block.start + offset) =
        mid.memory.value (source.counterpart target block.start + offset) := by
      refine congrArg Value.mk ((rehomed.kept _ fun inContext => ?_).trans
        (disowned.kept _ (by omega)))
      have := contextSlots (tag ▸ inContext.1) offset slot
      omega
    rw [place, value, moved.moved offset slot]
    exact congrArg (fun word => source.moveValue target ⟨word⟩) (contents offset (by omega))
  · rw [← header, ← disowned.header]
    exact congrArg Header.ofWord (rehomed.kept _ (by omega))
  · intro isContext
    rw [place]
    exact rehomed.saves (tag.trans isContext)
  · intro isContext
    have large := contextSize isContext
    have word : next.memory.read (source.counterpart target block.start + Layout.Context.heap) =
        memory.read (block.start + Layout.Context.heap) := by
      simp only [Layout.Context.heap]
      rw [disowned.kept _ (by omega), moved.kept _ fun offset slot => ?_, contents 8 (by omega)]
      have := contextSlots isContext offset slot
      omega
    have names : (Context.mk (source.counterpart target block.start)).heapWord next.memory =
        (Context.mk block.start).heapWord memory := congrArg UInt64.toNat word
    rw [place, rehomed.heapWord (tag.trans isContext), names, word]
  · intro address lower upper clear beyond
    obtain ⟨offset, rfl⟩ := Nat.exists_eq_add_of_le (by omega : block.start ≤ address)
    simp only [Block.stop] at upper
    rw [place, rehomed.kept _ fun inContext => ?_, disowned.kept _ (by omega),
      moved.kept _ fun other slot => ?_, contents offset (by omega)]
    · have := clear shape known other slot
      omega
    · have := beyond (tag ▸ inContext.1)
      omega
  · intro address outside
    rw [rehomed.kept _ fun inContext => ?_, disowned.kept _ (by omega),
      moved.kept _ fun other slot => ?_]
    · have := describes.slotInside other slot
      omega
    · have := contextSize (tag ▸ inContext.1)
      omega

/-- The copy of an object is adapted word by word, and nothing outside of it. -/
theorem ensures_adaptCopy (member : block ∈ blocks) (isObject : block.kind = .object)
    (here : ∀ address, block.Covers address → machine.memory.read address = memory.read address)
    (raw : ∀ address, block.Covers address →
      machine.memory.read (source.counterpart target address) = memory.read address) :
    (heap.adaptCopy copyIdentity source target keepOwnership block.start).Ensures machine
      fun _ final => machine.Steady final ∧
        source.Adapted target heap.shapes keepOwnership heap.identity copyIdentity memory
          final.memory block ∧
        ∀ address, ¬ (source.counterpart target block.start ≤ address ∧
          address < source.counterpart target block.start + block.size) →
            final.memory.read address = machine.memory.read address := by
  obtain ⟨shape, known, describes⟩ := layout.object member isObject
  have bounds := layout.bounds member
  have word (offset : Nat) (inside : offset < block.size) :
      machine.memory.read (block.start + offset) = memory.read (block.start + offset) :=
    here _ ⟨by omega, by simp only [Block.stop]; omega⟩
  have copyAligned : source.counterpart target block.start % 16 = 0 := by
    have sourceAligned := beside.sourcePlaced.startAligned
    have targetAligned := beside.targetPlaced.startAligned
    simp only [counterpart, blockUnit] at *
    omega
  have lengths : ∀ length ∈ shape.lengths, machine.memory.read (block.start + length.offset) =
      memory.read (block.start + length.offset) := by
    intro length listed
    have inside := (describes.lengthInside length listed).2
    exact word _ (by omega)
  have sameTag : machine.memory.tag block.start = memory.tag block.start :=
    congrArg (fun word => (Header.ofWord word).tag) (word 0 (by omega))
  -- The runs of slots are read from the object itself, which the copying leaves alone.
  obtain ⟨runs, counted, slots⟩ :=
    heap.slotRuns_eq_ok (sameTag ▸ known) (describes.congr lengths)
  simp only [Shape.slot_congr lengths] at slots
  have aligned : ∀ run ∈ runs, run.2 ≠ 0 → run.1 % 8 = 0 := by
    intro run listed some
    have slot := (slots run.1).mpr ⟨run, listed, 0, by omega, by simp⟩
    exact (describes.slotInside _ slot).1
  unfold adaptCopy
  rw [Action.ensures_check (relocate_eq_ok beside block.start (by omega)),
    Action.ensures_memory, Action.ensures_check counted]
  refine (ensures_relocateRuns beside (by omega) aligned).bind ?_
  rintro _ mid ⟨steady, moved⟩
  refine Action.Ensures.unless (Disowned keepOwnership (source.counterpart target block.start) mid)
    Disowned.of_kept (Disowned.of_removed (by omega)) fun next disowned => ?_
  refine (ensures_rehome (by omega) _ _ _).weaken fun _ final rehomed => ⟨?_, ?_⟩
  · exact steady.trans (disowned.steady.trans rehomed.steady)
  · exact adapted_of_steps layout member isObject known raw
      (moved.congr fun offset => (slots offset).symm) disowned rehomed

/-- The copies of all objects but those in the `rest` are adapted. -/
structure Adapting (heap : Heap) (source target : Slab) (blocks : List Block)
    (keepOwnership : Bool) (copyIdentity : Nat) (memory : Memory) (machine mid : Machine)
    (rest : List Block) : Prop where
  steady : machine.Steady mid
  adapted : ∀ block ∈ blocks, block.kind = .object → block ∉ rest →
    source.Adapted target heap.shapes keepOwnership heap.identity copyIdentity memory mid.memory block
  waiting : ∀ block ∈ blocks, block.kind = .object → block ∈ rest → ∀ address,
    block.Covers address →
      mid.memory.read (source.counterpart target address) = memory.read address
  outside : ∀ address, (∀ block ∈ blocks, block.kind = .object →
      ¬ (source.counterpart target block.start ≤ address ∧
        address < source.counterpart target block.start + block.size)) →
    mid.memory.read address = machine.memory.read address

/-- A slab whose words were copied, and whose objects were not adapted yet. -/
structure Raw (source target : Slab) (blocks : List Block) (memory : Memory) (machine : Machine) :
    Prop where
  same : ∀ address, source.start ≤ address → address < source.stop →
    machine.memory.read address = memory.read address
  used : ∀ block ∈ blocks, block.kind ≠ .free → ∀ address, block.Covers address →
    machine.memory.read (source.counterpart target address) = memory.read address

namespace Adapting

variable {mid later : Machine} {rest : List Block}

omit layout beside in
theorem start (raw : Raw source target blocks memory machine) :
    heap.Adapting source target blocks keepOwnership copyIdentity memory machine machine blocks :=
  ⟨.refl machine, fun _ member _ absent => absurd member absent,
    fun block member isObject _ => raw.used block member (by simp [isObject]), fun _ _ => rfl⟩

omit layout beside in
theorem quiet (adapting : heap.Adapting source target blocks keepOwnership copyIdentity memory machine mid rest)
    (quiet : mid.Quiet later) :
    heap.Adapting source target blocks keepOwnership copyIdentity memory machine later rest :=
  ⟨adapting.steady.trans quiet.toSteady, quiet.memory ▸ adapting.adapted, quiet.memory ▸ adapting.waiting,
    quiet.memory ▸ adapting.outside⟩

omit layout beside in
/-- Only objects are adapted. -/
theorem passOver (adapting : heap.Adapting source target blocks keepOwnership copyIdentity memory machine mid
      (block :: rest)) (other : block.kind ≠ .object) :
    heap.Adapting source target blocks keepOwnership copyIdentity memory machine mid rest := by
  refine ⟨adapting.steady, fun object member isObject absent => ?_,
    fun object member isObject present => ?_, adapting.outside⟩
  · refine adapting.adapted object member isObject fun present => ?_
    rcases List.mem_cons.mp present with rfl | later
    · exact other isObject
    · exact absent later
  · exact adapting.waiting object member isObject (List.mem_cons_of_mem _ present)

theorem same (raw : Raw source target blocks memory machine)
    (adapting : heap.Adapting source target blocks keepOwnership copyIdentity memory machine mid rest)
    (address : Nat) (lower : source.start ≤ address) (upper : address < source.stop) :
    mid.memory.read address = memory.read address := by
  rw [adapting.outside address fun block member _ inside => ?_]
  · exact raw.same address lower upper
  · have bounds := layout.bounds member
    have apart := beside.apart
    have large := beside.large
    simp only [Slab.Apart, counterpart, Slab.stop] at *
    omega

theorem visit (raw : Raw source target blocks memory machine)
    (adapting : heap.Adapting source target blocks keepOwnership copyIdentity memory machine mid (block :: rest))
    (suffix : block :: rest <:+ blocks) (isObject : block.kind = .object) :
    (heap.adaptCopy copyIdentity source target keepOwnership block.start).Ensures mid fun _ final =>
      heap.Adapting source target blocks keepOwnership copyIdentity memory machine final rest := by
  have member : block ∈ blocks := suffix.mem List.mem_cons_self
  obtain ⟨done, split⟩ := suffix
  -- No block comes twice, so that a copy that is adapted stays so.
  have once : block ∉ rest := fun again =>
    (split ▸ layout.tiles).ne_of_mem (List.mem_append_right done again) rfl
  refine (ensures_adaptCopy layout beside member isObject (fun address covers => ?_)
    (adapting.waiting block member isObject List.mem_cons_self)).weaken ?_
  · have bounds := layout.bounds member
    simp only [Block.Covers, Block.stop] at covers
    exact same layout beside raw adapting address (by omega) (by omega)
  rintro _ final ⟨steady, adapted, elsewhere⟩
  have kept {object : Block} (objectMember : object ∈ blocks) (distinct : object ≠ block)
      (address : Nat) (covers : object.Covers address) :
      final.memory.read (source.counterpart target address) =
        mid.memory.read (source.counterpart target address) := by
    refine elsewhere _ fun inside => distinct ?_
    have bounds := layout.bounds member
    have objectBounds := layout.bounds objectMember
    refine layout.tiles.eq_of_covers objectMember member covers ?_
    simp only [counterpart, Block.Covers, Block.stop] at *
    omega
  refine ⟨adapting.steady.trans steady, fun object objectMember objectKind absent => ?_,
    fun object objectMember objectKind present => ?_, fun address outside => ?_⟩
  · by_cases same : object = block
    · exact same ▸ adapted
    · obtain ⟨shape, known, describes⟩ := layout.object objectMember objectKind
      refine (adapting.adapted object objectMember objectKind ?_).keep
        (layout.bounds objectMember).2.2.1 known describes (kept objectMember same)
      simpa [same] using absent
  · intro address covers
    have distinct : object ≠ block := fun same => once (same ▸ present)
    rw [kept objectMember distinct address covers]
    exact adapting.waiting object objectMember objectKind (List.mem_cons_of_mem _ present) address
      covers
  · rw [elsewhere address (outside block member isObject)]
    exact adapting.outside address outside

end Adapting

theorem ensures_adaptCopies (raw : Raw source target blocks memory machine) :
    (source.foldObjects heap.shapes heap.scrutiny
      (fun _ object => heap.adaptCopy copyIdentity source target keepOwnership object) ()).Ensures
      machine fun _ final => heap.Adapting source target blocks keepOwnership copyIdentity memory
        machine final [] :=
  Slab.ensures_foldObjects (fun _ rest mid => heap.Adapting source target blocks keepOwnership copyIdentity memory
      machine mid rest) (fun _ _ _ adapting => layout.keep (adapting.same layout beside raw))
    (fun _ _ _ _ adapting quiet => adapting.quiet quiet) (fun _ _ _ _ adapting _ other => adapting.passOver other)
    (fun _ _ _ _ adapting suffix isObject => adapting.visit layout beside raw suffix isObject) (.start raw)

/-- A slab was copied: the copy is divided like the slab, what the copy does not fill is free, and
copies of objects are adapted. -/
structure Duplicated (heap : Heap) (source target : Slab) (blocks : List Block)
    (keepOwnership : Bool) (copyIdentity : Nat) (machine final : Machine) : Prop where
  steady : machine.Steady final
  layout : target.Layout heap.shapes final.memory
    (Block.extend (blocks.map (source.moveBlock target)) (source.filled target).stop
      (target.size - source.size))
  adapted : ∀ block ∈ blocks, block.kind = .object →
    source.Adapted target heap.shapes keepOwnership heap.identity copyIdentity machine.memory
      final.memory block
  bare : ∀ block ∈ blocks, block.kind = .bare → ∀ address, block.Covers address →
    final.memory.read (source.counterpart target address) = machine.memory.read address
  free : target.size = source.size → ∃ copied,
    source.Transferred target blocks machine.memory copied ∧
      ∀ address, source.start ≤ address → address < source.stop →
        (∀ block ∈ blocks, block.kind = .object → ¬ block.Covers address) →
          final.memory.read (source.counterpart target address) =
            copied.read (source.counterpart target address)
  outside : ∀ address, address < target.start ∨ target.stop ≤ address →
    final.memory.read address = machine.memory.read address

/-- The bytes of a slab are copied, and what the copy does not fill is free. -/
theorem copyBytes_eq_ok : ∃ copied after, source.copyBytes target memory = .ok after ∧
    source.Transferred target blocks memory copied ∧
    target.Layout heap.shapes after (Block.extend (blocks.map (source.moveBlock target))
      (source.filled target).stop (target.size - source.size)) ∧
    target.Untouched copied after (blocks.map (source.moveBlock target)) ∧
    (target.size = source.size → after = copied) ∧
    ∀ address, source.Unpatched target blocks address → after.read address = copied.read address := by
  obtain ⟨copied, relinked, transferred⟩ := layout.ensures_transfer beside
  have large := beside.large
  have grown : target.size = (source.filled target).size + (target.size - source.size) := by
    simp only [filled]
    omega
  obtain ⟨after, extended, laid, untouched⟩ := Layout.extendFree_eq_ok
    (transferred.layout_filled layout beside) beside.targetPlaced rfl grown
  have start : (source.filled target).start = source.counterpart target source.start := by
    simp [filled, counterpart]
  rw [frees_moveBlock, start, lastOr_moved] at extended
  refine ⟨copied, after, ?_, transferred, laid, untouched, fun same => ?_, fun address unpatched => ?_⟩
  · simp only [copyBytes, relinked, bind, Except.bind]
    exact extended
  · have none : target.size - source.size = 0 := by omega
    rw [none, extendFree, if_pos rfl] at extended
    exact (Except.ok.inj extended).symm
  · have sourceAligned := beside.sourcePlaced.startAligned
    have targetAligned := beside.targetPlaced.startAligned
    have sizeAligned := beside.sourcePlaced.sizeAligned
    obtain ⟨_, lower, aligned, _⟩ := layout.lastOr_bounds layout.tiles
    simp only [blockUnit] at sourceAligned targetAligned sizeAligned
    refine read_extendFree extended ?_ ?_ unpatched.last unpatched.stop
    · simp only [counterpart]
      omega
    · simp only [filled, Slab.stop]
      omega

omit layout beside in
/-- Tags and length words of a copy are those of the object. -/
theorem alike_moved {final : Memory} (member : block ∈ blocks) (isObject : block.kind = .object)
    (layout : source.Layout heap.shapes memory blocks)
    (raw : ∀ address, block.Covers address →
      after.read (source.counterpart target address) = memory.read address)
    (adapted : source.Adapted target heap.shapes keepOwnership heap.identity copyIdentity memory
      final block) :
    (source.moveBlock target block).Alike heap.shapes after final := by
  obtain ⟨shape, known, describes⟩ := layout.object member isObject
  have bounds := layout.bounds member
  have covers (offset : Nat) (inside : offset < block.size) : block.Covers (block.start + offset) :=
    ⟨by omega, by simp only [Block.stop]; omega⟩
  have afterTag : after.tag (source.counterpart target block.start) = memory.tag block.start :=
    congrArg (fun word => (Header.ofWord word).tag) (raw _ (covers 0 (by omega)))
  have finalTag : final.tag (source.counterpart target block.start) = memory.tag block.start := by
    rw [Memory.tag, adapted.header]
    split
    · rfl
    · rfl
  refine ⟨finalTag.trans afterTag.symm, fun _ found foundKnown length listed => ?_⟩
  rw [moveBlock, afterTag] at foundKnown
  obtain rfl := Option.some.inj (known.symm.trans foundKnown)
  obtain ⟨aligned, lower, upper⟩ := describes.lengthInside length listed
  have place : (source.moveBlock target block).start + length.offset =
      source.counterpart target (block.start + length.offset) := by
    simp only [moveBlock, counterpart]
    omega
  rw [place, raw _ (covers _ (by omega))]
  refine adapted.same _ (by omega) (by simp only [Block.stop]; omega) ?_ fun isContext => ?_
  · intro other otherKnown offset slot inside
    obtain rfl := Option.some.inj (known.symm.trans otherKnown)
    obtain ⟨slotAligned, _, _, apart⟩ := describes.slotInside offset slot
    exact apart length listed (by omega)
  · have none := Shape.lengths_of_context (isContext ▸ known)
    simp [none] at listed

omit layout beside in
theorem moveBlock_covers (layout : source.Layout heap.shapes memory blocks)
    (member : block ∈ blocks) {address : Nat} (lower : source.start ≤ address) :
    (source.moveBlock target block).Covers (source.counterpart target address) ↔
      block.Covers address := by
  have bounds := layout.bounds member
  simp only [moveBlock, Block.Covers, Block.stop, counterpart]
  omega

/-- Where the bytes were copied, blocks in use have their words, and the slab still has its own. -/
theorem raw_of_transferred {copied : Memory}
    (transferred : source.Transferred target blocks memory copied)
    (untouched : target.Untouched copied machine.memory (blocks.map (source.moveBlock target))) :
    Raw source target blocks memory machine where
  same address lower upper := by
    have apart := beside.apart
    have large := beside.large
    simp only [Slab.Apart, Slab.stop] at apart upper
    rw [untouched.outside address (by simp only [Slab.stop]; omega),
      transferred.outside address (by omega)]
  used block member inUse address covers := by
    have lower : source.start ≤ address := by
      have bounds := layout.bounds member
      have := covers.1
      omega
    rw [untouched.blocks _ (List.mem_map_of_mem member) inUse _
      ((moveBlock_covers layout member lower).mpr covers)]
    exact transferred.used layout member inUse covers

omit layout in
/-- Copying a slab and adapting the objects duplicates it. -/
theorem Adapting.duplicated {mid final : Machine} {copied : Memory}
    (layout : source.Layout heap.shapes machine.memory blocks)
    (transferred : source.Transferred target blocks machine.memory copied)
    (laid : target.Layout heap.shapes mid.memory (Block.extend
      (blocks.map (source.moveBlock target)) (source.filled target).stop
        (target.size - source.size)))
    (untouched : target.Untouched copied mid.memory (blocks.map (source.moveBlock target)))
    (whole : target.size = source.size → mid.memory = copied) (steady : machine.Steady mid)
    (adapting : heap.Adapting source target blocks keepOwnership copyIdentity machine.memory mid
      final []) :
    heap.Duplicated source target blocks keepOwnership copyIdentity machine final := by
  have large := beside.large
  have raw := raw_of_transferred layout beside transferred untouched
  -- Adapting writes inside copies of objects alone.
  have elsewhere (address : Nat) (lower : source.start ≤ address)
      (clear : ∀ block ∈ blocks, block.kind = .object → ¬ block.Covers address) :
      final.memory.read (source.counterpart target address) =
        mid.memory.read (source.counterpart target address) :=
    adapting.outside _ fun block member isObject inside =>
      clear block member isObject ((moveBlock_covers layout member lower).mp inside)
  have bare : ∀ block ∈ blocks, block.kind = .bare → ∀ address, block.Covers address →
      final.memory.read (source.counterpart target address) =
        mid.memory.read (source.counterpart target address) := by
    intro block member isBare address covers
    have bounds := layout.bounds member
    refine elsewhere address (by have := covers.1; omega) fun other otherMember isObject inside => ?_
    have same := layout.tiles.eq_of_covers otherMember member inside covers
    simp [same, isBare] at isObject
  refine ⟨steady.trans adapting.steady, ?_, ?_, ?_, ?_, ?_⟩
  · refine laid.congr_used (fun address _ _ clear => ?_) fun moved member inUse => ?_
    · refine adapting.outside address fun block member isObject inside => ?_
      have inUse : (source.moveBlock target block).kind ≠ .free := by simp [moveBlock, isObject]
      exact clear _ ((Block.mem_extend inUse).mpr (List.mem_map_of_mem member)) inUse inside
    · obtain ⟨block, inBlocks, rfl⟩ := List.mem_map.mp ((Block.mem_extend inUse).mp member)
      cases kind : block.kind with
      | free => exact absurd kind inUse
      | object =>
          exact alike_moved inBlocks kind layout (raw.used block inBlocks (by simp [kind]))
            (adapting.adapted block inBlocks kind (by simp))
      | bare =>
          refine Kept.alike (fun address covers => ?_) (laid.fits _ member)
            (laid.bounds member).2.2.1
          have bounds := layout.bounds inBlocks
          have place : address = source.counterpart target
              (address - target.start + source.start) := by
            simp only [moveBlock, Block.Covers, Block.stop, counterpart] at *
            omega
          rw [place] at covers ⊢
          exact bare block inBlocks kind _ ((moveBlock_covers layout inBlocks (by omega)).mp covers)
  · exact fun block member isObject => adapting.adapted block member isObject (by simp)
  · intro block member isBare address covers
    rw [bare block member isBare address covers]
    exact raw.used block member (by simp [isBare]) address covers
  · intro same
    refine ⟨copied, transferred, fun address lower _ clear => ?_⟩
    rw [elsewhere address lower clear, whole same]
  · intro address outside
    rw [adapting.outside address fun block member isObject inside => ?_,
      untouched.outside address outside, transferred.outside address ?_]
    · simp only [Slab.stop] at outside
      omega
    · have bounds := layout.bounds member
      simp only [Slab.stop, counterpart] at *
      omega

omit layout in
/-- Copying a slab goes well; whether it is answered depends on what is copied in the place of the
context. -/
theorem run_copySlab {context : Context}
    (layout : source.Layout heap.shapes machine.memory blocks)
    (inside : source.start ≤ context.address ∧ context.address < source.stop) (keepOwnership : Bool)
    (copyIdentity : Nat) : ∃ copied final, source.Transferred target blocks machine.memory copied ∧
      heap.Duplicated source target blocks keepOwnership copyIdentity machine final ∧
      (∀ address, source.Unpatched target blocks address → (∀ block ∈ blocks, block.kind = .object →
        ¬ (source.moveBlock target block).Covers address) →
          final.memory.read address = copied.read address) ∧
      (heap.copySlab context copyIdentity source target keepOwnership).run machine =
        if final.memory.tag (source.counterpart target context.address) = Tag.context then
          .ok ⟨source.counterpart target context.address⟩ final
        else .error .contextExpected final := by
  obtain ⟨copied, after, ran, transferred, laid, untouched, whole, unpatched⟩ :=
    copyBytes_eq_ok layout beside
  have raw (event : Event) :
      Raw source target blocks machine.memory ((machine.logging event).withMemory after) :=
    raw_of_transferred layout beside transferred untouched
  obtain ⟨event, notes⟩ : ∃ event, (Action.note (.duplicating source.start source.size target.start
      target.size)).run machine = .ok () (machine.logging event) := ⟨_, rfl⟩
  have adapted : (source.foldObjects heap.shapes heap.scrutiny
      (fun _ object => heap.adaptCopy copyIdentity source target keepOwnership object) ()).Ensures
      ((machine.logging event).withMemory after) fun _ final => heap.Adapting source target blocks
        keepOwnership copyIdentity machine.memory ((machine.logging event).withMemory after) final [] :=
    ensures_adaptCopies layout beside (raw event)
  obtain ⟨_, final, adapts, adapting⟩ := adapted
  refine ⟨copied, final, transferred,
    adapting.duplicated beside layout transferred laid untouched whole (by exact ⟨rfl, rfl, rfl⟩),
    fun address clear elsewhere => ?_, ?_⟩
  · exact (adapting.outside address elsewhere).trans (unpatched address clear)
  have copies : (source.copyBytes target machine.memory : Action Memory).run (machine.logging event) =
      .ok after (machine.logging event) := by
    rw [ran]
    rfl
  have moves : (source.relocate target context.address : Action Nat).run final =
      .ok (source.counterpart target context.address) final := by
    rw [relocate_eq_ok beside context.address inside]
    rfl
  unfold copySlab
  rw [Action.run_bind notes, Action.run_bind (show Action.memory.run (machine.logging event) =
      .ok machine.memory (machine.logging event) from rfl), Action.run_bind copies,
    Action.run_bind (show (Action.onMemory fun _ => after).run (machine.logging event) =
      .ok () ((machine.logging event).withMemory after) from rfl), Action.run_bind adapts,
    Action.run_bind moves,
    Action.run_bind (show Action.memory.run final = .ok final.memory final from rfl)]
  split
  · rfl
  · rfl

omit layout in
/-- A context of the slab is copied with it. -/
theorem ensures_copySlab {context : Context}
    (layout : source.Layout heap.shapes machine.memory blocks) (member : block ∈ blocks)
    (isObject : block.kind = .object) (starts : block.start = context.address)
    (isContext : machine.memory.tag context.address = Tag.context) :
    (heap.copySlab context copyIdentity source target keepOwnership).Ensures machine
      fun copy final => copy = ⟨source.counterpart target context.address⟩ ∧
        heap.Duplicated source target blocks keepOwnership copyIdentity machine final := by
  have bounds := layout.bounds member
  obtain ⟨_, final, _, duplicated, _, ran⟩ := run_copySlab beside layout
    (show source.start ≤ context.address ∧ context.address < source.stop by omega) keepOwnership copyIdentity
  have header := (duplicated.adapted block member isObject).header
  have tag : final.memory.tag (source.counterpart target context.address) = Tag.context := by
    rw [← isContext, ← starts, Memory.tag, header]
    split
    · rfl
    · rfl
  rw [if_pos tag] at ran
  exact ⟨_, final, ran, rfl, duplicated⟩

end Objects

end Heap

end SlabHeap
