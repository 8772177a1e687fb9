import SlabHeap.Heap.Marking
import SlabHeap.Proofs.FrameChain
import SlabHeap.Proofs.Tiling
import SlabHeap.Proofs.Walk

namespace SlabHeap

/-! What keeps what alive.

`Heap.target?` is the object that marking finds behind a value, `Heap.keptValues` are the values that
an object keeps alive, and `Heap.Reach` is the closure of some roots under both. Nothing here depends
on how marking goes about it.
-/

theorem Memory.mem_words {memory : Memory} {address count : Nat} {word : UInt64} :
    word ∈ memory.words address count ↔ ∃ index < count, memory.read (address + 8 * index) = word := by
  simp [Memory.words]

namespace Heap

variable {heap : Heap} {machine : Machine} {memory after : Memory} {tiling : Slab → List Block}
  {object address size : Nat} {value : Value}

/-- The object that marking finds behind a value. -/
def target? (heap : Heap) (memory : Memory) (value : Value) : Option Nat :=
  value.address?.filter fun address =>
    if heap.features.validating then
      address % blockUnit = 0 ∧ heap.contains address ∧ (memory.header address).isValid
    else address ≠ 0

/-- The values that an object keeps alive: those in the linked frames of a context, and those in
strong slots. -/
def keptValues (heap : Heap) (machine : Machine) (object : Nat) : List Value :=
  let tag := machine.memory.tag object
  let saved := if tag = Tag.context then (Context.mk object).savedValues machine else []
  match heap.shapes.get? tag with
  | none => saved
  | some shape =>
      saved ++ (machine.memory.words (object + shape.strong.offset)
        (shape.strong.slotCount machine.memory object)).map Value.mk

/-- Marking takes a reference to an object for what it is, where it does not check or the object is
valid. -/
theorem Tiled.target?_eq_some {block : Block} (tiled : heap.Tiled machine.memory tiling)
    (member : block ∈ heap.blocks tiling)
    (valid : heap.features.validating = true →
      (machine.memory.header block.start).isValid = true)
    (refers : value.address? = some block.start) :
    heap.target? machine.memory value = some block.start := by
  obtain ⟨positive, aligned, _⟩ := tiled.bounds member
  have inHeap := tiled.contains member
  have present : block.start ≠ 0 := by omega
  have unit : block.start % blockUnit = 0 := aligned
  cases validating : heap.features.validating with
  | false => simp [target?, refers, Option.filter_some, validating, present]
  | true => simp [target?, refers, Option.filter_some, validating, inHeap, valid validating, unit]

/-- What can be reached from some roots through objects of a kind. -/
inductive Reach (heap : Heap) (machine : Machine) (passable : Nat → Prop) (roots : List Value) :
    Nat → Prop
  | root {value : Value} {object : Nat} (listed : value ∈ roots)
      (found : heap.target? machine.memory value = some object) (passes : passable object) :
      Reach heap machine passable roots object
  | kept {owner object : Nat} {value : Value} (reached : Reach heap machine passable roots owner)
      (held : value ∈ heap.keptValues machine owner)
      (found : heap.target? machine.memory value = some object) (passes : passable object) :
      Reach heap machine passable roots object

/-- Storage in use starts at the address. -/
def Node (heap : Heap) (tiling : Slab → List Block) (address : Nat) : Prop :=
  ∃ block ∈ heap.blocks tiling, block.kind ≠ .free ∧ block.start = address

theorem Object.node (isObject : heap.Object tiling address) : heap.Node tiling address := by
  obtain ⟨block, member, kind, starts⟩ := isObject
  exact ⟨block, member, by simp [kind], starts⟩

theorem address?_of_target? (found : heap.target? memory value = some object) :
    value.address? = some object := by
  rw [target?, Option.filter_eq_some_iff] at found
  exact found.1

theorem mem_keptValues : value ∈ heap.keptValues machine object ↔
    (machine.memory.tag object = Tag.context ∧ ∃ frame,
      machine.Linked ((Context.mk object).saves machine.memory) frame ∧ value ∈ frame.values) ∨
    ∃ shape, heap.shapes.get? (machine.memory.tag object) = some shape ∧ ∃ offset,
      shape.StrongSlot machine.memory object offset ∧
        machine.memory.value (object + offset) = value := by
  have saved : value ∈ (if machine.memory.tag object = Tag.context then
      (Context.mk object).savedValues machine else []) ↔
        machine.memory.tag object = Tag.context ∧ ∃ frame,
          machine.Linked ((Context.mk object).saves machine.memory) frame ∧
            value ∈ frame.values := by
    split
    · next isContext => simp [isContext, Context.mem_savedValues]
    · next other => simp [other]
  simp only [keptValues]
  cases known : heap.shapes.get? (machine.memory.tag object) with
  | none => simp [saved]
  | some shape =>
      simp only [List.mem_append, saved, List.mem_map, Memory.mem_words, Shape.StrongSlot,
        Memory.value, wordBytes, Option.some.injEq, exists_eq_left']
      refine or_congr_right ⟨?_, ?_⟩
      · rintro ⟨_, ⟨index, inside, rfl⟩, rfl⟩
        exact ⟨_, ⟨index, inside, rfl⟩, by rw [Nat.add_assoc]⟩
      · rintro ⟨_, ⟨index, inside, rfl⟩, rfl⟩
        exact ⟨_, ⟨index, inside, rfl⟩, by rw [Nat.add_assoc]⟩

theorem slot_keptValues {shape : Shape} {offset : Nat}
    (known : heap.shapes.get? (machine.memory.tag object) = some shape)
    (strong : shape.StrongSlot machine.memory object offset) :
    machine.memory.value (object + offset) ∈ heap.keptValues machine object :=
  mem_keptValues.mpr (.inr ⟨shape, known, offset, strong, rfl⟩)

theorem saved_keptValues {frame : Frame} (isContext : machine.memory.tag object = Tag.context)
    (linked : machine.Linked ((Context.mk object).saves machine.memory) frame)
    (held : value ∈ frame.values) : value ∈ heap.keptValues machine object :=
  mem_keptValues.mpr (.inl ⟨isContext, frame, linked, held⟩)

theorem ensures_resolve (value : Value) :
    (heap.resolve value).Ensures machine fun answer after =>
      answer = heap.target? machine.memory value ∧ machine.Quiet after := by
  -- Whatever fails a check is noted and leads nowhere.
  have refused (notice : Notice) (nothing : heap.target? machine.memory value = none) :
      Action.Ensures (do Action.note notice; return none) machine fun answer after =>
        answer = heap.target? machine.memory value ∧ machine.Quiet after := by
    rw [Action.ensures_note, Action.ensures_pure]
    exact ⟨nothing.symm, machine.quiet_logging _⟩
  cases found : value.address? with
  | none =>
      simp only [resolve, found]
      exact Action.ensures_pure.mpr ⟨by simp [target?, found], .refl machine⟩
  | some address =>
      simp only [resolve, found]
      cases validating : heap.features.validating with
      | false =>
          simp only [Bool.false_eq_true, if_false]
          split
          · next null =>
            exact Action.ensures_pure.mpr
              ⟨by simp [target?, found, validating, null, Option.filter_some], .refl machine⟩
          · next present =>
            exact Action.ensures_pure.mpr
              ⟨by simp [target?, found, validating, present, Option.filter_some], .refl machine⟩
      | true =>
          simp only [if_true]
          split
          · next misaligned =>
            exact refused _ (by simp [target?, found, validating, misaligned, Option.filter_some])
          split
          · next foreign =>
            exact refused _ (by simp [target?, found, validating, foreign, Option.filter_some])
          rw [Action.ensures_memory]
          split
          · next valid =>
            refine Action.ensures_pure.mpr ⟨?_, .refl machine⟩
            simp_all [target?, Option.filter_some]
          · next invalid =>
            exact refused _ (by simp [target?, found, validating, invalid, Option.filter_some])

/-- The strong slots of an object that fits its block can be read. -/
theorem strongValues_eq {shape : Shape} (describes : shape.Describes memory object size) :
    shape.strongValues memory object = .ok ((memory.words (object + shape.strong.offset)
      (shape.strong.slotCount memory object)).map Value.mk) := by
  simp only [Shape.strongValues, describes.strongSlots, bind, Except.bind, Memory.slotValues]
  split
  · next empty => simp [empty, Memory.words]
  · next nonempty =>
    have slot := (describes.slotInside shape.strong.offset
      (.inl ⟨0, Nat.pos_of_ne_zero nonempty, rfl⟩)).1
    simp [slot]

/-- What an object of a known shape keeps alive is read without a notice. -/
theorem run_children {shape : Shape} (known : heap.shapes.get? (machine.memory.tag object) = some shape)
    (describes : shape.Describes machine.memory object size) :
    (heap.children object).run machine = .ok (heap.keptValues machine object) machine := by
  unfold children keptValues
  rw [Action.run_bind (show EStateM.run get machine = .ok machine machine from rfl)]
  simp only [known, strongValues_eq describes]
  rfl

theorem ensures_children (described : ∀ shape,
    heap.shapes.get? (machine.memory.tag object) = some shape →
      shape.Describes machine.memory object size) :
    (heap.children object).Ensures machine fun answer after =>
      answer = heap.keptValues machine object ∧ machine.Quiet after := by
  cases known : heap.shapes.get? (machine.memory.tag object) with
  | none =>
      unfold children keptValues
      rw [Action.ensures_get]
      simp only [known]
      refine ensures_reportBadObject.bind fun _ after quiet => ?_
      exact Action.ensures_pure.mpr ⟨rfl, quiet⟩
  | some shape => exact ⟨_, _, run_children known (described shape known), rfl, .refl machine⟩

end Heap

end SlabHeap
