import SlabHeap.Memory.Bytes
import SlabHeap.Proofs.Alterations
import SlabHeap.Proofs.Enduring

namespace SlabHeap

/-! Reading in parallel heaps.

What a reference to an object of a heap is read by finds in a parallel heap what corresponds: the object at its
place, `Heap.Parallel.objectOf?_eq`, in its slots values that were carried along, and elsewhere the same lengths
and bytes.
-/

open Block

namespace Heap

variable {heap copy : Heap} {machine image : Machine} {links : List (Nat × Nat)}
  {tiling copied : Slab → List Block} {block : Block} {value : Value} {context : Context} {shape : Shape}
  {tag : UInt8} {offset object : Nat}

theorem Tiled.objectOf?_eq {memory : Memory} (tiled : heap.Tiled memory tiling)
    (refers : heap.RefersToObject tiling value) (tag : UInt8) :
    heap.objectOf? memory tag value = value.address?.filter fun object => memory.tag object = tag := by
  cases found : value.address? with
  | none => simp only [objectOf?, object?, found, Option.bind_eq_bind, Option.bind_none, Option.filter_none]
  | some object =>
      obtain ⟨block, member, isObject, rfl⟩ := refers object found
      obtain ⟨_, _, rfl⟩ := Value.eq_reference found
      rw [tiled.objectOf?_reference tag member isObject, Option.filter_some]
      simp only [decide_eq_true_eq]

namespace Parallel

variable (parallel : heap.Parallel copy links tiling copied machine image)

include parallel

theorem address?_carry (refers : heap.RefersToObject tiling value) :
    (heap.carry copy value).address? = value.address?.map (heap.place copy) :=
  parallel.mirrors.address?_eq parallel.upheld.tiled refers

theorem tag_eq (isObject : heap.Object tiling object) :
    image.memory.tag (heap.place copy object) = machine.memory.tag object := by
  obtain ⟨block, member, kind, rfl⟩ := isObject
  exact (parallel.objects block member kind).imaged.tag

/-- What a value refers to in the copy is at the place of what it refers to in the heap. -/
theorem objectOf?_eq (refers : heap.RefersToObject tiling value) (tag : UInt8) :
    copy.objectOf? image.memory tag (heap.carry copy value) =
      (heap.objectOf? machine.memory tag value).map (heap.place copy) := by
  rw [parallel.upheld.tiled.objectOf?_eq refers, parallel.copyUpheld.tiled.objectOf?_eq (parallel.refers refers),
    parallel.address?_carry refers]
  cases found : value.address? with
  | none => rfl
  | some object =>
      rw [Option.map_some, Option.filter_some, Option.filter_some, parallel.tag_eq (refers object found)]
      split <;> rfl

/-- Slots that stand for each other hold values that do. -/
theorem value_eq (isObject : heap.Object tiling object)
    (known : heap.shapes.get? (machine.memory.tag object) = some shape)
    (slot : shape.Slot machine.memory object offset) :
    image.memory.value (heap.place copy object + offset) = heap.carry copy (machine.memory.value (object + offset)) := by
  obtain ⟨block, member, kind, rfl⟩ := isObject
  exact (parallel.objects block member kind).imaged.slots shape known offset slot

theorem length_eq {length : LengthField} (isObject : heap.Object tiling object)
    (known : heap.shapes.get? (machine.memory.tag object) = some shape) (listed : length ∈ shape.lengths) :
    image.memory.value (heap.place copy object + length.offset) = machine.memory.value (object + length.offset) := by
  obtain ⟨block, member, kind, rfl⟩ := isObject
  exact congrArg Value.mk (parallel.mirrors.lengths parallel.upheld.tiled member kind known length listed)

/-- A field that is a slot of the type holds what corresponds. -/
theorem fieldOf?_eq (refers : heap.RefersToObject tiling value) (known : heap.shapes.get? tag = some shape)
    (slot : ∀ memory object, shape.Slot memory object offset) :
    copy.fieldOf? image.memory tag offset (heap.carry copy value) =
      (heap.fieldOf? machine.memory tag offset value).map (heap.carry copy) := by
  simp only [fieldOf?, fieldAddress?, parallel.objectOf?_eq refers]
  cases found : heap.objectOf? machine.memory tag value with
  | none => rfl
  | some object =>
      obtain ⟨leads, tagged⟩ := Upheld.objectOf?_eq_some found
      exact congrArg some (parallel.value_eq (refers object leads) (tagged.symm ▸ known) (slot _ _))

theorem vectorLength?_eq (refers : heap.RefersToObject tiling value)
    (known : heap.shapes.get? Tag.vector = some .vector) :
    copy.vectorLength? image.memory (heap.carry copy value) = heap.vectorLength? machine.memory value := by
  simp only [vectorLength?, fieldOf?, fieldAddress?, parallel.objectOf?_eq refers]
  cases found : heap.objectOf? machine.memory Tag.vector value with
  | none => rfl
  | some object =>
      obtain ⟨leads, tagged⟩ := Upheld.objectOf?_eq_some found
      have same := parallel.length_eq (refers object leads) (tagged.symm ▸ known)
        (show (⟨Layout.Sequence.length, wordBytes⟩ : LengthField) ∈ Shape.vector.lengths by decide)
      simp only [Option.map_some, Option.bind_eq_bind, Option.bind_some, same]

/-- Elements of vectors that stand for each other are in slots that do. -/
theorem elementAddress?_alike (refers : heap.RefersToObject tiling value)
    (known : heap.shapes.get? Tag.vector = some .vector) (index : Nat) :
    (∃ fault, heap.elementAddress? machine.memory value index = .error fault ∧
      copy.elementAddress? image.memory (heap.carry copy value) index = .error fault) ∨
    (heap.elementAddress? machine.memory value index = .ok none ∧
      copy.elementAddress? image.memory (heap.carry copy value) index = .ok none) ∨
    ∃ object offset, heap.Object tiling object ∧ machine.memory.tag object = Tag.vector ∧
      Shape.vector.Slot machine.memory object offset ∧
      heap.elementAddress? machine.memory value index = .ok (some (object + offset)) ∧
      copy.elementAddress? image.memory (heap.carry copy value) index =
        .ok (some (heap.place copy object + offset)) := by
  have inSlot {address : Nat} (found : heap.elementAddress? machine.memory value index = .ok (some address)) :=
    parallel.upheld.slot_of_elementAddress? (fun _ isObject => isObject.node) parallel.isSealed.counted refers known
      found
  simp only [elementAddress?, parallel.objectOf?_eq refers, parallel.vectorLength?_eq refers known] at inSlot ⊢
  cases found : heap.objectOf? machine.memory Tag.vector value with
  | none => exact .inr (.inl ⟨rfl, rfl⟩)
  | some object =>
      obtain ⟨leads, tagged⟩ := Upheld.objectOf?_eq_some found
      cases counts : heap.vectorLength? machine.memory value with
      | none => exact .inr (.inl ⟨rfl, rfl⟩)
      | some length =>
          simp only [found, counts, Option.map_some] at inSlot ⊢
          by_cases inside : index < length
          · simp only [inside, if_true] at inSlot ⊢
            simp only [Size.mul, Size.add] at inSlot ⊢
            by_cases product : index * wordBytes < Size.limit
            · by_cases sum : Layout.Sequence.contents + index * wordBytes < Size.limit
              · simp only [product, sum, if_true, bind, Except.bind, pure, Except.pure] at inSlot ⊢
                obtain ⟨owner, _, ownerTagged, slot, same⟩ := inSlot rfl
                obtain rfl := Nat.add_right_cancel same
                exact .inr (.inr ⟨object, _, refers object leads, tagged, slot, rfl, rfl⟩)
              · simp [product, sum, bind, Except.bind]
            · simp [product, bind, Except.bind]
          · exact .inr (.inl ⟨by rw [if_neg inside]; rfl, by rw [if_neg inside]; rfl⟩)

theorem vectorRef?_eq (refers : heap.RefersToObject tiling value)
    (known : heap.shapes.get? Tag.vector = some .vector) (index : Nat) :
    copy.vectorRef? image.memory (heap.carry copy value) index =
      (heap.vectorRef? machine.memory value index).map (Option.map (heap.carry copy)) := by
  unfold vectorRef?
  rcases parallel.elementAddress?_alike refers known index with
    ⟨fault, fails, copyFails⟩ | ⟨none, copyNone⟩ | ⟨object, offset, isObject, tagged, slot, found, copyFound⟩
  · rw [fails, copyFails]
    rfl
  · rw [none, copyNone]
    rfl
  · rw [found, copyFound]
    exact congrArg (Except.ok ∘ some) (parallel.value_eq isObject (tagged.symm ▸ known) slot)

theorem bytes?_eq (refers : heap.RefersToObject tiling value) (known : heap.shapes.get? Tag.bytes = some .bytes) :
    copy.bytes? image.memory (heap.carry copy value) = heap.bytes? machine.memory value := by
  simp only [bytes?, parallel.objectOf?_eq refers]
  cases found : heap.objectOf? machine.memory Tag.bytes value with
  | none => rfl
  | some object =>
      obtain ⟨leads, tagged⟩ := Upheld.objectOf?_eq_some found
      have isObject := refers object leads
      have same := parallel.length_eq isObject (tagged.symm ▸ known)
        (show (⟨Layout.Sequence.length, 1⟩ : LengthField) ∈ Shape.bytes.lengths by decide)
      simp only [Option.map_some, Option.bind_eq_bind, Option.bind_some, same]
      cases counts : (machine.memory.value (object + Layout.Sequence.length)).toInt? with
      | none => rfl
      | some length =>
          obtain ⟨block, member, kind, rfl⟩ := isObject
          have knownHere : heap.shapes.get? (machine.memory.tag block.start) = some .bytes := tagged.symm ▸ known
          have bounds := parallel.upheld.tiled.bounds member
          have placed := parallel.mirrors.places.aligned block.start (parallel.upheld.tiled.contains member)
          have describes := (parallel.upheld.tiled.describes member (by simp [kind]) knownHere).2
          have stored : Shape.stored machine.memory block.start = length.toNat := by
            simp only [Shape.stored, counts, Option.getD_some]
          obtain ⟨large, whole, small⟩ := Shape.byteCount_le describes.sized
          rw [Shape.byteCount_bytes, stored] at large
          simp only [Size.saturate, Size.limit, Layout.Sequence.contents] at large small
          refine congrArg some (List.map_congr_left fun index listed => ?_)
          have inside := List.mem_range.mp listed
          have words := (parallel.objects block member kind).imaged.words .bytes knownHere
            (Layout.Sequence.contents + index)
          simp only [Layout.Sequence.contents] at words ⊢
          rw [Nat.add_assoc, Nat.add_assoc, Memory.readByte, Memory.readByte, words (by omega) (by omega)
            (fun isContext => by simp [tagged, Tag.bytes, Tag.context] at isContext)
            (fun _ slot => absurd slot Shape.not_slot_bytes)]
          congr 1
          omega

theorem environment_eq (isObject : heap.Object tiling context.address)
    (isContext : machine.memory.tag context.address = Tag.context) :
    (heap.carryContext copy context).environment image.memory =
      heap.carry copy (context.environment machine.memory) := by
  have known : heap.shapes.get? (machine.memory.tag context.address) = some .context := isContext.symm ▸ rfl
  exact parallel.value_eq isObject known (Shape.slot_context.mpr (.inr rfl))

theorem parent?_eq (isObject : heap.Object tiling context.address)
    (isContext : machine.memory.tag context.address = Tag.context) :
    ((heap.carryContext copy context).parent? image.memory).map Context.toValue =
      ((context.parent? machine.memory).map Context.toValue).map (heap.carry copy) := by
  have known : heap.shapes.get? (machine.memory.tag context.address) = some .context := isContext.symm ▸ rfl
  have slot : Shape.context.Slot machine.memory context.address Layout.Context.parent :=
    Shape.slot_context.mpr (.inl rfl)
  have refers : heap.RefersToObject tiling (machine.memory.value (context.address + Layout.Context.parent)) := by
    obtain ⟨block, member, kind, starts⟩ := isObject
    rw [← starts] at known slot ⊢
    exact (parallel.upheld.objects block member kind).slots _ known _ (.inl (slot.strong rfl))
  have same := parallel.value_eq isObject known slot
  simp only [Context.parent?, carryContext, same, parallel.address?_carry refers]
  cases found : (machine.memory.value (context.address + Layout.Context.parent)).address? with
  | none => rfl
  | some address =>
      have inHeap := refers address found
      have positive {heap : Heap} {tiling : Slab → List Block} {memory : Memory} {address : Nat}
          (tiled : heap.Tiled memory tiling) (isObject : heap.Object tiling address) : ∃ before, address = before + 1 := by
        obtain ⟨block, member, _, rfl⟩ := isObject
        have bounds := tiled.bounds member
        exact ⟨block.start - 1, by omega⟩
      obtain ⟨before, isNext⟩ := positive parallel.upheld.tiled inHeap
      obtain ⟨copyBefore, copyNext⟩ := positive parallel.copyUpheld.tiled (parallel.mirrors.object inHeap)
      have tag := parallel.tag_eq inHeap
      simp only [Option.map_some]
      rw [copyNext] at tag ⊢
      subst isNext
      simp only [tag]
      split
      · have carried := parallel.carry_toValue (show heap.Object tiling (Context.mk (before + 1)).address from inHeap)
        simp only [carryContext, copyNext] at carried
        exact congrArg some carried.symm
      · rfl

end Parallel

end Heap

end SlabHeap
