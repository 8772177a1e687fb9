import SlabHeap.Proofs.Accounts
import SlabHeap.Proofs.Store

namespace SlabHeap

/-! Heaps that depict stores.

A heap depicts a store if each object that is known to the program has an address, where the words are
those of its record: `Store.Depicts`. Then the heap answers as the store replies, `Store.Depicts.reads`,
and what can be reached in the store can be reached in the heap, `Store.Depicts.reachable`.
-/

open Block

/-- The frames of a context keep their links. -/
def Machine.KeepsLinks (machine final : Machine) (context : Context) : Prop :=
  ∀ number frame, machine.frame? number = some frame → frame.linked = true → frame.context = context →
    ∃ changed, final.frame? number = some changed ∧ changed.linked = frame.linked ∧
      changed.context = frame.context ∧ changed.outer = frame.outer

theorem Machine.KeepsLinks.of_frames {machine final : Machine} {context : Context}
    (same : final.frames = machine.frames) : machine.KeepsLinks final context :=
  fun number frame found _ _ => ⟨frame, (frame?_congr same number).trans found, rfl, rfl, rfl⟩

/-- The object in a block keeps its tag, and the words behind its header. -/
structure Block.Stays (block : Block) (memory after : Memory) : Prop where
  tag : after.tag block.start = memory.tag block.start
  words : ∀ address, block.start + 8 ≤ address → address < block.stop →
    after.read address = memory.read address

namespace Block.Stays

variable {block : Block} {memory after : Memory}

theorem refl (block : Block) (memory : Memory) : block.Stays memory memory := ⟨rfl, fun _ _ _ => rfl⟩

theorem of_kept (large : 8 ≤ block.size) (kept : block.Kept memory after) : block.Stays memory after where
  tag := by
    have start : block.Covers block.start := ⟨Nat.le_refl _, by simp only [Block.stop]; omega⟩
    rw [Memory.tag, Memory.header, kept block.start start]
    rfl
  words address lower upper := kept address ⟨by omega, upper⟩

theorem of_write {address : Nat} {word : UInt64} (aligned : address % 8 = 0) (whole : block.start % 8 = 0)
    (large : 8 ≤ block.size) (outside : address + 8 ≤ block.start ∨ block.stop ≤ address) :
    block.Stays memory (memory.write address word) where
  tag := by
    rw [Memory.tag, Memory.header, Memory.read_write_ne]
    · rfl
    · simp only [Block.stop] at outside
      omega
  words other lower upper := by
    rw [Memory.read_write_ne]
    simp only [Block.stop] at *
    omega

end Block.Stays

namespace Record

variable {names others : Nat → Nat} {machine final : Machine} {address size : Nat} {record : Record}
  {shapes : ShapeTable}

/-- The words behind the header, and the frames, are those of the record. -/
def Holds (names : Nat → Nat) (machine : Machine) (address : Nat) : Record → Prop
  | context parent environment frames =>
      machine.memory.value (address + Layout.Context.parent) = parent.value names ∧
      machine.memory.value (address + Layout.Context.environment) = environment.value names ∧
      machine.Chained ⟨address⟩ ((Context.mk address).saves machine.memory) frames
  | pair car cdr =>
      machine.memory.value (address + Layout.Pair.car) = car.value names ∧
      machine.memory.value (address + Layout.Pair.cdr) = cdr.value names
  | vector elements =>
      elements.length < 0x4000000000000000 ∧
      machine.memory.read (address + Layout.Sequence.length) = (Value.fixnum elements.length).bits ∧
      ∀ (index : Nat) (datum : Datum), elements[index]? = some datum →
        machine.memory.value (address + (Layout.Sequence.contents + index * wordBytes)) =
          datum.value names
  | bytes contents =>
      contents.length < 0x4000000000000000 ∧
      machine.memory.read (address + Layout.Sequence.length) = (Value.fixnum contents.length).bits ∧
      machine.memory.readBytes (address + Layout.Sequence.contents) contents.length = contents

/-- The object at the address is that of the record. -/
structure Shown (record : Record) (names : Nat → Nat) (machine : Machine) (address : Nat) : Prop where
  tag : machine.memory.tag address = record.tag
  holds : record.Holds names machine address

def extent : Record → Nat
  | context _ _ _ => Layout.Context.size
  | pair _ _ => Layout.Pair.size
  | vector elements => Layout.Sequence.contents + elements.length * wordBytes
  | bytes contents => Layout.Sequence.contents + contents.length

theorem known (standard : shapes.Extends) (record : Record) :
    shapes.get? record.tag = some record.shape := by
  cases record with
  | context => rfl
  | pair => exact standard _ _ rfl
  | vector => exact standard _ _ rfl
  | bytes => exact standard _ _ rfl

theorem eq_context (same : record.tag = Tag.context) :
    ∃ parent environment frames, record = context parent environment frames := by
  cases record with
  | context parent environment frames => exact ⟨_, _, _, rfl⟩
  | pair | vector | bytes => cases same

theorem eq_pair (same : record.tag = Tag.pair) : ∃ car cdr, record = pair car cdr := by
  cases record with
  | pair car cdr => exact ⟨_, _, rfl⟩
  | context | vector | bytes => cases same

theorem eq_vector (same : record.tag = Tag.vector) : ∃ elements, record = vector elements := by
  cases record with
  | vector elements => exact ⟨_, rfl⟩
  | context | pair | bytes => cases same

theorem eq_bytes (same : record.tag = Tag.bytes) : ∃ contents, record = bytes contents := by
  cases record with
  | bytes contents => exact ⟨_, rfl⟩
  | context | pair | vector => cases same

theorem part?_eq_none (other : record.tag ≠ Tag.pair) (part : Part) : record.part? part = none := by
  cases record with
  | pair => exact absurd rfl other
  | context | vector | bytes => rfl

theorem elements?_eq_none (other : record.tag ≠ Tag.vector) : record.elements? = none := by
  cases record with
  | vector => exact absurd rfl other
  | context | pair | bytes => rfl

theorem contents?_eq_none (other : record.tag ≠ Tag.bytes) : record.contents? = none := by
  cases record with
  | bytes => exact absurd rfl other
  | context | pair | vector => rfl

theorem weak_eq_none (record : Record) : record.shape.weak = none := by
  cases record <;> rfl

theorem extent_le (shown : record.Shown names machine address)
    (describes : record.shape.Describes machine.memory address size) : record.extent ≤ size := by
  obtain ⟨large, _, small⟩ := Shape.byteCount_le describes.sized
  cases record with
  | context => exact large
  | pair => exact large
  | vector elements =>
      obtain ⟨few, length, _⟩ := shown.holds
      have stored : Shape.stored machine.memory address = elements.length :=
        Order.stored_fixnum few length
      change Shape.vector.size.byteCount machine.memory address ≤ size at large
      rw [Shape.byteCount_vector, stored] at large
      simp only [extent, Size.saturate, Layout.Sequence.contents, wordBytes, Size.limit] at *
      omega
  | bytes contents =>
      obtain ⟨few, length, _⟩ := shown.holds
      have stored : Shape.stored machine.memory address = contents.length :=
        Order.stored_fixnum few length
      change Shape.bytes.size.byteCount machine.memory address ≤ size at large
      rw [Shape.byteCount_bytes, stored] at large
      simp only [extent, Size.saturate, Layout.Sequence.contents, Size.limit] at *
      omega

theorem Shown.slot {datum : Datum} (shown : record.Shown names machine address)
    (listed : datum ∈ record.data) : ∃ offset,
      record.shape.StrongSlot machine.memory address offset ∧
        machine.memory.value (address + offset) = datum.value names := by
  obtain ⟨offset, slot, held⟩ : ∃ offset, record.shape.Slot machine.memory address offset ∧
      machine.memory.value (address + offset) = datum.value names := by
    cases record with
    | context parent environment frames =>
        cases List.mem_cons.mp listed with
        | inl same => exact ⟨_, Shape.slot_context.mpr (.inl rfl), same ▸ shown.holds.1⟩
        | inr last =>
            obtain rfl := List.mem_singleton.mp last
            exact ⟨_, Shape.slot_context.mpr (.inr rfl), shown.holds.2.1⟩
    | pair car cdr =>
        cases List.mem_cons.mp listed with
        | inl same => exact ⟨_, Shape.slot_pair.mpr (.inl rfl), same ▸ shown.holds.1⟩
        | inr last =>
            obtain rfl := List.mem_singleton.mp last
            exact ⟨_, Shape.slot_pair.mpr (.inr rfl), shown.holds.2⟩
    | vector elements =>
        obtain ⟨few, length, held⟩ := shown.holds
        obtain ⟨index, found⟩ := List.mem_iff_getElem?.mp listed
        have inside : index < elements.length := (List.getElem?_eq_some_iff.mp found).1
        refine ⟨_, Shape.slot_vector.mpr ⟨index, ?_, rfl⟩, ?_⟩
        · rw [Order.stored_fixnum few length]
          simp only [Size.saturate, Size.limit]
          omega
        · rw [Nat.mul_comm wordBytes index]
          exact held index datum found
    | bytes contents => cases listed
  exact ⟨offset, slot.strong record.weak_eq_none, held⟩

/-- An object stays that of its record while its words and the links of its frames do. -/
theorem Shown.keep (shown : record.Shown names machine address) (large : record.extent ≤ size)
    (stays : Block.Stays ⟨address, size, .object⟩ machine.memory final.memory)
    (links : machine.KeepsLinks final ⟨address⟩) : record.Shown names final address := by
  have value {offset : Nat} (lower : 8 ≤ offset) (upper : offset + 8 ≤ record.extent) :
      final.memory.value (address + offset) = machine.memory.value (address + offset) := by
    have same := stays.words (address + offset) (Nat.add_le_add_left lower _)
      (by simp only [Block.stop]; omega)
    rw [Memory.value, same]
    rfl
  obtain ⟨tag, holds⟩ := shown
  refine ⟨stays.tag.trans tag, ?_⟩
  cases record with
  | context parent environment frames =>
      obtain ⟨parentHeld, environmentHeld, chained⟩ := holds
      simp only [extent, Layout.Context.size] at value large
      refine ⟨?_, ?_, ?_⟩
      · rw [value (by decide) (by decide), parentHeld]
      · rw [value (by decide) (by decide), environmentHeld]
      · have link : (Context.mk address).saves final.memory =
            (Context.mk address).saves machine.memory := by
          refine congrArg UInt64.toNat (stays.words _ ?_ ?_)
          · simp only [Layout.Context.saves]
            omega
          · simp only [Layout.Context.saves, Block.stop]
            omega
        rw [link]
        refine chained.change fun number member frame found => ?_
        obtain ⟨_, same, linked, owned⟩ := chained.present member
        obtain rfl := Option.some.inj (found.symm.trans same)
        exact links number frame found linked owned
  | pair car cdr =>
      simp only [extent, Layout.Pair.size] at value
      refine ⟨?_, ?_⟩
      · rw [value (by decide) (by decide), holds.1]
      · rw [value (by decide) (by decide), holds.2]
  | vector elements =>
      obtain ⟨few, length, held⟩ := holds
      simp only [extent, Layout.Sequence.contents, wordBytes] at value large
      refine ⟨few, ?_, fun index datum listed => ?_⟩
      · rw [← length]
        refine stays.words _ ?_ ?_
        · simp only [Layout.Sequence.length]
          omega
        · simp only [Layout.Sequence.length, Block.stop]
          omega
      · have inside := (List.getElem?_eq_some_iff.mp listed).1
        rw [← held index datum listed]
        exact value (by simp only [Layout.Sequence.contents]; omega)
          (by simp only [Layout.Sequence.contents, wordBytes]; omega)
  | bytes contents =>
      obtain ⟨few, length, held⟩ := holds
      simp only [extent, Layout.Sequence.contents] at large
      refine ⟨few, ?_, ?_⟩
      · rw [← length]
        refine stays.words _ ?_ ?_
        · simp only [Layout.Sequence.length]
          omega
        · simp only [Layout.Sequence.length, Block.stop]
          omega
      · rw [← held]
        simp only [List.length_map, Memory.readBytes, List.length_range]
        refine List.map_congr_left fun index listed => ?_
        have inside := List.mem_range.mp listed
        rw [Memory.readByte, Memory.readByte, stays.words]
        · simp only [Layout.Sequence.contents]
          omega
        · simp only [Layout.Sequence.contents, Block.stop]
          omega

/-- Addresses of other objects make no difference. -/
theorem Shown.rename (shown : record.Shown names machine address)
    (same : ∀ datum ∈ record.data, datum.value others = datum.value names) :
    record.Shown others machine address := by
  obtain ⟨tag, holds⟩ := shown
  refine ⟨tag, ?_⟩
  cases record with
  | context parent environment frames =>
      refine ⟨?_, ?_, holds.2.2⟩
      · rw [same parent (by simp [data])]
        exact holds.1
      · rw [same environment (by simp [data])]
        exact holds.2.1
  | pair car cdr =>
      refine ⟨?_, ?_⟩
      · rw [same car (by simp [data])]
        exact holds.1
      · rw [same cdr (by simp [data])]
        exact holds.2
  | vector elements =>
      refine ⟨holds.1, holds.2.1, fun index datum listed => ?_⟩
      rw [same datum (List.mem_of_getElem? listed)]
      exact holds.2.2 index datum listed
  | bytes contents => exact holds

end Record

/-- A value that is found under an index of a frame is held by it. -/
theorem Frame.WellFormed.mem_values {frame : Frame} (wellFormed : frame.WellFormed) {index : Nat}
    {value : Value} (inside : index < frame.size) (got : frame.get index = .ok value) :
    value ∈ frame.values := by
  obtain ⟨few, spill⟩ := wellFormed
  simp only [Frame.get] at got
  simp only [Frame.values, List.mem_append]
  split at got
  · next fits =>
    cases got
    have used : index < frame.used := by
      by_cases room : frame.used < 16
      · simpa [Frame.size, spill room] using inside
      · omega
    refine .inl (List.mem_iff_getElem?.mpr ⟨index, ?_⟩)
    simp [used, fits]
  · split at got
    · next held =>
      cases got
      exact .inr (by simp)
    · cases got

/-- A frame has the context, the values and the links of the saving. -/
structure Saving.Shown (saving : Saving) (names : Nat → Nat) (frame : Frame) : Prop where
  context : frame.context = ⟨names saving.context⟩
  wellFormed : frame.WellFormed
  size : frame.size = saving.size
  linked : frame.linked = true ↔ saving.size ≠ 0
  slots : ∀ index, saving.Has index → frame.get index = .ok ((saving.slots index).value names)

/-- What the requests of a program have shown of a heap is as in a store that never reclaims anything.
Objects that are `known` have addresses of their own. -/
structure Store.Depicts (store : Store) (known : Nat → Prop) (names : Nat → Nat) (heap : Heap)
    (machine : Machine) (entries : List Block) : Prop where
  accounted : ∃ tiling, heap.Accounted tiling machine entries
  orderly : machine.Orderly
  standard : heap.shapes.Extends
  scratch : heap.scratch = []
  globals : heap.globals.getD [] = store.globals.map (Datum.value names)
  opened : machine.frames.size = store.opened
  objects : ∀ number, known number → ∃ record size, store.records[number]? = some record ∧
    (⟨names number, size, .object⟩ : Block) ∈ entries ∧ record.Shown names machine (names number)
  injective : ∀ number other, known number → known other → names number = names other →
    number = other
  closed : ∀ number record, known number → store.records[number]? = some record →
    ∀ datum ∈ store.held record, datum.Among known
  rooted : ∀ datum ∈ store.globals, datum.Among known
  parents : ∀ (number : Nat) (record : Record), store.records[number]? = some record →
    ∀ origin, record.parent? = some (.object origin) → store.IsContext origin
  linked : ∀ number record, known number → store.records[number]? = some record →
    ∀ frame ∈ record.frames, ∃ saving, store.frames frame = some saving ∧ saving.context = number ∧
      saving.size ≠ 0
  frames : ∀ number saving, store.frames number = some saving →
    ∃ frame, machine.frame? number = some frame ∧ saving.Shown names frame
  numbered : ∀ number saving, store.frames number = some saving →
    saving.context < store.records.length ∧
      ∀ index, (saving.slots index).Among (· < store.records.length)

def Reply.data : Reply → List Datum
  | datum held => [held]
  | found held => held.toList
  | _ => []

namespace Store.Depicts

variable {store : Store} {known : Nat → Prop} {names : Nat → Nat} {heap after : Heap}
  {machine final : Machine} {entries : List Block} {tiling : Slab → List Block} {number : Nat}
  {datum : Datum} {record : Record} {request : Request}

section Objects

variable (depicts : store.Depicts known names heap machine entries)

include depicts

theorem lt_length (isKnown : known number) : number < store.records.length := by
  obtain ⟨record, _, found, _⟩ := depicts.objects number isKnown
  exact (List.getElem?_eq_some_iff.mp found).1

theorem block (accounted : heap.Accounted tiling machine entries) (isKnown : known number)
    (found : store.records[number]? = some record) : ∃ size,
      (⟨names number, size, .object⟩ : Block) ∈ heap.blocks tiling ∧
      (⟨names number, size, .object⟩ : Block) ∈ entries ∧
      record.Shown names machine (names number) ∧ record.extent ≤ size ∧
      record.shape.Describes machine.memory (names number) size := by
  obtain ⟨also, size, alsoFound, listed, shown⟩ := depicts.objects number isKnown
  obtain rfl := Option.some.inj (found.symm.trans alsoFound)
  have member := accounted.records.mem_blocks_of_object listed rfl
  have shape : heap.shapes.get? (machine.memory.tag (names number)) = some record.shape := by
    rw [shown.tag]
    exact record.known depicts.standard
  have describes := (accounted.consistent.tiled.describes member (by simp) shape).2
  exact ⟨size, member, listed, shown, record.extent_le shown describes, describes⟩

theorem address?_eq (isKnown : known number) :
    ((Datum.object number).value names).address? = some (names number) := by
  obtain ⟨record, size, found, listed, _⟩ := depicts.objects number isKnown
  obtain ⟨tiling, accounted⟩ := depicts.accounted
  have bounds := accounted.consistent.tiled.bounds
    (accounted.records.mem_blocks_of_object listed rfl)
  simp only [Block.stop] at bounds
  exact Value.address?_reference (by omega) (by omega)

theorem aligned (isKnown : known number) : names number % 8 = 0 :=
  Value.address?_aligned (depicts.address?_eq isKnown)

theorem listed (isKnown : known number) : Listed entries (names number) := by
  obtain ⟨record, size, _, listed, _⟩ := depicts.objects number isKnown
  exact ⟨_, listed, rfl⟩

theorem refers (among : datum.Among known) : (datum.value names).Refers (Listed entries) := by
  intro address found
  cases datum with
  | atom value =>
      have none : value.address? = none := among
      have some : value.address? = some address := found
      rw [none] at some
      contradiction
  | object number =>
      rw [depicts.address?_eq among] at found
      exact Option.some.inj found ▸ depicts.listed among

omit depicts in
theorem objectOf?_atom {tag : UInt8} {value : Value} (among : (Datum.atom value).Among known) :
    heap.objectOf? machine.memory tag value = none := by
  have none : value.address? = none := among
  simp [Heap.objectOf?, Heap.object?, none]

theorem objectOf?_object (tag : UInt8) (isKnown : known number)
    (found : store.records[number]? = some record) :
    heap.objectOf? machine.memory tag ((Datum.object number).value names) =
      if record.tag = tag then some (names number) else none := by
  obtain ⟨tiling, accounted⟩ := depicts.accounted
  obtain ⟨size, member, _, shown, _⟩ := depicts.block accounted isKnown found
  have read := accounted.consistent.tiled.objectOf?_reference tag member rfl
  dsimp only at read
  rwa [shown.tag] at read

end Objects

section Reads

variable (depicts : store.Depicts known names heap machine entries)

include depicts

/-- What is read from an object of a type is what the record says, if it is of the type. -/
theorem objectOf?_eq (tag : UInt8) (among : datum.Among known) :
    heap.objectOf? machine.memory tag (datum.value names) = none ∧
        (∀ record, store.look datum = some record → record.tag ≠ tag) ∨
      ∃ number record, datum = .object number ∧ known number ∧ store.look datum = some record ∧
        record.tag = tag ∧ record.Shown names machine (names number) ∧
        heap.objectOf? machine.memory tag (datum.value names) = some (names number) := by
  cases datum with
  | atom value => exact .inl ⟨objectOf?_atom among, fun record found => by cases found⟩
  | object number =>
      obtain ⟨record, size, found, _, shown⟩ := depicts.objects number among
      have result := depicts.objectOf?_object tag among found
      by_cases same : record.tag = tag
      · rw [if_pos same] at result
        exact .inr ⟨number, record, rfl, among, found, same, shown, result⟩
      · rw [if_neg same] at result
        refine .inl ⟨result, fun other otherFound => ?_⟩
        obtain rfl := Option.some.inj (found.symm.trans otherFound)
        exact same

theorem part_eq (part : Part) (among : datum.Among known) :
    heap.fieldOf? machine.memory Tag.pair part.offset (datum.value names) =
      ((store.look datum).bind (Record.part? part)).map (Datum.value names) := by
  obtain ⟨none, other⟩ | ⟨number, record, _, _, found, same, shown, result⟩ :=
    depicts.objectOf?_eq Tag.pair among
  · have missing : (store.look datum).bind (Record.part? part) = Option.none :=
      Option.bind_eq_none_iff.mpr fun record found => Record.part?_eq_none (other record found) part
    simp only [Heap.fieldOf?, Heap.fieldAddress?, none, missing, Option.map_none]
  · obtain ⟨car, cdr, rfl⟩ := Record.eq_pair same
    simp only [Heap.fieldOf?, Heap.fieldAddress?, result, found, Option.map_some, Option.bind_some,
      Record.part?]
    cases part with
    | car => exact congrArg some shown.holds.1
    | cdr => exact congrArg some shown.holds.2

theorem length_eq (among : datum.Among known) :
    heap.vectorLength? machine.memory (datum.value names) =
      ((store.look datum).bind Record.elements?).map List.length := by
  obtain ⟨none, other⟩ | ⟨number, record, _, _, found, same, shown, result⟩ :=
    depicts.objectOf?_eq Tag.vector among
  · have missing : (store.look datum).bind Record.elements? = Option.none :=
      Option.bind_eq_none_iff.mpr fun record found => Record.elements?_eq_none (other record found)
    simp [Heap.vectorLength?, Heap.fieldOf?, Heap.fieldAddress?, none, missing]
  · obtain ⟨elements, rfl⟩ := Record.eq_vector same
    obtain ⟨few, length, _⟩ := shown.holds
    have stored : machine.memory.value (names number + Layout.Sequence.length) =
        .fixnum elements.length := congrArg Value.mk length
    have read : (Value.fixnum elements.length).toInt? = some (elements.length : Int) :=
      Value.toInt?_fixnum ⟨by omega, by omega⟩
    have counts : (Value.fixnum elements.length).toCount? = some elements.length := by
      rw [Value.toCount?, read, Option.map_some, Size.limit]
      congr 1
      omega
    simp [Heap.vectorLength?, Heap.fieldOf?, Heap.fieldAddress?, result, found, Record.elements?,
      stored, counts]

/-- An element of a vector lies behind those before it. -/
theorem elementAddress_eq (index : Nat) (among : datum.Among known) :
    heap.elementAddress? machine.memory (datum.value names) index = .ok none ∧
        ((store.look datum).bind Record.elements?).bind (·[index]?) = none ∨
      ∃ number elements element, datum = .object number ∧ known number ∧
        store.records[number]? = some (.vector elements) ∧ elements[index]? = some element ∧
        heap.elementAddress? machine.memory (datum.value names) index =
          .ok (some (names number + (Layout.Sequence.contents + index * wordBytes))) := by
  have length := depicts.length_eq among
  obtain ⟨none, other⟩ | ⟨number, record, rfl, isKnown, found, same, shown, result⟩ :=
    depicts.objectOf?_eq Tag.vector among
  · have missing : (store.look datum).bind Record.elements? = Option.none :=
      Option.bind_eq_none_iff.mpr fun record found => Record.elements?_eq_none (other record found)
    refine .inl ⟨?_, by simp [missing]⟩
    simp only [Heap.elementAddress?, none]
    rfl
  · obtain ⟨elements, rfl⟩ := Record.eq_vector same
    simp only [found, Option.bind_some, Record.elements?, Option.map_some] at length
    obtain ⟨tiling, accounted⟩ := depicts.accounted
    obtain ⟨size, _, _, _, large, describes⟩ := depicts.block accounted isKnown found
    have bounded := describes.size_bounds.2.2
    simp only [Record.extent] at large
    by_cases inside : index < elements.length
    · refine .inr ⟨number, elements, elements[index], rfl, isKnown, found,
        List.getElem?_eq_getElem inside, ?_⟩
      simp only [wordBytes, Layout.Sequence.contents] at large
      have product : Size.mul index wordBytes = .ok (index * wordBytes) :=
        Size.mul_eq_ok (by simp only [wordBytes]; omega)
      have sum : Size.add Layout.Sequence.contents (index * wordBytes) =
          .ok (Layout.Sequence.contents + index * wordBytes) :=
        Size.add_eq_ok (by simp only [wordBytes, Layout.Sequence.contents]; omega)
      simp only [Heap.elementAddress?, result, length, inside, if_true, product, sum, bind,
        Except.bind, pure, Except.pure]
    · refine .inl ⟨?_, ?_⟩
      · simp only [Heap.elementAddress?, result, length, inside, if_false, pure, Except.pure]
      · simpa [found, Record.elements?] using Nat.le_of_not_lt inside

theorem element_eq {index : Nat} (among : datum.Among known) :
    heap.vectorRef? machine.memory (datum.value names) index =
      .ok ((((store.look datum).bind Record.elements?).bind (·[index]?)).map (Datum.value names)) := by
  obtain ⟨none, missing⟩ | ⟨number, elements, element, rfl, isKnown, found, listed, place⟩ :=
    depicts.elementAddress_eq index among
  · simp only [Heap.vectorRef?, none, missing, bind, Except.bind, pure, Except.pure, Option.map_none]
  · obtain ⟨tiling, accounted⟩ := depicts.accounted
    obtain ⟨_, _, _, shown, _⟩ := depicts.block accounted isKnown found
    have held := shown.holds.2.2 index element listed
    simp only [Heap.vectorRef?, place, bind, Except.bind, pure, Except.pure, Option.map_some, held]
    simp [Store.look, found, Record.elements?, listed]

theorem contents_eq (among : datum.Among known) :
    heap.bytes? machine.memory (datum.value names) =
      (store.look datum).bind Record.contents? := by
  obtain ⟨none, other⟩ | ⟨number, record, _, _, found, same, shown, result⟩ :=
    depicts.objectOf?_eq Tag.bytes among
  · have missing : (store.look datum).bind Record.contents? = Option.none :=
      Option.bind_eq_none_iff.mpr fun record found => Record.contents?_eq_none (other record found)
    simp [Heap.bytes?, none, missing]
  · obtain ⟨contents, rfl⟩ := Record.eq_bytes same
    obtain ⟨few, length, held⟩ := shown.holds
    have stored : machine.memory.value (names number + Layout.Sequence.length) =
        .fixnum contents.length := congrArg Value.mk length
    have read : (Value.fixnum contents.length).toInt? = some (contents.length : Int) :=
      Value.toInt?_fixnum ⟨by omega, by omega⟩
    simp [Heap.bytes?, result, found, Record.contents?, stored, read, held]

theorem environment_eq (isKnown : known number) (found : store.records[number]? = some record)
    (isContext : record.tag = Tag.context) :
    (Context.mk (names number)).environment machine.memory =
      (record.environment?.getD (.atom .no)).value names := by
  obtain ⟨tiling, accounted⟩ := depicts.accounted
  obtain ⟨_, _, _, shown, _⟩ := depicts.block accounted isKnown found
  obtain ⟨parent, environment, frames, rfl⟩ := Record.eq_context isContext
  exact shown.holds.2.1

/-- The parent of a context is a context or none. -/
theorem parent_eq (isKnown : known number) (found : store.records[number]? = some record)
    (isContext : record.tag = Tag.context) :
    ((Context.mk (names number)).parent? machine.memory).map Context.toValue =
      record.parent?.map (Datum.value names) := by
  obtain ⟨tiling, accounted⟩ := depicts.accounted
  obtain ⟨_, _, _, shown, _⟩ := depicts.block accounted isKnown found
  obtain ⟨parent, environment, frames, rfl⟩ := Record.eq_context isContext
  have held : machine.memory.value (names number + Layout.Context.parent) = parent.value names :=
    shown.holds.1
  have among : parent.Among known :=
    depicts.closed number _ isKnown found parent (by simp [Store.held, Record.data])
  cases parent with
  | atom value =>
      have none : value.address? = none := among
      have stored : machine.memory.value (names number + Layout.Context.parent) = value := held
      simp [Context.parent?, stored, none, Record.parent?]
  | object origin =>
      have address := depicts.address?_eq among
      rw [← held] at address
      obtain ⟨other, otherFound, otherContext⟩ := depicts.parents number _ found origin rfl
      obtain ⟨_, member, _, otherShown, _⟩ := depicts.block accounted among otherFound
      have positive : names origin ≠ 0 := by
        have := (accounted.consistent.tiled.bounds member).1
        simp only at this
        omega
      have tagged : machine.memory.tag (names origin) = Tag.context := otherShown.tag.trans otherContext
      obtain ⟨before, place⟩ := Nat.exists_eq_succ_of_ne_zero positive
      rw [place] at address tagged
      simp only [Context.parent?, address, tagged, if_true, Record.parent?, Option.map_some,
        Datum.value, place, Context.toValue]

/-- What a program reads is as in the store. -/
theorem reads (apt : request.Apt store known) (reads : request.Reads) : ∃ answer,
    ((request.operation names).perform heap).run machine = .ok (heap, answer) machine ∧
      (store.reply request).Shown names answer := by
  cases request with
  | part side cell => exact ⟨_, rfl, depicts.part_eq side apt⟩
  | length sequence => exact ⟨_, rfl, depicts.length_eq apt⟩
  | element sequence index =>
      refine ⟨.found ((((store.look sequence).bind Record.elements?).bind (·[index]?)).map
        (Datum.value names)), ?_, rfl⟩
      have looks : Action.memory.run machine = .ok machine.memory machine := rfl
      simp only [Request.operation, Operation.perform]
      rw [Action.run_bind looks, depicts.element_eq apt]
      rfl
  | contents sequence => exact ⟨_, rfl, depicts.contents_eq apt⟩
  | environment handle =>
      obtain ⟨isKnown, record, found, isContext⟩ := apt
      refine ⟨_, rfl, ?_⟩
      simp only [Store.reply, Reply.Shown, found, Option.bind_some]
      exact depicts.environment_eq isKnown found isContext
  | parent handle =>
      obtain ⟨isKnown, record, found, isContext⟩ := apt
      refine ⟨_, rfl, ?_⟩
      simp only [Store.reply, Reply.Shown, found, Option.bind_some]
      exact depicts.parent_eq isKnown found isContext
  | context | pair | vector | bytes | collect | append | setPart | setElement | setEnvironment
  | openFrame | save | saved | replace | dropFrame => exact reads.elim

end Reads

section Reaching

variable (depicts : store.Depicts known names heap machine entries)

include depicts

/-- What a program reads is known. -/
theorem reads_among (apt : request.Apt store known) (reads : request.Reads) :
    ∀ datum ∈ (store.reply request).data, datum.Among known := by
  -- What a record shows is among its data, which the depiction keeps closed.
  have inRecord {object : Datum} {view : Record → Option Datum}
      (among : object.Among known) (viewed : ∀ record datum, view record = some datum →
        datum ∈ record.data) : ∀ datum ∈ ((store.look object).bind view).toList, datum.Among known := by
    intro datum listed
    obtain ⟨record, found, shows⟩ := Option.bind_eq_some_iff.mp (Option.mem_toList.mp listed)
    cases object with
    | atom value => cases found
    | object number =>
        exact depicts.closed number record among found datum
          (List.mem_append_left _ (viewed record datum shows))
  cases request with
  | part side cell =>
      refine inRecord apt fun record datum shows => ?_
      cases record with
      | pair car cdr =>
          obtain rfl := Option.some.inj shows
          cases side <;> simp [Record.data, Part.of]
      | context | vector | bytes => cases shows
  | element sequence index =>
      have viewed : ∀ (record : Record) (datum : Datum), (record.elements?.bind (·[index]?)) = some datum →
          datum ∈ record.data := by
        intro record datum shows
        cases record with
        | vector elements => exact List.mem_of_getElem? shows
        | context | pair | bytes => cases shows
      have all := inRecord apt viewed
      rwa [← Option.bind_assoc] at all
  | environment handle =>
      obtain ⟨isKnown, record, found, isContext⟩ := apt
      intro datum listed
      obtain ⟨parent, environment, frames, rfl⟩ := Record.eq_context isContext
      simp only [Store.reply, found, Option.bind_some, Record.environment?, Option.getD_some,
        Reply.data, List.mem_singleton] at listed
      exact listed ▸ depicts.closed handle _ isKnown found environment
        (List.mem_append_left _ (by simp [Record.data]))
  | parent handle =>
      have viewed : ∀ record datum, Record.parent? record = some datum → datum ∈ record.data := by
        intro record datum shows
        cases record with
        | context parent environment frames =>
            cases parent with
            | atom value => cases shows
            | object origin =>
                cases shows
                simp [Record.data]
        | pair | vector | bytes => cases shows
      exact @inRecord (.object handle) _ apt.1 viewed
  | length | contents => simp [Store.reply, Reply.data]
  | context | pair | vector | bytes | collect | append | setPart | setElement | setEnvironment
  | openFrame | save | saved | replace | dropFrame => exact reads.elim

/-- What can be reached in the store can be reached in the heap. -/
theorem reachable {roots : List Datum} (among : ∀ datum ∈ roots, datum.Among known)
    (reached : store.Reach roots number) : known number ∧
      heap.Reachable machine (roots.map (Datum.value names)) (names number) := by
  induction reached with
  | root listed =>
      have isKnown := among _ listed
      exact ⟨isKnown, .root (List.mem_map_of_mem listed) (depicts.address?_eq isKnown)⟩
  | @held owner number record _ found listed ih =>
      obtain ⟨ownerKnown, reached⟩ := ih
      have isKnown : known number := depicts.closed owner record ownerKnown found _ listed
      have address := depicts.address?_eq isKnown
      obtain ⟨tiling, accounted⟩ := depicts.accounted
      obtain ⟨_, _, _, shown, _⟩ := depicts.block accounted ownerKnown found
      refine ⟨isKnown, ?_⟩
      cases List.mem_append.mp listed with
      | inl inData =>
          -- A datum of the record is in a strong slot of the object.
          obtain ⟨offset, slot, held⟩ := shown.slot inData
          have shape : heap.shapes.get? (machine.memory.tag (names owner)) = some record.shape := by
            rw [shown.tag]
            exact record.known depicts.standard
          exact .slot reached shape slot (held ▸ address)
      | inr inFrames =>
          -- A saved datum is in a frame on the chain of the context.
          obtain ⟨frameNumber, inChain, inFrame⟩ := List.mem_flatMap.mp inFrames
          obtain ⟨saving, saved, _⟩ := depicts.linked owner record ownerKnown found frameNumber inChain
          obtain ⟨frame, framed, frameShown⟩ := depicts.frames frameNumber saving saved
          simp only [Store.saved, saved, Option.map_some, Option.getD_some, Saving.values,
            List.mem_map, List.mem_range] at inFrame
          obtain ⟨index, inside, same⟩ := inFrame
          have got := frameShown.slots index (.inr inside)
          rw [same] at got
          have held := frameShown.wellFormed.mem_values (frameShown.size.symm ▸ inside) got
          cases record with
          | context parent environment frames =>
              obtain ⟨_, _, chained⟩ := shown.holds
              exact .saved reached shown.tag (chained.linked_iff.mpr ⟨frameNumber, inChain, framed⟩) held
                address
          | pair | vector | bytes => simp [Record.frames] at inChain

end Reaching

end Store.Depicts

end SlabHeap
