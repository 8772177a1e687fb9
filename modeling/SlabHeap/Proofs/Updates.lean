import SlabHeap.Proofs.Depiction

namespace SlabHeap

/-! What requests do to a heap that depicts a store.

A collection may take what a program cannot reach, `Store.Depicts.proceed`; a new object is added,
`Store.Depicts.extend`; one object is written into, `Store.Depicts.write`; and frames come and go. In
each case the heap depicts what the store has become.
-/

open Block

namespace Memory

/-- One word of an object is replaced. -/
theorem value_write (memory : Memory) {object offset other : Nat} {value : Value}
    (whole : object % 8 = 0) (aligned : offset % 8 = 0) (otherAligned : other % 8 = 0) :
    (memory.write (object + offset) value.bits).value (object + other) =
      if other = offset then value else memory.value (object + other) := by
  split
  · next same => rw [same, Memory.value, Memory.read_write_same]
  · next distinct =>
    rw [Memory.value, Memory.read_write_ne (by omega)]
    rfl

end Memory

namespace Record

variable {record : Record}

theorem setPart_eq (other : record.tag ≠ Tag.pair) (part : Part) (value : Datum) :
    record.setPart part value = record := by
  cases record with
  | pair => exact absurd rfl other
  | context | vector | bytes => rfl

theorem links_setPart (part : Part) (value : Datum) (record : Record) :
    (record.setPart part value).tag = record.tag ∧
      (record.setPart part value).parent? = record.parent? ∧
      (record.setPart part value).frames = record.frames := by
  cases record <;> exact ⟨rfl, rfl, rfl⟩

theorem links_setElement (index : Nat) (value : Datum) (record : Record) :
    (record.setElement index value).tag = record.tag ∧
      (record.setElement index value).parent? = record.parent? ∧
      (record.setElement index value).frames = record.frames := by
  cases record <;> exact ⟨rfl, rfl, rfl⟩

theorem links_setEnvironment (value : Datum) (record : Record) :
    (record.setEnvironment value).tag = record.tag ∧
      (record.setEnvironment value).parent? = record.parent? ∧
      (record.setEnvironment value).frames = record.frames := by
  cases record with
  | context parent => cases parent <;> exact ⟨rfl, rfl, rfl⟩
  | pair | vector | bytes => exact ⟨rfl, rfl, rfl⟩

end Record

/-- A change that leaves a record as it is does so with the store. -/
theorem Store.modifyAt_eq {store : Store} {change : Record → Record} {datum : Datum}
    (same : ∀ record, store.look datum = some record → change record = record) :
    store.modifyAt change datum = store := by
  cases datum with
  | atom value => rfl
  | object number =>
      have records : store.records.modify number change = store.records := by
        refine List.ext_getElem? fun other => ?_
        rw [List.getElem?_modify]
        cases found : store.records[other]? with
        | none => rfl
        | some record =>
            simp only [Option.map_eq_map, Option.map_some]
            split
            · next here => rw [same record (here ▸ found)]
            · rfl
      simp only [Store.modifyAt, Store.modify, records]

namespace Store.Depicts

variable {store : Store} {known alive : Nat → Prop} {names : Nat → Nat} {heap after : Heap}
  {machine final : Machine} {entries later : List Block} {tiling : Slab → List Block}
  {number index : Nat} {datum : Datum} {record : Record} {request : Request}

/-- Objects that stay where they are and as they are still depict the store. Some may be forgotten. -/
theorem proceed (depicts : store.Depicts known names heap machine entries)
    (accounted : ∃ tiling, after.Accounted tiling final later) (shapes : after.shapes = heap.shapes)
    (scratch : after.scratch = heap.scratch) (globals : after.globals = heap.globals)
    (frames : final.frames = machine.frames) (fewer : ∀ number, alive number → known number)
    (kept : ∀ number size, alive number → (⟨names number, size, .object⟩ : Block) ∈ entries →
      (⟨names number, size, .object⟩ : Block) ∈ later ∧
        Block.Stays ⟨names number, size, .object⟩ machine.memory final.memory)
    (closed : ∀ number record, alive number → store.records[number]? = some record →
      ∀ datum ∈ store.held record, datum.Among alive)
    (rooted : ∀ datum ∈ store.globals, datum.Among alive) :
    store.Depicts alive names after final later where
  accounted := accounted
  orderly := depicts.orderly.congr frames
  standard := shapes ▸ depicts.standard
  scratch := scratch.trans depicts.scratch
  globals := globals ▸ depicts.globals
  opened := by
    rw [frames]
    exact depicts.opened
  objects number isAlive := by
    obtain ⟨tiling, before⟩ := depicts.accounted
    obtain ⟨record, _, found, _⟩ := depicts.objects number (fewer number isAlive)
    obtain ⟨size, _, listed, shown, large, _⟩ := depicts.block before (fewer number isAlive) found
    obtain ⟨stillListed, stays⟩ := kept number size isAlive listed
    exact ⟨record, size, found, stillListed, shown.keep large stays (.of_frames frames)⟩
  injective number other isAlive otherAlive :=
    depicts.injective number other (fewer number isAlive) (fewer other otherAlive)
  closed := closed
  rooted := rooted
  parents := depicts.parents
  linked number record isAlive := depicts.linked number record (fewer number isAlive)
  frames number saving saved := by
    obtain ⟨frame, found, shown⟩ := depicts.frames number saving saved
    exact ⟨frame, (Machine.frame?_congr frames number).trans found, shown⟩
  numbered := depicts.numbered

section Extend

variable {start size : Nat} {other : Record}

/-- The record of a number in a store with one more record. -/
theorem look_extend (found : (store.records ++ [record])[number]? = some other) :
    number = store.records.length ∧ other = record ∨
      number < store.records.length ∧ store.records[number]? = some other := by
  by_cases place : number < store.records.length
  · exact .inr ⟨place, (List.getElem?_append_left place).symm.trans found⟩
  · have inside := (List.getElem?_eq_some_iff.mp found).1
    rw [List.length_append, List.length_singleton] at inside
    obtain rfl : number = store.records.length := by omega
    rw [List.getElem?_concat_length] at found
    exact .inl ⟨rfl, (Option.some.inj found).symm⟩

theorem isContext_extend (isContext : store.IsContext number) (record : Record) :
    Store.IsContext { store with records := store.records ++ [record] } number := by
  obtain ⟨context, isRecord, tagged⟩ := isContext
  have place := (List.getElem?_eq_some_iff.mp isRecord).1
  exact ⟨context, (List.getElem?_append_left place).trans isRecord, tagged⟩

theorem update_of_lt (names : Nat → Nat) (start : Nat) (before : number < store.records.length) :
    Function.update names store.records.length start number = names number :=
  Function.update_of_ne (Nat.ne_of_lt before) _ _

variable (depicts : store.Depicts known names heap machine entries)

include depicts

/-- The number of the new object is not one that was given out before. -/
theorem value_update (among : datum.Among known) :
    datum.value (Function.update names store.records.length start) = datum.value names :=
  Datum.value_congr among fun _ isKnown => update_of_lt names start (depicts.lt_length isKnown)

theorem shown_update (isKnown : known number) (found : store.records[number]? = some other)
    (shown : other.Shown names final start) :
    other.Shown (Function.update names store.records.length size) final start :=
  shown.rename fun datum inData =>
    depicts.value_update (depicts.closed number other isKnown found datum (List.mem_append_left _ inData))

/-- No object that was there before lies where the new one does. -/
theorem injective_update (apart : ∀ block ∈ entries, block.kind = .object → block.start ≠ start)
    {number other : Nat} (isKnown : number = store.records.length ∨ known number)
    (otherKnown : other = store.records.length ∨ known other)
    (equal : Function.update names store.records.length start number =
      Function.update names store.records.length start other) : number = other := by
  have elsewhere {number : Nat} (isOld : known number) :
      Function.update names store.records.length start number ≠ start := by
    obtain ⟨_, _, _, listed, _⟩ := depicts.objects number isOld
    rw [update_of_lt names start (depicts.lt_length isOld)]
    exact apart _ listed rfl
  rcases isKnown with rfl | isOld <;> rcases otherKnown with rfl | alsoOld
  · rfl
  · rw [Function.update_self] at equal
    exact absurd equal.symm (elsewhere alsoOld)
  · rw [Function.update_self] at equal
    exact absurd equal (elsewhere isOld)
  · rw [update_of_lt names start (depicts.lt_length isOld),
      update_of_lt names start (depicts.lt_length alsoOld)] at equal
    exact depicts.injective number other isOld alsoOld equal

/-- A new object joins the others. -/
theorem extend
    (accounted : ∃ tiling, after.Accounted tiling final (entries ++ [⟨start, size, .object⟩]))
    (shapes : after.shapes = heap.shapes) (scratch : after.scratch = heap.scratch)
    (globals : after.globals = heap.globals) (frames : final.frames = machine.frames)
    (kept : ∀ block ∈ entries, block.kind = .object → block.start ≠ start ∧
      block.Stays machine.memory final.memory)
    (shown : record.Shown names final start) (among : ∀ datum ∈ record.data, datum.Among known)
    (unlinked : record.frames = [])
    (parents : ∀ origin, record.parent? = some (.object origin) → store.IsContext origin) :
    Store.Depicts { store with records := store.records ++ [record] }
      (fun number => number = store.records.length ∨ known number)
      (Function.update names store.records.length start) after final
      (entries ++ [⟨start, size, .object⟩]) where
  accounted := accounted
  orderly := depicts.orderly.congr frames
  standard := shapes ▸ depicts.standard
  scratch := scratch.trans depicts.scratch
  globals := by
    rw [globals, depicts.globals]
    exact List.map_congr_left fun datum listed => (depicts.value_update (depicts.rooted datum listed)).symm
  opened := by
    rw [frames]
    exact depicts.opened
  objects number isKnown := by
    obtain ⟨tiling, before⟩ := depicts.accounted
    rcases isKnown with rfl | isOld
    · refine ⟨record, size, List.getElem?_concat_length, ?_, ?_⟩
      · rw [Function.update_self]
        exact List.mem_append_right _ (List.mem_singleton_self _)
      · rw [Function.update_self]
        exact shown.rename fun datum listed => depicts.value_update (among datum listed)
    · obtain ⟨other, _, found, _⟩ := depicts.objects number isOld
      obtain ⟨otherSize, _, listed, otherShown, large, _⟩ := depicts.block before isOld found
      have place := depicts.lt_length isOld
      refine ⟨other, otherSize, (List.getElem?_append_left place).trans found, ?_, ?_⟩
      · rw [update_of_lt names start place]
        exact List.mem_append_left _ listed
      · rw [update_of_lt names start place]
        exact depicts.shown_update isOld found
          (otherShown.keep large (kept _ listed rfl).2 (.of_frames frames))
  injective _ _ isKnown otherKnown equal :=
    depicts.injective_update (fun block listed isObject => (kept block listed isObject).1) isKnown otherKnown equal
  closed number other isKnown found datum listed := by
    rcases look_extend found with ⟨rfl, rfl⟩ | ⟨place, found⟩
    · simp only [Store.held, unlinked, List.flatMap_nil, List.append_nil] at listed
      exact (among datum listed).mono fun _ => .inr
    · have isOld : known number := isKnown.resolve_left (Nat.ne_of_lt place)
      exact (depicts.closed number other isOld found datum listed).mono fun _ => .inr
  rooted datum listed := (depicts.rooted datum listed).mono fun _ => .inr
  parents number other found origin shows := by
    rcases look_extend found with ⟨rfl, rfl⟩ | ⟨_, found⟩
    · exact isContext_extend (parents origin shows) _
    · exact isContext_extend (depicts.parents number other found origin shows) _
  linked number other isKnown found := by
    rcases look_extend found with ⟨rfl, rfl⟩ | ⟨place, found⟩
    · simp [unlinked]
    · exact depicts.linked number other (isKnown.resolve_left (Nat.ne_of_lt place)) found
  frames number saving saved := by
    obtain ⟨frame, found, frameShown⟩ := depicts.frames number saving saved
    obtain ⟨place, slots⟩ := depicts.numbered number saving saved
    refine ⟨frame, (Machine.frame?_congr frames number).trans found, ?_, frameShown.wellFormed,
      frameShown.size, frameShown.linked, fun index has => ?_⟩
    · rw [update_of_lt names start place]
      exact frameShown.context
    · rw [Datum.value_congr (slots index) fun _ before => update_of_lt names start before]
      exact frameShown.slots index has
  numbered number saving saved := by
    obtain ⟨place, slots⟩ := depicts.numbered number saving saved
    simp only [List.length_append, List.length_singleton]
    exact ⟨Nat.lt_succ_of_lt place, fun index => (slots index).mono fun _ => Nat.lt_succ_of_lt⟩

end Extend

section Writing

variable (depicts : store.Depicts known names heap machine entries)

include depicts

/-- One object changed, but for its type and what it was made from, and frames perhaps. -/
theorem become {change : Record → Record} {next : Store}
    (records : next.records = store.records.modify number change) (globals : next.globals = store.globals)
    (sameTag : ∀ record : Record, (change record).tag = record.tag)
    (sameParent : ∀ record : Record, (change record).parent? = record.parent?)
    (accounted : ∃ tiling, heap.Accounted tiling final entries) (orderly : final.Orderly)
    (opened : final.frames.size = next.opened)
    (objects : ∀ other record size, known other → next.records[other]? = some record →
      (⟨names other, size, .object⟩ : Block) ∈ entries → record.Shown names final (names other))
    (closed : ∀ other record, known other → next.records[other]? = some record →
      ∀ datum ∈ next.held record, datum.Among known)
    (linked : ∀ other record, known other → next.records[other]? = some record →
      ∀ frame ∈ record.frames, ∃ saving, next.frames frame = some saving ∧ saving.context = other ∧
        saving.size ≠ 0)
    (frames : ∀ frame saving, next.frames frame = some saving →
      ∃ held, final.frame? frame = some held ∧ saving.Shown names held)
    (numbered : ∀ frame saving, next.frames frame = some saving →
      saving.context < store.records.length ∧
        ∀ index, (saving.slots index).Among (· < store.records.length)) :
    next.Depicts known names heap final entries := by
  have earlier {other : Nat} {record : Record} (found : next.records[other]? = some record) :
      ∃ before, store.records[other]? = some before ∧ record.tag = before.tag ∧
        record.parent? = before.parent? := by
    rw [records, List.getElem?_modify, Option.map_eq_map, Option.map_eq_some_iff] at found
    obtain ⟨before, was, rfl⟩ := found
    refine ⟨before, was, ?_⟩
    split
    · exact ⟨sameTag before, sameParent before⟩
    · exact ⟨rfl, rfl⟩
  have changed {other : Nat} {before : Record} (was : store.records[other]? = some before) :
      ∃ record, next.records[other]? = some record ∧ record.tag = before.tag := by
    refine ⟨if number = other then change before else before, ?_, ?_⟩
    · rw [records, List.getElem?_modify, was]
      rfl
    · split
      · exact sameTag before
      · rfl
  refine ⟨accounted, orderly, depicts.standard, depicts.scratch, ?_, opened, fun other isKnown => ?_,
    depicts.injective, closed, ?_, ?_, linked, frames, ?_⟩
  · rw [globals]
    exact depicts.globals
  · obtain ⟨before, size, was, listed, _⟩ := depicts.objects other isKnown
    obtain ⟨record, found, _⟩ := changed was
    exact ⟨record, size, found, listed, objects other record size isKnown found listed⟩
  · rw [globals]
    exact depicts.rooted
  · intro other record found origin shows
    obtain ⟨before, was, _, made⟩ := earlier found
    obtain ⟨context, isRecord, tagged⟩ := depicts.parents other before was origin (made ▸ shows)
    obtain ⟨record, isChanged, same⟩ := changed isRecord
    exact ⟨record, isChanged, same.trans tagged⟩
  · rw [records, List.length_modify]
    exact numbered

/-- One object became another of its type, and all others stay as they are. -/
theorem change {change : Record → Record} (isKnown : known number)
    (found : store.records[number]? = some record) (orderly : final.Orderly)
    (accounted : ∃ tiling, heap.Accounted tiling final entries) (frames : final.frames = machine.frames)
    (shown : (change record).Shown names final (names number))
    (others : ∀ other size, known other → other ≠ number →
      (⟨names other, size, .object⟩ : Block) ∈ entries →
        Block.Stays ⟨names other, size, .object⟩ machine.memory final.memory)
    (among : ∀ datum ∈ (change record).data, datum.Among known)
    (sameTag : ∀ record : Record, (change record).tag = record.tag)
    (sameParent : ∀ record : Record, (change record).parent? = record.parent?)
    (sameFrames : ∀ record : Record, (change record).frames = record.frames) :
    (store.modify number change).Depicts known names heap final entries := by
  have own {other : Record} (isOwn : (store.modify number change).records[number]? = some other) :
      other = change record := by
    simp only [Store.modify, List.getElem?_modify, found, if_true] at isOwn
    exact (Option.some.inj isOwn).symm
  have foreign {other : Nat} (distinct : other ≠ number) :
      (store.modify number change).records[other]? = store.records[other]? := by
    simp only [Store.modify, List.getElem?_modify, Ne.symm distinct, if_false]
    exact Option.map_id_apply
  obtain ⟨tiling, before⟩ := depicts.accounted
  refine depicts.become rfl rfl sameTag sameParent accounted orderly ?_ ?_ ?_ ?_ ?_ depicts.numbered
  · rw [frames]
    exact depicts.opened
  · intro other otherRecord size otherKnown otherFound listed
    by_cases same : other = number
    · subst same
      exact own otherFound ▸ shown
    · rw [foreign same] at otherFound
      obtain ⟨size, _, listed, otherShown, large, _⟩ := depicts.block before otherKnown otherFound
      exact otherShown.keep large (others other size otherKnown same listed) (.of_frames frames)
  · intro other otherRecord otherKnown otherFound datum held
    by_cases same : other = number
    · subst same
      obtain rfl := own otherFound
      cases List.mem_append.mp held with
      | inl inData => exact among datum inData
      | inr inFrames =>
          rw [sameFrames] at inFrames
          exact depicts.closed other record isKnown found datum (List.mem_append_right _ inFrames)
    · rw [foreign same] at otherFound
      exact depicts.closed other otherRecord otherKnown otherFound datum held
  · intro other otherRecord otherKnown otherFound
    by_cases same : other = number
    · subst same
      obtain rfl := own otherFound
      rw [sameFrames]
      exact depicts.linked other record isKnown found
    · rw [foreign same] at otherFound
      exact depicts.linked other otherRecord otherKnown otherFound
  · intro frame saving saved
    obtain ⟨held, present, frameShown⟩ := depicts.frames frame saving saved
    exact ⟨held, (Machine.frame?_congr frames frame).trans present, frameShown⟩

/-- A word of one object is not part of another. -/
theorem stays_beside {own size offset other : Nat} {word : UInt64} (isKnown : known number)
    (listed : (⟨names number, own, .object⟩ : Block) ∈ entries) (aligned : offset % 8 = 0)
    (inside : offset + 8 ≤ own) (otherKnown : known other) (distinct : other ≠ number)
    (otherListed : (⟨names other, size, .object⟩ : Block) ∈ entries) :
    Block.Stays ⟨names other, size, .object⟩ machine.memory
      (machine.memory.write (names number + offset) word) := by
  obtain ⟨tiling, accounted⟩ := depicts.accounted
  have tiled := accounted.consistent.tiled
  have member := accounted.records.mem_blocks_of_object listed rfl
  have otherMember := accounted.records.mem_blocks_of_object otherListed rfl
  have bounds := tiled.bounds member
  have otherBounds := tiled.bounds otherMember
  simp only [Block.stop] at bounds otherBounds
  refine .of_write (by omega) (by simp only; omega) (by simp only; omega) ?_
  -- A block that the word touches covers the address of the word.
  by_contra overlap
  refine distinct (depicts.injective other number otherKnown isKnown (congrArg Block.start
    (tiled.eq_of_covers otherMember member (show _ ∧ names number + offset < _ from ⟨?_, ?_⟩) ⟨?_, ?_⟩)))
  all_goals
    simp only [Block.stop] at *
    omega

/-- A slot of one object is given another value. -/
theorem write {change : Record → Record} {offset : Nat} {value : Datum} (isKnown : known number)
    (found : store.records[number]? = some record)
    (slot : record.shape.Slot machine.memory (names number) offset) (among : value.Among known)
    (holds : (change record).Holds names
      (machine.withMemory (machine.memory.write (names number + offset) (value.value names).bits))
      (names number))
    (few : ∀ datum ∈ (change record).data, datum ∈ record.data ∨ datum = value)
    (sameTag : ∀ record : Record, (change record).tag = record.tag)
    (sameParent : ∀ record : Record, (change record).parent? = record.parent?)
    (sameFrames : ∀ record : Record, (change record).frames = record.frames) :
    (store.modify number change).Depicts known names heap
      (machine.withMemory (machine.memory.write (names number + offset) (value.value names).bits))
      entries := by
  obtain ⟨tiling, accounted⟩ := depicts.accounted
  obtain ⟨own, member, listed, shown, _, describes⟩ := depicts.block accounted isKnown found
  obtain ⟨aligned, lower, upper, _⟩ := describes.slotInside offset slot
  have bounds := accounted.consistent.tiled.bounds member
  simp only [Block.stop] at bounds
  have shape : heap.shapes.get? (machine.memory.tag (names number)) = some record.shape := by
    rw [shown.tag]
    exact record.known depicts.standard
  have rewrites := accounted.consistent.upheld.stores depicts.orderly ⟨_, member, by simp, rfl⟩ shape slot
    (accounted.denotes (depicts.refers among))
  have proceeds := (accounted.edits rewrites.toAlters).toProceeds
  refine depicts.change isKnown found proceeds.orderly proceeds.accounted rfl ⟨?_, holds⟩ ?_ ?_ sameTag
    sameParent sameFrames
  · rw [sameTag, ← shown.tag, Memory.tag, Memory.tag, Memory.header, Memory.header,
      Machine.memory_withMemory, Memory.read_write_ne (by omega)]
  · intro other size otherKnown distinct otherListed
    exact depicts.stays_beside isKnown listed aligned (by omega) otherKnown distinct otherListed
  · intro datum inData
    cases few datum inData with
    | inl before => exact depicts.closed number record isKnown found datum (List.mem_append_left _ before)
    | inr same => exact same ▸ among

theorem setsPart {part : Part} {cell value : Datum} {answer : Answer} (cellAmong : cell.Among known)
    (among : value.Among known)
    (ran : (((Request.setPart part cell value).operation names).perform heap).run machine =
      .ok (after, answer) final) :
    after = heap ∧ (store.update (.setPart part cell value)).Depicts known names heap final entries ∧
      (store.reply (.setPart part cell value)).Shown names answer := by
  obtain ⟨done, same, acts⟩ := Action.of_run_map ran
  cases same
  simp only [Heap.setFieldOf, Heap.fieldAddress?] at acts
  rw [Action.run_bind (show Action.memory.run machine = .ok machine.memory machine from rfl)] at acts
  refine ⟨rfl, ?_⟩
  obtain ⟨none, other⟩ | ⟨number, record, rfl, isKnown, found, tagged, shown, result⟩ :=
    depicts.objectOf?_eq Tag.pair cellAmong
  · rw [none] at acts
    cases acts
    -- The cell is no pair, so that both the store and the heap stay as they are.
    have missing : (store.look cell).bind (Record.part? part) = Option.none :=
      Option.bind_eq_none_iff.mpr fun record found => Record.part?_eq_none (other record found) part
    have same : store.modifyAt (Record.setPart part value) cell = store :=
      Store.modifyAt_eq fun record found => Record.setPart_eq (other record found) part value
    simp only [Store.update, same, Store.reply, missing]
    exact ⟨depicts, rfl⟩
  · rw [result] at acts
    obtain ⟨car, cdr, rfl⟩ := Record.eq_pair tagged
    cases acts
    have slot : Shape.pair.Slot machine.memory (names number) part.offset := by
      apply Shape.slot_pair.mpr
      cases part with
      | car => exact .inl rfl
      | cdr => exact .inr rfl
    have whole := depicts.aligned isKnown
    refine ⟨depicts.write isKnown found slot among ?_ ?_ (fun record => (record.links_setPart _ _).1)
      (fun record => (record.links_setPart _ _).2.1) (fun record => (record.links_setPart _ _).2.2), ?_⟩
    · have car := shown.holds.1
      have cdr := shown.holds.2
      cases part with
      | car =>
          refine ⟨?_, ?_⟩
          · rw [Machine.memory_withMemory, Part.offset, Memory.value_write _ whole rfl rfl, if_pos rfl]
          · rw [Machine.memory_withMemory, Part.offset, Memory.value_write _ whole rfl rfl,
              if_neg (by decide), cdr]
      | cdr =>
          refine ⟨?_, ?_⟩
          · rw [Machine.memory_withMemory, Part.offset, Memory.value_write _ whole rfl rfl,
              if_neg (by decide), car]
          · rw [Machine.memory_withMemory, Part.offset, Memory.value_write _ whole rfl rfl, if_pos rfl]
    · intro datum inData
      cases part <;> simp [Record.data, Record.setPart] at inData ⊢ <;> tauto
    · simp [Store.reply, found, Record.part?, Reply.Shown]

theorem setsElement {vector value : Datum} {answer : Answer} (vectorAmong : vector.Among known)
    (among : value.Among known)
    (ran : (((Request.setElement vector index value).operation names).perform heap).run machine =
      .ok (after, answer) final) :
    after = heap ∧
      (store.update (.setElement vector index value)).Depicts known names heap final entries ∧
      (store.reply (.setElement vector index value)).Shown names answer := by
  obtain ⟨done, same, acts⟩ := Action.of_run_map ran
  cases same
  simp only [Heap.vectorSet] at acts
  rw [Action.run_bind (show Action.memory.run machine = .ok machine.memory machine from rfl)] at acts
  refine ⟨rfl, ?_⟩
  obtain ⟨none, missing⟩ | ⟨number, elements, element, rfl, isKnown, found, listed, place⟩ :=
    depicts.elementAddress_eq index vectorAmong
  · rw [none] at acts
    cases acts
    -- There is no such element, so that both the store and the heap stay as they are.
    have same : store.modifyAt (Record.setElement index value) vector = store := by
      refine Store.modifyAt_eq fun record found => ?_
      cases record with
      | vector elements =>
          simp only [found, Option.bind_some, Record.elements?, List.getElem?_eq_none_iff] at missing
          simp only [Record.setElement, List.set_eq_of_length_le missing]
      | context | pair | bytes => rfl
    simp only [Store.update, same, Store.reply, missing]
    exact ⟨depicts, rfl⟩
  · rw [place] at acts
    cases acts
    have whole := depicts.aligned isKnown
    obtain ⟨tiling, accounted⟩ := depicts.accounted
    obtain ⟨_, _, _, shown, _⟩ := depicts.block accounted isKnown found
    obtain ⟨few, length, held⟩ := shown.holds
    have inside : index < elements.length := (List.getElem?_eq_some_iff.mp listed).1
    have slot : Shape.vector.Slot machine.memory (names number)
        (Layout.Sequence.contents + index * wordBytes) := by
      refine Shape.slot_vector.mpr ⟨index, ?_, by rw [Nat.mul_comm]⟩
      rw [Order.stored_fixnum few length]
      simp only [Size.saturate, Size.limit]
      omega
    refine ⟨depicts.write isKnown found slot among ⟨?_, ?_, fun other datum otherListed => ?_⟩ ?_
      (fun record => (record.links_setElement _ _).1) (fun record => (record.links_setElement _ _).2.1)
      (fun record => (record.links_setElement _ _).2.2), ?_⟩
    · rwa [List.length_set]
    · rw [List.length_set, ← length, Machine.memory_withMemory, Memory.read_write_ne]
      simp only [Layout.Sequence.length, Layout.Sequence.contents, wordBytes]
      omega
    · simp only [Layout.Sequence.contents, wordBytes]
      rw [Machine.memory_withMemory, Memory.value_write _ whole (by omega) (by omega)]
      rw [List.getElem?_set] at otherListed
      by_cases here : index = other
      · rw [if_pos here, if_pos inside] at otherListed
        rw [if_pos (by omega), Option.some.inj otherListed]
      · rw [if_neg here] at otherListed
        rw [if_neg (by omega)]
        exact held other datum otherListed
    · intro datum inData
      exact List.mem_or_eq_of_mem_set inData
    · simp [Store.reply, Store.look, found, Record.elements?, listed, Reply.Shown]

theorem setsEnvironment {handle : Nat} {value : Datum} (isKnown : known handle)
    (isContext : store.IsContext handle) (among : value.Among known) :
    (store.update (.setEnvironment handle value)).Depicts known names heap
      (machine.withMemory ((Context.mk (names handle)).setEnvironment machine.memory (value.value names)))
      entries := by
  obtain ⟨record, found, tagged⟩ := isContext
  obtain ⟨parent, environment, frames, rfl⟩ := Record.eq_context tagged
  have whole := depicts.aligned isKnown
  obtain ⟨tiling, accounted⟩ := depicts.accounted
  obtain ⟨_, _, _, shown, _⟩ := depicts.block accounted isKnown found
  obtain ⟨parentHeld, _, chained⟩ := shown.holds
  refine depicts.write isKnown found (Shape.slot_context.mpr (.inr rfl)) among ⟨?_, ?_, ?_⟩ ?_
    (fun record => (record.links_setEnvironment _).1) (fun record => (record.links_setEnvironment _).2.1)
    (fun record => (record.links_setEnvironment _).2.2)
  · rw [Machine.memory_withMemory, Memory.value_write _ whole rfl rfl, if_neg (by decide), parentHeld]
  · rw [Machine.memory_withMemory, Memory.value_write _ whole rfl rfl, if_pos rfl]
  · have link : (Context.mk (names handle)).saves (machine.memory.write
        (names handle + Layout.Context.environment) (value.value names).bits) =
        (Context.mk (names handle)).saves machine.memory := by
      refine congrArg UInt64.toNat (Memory.read_write_ne ?_)
      simp only [Layout.Context.saves, Layout.Context.environment]
      omega
    rw [Machine.memory_withMemory, link]
    exact chained.congr fun _ _ => rfl
  · intro datum inData
    simp only [Record.data, Record.setEnvironment, List.mem_cons, List.not_mem_nil, or_false]
      at inData ⊢
    tauto

end Writing

end Store.Depicts

end SlabHeap
