import SlabHeap.Proofs.Updates

namespace SlabHeap

/-! Saving in frames, in a heap that depicts a store.

One frame changes at a time, `Store.Depicts.reframe`. It may join the frames of its context or leave them
then, `Store.Depicts.rechain`; else all objects stay as they are, `Store.Depicts.refill`.
-/

namespace Saving

variable {saving : Saving} {names : Nat → Nat} {frame : Frame} {index : Nat} {datum value : Datum}

theorem mem_values : datum ∈ saving.values ↔ ∃ index < saving.size, saving.slots index = datum := by
  simp only [values, List.mem_map, List.mem_range]

theorem mem_values_set (held : datum ∈ (saving.set index value).values) :
    datum ∈ saving.values ∨ datum = value := by
  obtain ⟨other, inside, rfl⟩ := mem_values.mp held
  simp only [set, Function.update_apply]
  split
  · exact .inr rfl
  · exact .inl (mem_values.mpr ⟨other, inside, rfl⟩)

theorem mem_values_save (held : datum ∈ (saving.save value).values) :
    datum ∈ saving.values ∨ datum = value := by
  obtain ⟨other, inside, rfl⟩ := mem_values.mp held
  simp only [save, set, Function.update_apply] at inside ⊢
  split
  · exact .inr rfl
  · exact .inl (mem_values.mpr ⟨other, by omega, rfl⟩)

theorem among_set {alive : Nat → Prop} (slots : ∀ other, (saving.slots other).Among alive)
    (among : value.Among alive) (other : Nat) : ((saving.set index value).slots other).Among alive := by
  simp only [set, Function.update_apply]
  split
  · exact among
  · exact slots other

/-- A frame that holds nothing is in no list of frames. -/
theorem Shown.unlinked (shown : saving.Shown names frame) (empty : saving.size = 0) : frame.linked = false := by
  rw [← Bool.not_eq_true, shown.linked, not_not]
  exact empty

theorem Shown.set (shown : saving.Shown names frame) (has : saving.Has index) :
    (saving.set index value).Shown names (frame.set index (value.value names)) where
  context := Frame.links_set.2.1.trans shown.context
  wellFormed := Frame.wellFormed_set shown.wellFormed
  size := Frame.size_set.trans shown.size
  linked := by
    rw [Frame.links_set.1]
    exact shown.linked
  slots other inside := by
    rw [Frame.get_set (shown.slots index has)]
    simp only [Saving.set, Function.update_apply]
    split
    · rfl
    · exact shown.slots other inside

theorem Shown.save (shown : saving.Shown names frame) (machine : Machine) :
    (saving.save value).Shown names ((machine.linking frame).save (value.value names)) := by
  obtain ⟨context, size, wellFormed, got⟩ := machine.linking_values frame
  refine ⟨?_, ?_, ?_, ?_, fun index has => ?_⟩
  · exact Frame.links_save.2.1.trans (context.trans shown.context)
  · exact Frame.wellFormed_save (wellFormed.mpr shown.wellFormed) _
  · rw [Frame.size_save, size, shown.size]
    rfl
  · rw [Frame.links_save.1]
    exact iff_of_true (machine.linked_linking frame) (Nat.succ_ne_zero _)
  · simp only [Has, Saving.save, Saving.set] at has
    rw [Frame.get_save (wellFormed.mpr shown.wellFormed) _ (by rw [size, shown.size]; omega), size, got,
      shown.size]
    simp only [Saving.save, Saving.set, Function.update_apply]
    split
    · rfl
    · exact shown.slots index (by simp only [Has]; omega)

end Saving

namespace Record

theorem links_relink (change : List Nat → List Nat) (record : Record) :
    (record.relink change).tag = record.tag ∧ (record.relink change).parent? = record.parent? ∧
      (record.relink change).data = record.data := by
  cases record with
  | context parent => cases parent <;> exact ⟨rfl, rfl, rfl⟩
  | pair | vector | bytes => exact ⟨rfl, rfl, rfl⟩

theorem relink_id : Record.relink id = id := by
  funext record
  cases record <;> rfl

end Record

namespace Store.Depicts

variable {store next : Store} {known : Nat → Prop} {names : Nat → Nat} {heap after : Heap}
  {machine final : Machine} {entries : List Block} {number frame index : Nat} {record : Record}
  {saving : Option Saving} {before : Saving} {value : Datum} {answer : Answer}
  {change : List Nat → List Nat}

section Frames

variable (depicts : store.Depicts known names heap machine entries)
  (saved : next.frames = Function.update store.frames frame saving)
  (globals : next.globals = store.globals)
  (accounted : ∃ tiling, heap.Accounted tiling final entries) (orderly : final.Orderly)
  (opened : final.frames.size = next.opened)
  (others : ∀ other, other ≠ frame → final.frame? other = machine.frame? other)
  (given : ∀ held ∈ saving, (∃ place, final.frame? frame = some place ∧ held.Shown names place) ∧
    held.context < store.records.length ∧
      ∀ index, (held.slots index).Among (· < store.records.length))

include depicts saved globals accounted orderly opened others given

/-- One frame changed, and the frames of one object perhaps. -/
theorem reframe (records : next.records = store.records.modify number (Record.relink change))
    (fewer : ∀ numbers, ∀ other ∈ change numbers, other = frame ∨ other ∈ numbers)
    (shown : ∀ other record, known other → next.records[other]? = some record →
      record.Shown names final (names other))
    (linked : ∀ other record, known other → next.records[other]? = some record →
      frame ∈ record.frames → ∃ held, saving = some held ∧ held.context = other ∧ held.size ≠ 0 ∧
        ∀ datum ∈ held.values, datum.Among known) :
    next.Depicts known names heap final entries := by
  -- A record holds what it held, and on its chain only the frame is new.
  have earlier {other : Nat} {record : Record} (found : next.records[other]? = some record) :
      ∃ before, store.records[other]? = some before ∧ record.data = before.data ∧
        ∀ later ∈ record.frames, later = frame ∨ later ∈ before.frames := by
    rw [records, List.getElem?_modify, Option.map_eq_map, Option.map_eq_some_iff] at found
    obtain ⟨before, was, rfl⟩ := found
    refine ⟨before, was, ?_⟩
    split
    · refine ⟨(before.links_relink change).2.2, fun later listed => ?_⟩
      cases before with
      | context parent environment frames => exact fewer frames later listed
      | pair | vector | bytes => cases listed
    · exact ⟨rfl, fun later => .inr⟩
  have still {later : Nat} (distinct : later ≠ frame) : next.frames later = store.frames later := by
    rw [saved, Function.update_of_ne distinct]
  have own : next.frames frame = saving := by rw [saved, Function.update_self]
  refine depicts.become records globals (fun record => (record.links_relink change).1)
    (fun record => (record.links_relink change).2.1) accounted orderly opened
    (fun other record size isKnown found _ => shown other record isKnown found) ?_ ?_ ?_ ?_
  · intro other record isKnown found datum held
    obtain ⟨before, was, data, frames⟩ := earlier found
    cases List.mem_append.mp held with
    | inl inData =>
        exact depicts.closed other before isKnown was datum (List.mem_append_left _ (data ▸ inData))
    | inr inFrames =>
        obtain ⟨later, listed, inFrame⟩ := List.mem_flatMap.mp inFrames
        by_cases same : later = frame
        · subst same
          obtain ⟨held, rfl, _, _, values⟩ := linked other record isKnown found listed
          rw [Store.saved, own] at inFrame
          exact values datum inFrame
        · rw [Store.saved, still same] at inFrame
          have listed := (frames later listed).resolve_left same
          exact depicts.closed other before isKnown was datum
            (List.mem_append_right _ (List.mem_flatMap.mpr ⟨later, listed, inFrame⟩))
  · intro other record isKnown found later listed
    obtain ⟨before, was, _, frames⟩ := earlier found
    by_cases same : later = frame
    · subst same
      obtain ⟨held, rfl, owner, filled, _⟩ := linked other record isKnown found listed
      exact ⟨held, own, owner, filled⟩
    · rw [still same]
      exact depicts.linked other before isKnown was later ((frames later listed).resolve_left same)
  · intro later held found
    by_cases same : later = frame
    · subst same
      exact (given held (own.symm.trans found)).1
    · rw [still same] at found
      obtain ⟨place, present, shown⟩ := depicts.frames later held found
      exact ⟨place, (others later same).trans present, shown⟩
  · intro later held found
    by_cases same : later = frame
    · subst same
      exact (given held (own.symm.trans found)).2
    · rw [still same] at found
      exact depicts.numbered later held found

/-- One frame changed, but no link. -/
theorem refill (records : next.records = store.records) (memory : final.memory = machine.memory)
    (links : ∀ held, machine.frame? frame = some held → held.linked = true →
      ∃ changed, final.frame? frame = some changed ∧ changed.linked = held.linked ∧
        changed.context = held.context ∧ changed.outer = held.outer)
    (linked : ∀ before, store.frames frame = some before → before.size ≠ 0 →
      ∃ held, saving = some held ∧ held.context = before.context ∧ held.size ≠ 0 ∧
        ∀ datum ∈ held.values, datum ∈ before.values ∨ datum.Among known) :
    next.Depicts known names heap final entries := by
  have keeps (context : Context) : machine.KeepsLinks final context := by
    intro other held found isLinked owned
    by_cases same : other = frame
    · subst same
      exact links held found isLinked
    · exact ⟨held, (others other same).trans found, rfl, rfl, rfl⟩
  have unchanged : next.records = store.records.modify 0 (Record.relink id) := by
    rw [Record.relink_id, List.modify_id, records]
  refine depicts.reframe saved globals accounted orderly opened others given unchanged
    (fun numbers other => .inr) ?_ ?_
  · intro other record isKnown found
    rw [records] at found
    obtain ⟨tiling, before⟩ := depicts.accounted
    obtain ⟨size, _, _, shown, large, _⟩ := depicts.block before isKnown found
    refine shown.keep large ?_ (keeps _)
    rw [memory]
    exact .refl _ _
  · intro other record isKnown found listed
    rw [records] at found
    obtain ⟨before, was, owner, filled⟩ := depicts.linked other record isKnown found frame listed
    obtain ⟨held, same, sameOwner, stillFilled, values⟩ := linked before was filled
    refine ⟨held, same, sameOwner.trans owner, stillFilled, fun datum inFrame => ?_⟩
    refine (values datum inFrame).elim (fun old => ?_) id
    refine depicts.closed other record isKnown found datum (List.mem_append_right _ ?_)
    refine List.mem_flatMap.mpr ⟨frame, listed, ?_⟩
    rw [Store.saved, was]
    exact old

/-- One frame changed, and the frames of its context at their inner end. -/
theorem rechain {place : Frame} {link : Nat} (isKnown : known number)
    (found : store.records[number]? = some record) (tagged : record.tag = Tag.context)
    (present : machine.frame? frame = some place) (owner : place.context = ⟨names number⟩)
    (records : next.records = store.records.modify number (Record.relink change))
    (fewer : ∀ numbers, ∀ other ∈ change numbers, other = frame ∨ other ∈ numbers)
    (memory : final.memory = (Context.mk (names number)).setSaves machine.memory link)
    (small : link < Size.limit) (chained : final.Chained ⟨names number⟩ link (change record.frames))
    (linked : frame ∈ change record.frames → ∃ held, saving = some held ∧ held.context = number ∧
      held.size ≠ 0 ∧ ∀ datum ∈ held.values, datum.Among known) :
    next.Depicts known names heap final entries := by
  obtain ⟨parent, environment, frames, rfl⟩ := Record.eq_context tagged
  obtain ⟨tiling, before⟩ := depicts.accounted
  obtain ⟨own, _, listed, shown, large, _⟩ := depicts.block before isKnown found
  simp only [Record.extent, Layout.Context.size] at large
  have whole := depicts.aligned isKnown
  -- Of all records only the one of the context has another chain.
  have changed {other : Nat} {record : Record} (isRecord : next.records[other]? = some record) :
      other = number ∧ record = .context parent environment (change frames) ∨
        other ≠ number ∧ store.records[other]? = some record := by
    rw [records, List.getElem?_modify] at isRecord
    by_cases same : number = other
    · subst same
      rw [found] at isRecord
      simp only [if_true, Option.map_eq_map, Option.map_some, Option.some.injEq] at isRecord
      exact .inl ⟨rfl, isRecord.symm⟩
    · simp only [same, if_false] at isRecord
      exact .inr ⟨Ne.symm same, Option.map_id_apply.symm.trans isRecord⟩
  -- Frames of other contexts are other frames.
  have foreign {other later : Nat} {held : Frame} (otherKnown : known other) (distinct : other ≠ number)
      (isFrame : machine.frame? later = some held) (owned : held.context = ⟨names other⟩) :
      later ≠ frame := by
    intro same
    subst same
    obtain rfl := Option.some.inj (present.symm.trans isFrame)
    exact distinct (depicts.injective other number otherKnown isKnown
      (congrArg Context.address (owned.symm.trans owner)))
  refine depicts.reframe saved globals accounted orderly opened others given records fewer ?_ ?_
  · intro other record otherKnown isRecord
    obtain ⟨rfl, rfl⟩ | ⟨distinct, was⟩ := changed isRecord
    · obtain ⟨tag, parentHeld, environmentHeld, _⟩ := shown
      have apart (offset : Nat) (beside : offset + 8 ≤ Layout.Context.saves ∨
          Layout.Context.saves + 8 ≤ offset) :
          final.memory.read (names other + offset) = machine.memory.read (names other + offset) := by
        rw [memory, Context.setSaves, Memory.read_write_ne]
        simp only [Layout.Context.saves] at beside ⊢
        omega
      refine ⟨?_, ?_, ?_, ?_⟩
      · have header : final.memory.tag (names other) = machine.memory.tag (names other) :=
          congrArg (Header.tag ∘ Header.ofWord) (apart 0 (.inl (by decide)))
        exact header.trans tag
      · exact (congrArg Value.mk (apart _ (.inr (by decide)))).trans parentHeld
      · exact (congrArg Value.mk (apart _ (.inr (by decide)))).trans environmentHeld
      · rw [memory, Context.saves_setSaves small]
        exact chained
    · obtain ⟨size, _, otherListed, otherShown, otherLarge, _⟩ := depicts.block before otherKnown was
      refine otherShown.keep otherLarge ?_ fun later held isFrame _ owned =>
        ⟨held, (others later (foreign otherKnown distinct isFrame owned)).trans isFrame, rfl, rfl, rfl⟩
      rw [memory]
      exact depicts.stays_beside isKnown listed (by decide) (by simp only [Layout.Context.saves]; omega)
        otherKnown distinct otherListed
  · intro other record otherKnown isRecord inFrames
    obtain ⟨rfl, rfl⟩ | ⟨distinct, was⟩ := changed isRecord
    · exact linked inFrames
    · obtain ⟨held, isSaved, ownedBy, _⟩ := depicts.linked other record otherKnown was frame inFrames
      obtain ⟨inner, isFrame, innerShown⟩ := depicts.frames frame held isSaved
      exact absurd rfl (foreign otherKnown distinct isFrame (ownedBy ▸ innerShown.context))

end Frames

section Requests

variable (depicts : store.Depicts known names heap machine entries)

include depicts

theorem opens {context : Nat} (apt : (Request.openFrame context).Apt store known)
    (ran : (((Request.openFrame context).operation names).perform heap).run machine =
      .ok (after, answer) final) :
    after = heap ∧ (store.update (.openFrame context)).Depicts known names heap final entries ∧
      (store.reply (.openFrame context)).Shown names answer := by
  obtain ⟨⟨isKnown, _⟩, addressed⟩ := apt
  cases ran
  obtain ⟨tiling, accounted⟩ := depicts.accounted
  have opened := depicts.opened
  have proceeds : heap.Proceeds heap machine
      { machine with frames := machine.frames.push (some { context := ⟨names context⟩ }) } entries :=
    (accounted.edits (accounted.consistent.upheld.opens depicts.orderly (opened ▸ addressed))).toProceeds
  have new : machine.frame? store.opened = none := by
    simp only [Machine.frame?, ← opened, Array.getElem?_size]
    rfl
  refine ⟨rfl, ?_, opened⟩
  refine depicts.refill rfl rfl proceeds.accounted proceeds.orderly ?_ (fun other distinct => ?_)
    (fun held isHeld => ?_) rfl rfl (fun held present => ?_) fun before was => ?_
  · simp only [Array.size_push, Store.update, opened]
  · rw [Machine.frame?_push, if_neg (opened ▸ distinct)]
  · obtain rfl := Option.some.inj isHeld
    refine ⟨⟨{ context := ⟨names context⟩ }, ?_, ?_⟩, depicts.lt_length isKnown, fun _ => rfl⟩
    · rw [Machine.frame?_push, if_pos opened.symm]
    · refine ⟨rfl, ⟨Nat.zero_le _, fun _ => rfl⟩, rfl, by simp, fun index has => ?_⟩
      have fits : index < 16 := by simpa [Saving.Has] using has
      simp [Frame.get, fits, Datum.value]
  · rw [new] at present
    cases present
  · obtain ⟨place, present, _⟩ := depicts.frames _ before was
    rw [new] at present
    cases present

theorem replaces (apt : (Request.replace frame index value).Apt store known)
    (ran : (((Request.replace frame index value).operation names).perform heap).run machine =
      .ok (after, answer) final) :
    after = heap ∧ (store.update (.replace frame index value)).Depicts known names heap final entries ∧
      (store.reply (.replace frame index value)).Shown names answer := by
  obtain ⟨among, saving, saved, has⟩ := apt
  obtain ⟨⟨⟩, same, acts⟩ := Action.of_run_map ran
  cases same
  obtain ⟨place, present, shown⟩ := depicts.frames frame saving saved
  obtain ⟨memory, reframed⟩ := (Machine.ensures_replaceValue present (shown.slots index has)).of_run acts
  obtain ⟨tiling, accounted⟩ := depicts.accounted
  obtain ⟨owned, slots⟩ := depicts.numbered frame saving saved
  have consistent := accounted.consistent.renew <|
    accounted.consistent.upheld.refill present memory reframed Frame.links_set
    fun other held => (Frame.mem_values_set held).imp_right fun same => by
      rw [same]
      exact accounted.denotes (depicts.refers among)
  refine ⟨rfl, ?_, trivial⟩
  simp only [Store.update, saved]
  refine depicts.refill rfl rfl ⟨tiling, consistent, accounted.records⟩
    (reframed.orderly depicts.orderly ?_) (reframed.count.trans depicts.opened) reframed.others
    (fun held isHeld => ?_) rfl memory (fun held isHeld _ => ?_) fun before was filled => ?_
  · intro changed isChanged unlinked
    obtain rfl := Option.some.inj isChanged
    rw [Frame.links_set.1] at unlinked
    exact Frame.size_set.trans (depicts.orderly.unlinked frame place present unlinked)
  · obtain rfl := Option.some.inj isHeld
    exact ⟨⟨_, reframed.frame, shown.set has⟩, owned, Saving.among_set slots
      (among.mono fun _ => depicts.lt_length)⟩
  · obtain rfl := Option.some.inj (present.symm.trans isHeld)
    exact ⟨_, reframed.frame, Frame.links_set⟩
  · obtain rfl := Option.some.inj (saved.symm.trans was)
    refine ⟨_, rfl, rfl, filled, fun datum held => ?_⟩
    refine (Saving.mem_values_set held).imp_right fun same => ?_
    rw [same]
    exact among

section Save

variable {saving : Saving} {place : Frame} (saved : store.frames frame = some saving)
  (present : machine.frame? frame = some place) (shown : saving.Shown names place) (among : value.Among known)
  (memory : final.memory = machine.linkingMemory frame place)
  (reframed : machine.Reframed final frame (some ((machine.linking place).save (value.value names))))

omit depicts in
include among in
theorem among_values_save {datum : Datum} (held : datum ∈ (saving.save value).values) :
    datum ∈ saving.values ∨ datum.Among known := by
  refine (Saving.mem_values_save held).imp_right fun same => ?_
  rw [same]
  exact among

include reframed in
theorem orderly_save : final.Orderly := by
  refine reframed.orderly depicts.orderly fun changed isChanged unlinked => ?_
  obtain rfl := Option.some.inj isChanged
  rw [Frame.links_save.1, Machine.linked_linking] at unlinked
  cases unlinked

include saved shown among reframed

theorem given_save : ∀ held ∈ some (saving.save value),
    (∃ place, final.frame? frame = some place ∧ held.Shown names place) ∧
      held.context < store.records.length ∧
        ∀ index, (held.slots index).Among (· < store.records.length) := by
  intro held isHeld
  obtain rfl := Option.some.inj isHeld
  obtain ⟨owned, slots⟩ := depicts.numbered frame saving saved
  exact ⟨⟨_, reframed.frame, shown.save machine⟩, owned, Saving.among_set slots
    (among.mono fun _ => depicts.lt_length)⟩

include present memory

/-- With its first value a frame joins those of its context, as the innermost one. -/
theorem saves_first (empty : saving.size = 0) (isKnown : known saving.context)
    (found : store.records[saving.context]? = some record) (tagged : record.tag = Tag.context) :
    ((store.modify saving.context (Record.relink (frame :: ·))).putFrame frame
      (some (saving.save value))).Depicts known names heap final entries := by
  obtain ⟨tiling, accounted⟩ := depicts.accounted
  have unlinked := shown.unlinked empty
  obtain ⟨_, _, listed, recordShown, _⟩ := depicts.block accounted isKnown found
  have isContext : heap.IsContext tiling machine.memory place.context := by
    rw [shown.context]
    exact accounted.isContext ⟨_, listed, rfl⟩ (recordShown.tag.trans tagged)
  have consistent := accounted.consistent.renew (accounted.consistent.upheld.save present
    depicts.orderly isContext memory reframed (accounted.denotes (depicts.refers among)))
  simp only [Machine.linkingMemory, unlinked, Bool.false_eq_true, if_false, shown.context] at memory
  refine depicts.rechain rfl rfl ⟨tiling, consistent, accounted.records⟩ (depicts.orderly_save reframed)
    (reframed.count.trans depicts.opened) reframed.others (depicts.given_save saved shown among reframed) isKnown
    found tagged present shown.context rfl (fun numbers other => List.mem_cons.mp) memory
    (depicts.orderly.address_lt present) ?_ fun _ => ?_
  · obtain ⟨parent, environment, frames, rfl⟩ := Record.eq_context tagged
    obtain ⟨_, _, chained⟩ := recordShown.holds
    refine ⟨rfl, _, reframed.frame, Frame.links_save.1.trans (machine.linked_linking place),
      Frame.links_save.2.1.trans ((machine.linking_values place).1.trans shown.context), ?_⟩
    have outer : ((machine.linking place).save (value.value names)).outer =
        (Context.mk (names saving.context)).saves machine.memory := by
      rw [Frame.links_save.2.2, Machine.linking, unlinked, ← shown.context]
      rfl
    rw [outer]
    -- The frames of the context were linked, so the one that joins is none of them.
    refine chained.congr fun other listed => reframed.others other fun same => ?_
    subst same
    obtain ⟨_, isHeld, linked, _⟩ := chained.present listed
    obtain rfl := Option.some.inj (present.symm.trans isHeld)
    rw [unlinked] at linked
    cases linked
  · refine ⟨_, rfl, rfl, Nat.succ_ne_zero _, fun datum held => ?_⟩
    refine (among_values_save among held).elim (fun old => ?_) id
    simp [Saving.values, empty] at old

/-- A frame that holds values stays where it is among those of its context. -/
theorem saves_further (filled : saving.size ≠ 0) :
    (store.putFrame frame (some (saving.save value))).Depicts known names heap final entries := by
  obtain ⟨tiling, accounted⟩ := depicts.accounted
  have orderly := depicts.orderly_save reframed
  have given := depicts.given_save saved shown among reframed
  have linked : place.linked = true := shown.linked.mpr filled
  simp only [Machine.linkingMemory, Machine.linking, linked, if_true] at memory reframed
  have consistent := accounted.consistent.renew <|
    accounted.consistent.upheld.refill present memory reframed Frame.links_save
    fun other held => (Frame.mem_values_save held).imp_right fun same => by
      rw [same]
      exact accounted.denotes (depicts.refers among)
  refine depicts.refill rfl rfl ⟨tiling, consistent, accounted.records⟩ orderly
    (reframed.count.trans depicts.opened) reframed.others given rfl memory (fun held isHeld _ => ?_)
    fun before was filled => ?_
  · obtain rfl := Option.some.inj (present.symm.trans isHeld)
    exact ⟨_, reframed.frame, Frame.links_save⟩
  · obtain rfl := Option.some.inj (saved.symm.trans was)
    exact ⟨_, rfl, rfl, Nat.succ_ne_zero _, fun datum => among_values_save among⟩

end Save

theorem saves (apt : (Request.save frame value).Apt store known)
    (ran : (((Request.save frame value).operation names).perform heap).run machine =
      .ok (after, answer) final) :
    after = heap ∧ (store.update (.save frame value)).Depicts known names heap final entries ∧
      (store.reply (.save frame value)).Shown names answer := by
  obtain ⟨among, saving, saved, owner⟩ := apt
  obtain ⟨place, present, shown⟩ := depicts.frames frame saving saved
  obtain ⟨unchanged, ⟨none, _⟩ | ⟨held, isHeld, acts⟩⟩ := Operation.of_onFrame ran
  · rw [present] at none
    cases none
  obtain rfl := Option.some.inj (present.symm.trans isHeld)
  obtain ⟨size, same, saves⟩ := Action.of_run_map acts
  obtain ⟨counts, memory, reframed⟩ := (Machine.ensures_saveValue present).of_run saves
  refine ⟨unchanged, ?_, ?_⟩
  · simp only [Store.update, saved]
    by_cases empty : saving.size = 0
    · obtain ⟨isKnown, record, found, tagged⟩ := owner empty
      rw [if_pos empty]
      exact depicts.saves_first saved present shown among memory reframed empty isKnown found tagged
    · rw [if_neg empty]
      exact depicts.saves_further saved present shown among memory reframed empty
  · simp [same, Store.reply, saved, Reply.Shown, counts, shown.size]

section Drop

variable {saving : Saving} {place : Frame} (saved : store.frames frame = some saving)
  (present : machine.frame? frame = some place) (shown : saving.Shown names place)
  (drops : (Action.dropFrame frame place).run machine = .ok () final)

include saved present shown drops

theorem drops_empty (empty : saving.size = 0) :
    (store.putFrame frame none).Depicts known names heap final entries := by
  obtain ⟨tiling, accounted⟩ := depicts.accounted
  have unlinked := shown.unlinked empty
  obtain ⟨memory, reframed⟩ := (Machine.ensures_dropFrame present (by simp [unlinked])).of_run drops
  simp only [unlinked, Bool.false_eq_true, if_false] at memory
  have consistent := accounted.consistent.renew
    (accounted.consistent.upheld.discard present unlinked memory reframed)
  refine depicts.refill rfl rfl ⟨tiling, consistent, accounted.records⟩
    (reframed.orderly depicts.orderly (by simp)) (reframed.count.trans depicts.opened) reframed.others
    (by simp) rfl memory (fun held isHeld linked => ?_) fun before was filled => ?_
  · obtain rfl := Option.some.inj (present.symm.trans isHeld)
    rw [unlinked] at linked
    cases linked
  · obtain rfl := Option.some.inj (saved.symm.trans was)
    exact absurd empty filled

omit saved in
/-- The innermost frame of a context leaves the others to it. -/
theorem drops_first (filled : saving.size ≠ 0) (isKnown : known saving.context)
    (found : store.records[saving.context]? = some record) (tagged : record.tag = Tag.context)
    (first : record.frames.head? = some frame) :
    ((store.modify saving.context (Record.relink List.tail)).putFrame frame none).Depicts known names heap final
      entries := by
  obtain ⟨tiling, accounted⟩ := depicts.accounted
  have linked : place.linked = true := shown.linked.mpr filled
  obtain ⟨parent, environment, frames, rfl⟩ := Record.eq_context tagged
  obtain ⟨_, _, listed, recordShown, _⟩ := depicts.block accounted isKnown found
  obtain ⟨rest, rfl⟩ : ∃ rest, frames = frame :: rest := List.head?_eq_some_iff.mp first
  obtain ⟨_, _, chained⟩ := recordShown.holds
  -- A chain passes a frame once, so that none of those that stay is dropped.
  have distinct := (List.nodup_cons.mp chained.nodup).1
  obtain ⟨starts, inner, isInner, _, _, further⟩ := chained
  obtain rfl := Option.some.inj (present.symm.trans isInner)
  have isContext : heap.IsContext tiling machine.memory place.context := by
    rw [shown.context]
    exact accounted.isContext ⟨_, listed, rfl⟩ recordShown.tag
  have ordered : place.context.saves machine.memory = Machine.frameAddress frame := by
    rw [shown.context]
    exact starts
  obtain ⟨memory, reframed⟩ := (Machine.ensures_dropFrame present fun _ => ordered).of_run drops
  simp only [linked, if_true] at memory
  have consistent := accounted.consistent.renew (accounted.consistent.upheld.unlink present
    depicts.orderly isContext ordered memory reframed)
  have small : place.outer < Size.limit := by
    cases rest with
    | nil =>
        have ends : place.outer = 0 := further
        rw [ends]
        decide
    | cons next _ =>
        obtain ⟨starts, _, isNext, _⟩ := further
        rw [starts]
        exact depicts.orderly.address_lt isNext
  refine depicts.rechain rfl rfl ⟨tiling, consistent, accounted.records⟩
    (reframed.orderly depicts.orderly (by simp)) (reframed.count.trans depicts.opened) reframed.others
    (by simp) isKnown found tagged present shown.context rfl (fun numbers other => .inr ∘ List.mem_of_mem_tail)
    (shown.context ▸ memory) small ?_ fun again => absurd again distinct
  exact further.congr fun other inRest => reframed.others other fun same => distinct (same ▸ inRest)

end Drop

theorem drops (apt : (Request.dropFrame frame).Apt store known)
    (ran : (((Request.dropFrame frame).operation names).perform heap).run machine =
      .ok (after, answer) final) :
    after = heap ∧ (store.update (.dropFrame frame)).Depicts known names heap final entries ∧
      (store.reply (.dropFrame frame)).Shown names answer := by
  obtain ⟨saving, saved, owner⟩ := apt
  obtain ⟨place, present, shown⟩ := depicts.frames frame saving saved
  obtain ⟨unchanged, ⟨none, _⟩ | ⟨held, isHeld, acts⟩⟩ := Operation.of_onFrame ran
  · rw [present] at none
    cases none
  obtain rfl := Option.some.inj (present.symm.trans isHeld)
  obtain ⟨⟨⟩, rfl, drops⟩ := Action.of_run_map acts
  refine ⟨unchanged, ?_, trivial⟩
  simp only [Store.update, saved]
  by_cases empty : saving.size = 0
  · rw [if_pos empty]
    exact depicts.drops_empty saved present shown drops empty
  · obtain ⟨isKnown, record, found, tagged, first⟩ := owner empty
    rw [if_neg empty]
    exact depicts.drops_first present shown drops empty isKnown found tagged first

theorem recalls (apt : (Request.saved frame index).Apt store known)
    (ran : (((Request.saved frame index).operation names).perform heap).run machine =
      .ok (after, answer) final) :
    after = heap ∧ final = machine ∧ (store.reply (.saved frame index)).Shown names answer := by
  obtain ⟨saving, saved, has⟩ := apt
  obtain ⟨place, present, shown⟩ := depicts.frames frame saving saved
  obtain ⟨unchanged, ⟨none, _⟩ | ⟨held, isHeld, acts⟩⟩ := Operation.of_onFrame ran
  · rw [present] at none
    cases none
  obtain rfl := Option.some.inj (present.symm.trans isHeld)
  rw [shown.slots index has] at acts
  cases acts
  refine ⟨unchanged, rfl, ?_⟩
  simp only [Store.reply, saved, Option.map_some, Option.getD_some, Reply.Shown]

end Requests

end Store.Depicts

end SlabHeap
