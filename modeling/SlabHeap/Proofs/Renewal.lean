import SlabHeap.Proofs.Savings

namespace SlabHeap

/-! Collections and new objects, in a heap that depicts a store.

A collection may come with any request for storage. It takes only what the program cannot reach,
`Store.Depicts.survive`. What a request makes is an object like its record, `Request.Orders.shown`.
-/

open Block

/-- The order that a request for a new object is to a heap, and what is to come out. -/
structure Request.Orders (request : Request) (names : Nat → Nat) (record : Record) (order : Order) :
    Prop where
  operation : request.operation names = .make order
  tag : order.tag? = some record.tag
  plain : ∀ root tag size, order ≠ .object root tag size
  held : ∀ value ∈ order.held, ∃ datum ∈ request.roots, datum.value names = value
  root : ∀ root ∈ order.root, ∃ number, .object number ∈ request.roots ∧ names number = root.address
  roots : ∀ datum ∈ request.roots,
    datum.value names ∈ order.held ∨ ∃ root ∈ order.root, root.toValue = datum.value names
  data : ∀ datum ∈ record.data,
    datum ∈ request.roots ∨ ∃ value : Value, datum = .atom value ∧ value.address? = none
  unlinked : record.frames = []

namespace Request

variable {request : Request} {record : Record} {order : Order} {names : Nat → Nat}

/-- A request for a new object is an order. -/
theorem ordered (made : request.record? = some record) (names : Nat → Nat) :
    ∃ order, request.Orders names record order := by
  cases request with
  | context origin =>
      obtain rfl := Option.some.inj made
      refine ⟨_, rfl, rfl, by simp, by simp [Order.held], ?_, ?_, ?_, rfl⟩
      · cases origin with
        | none => simp [Order.root]
        | some origin => simp [Order.root, roots]
      · cases origin with
        | none => simp [roots]
        | some origin => simp [Order.root, roots, Context.toValue, Datum.value]
      · intro datum listed
        cases List.mem_cons.mp listed with
        | inl isParent =>
            obtain rfl := isParent
            cases origin with
            | none => exact .inr ⟨.no, rfl, rfl⟩
            | some origin => exact .inl List.mem_cons_self
        | inr isEnvironment => exact .inr ⟨.nil, List.mem_singleton.mp isEnvironment, rfl⟩
  | pair root car cdr =>
      obtain rfl := Option.some.inj made
      refine ⟨_, rfl, rfl, by simp, ?_, fun handle isRoot => ⟨root, ?_⟩, ?_, ?_, rfl⟩
      · simp [Order.held, roots]
      · obtain rfl := Option.some.inj isRoot
        simp [roots]
      · simp [Order.held, Order.root, roots, Context.toValue, Datum.value]
      · simp [Record.data, roots]
  | vector root count value =>
      obtain rfl := Option.some.inj made
      refine ⟨_, rfl, rfl, by simp, ?_, ?_, ?_, ?_, rfl⟩
      · simp [Order.held, roots]
      · simp [Order.root, roots]
      · simp [Order.held, Order.root, roots, Context.toValue, Datum.value]
      · intro datum listed
        obtain rfl := List.eq_of_mem_replicate listed
        exact .inl List.mem_cons_self
  | bytes root contents =>
      obtain rfl := Option.some.inj made
      refine ⟨_, rfl, rfl, by simp, by simp [Order.held], ?_, ?_, by simp [Record.data], rfl⟩
      · simp [Order.root, roots]
      · simp [Order.root, roots, Context.toValue, Datum.value]
  | collect | append | part | setPart | length | element | setElement | contents | environment
  | parent | setEnvironment | openFrame | save | saved | replace | dropFrame => cases made

theorem Orders.shown {shapes : ShapeTable} {final : Machine} {before : Memory}
    {identity start size : Nat} (orders : request.Orders names record order)
    (made : request.record? = some record)
    (furnished : Furnished shapes record.tag order.values start size before final.memory)
    (filled : final.memory = order.fill identity start before) (aligned : start % 16 = 0)
    (large : order.size ≤ size) (small : size < 0x4000000000000000) :
    record.Shown names final start := by
  have operation := orders.operation
  have stored : order.Stored final.memory start := filled ▸ order.stored_fill aligned
  refine ⟨congrArg Header.tag furnished.header, ?_⟩
  cases request with
  | context origin =>
      obtain rfl := Operation.make.inj operation
      obtain rfl := Option.some.inj made
      refine ⟨?_, stored.2, congrArg UInt64.toNat (furnished.saves rfl)⟩
      rw [stored.1]
      cases origin <;> rfl
  | pair root car cdr =>
      obtain rfl := Operation.make.inj operation
      obtain rfl := Option.some.inj made
      exact stored
  | vector root count value =>
      obtain rfl := Operation.make.inj operation
      obtain rfl := Option.some.inj made
      simp only [Order.size, Layout.Sequence.contents, wordBytes] at large
      refine ⟨?_, ?_, fun index datum listed => ?_⟩
      · rw [List.length_replicate]
        omega
      · rw [List.length_replicate]
        exact stored.1
      · have inside : index < count := by
          simpa using (List.getElem?_eq_some_iff.mp listed).1
        obtain rfl := List.eq_of_mem_replicate (List.mem_of_getElem? listed)
        exact stored.2 index inside
  | bytes root contents =>
      obtain rfl := Operation.make.inj operation
      obtain rfl := Option.some.inj made
      simp only [Order.size, Layout.Sequence.contents] at large
      exact ⟨by omega, stored⟩
  | collect | append | part | setPart | length | element | setElement | contents | environment
  | parent | setEnvironment | openFrame | save | saved | replace | dropFrame => cases made

end Request

namespace Store.Depicts

variable {store : Store} {known : Nat → Prop} {names : Nat → Nat} {heap prepared after : Heap}
  {machine mid final : Machine} {entries later : List Block} {tiling divided : Slab → List Block}
  {request : Request} {record : Record} {order : Order} {answer : Answer} {context : Option Context}
  {held : List Value} {data : List Datum} {root : Nat}

variable (depicts : store.Depicts known names heap machine entries)

include depicts

/-- What a heap is prepared for a request with takes nothing that a program can reach. -/
theorem survive (accounted : heap.Accounted tiling machine entries)
    (holds : (heap.holding held).Consistent tiling machine)
    (denotes : ∀ handle ∈ context, (heap.holding held).Denotes tiling handle.toValue)
    (prepares : (heap.holding held).Prepared context tiling machine prepared divided final)
    (among : ∀ datum ∈ data, datum.Among known)
    (listed : ∀ datum ∈ data, datum.value names ∈ (heap.holding held).roots context)
    (remains : later = heap.remaining prepared machine ((heap.holding held).roots context) entries)
    (still : ∃ tiling, after.Accounted tiling final later) (shapes : after.shapes = heap.shapes)
    (scratch : after.scratch = heap.scratch) (globals : after.globals = heap.globals) :
    store.Depicts (fun number => known number ∧
      (prepared.counters.collections = heap.counters.collections ∨
        store.Reach (store.globals ++ data) number)) names after final later := by
  have all : ∀ datum ∈ store.globals ++ data, datum.Among known :=
    List.forall_mem_append.mpr ⟨depicts.rooted, among⟩
  -- What the program can still ask for can be reached in memory.
  have reached {number : Nat} (reach : store.Reach (store.globals ++ data) number) :
      heap.Reachable machine ((heap.holding held).roots context) (names number) := by
    refine (depicts.reachable all reach).2.mono fun value isRoot => ?_
    obtain ⟨datum, inRoots, rfl⟩ := List.mem_map.mp isRoot
    cases List.mem_append.mp inRoots with
    | inl isGlobal =>
        refine List.mem_append_left _ (List.mem_append_right _ ?_)
        change datum.value names ∈ heap.globals.getD []
        rw [depicts.globals]
        exact List.mem_map_of_mem isGlobal
    | inr isData => exact listed datum isData
  refine depicts.proceed still shapes scratch globals prepares.frames_eq (fun _ => And.left) ?_ ?_ ?_
  · intro number size alive inLedger
    obtain ⟨isKnown, spared⟩ := alive
    have member := accounted.records.mem_blocks_of_object inLedger rfl
    have bounds := accounted.consistent.tiled.bounds member
    constructor
    · rw [remains, Heap.remaining]
      split
      · exact inLedger
      · next collected =>
        exact Heap.mem_survivors.mpr ⟨inLedger, fun _ => reached (spared.resolve_left collected)⟩
    · have large : 16 ≤ size := bounds.2.2.1
      have shapes : (heap.holding held).shapes = heap.shapes := rfl
      refine .of_kept (by simp only; omega) (prepares.keeps holds member rfl ?_ ?_)
      · intro shape isShape
        obtain ⟨record, _, found, _⟩ := depicts.objects number isKnown
        obtain ⟨_, _, _, shown, _⟩ := depicts.block accounted isKnown found
        have own := record.known depicts.standard
        rw [← shown.tag] at own
        obtain rfl := Option.some.inj (own.symm.trans isShape)
        exact record.weak_eq_none
      · exact spared.imp_right fun reach =>
          (holds.reach_iff (holds.rooted denotes) member rfl).mpr ((reached reach).reroot shapes)
  · intro number record alive found datum inRecord
    obtain ⟨isKnown, spared⟩ := alive
    have isAmong := depicts.closed number record isKnown found datum inRecord
    cases datum with
    | atom value => exact isAmong
    | object other => exact ⟨isAmong, spared.imp_right fun reach => .held reach found inRecord⟩
  · intro datum isGlobal
    have isAmong := depicts.rooted datum isGlobal
    cases datum with
    | atom value => exact isAmong
    | object other => exact ⟨isAmong, .inr (.root (List.mem_append_left _ isGlobal))⟩

section Orders

variable (orders : request.Orders names record order) (among : ∀ datum ∈ request.roots, datum.Among known)

include orders among

theorem rooted_order (accounted : heap.Accounted tiling machine entries) : order.Rooted heap tiling where
  root handle isRoot := by
    obtain ⟨number, listed, same⟩ := orders.root handle isRoot
    exact accounted.denotes_handle (same ▸ depicts.listed (among _ listed))
  held value isHeld := by
    obtain ⟨datum, listed, rfl⟩ := orders.held value isHeld
    exact accounted.denotes (depicts.refers (among datum listed))

omit depicts among in
theorem listed_order {datum : Datum} (listed : datum ∈ request.roots) :
    datum.value names ∈ (heap.holding order.held).roots order.root := by
  obtain isHeld | ⟨handle, isRoot, same⟩ := orders.roots datum listed
  · exact List.mem_append_left _ (List.mem_append_left _ (List.mem_append_right _ isHeld))
  · refine List.mem_append_right _ ?_
    rw [Option.mem_def.mp isRoot, ← same]
    exact List.mem_singleton_self _

/-- A heap that is prepared for an order still depicts the store. -/
theorem prepare (accounted : heap.Accounted tiling machine entries)
    (refused : order.Refused heap tiling machine prepared divided final) :
    store.Depicts (fun number => known number ∧
        (prepared.counters.collections = heap.counters.collections ∨
          store.Reach (store.globals ++ request.roots) number))
      names { prepared.refused with scratch := heap.scratch } final
      (heap.remaining prepared machine (order.roots heap) entries) := by
  have rooted := depicts.rooted_order orders among accounted
  have consistent := accounted.consistent
  exact depicts.survive accounted (consistent.holding rooted.held) rooted.root refused.prepares among
    (fun _ => listed_order orders) rfl
    ⟨divided, refused.consistent_after consistent rooted, refused.records accounted.records consistent rooted⟩
    refused.prepares.shapes_eq rfl refused.prepares.globals_eq

/-- What a request keeps of the heap lies apart from the object that it gets. -/
theorem apart_supplied (accounted : heap.Accounted tiling machine entries) {taken : Slab → List Block} {mid : Machine}
    {before : Memory} {start size : Nat}
    (supplied : order.Supplied heap tiling machine prepared divided taken mid before start size final) :
    ∀ block ∈ heap.remaining prepared machine (order.roots heap) entries, block.kind = .object →
      block.start ≠ start ∧ block.Stays mid.memory final.memory := by
  intro block listed isBlock
  have rooted := depicts.rooted_order orders among accounted
  have consistent := accounted.consistent
  have ready := supplied.prepares.consistent (consistent.holding rooted.held)
  have obtained := supplied.obtained
  rw [Order.kind_eq_object orders.tag] at obtained
  have member : block ∈ prepared.blocks divided := by
    have refused : order.Refused heap tiling machine prepared divided mid := ⟨supplied.prepares⟩
    exact (refused.records accounted.records consistent rooted).mem_blocks_of_object listed isBlock
  have inUse : block.kind ≠ .free := by simp [isBlock]
  have large : 16 ≤ block.size := (ready.tiled.bounds member).2.2.1
  refine ⟨fun same => ?_, .of_kept (by omega) (obtained.kept block member inUse)⟩
  refine obtained.apart member inUse (ready.tiled.start_covers member) ⟨Nat.le_of_eq same.symm, ?_⟩
  have unit := obtained.large.1
  simp only [Block.stop, blockUnit] at unit ⊢
  omega

variable (made : request.record? = some record)

include made

/-- A request that is granted adds its object. -/
theorem makes_supplied (accounted : heap.Accounted tiling machine entries) (fits : order.Apt heap.shapes)
    (parents : ∀ origin, record.parent? = some (.object origin) → store.IsContext origin)
    {taken : Slab → List Block} {mid : Machine} {before : Memory} {start size : Nat}
    (supplied : order.Supplied heap tiling machine prepared divided taken mid before start size final)
    (answered : answer = .made (.ok (.reference start))) :
    (∃ later, (store.after request answer).Depicts
      (store.Known known request answer heap { prepared with scratch := heap.scratch })
      (store.naming names request answer) { prepared with scratch := heap.scratch } final later) ∧
        start = store.naming names request answer store.records.length := by
  subst answered
  have rooted := depicts.rooted_order orders among accounted
  have consistent := accounted.consistent
  have placed : request.made? (.made (.ok (.reference start))) = some (record, start) := by
    simp only [Request.made?, made, Option.map_some, supplied.address_reference]
  have spared := depicts.prepare orders among accounted ⟨supplied.prepares⟩
  have entered := supplied.records consistent rooted accounted.records
  rw [Order.kind_eq_object orders.tag] at entered
  unfold Store.Known
  simp only [Store.after, Store.naming, placed, Option.isSome_some, true_and]
  refine ⟨⟨_, spared.extend ⟨taken, supplied.consistent_after consistent rooted fits, entered⟩ rfl rfl
    rfl supplied.steady.frames (depicts.apart_supplied orders among accounted supplied) ?_
    (fun datum inData => ?_) orders.unlinked parents⟩, ?_⟩
  · have large := (Size.alignUp?_eq_some (show Size.alignUp? (max order.size blockUnit) (1 <<< 4) =
      some size from supplied.rounded)).1
    exact orders.shown made (supplied.furnished (fun tag _ => consistent.confined tag) fits orders.tag) supplied.filled
      supplied.bounds.1 (Nat.le_trans (Nat.le_max_left _ _) large) supplied.bounds.2.2
  · obtain inRoots | ⟨value, rfl, none⟩ := orders.data datum inData
    · have isAmong := among datum inRoots
      cases datum with
      | atom value => exact isAmong
      | object number => exact ⟨isAmong, .inr (.root (List.mem_append_right _ inRoots))⟩
    · exact none
  · rw [Function.update_self]

/-- A request that is refused adds nothing. -/
theorem makes_refused (accounted : heap.Accounted tiling machine entries) {refusal : HeapError}
    (refused : order.Refused heap tiling machine prepared divided final)
    (answered : answer = .made (.error refusal)) :
    ∃ later, (store.after request answer).Depicts
      (store.Known known request answer heap { prepared.refused with scratch := heap.scratch })
      (store.naming names request answer) { prepared.refused with scratch := heap.scratch } final later := by
  subst answered
  have none : request.made? (.made (.error refusal)) = none := rfl
  have same : store.update request = store := by
    cases request with
    | context | pair | vector | bytes => rfl
    | collect | append | part | setPart | length | element | setElement | contents | environment
    | parent | setEnvironment | openFrame | save | saved | replace | dropFrame => cases made
  unfold Store.Known
  simp only [Store.after, Store.naming, none, same, Option.isSome_none, Bool.false_eq_true, false_and,
    false_or]
  exact ⟨_, depicts.prepare orders among accounted refused⟩

end Orders

/-- A request for a new object is granted or refused, after a collection perhaps. -/
theorem makes (made : request.record? = some record) (among : ∀ datum ∈ request.roots, datum.Among known)
    (parents : ∀ origin, record.parent? = some (.object origin) → store.IsContext origin)
    (ran : ((request.operation names).perform heap).run machine = .ok (after, answer) final) :
    (∃ later, (store.after request answer).Depicts (store.Known known request answer heap after)
      (store.naming names request answer) after final later) ∧
        ∃ result, answer = .made result ∧ ∀ value, result = .ok value →
          value = .reference (store.naming names request answer store.records.length) := by
  obtain ⟨order, orders⟩ := request.ordered made names
  rw [orders.operation] at ran
  obtain ⟨⟨_, result⟩, same, acts⟩ := Action.of_run_map ran
  cases same
  obtain ⟨tiling, accounted⟩ := depicts.accounted
  have consistent := accounted.consistent
  have rooted := depicts.rooted_order orders among accounted
  have fits : order.Apt heap.shapes := by
    refine ⟨fun _ => depicts.standard, fun root tag size same => ?_⟩
    exact absurd same (orders.plain root tag size)
  cases rooted.performed consistent fits acts with
  | supplied supplied =>
      obtain ⟨depicted, named⟩ := depicts.makes_supplied orders among made accounted fits parents supplied rfl
      exact ⟨depicted, _, rfl, fun value granted => named ▸ (Except.ok.inj granted).symm⟩
  | refused _ refused =>
      exact ⟨depicts.makes_refused orders among made accounted refused rfl, _, rfl,
        fun value granted => by cases granted⟩

end Store.Depicts

end SlabHeap
