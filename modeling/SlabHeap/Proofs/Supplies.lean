import SlabHeap.Proofs.Ledgers
import SlabHeap.Proofs.Orders
import SlabHeap.Proofs.Separation

namespace SlabHeap

/-! What orders make of a heap.

`Order.Supplied` says how an order is met: the heap is prepared, a block comes into use, and the order
fills it. The heap stays consistent then, its ledger gains the block, and nothing changes outside of it.
An order that is not met leaves the heap as it was prepared, `Order.Refused`.
-/

open Block Heap

namespace Heap

variable {heap prepared : Heap} {machine mid : Machine} {tiling divided : Slab → List Block}
  {context : Option Context} {held : List Value} {entries : List Block}

/-- What a heap holds makes no difference to where references lead. -/
theorem reachable_holding : (heap.holding held).Reachable machine = heap.Reachable machine :=
  funext fun _ => funext fun _ => propext ⟨.reroot rfl, .reroot rfl⟩

theorem survivors_holding {roots : List Value} : (heap.holding held).survivors machine roots entries =
    heap.survivors machine roots entries := by
  rw [survivors, survivors, reachable_holding]

theorem remaining_holding {roots : List Value} :
    (heap.holding held).remaining prepared machine roots entries =
      heap.remaining prepared machine roots entries := by
  simp only [remaining, survivors_holding]
  rfl

theorem Prepared.shapes_eq (prepares : heap.Prepared context tiling machine prepared divided mid) :
    prepared.shapes = heap.shapes := by
  cases prepares <;> rfl

theorem Prepared.features_eq (prepares : heap.Prepared context tiling machine prepared divided mid) :
    prepared.features = heap.features := by
  cases prepares <;> rfl

theorem Prepared.globals_eq (prepares : heap.Prepared context tiling machine prepared divided mid) :
    prepared.globals = heap.globals := by
  cases prepares <;> rfl

theorem Prepared.frames_eq (prepares : heap.Prepared context tiling machine prepared divided mid) :
    mid.frames = machine.frames := by
  cases prepares with
  | ready quiet => exact quiet.frames
  | collected collected quiet => exact quiet.frames.trans collected.steady.frames
  | grown collected created => exact created.frames.trans collected.steady.frames

end Heap

namespace Order

variable {order : Order} {heap prepared after : Heap} {machine mid final : Machine} {before : Memory}
  {tiling divided taken : Slab → List Block} {start request : Nat} {entries : List Block}

def kind (order : Order) : BlockKind := if order.tag?.isSome then .object else .bare

def roots (order : Order) (heap : Heap) : List Value :=
  (heap.holding order.held).roots order.root

/-- What a heap is prepared for an order with changes the ledger as a collection does. -/
theorem Rooted.records_prepared (rooted : order.Rooted heap tiling) (consistent : heap.Consistent tiling machine)
    (records : heap.Records tiling entries)
    (prepares : (heap.holding order.held).Prepared order.root tiling machine prepared divided mid) :
    prepared.Records divided (heap.remaining prepared machine (order.roots heap) entries) := by
  have holds := consistent.holding rooted.held
  have before : (heap.holding order.held).Records tiling entries :=
    ⟨records.inUse, records.whole, records.inside, records.perm⟩
  have denotes : ∀ handle ∈ order.root, (heap.holding order.held).Denotes tiling handle.toValue :=
    rooted.root
  have ready := before.prepare holds (holds.rooted denotes) prepares
  rwa [remaining_holding] at ready

/-- A heap was prepared for an order, and a block of zeros came into use, which the order filled. -/
structure Supplied (order : Order) (heap : Heap) (tiling : Slab → List Block) (machine : Machine)
    (prepared : Heap) (divided taken : Slab → List Block) (mid : Machine) (before : Memory)
    (start request : Nat) (final : Machine) : Prop where
  prepares : (heap.holding order.held).Prepared order.root tiling machine prepared divided mid
  rounded : Size.alignUp? (max order.size blockUnit) blockUnit = some request
  zero : ∀ address, start ≤ address → address < start + request → before.read address = 0
  filled : final.memory = order.fill heap.identity start before
  bounds : start % 16 = 0 ∧ blockUnit < start ∧ request < 0x4000000000000000
  obtained : prepared.Obtained divided taken mid.memory final.memory ⟨start, request, order.kind⟩
  steady : mid.Steady final

/-- A heap was prepared for an order in vain. -/
structure Refused (order : Order) (heap : Heap) (tiling : Slab → List Block) (machine : Machine)
    (prepared : Heap) (divided : Slab → List Block) (final : Machine) : Prop where
  prepares : (heap.holding order.held).Prepared order.root tiling machine prepared divided final

theorem kind_eq_object {tag : UInt8} (tagged : order.tag? = some tag) : order.kind = .object := by
  rw [kind, tagged]
  rfl

theorem tag_of_kind (isObject : order.kind = .object) : ∃ tag, order.tag? = some tag := by
  rw [← Option.isSome_iff_exists]
  by_contra none
  simp [kind, none] at isObject

theorem Apt.registered {shapes : ShapeTable} (apt : order.Apt shapes) :
    ∀ tag ∈ order.tag?, shapes.isRegistered tag = true := by
  have known {tag : UInt8} {shape : Shape} (listed : shapes.get? tag = some shape) :
      shapes.isRegistered tag = true := Option.isSome_iff_exists.mpr ⟨shape, listed⟩
  intro tag tagged
  cases order with
  | object root other size =>
      cases tagged
      obtain ⟨shape, listed, _⟩ := apt.exact root tag size rfl
      exact known listed
  | context =>
      cases tagged
      exact known (show shapes.get? Tag.context = some Shape.context from rfl)
  | pair => cases tagged; exact known (apt.standard trivial _ .pair rfl)
  | vector => cases tagged; exact known (apt.standard trivial _ .vector rfl)
  | bytes => cases tagged; exact known (apt.standard trivial _ .bytes rfl)
  | weakBox => cases tagged; exact known (apt.standard trivial _ .weakBox rfl)
  | ephemeron => cases tagged; exact known (apt.standard trivial _ .ephemeron rfl)
  | storage => cases tagged

/-- What the slots of a new object hold was kept alive for it, or refers to nothing. -/
theorem root_of_mem_values {value : Value} (heap : Heap) (listed : value ∈ order.values) :
    value ∈ order.roots heap ∨ value.address? = none := by
  have held (listed : value ∈ order.held) : value ∈ order.roots heap :=
    List.mem_append_left _ (List.mem_append_left _ (List.mem_append_right _ listed))
  cases order with
  | context parent =>
      rcases List.mem_cons.mp listed with rfl | isNil
      · cases parent with
        | none => exact .inr rfl
        | some parent => exact .inl (List.mem_append_right _ (by simp [root]))
      · obtain rfl := List.mem_singleton.mp isNil
        exact .inr rfl
  | object root tag size =>
      obtain rfl := List.mem_singleton.mp listed
      exact .inr rfl
  | pair | vector | bytes | weakBox | ephemeron | storage => exact .inl (held listed)

namespace Supplied

variable (supplied : order.Supplied heap tiling machine prepared divided taken mid before start request
  final)

include supplied

theorem size_lt : order.size < 0x4000000000000000 := by
  obtain ⟨atLeast, _⟩ := Size.alignUp?_eq_some
    (show Size.alignUp? (max order.size blockUnit) (1 <<< 4) = some request from supplied.rounded)
  have := supplied.bounds.2.2
  omega

theorem furnished (confined : ∀ tag ∈ order.tag?, ∀ shape, heap.shapes.get? tag = some shape → shape.Confined)
    (apt : order.Apt heap.shapes) {tag : UInt8} (tagged : order.tag? = some tag) :
    Furnished heap.shapes tag order.values start request before final.memory :=
  supplied.filled ▸ Order.furnished apt tagged (confined tag tagged) supplied.bounds.1
    supplied.bounds.2.2 supplied.rounded supplied.zero

/-- The new object is sound if its slots hold what is of a kind. -/
theorem sound_of {denotes : Value → Prop}
    (confined : ∀ tag ∈ order.tag?, ∀ shape, heap.shapes.get? tag = some shape → shape.Confined)
    (apt : order.Apt heap.shapes) (holds : ∀ value ∈ order.values, denotes value)
    (isObject : order.kind = .object) :
    Block.Sound prepared.shapes prepared.features.weakReferences denotes final
      ⟨start, request, order.kind⟩ := by
  obtain ⟨tag, tagged⟩ := tag_of_kind isObject
  have furnished := supplied.furnished confined apt tagged
  obtain ⟨shape, known, _, slots⟩ := furnished.shape
  have tag : final.memory.tag start = tag := congrArg Header.tag furnished.header
  refine ⟨?_, ?_, fun found foundKnown offset followed => ?_, fun isContext => ?_⟩
  · rw [furnished.header]
    rfl
  · rw [Machine.Unmarked, furnished.header, Header.isMarked_fresh]
  · rw [supplied.prepares.shapes_eq, tag] at foundKnown
    obtain rfl := Option.some.inj (known.symm.trans foundKnown)
    exact holds _ (slots offset followed.slot)
  · rw [tag] at isContext
    exact ⟨[], congrArg UInt64.toNat (furnished.saves isContext), by simp⟩

theorem counted_of
    (confined : ∀ tag ∈ order.tag?, ∀ shape, heap.shapes.get? tag = some shape → shape.Confined)
    (apt : order.Apt heap.shapes) (isObject : order.kind = .object) :
    Block.Counted prepared.shapes final.memory ⟨start, request, order.kind⟩ := by
  obtain ⟨tag, tagged⟩ := tag_of_kind isObject
  have counted := (supplied.furnished confined apt tagged).counted request
  rwa [kind_eq_object tagged, supplied.prepares.shapes_eq]

variable (consistent : heap.Consistent tiling machine) (rooted : order.Rooted heap tiling)

include consistent rooted

/-- What the slots of the new object hold is in use. -/
theorem values_denote {value : Value} (listed : value ∈ order.values) :
    prepared.Denotes taken value := by
  have holds := consistent.holding rooted.held
  rcases root_of_mem_values heap listed with isRoot | unknown
  · have denotes : heap.Denotes tiling value := holds.rooted rooted.root value isRoot
    exact supplied.obtained.denotes (supplied.prepares.denotes holds denotes isRoot)
  · intro address found
    simp [unknown] at found

variable (apt : order.Apt heap.shapes)

include apt

theorem consistent_after : { prepared with scratch := heap.scratch }.Consistent taken final := by
  have holds := consistent.holding rooted.held
  have ready := supplied.prepares.consistent holds
  have confined := fun tag (_ : tag ∈ order.tag?) => consistent.confined tag
  have obtained := ready.obtain supplied.obtained supplied.steady
    (supplied.sound_of confined apt fun _ => supplied.values_denote consistent rooted)
    (supplied.counted_of confined apt)
  refine obtained.reroot rfl rfl rfl obtained.globals fun value listed => obtained.scratch value ?_
  rw [supplied.prepares.scratch_eq]
  exact List.mem_append_left _ listed

omit apt

/-- The block is entered, and what the heap collected before is taken off. -/
theorem records (records : heap.Records tiling entries) :
    { prepared with scratch := heap.scratch }.Records taken
      (heap.remaining prepared machine (order.roots heap) entries ++
        [(⟨start, request, order.kind⟩ : Block)]) := by
  have entered := (rooted.records_prepared consistent records supplied.prepares).obtain supplied.obtained
  exact ⟨entered.inUse, entered.whole, entered.inside, entered.perm⟩

omit consistent rooted

theorem address_reference : (Value.reference start).untagged = start := by
  obtain ⟨slab, inHeap, _, upper, _⟩ := supplied.obtained.inside
  have bounded := (supplied.obtained.tiled.layout slab inHeap).placed.bounded
  have aligned := supplied.bounds.1
  have large := supplied.obtained.large.1
  simp only [Block.stop, blockUnit] at upper large
  rw [Value.untagged, Value.bits_reference (by omega)]
  omega

theorem within : heap.Within { prepared with scratch := heap.scratch } machine final :=
  (supplied.prepares.within.trans (supplied.obtained.within supplied.steady)).reroot rfl rfl

end Supplied

namespace Refused

variable (refused : order.Refused heap tiling machine prepared divided final)

include refused

theorem consistent_after (consistent : heap.Consistent tiling machine)
    (rooted : order.Rooted heap tiling) :
    { prepared.refused with scratch := heap.scratch }.Consistent divided final := by
  have ready := refused.prepares.consistent (consistent.holding rooted.held)
  refine ready.reroot rfl rfl rfl ready.globals fun value listed => ready.scratch value ?_
  rw [refused.prepares.scratch_eq]
  exact List.mem_append_left _ listed

theorem records (records : heap.Records tiling entries) (consistent : heap.Consistent tiling machine)
    (rooted : order.Rooted heap tiling) :
    { prepared.refused with scratch := heap.scratch }.Records divided
      (heap.remaining prepared machine (order.roots heap) entries) := by
  have ready := rooted.records_prepared consistent records refused.prepares
  exact ⟨ready.inUse, ready.whole, ready.inside, ready.perm⟩

theorem within : heap.Within { prepared.refused with scratch := heap.scratch } machine final :=
  refused.prepares.within.reroot rfl rfl

end Refused

/-- What was allotted to an order was filled by it. -/
theorem supplied_of_allotted
    (collectable : (heap.holding order.held).Collectable order.root tiling machine)
    (confined : ∀ tag ∈ order.tag?, ∀ shape, heap.shapes.get? tag = some shape → shape.Confined)
    (apt : order.Apt heap.shapes) {answer : Except HeapError Nat}
    (allotted : heap.Allotted order.root order.held tiling machine order.size
      (order.fill heap.identity) after answer final) :
    (∃ start request prepared divided taken mid before, answer = .ok start ∧
      after = { prepared with scratch := heap.scratch } ∧
        order.Supplied heap tiling machine prepared divided taken mid before start request final) ∨
    ∃ refusal prepared divided, answer = .error refusal ∧
      after = { prepared.refused with scratch := heap.scratch } ∧
        order.Refused heap tiling machine prepared divided final := by
  obtain ⟨prepared, divided, mid, answering, prepares, answered, rfl⟩ := allotted
  rcases answered with ⟨start, request, taken, before, same, given, steady, memory⟩ |
    ⟨refusal, same, quiet⟩
  · cases same
    obtain ⟨aligned, positive, _, _, inside⟩ := given.bounds (prepares.upper collectable)
    have small : request < 0x4000000000000000 := by
      have limit : Memory.pageLimit * Memory.pageBytes ≤ 0x4000000000000000 := by decide
      simp only [blockUnit] at positive
      omega
    obtain ⟨furnishedTiling, obtained⟩ : ∃ furnishedTiling, prepared.Obtained divided furnishedTiling
        mid.memory final.memory ⟨start, request, order.kind⟩ := by
      cases tagged : order.tag? with
      | none =>
          have plain : final.memory = before := by
            rw [memory, fill, tagged]
          rw [kind, tagged, plain]
          exact ⟨taken, given.obtained⟩
      | some tag =>
          have furnished := @Order.furnished order heap.shapes tag _ heap.identity _ _ apt tagged (confined tag tagged)
            aligned small given.rounded given.zero
          rw [kind_eq_object tagged, memory]
          refine given.obtained.become furnished.outside ?_
          obtain ⟨shape, known, sized, _⟩ := furnished.shape
          have tag := congrArg Header.tag furnished.header
          refine ⟨shape, ?_, confined _ tagged shape known _ _ _ sized⟩
          rw [prepares.shapes_eq]
          exact (congrArg heap.shapes.get? tag).trans known
    exact .inl ⟨start, request, prepared, divided, furnishedTiling, mid, before, rfl, rfl,
      ⟨prepares, given.rounded, given.zero, memory, ⟨aligned, positive, small⟩, obtained, steady⟩⟩
  · cases same
    exact .inr ⟨refusal, prepared, divided, rfl, rfl, ⟨prepares.quiet quiet⟩⟩

/-- How an order ends that gets an answer: the heap supplies it, or refuses it. -/
inductive Performed (order : Order) (heap : Heap) (tiling : Slab → List Block) (machine : Machine) :
    Heap → Except HeapError Value → Machine → Prop
  | supplied {prepared : Heap} {divided taken : Slab → List Block} {mid final : Machine} {before : Memory}
      {start request : Nat} :
      order.Supplied heap tiling machine prepared divided taken mid before start request final →
        Performed order heap tiling machine { prepared with scratch := heap.scratch }
          (.ok (.reference start)) final
  | refused {prepared : Heap} {divided : Slab → List Block} {final : Machine} (refusal : HeapError) :
      order.Refused heap tiling machine prepared divided final →
        Performed order heap tiling machine { prepared.refused with scratch := heap.scratch }
          (.error refusal) final

theorem performed_of_run (collectable : (heap.holding order.held).Collectable order.root tiling machine)
    (confined : ∀ tag ∈ order.tag?, ∀ shape, heap.shapes.get? tag = some shape → shape.Confined)
    (apt : order.Apt heap.shapes) {answer : Except HeapError Value}
    (ran : (order.perform heap).run machine = .ok (after, answer) final) :
    order.Performed heap tiling machine after answer final := by
  obtain ⟨given, same, allotted⟩ := (perform_meets collectable apt.registered).of_run ran
  obtain rfl : answer = given.map Value.reference := same
  rcases supplied_of_allotted collectable confined apt allotted with
    ⟨start, request, prepared, divided, taken, mid, before, rfl, rfl, supplied⟩ |
    ⟨refusal, prepared, divided, rfl, rfl, refused⟩
  · exact .supplied supplied
  · exact .refused refusal refused

/-- An order whose roots and values denote what is in use. -/
theorem Rooted.performed (rooted : order.Rooted heap tiling) (consistent : heap.Consistent tiling machine)
    (apt : order.Apt heap.shapes) {answer : Except HeapError Value}
    (ran : (order.perform heap).run machine = .ok (after, answer) final) :
    order.Performed heap tiling machine after answer final :=
  performed_of_run (rooted.collectable consistent) (fun tag _ => consistent.confined tag) apt ran

end Order

end SlabHeap
