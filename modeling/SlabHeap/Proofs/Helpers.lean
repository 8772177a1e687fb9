import SlabHeap.Proofs.Canonical
import SlabHeap.Proofs.Driver
import SlabHeap.Proofs.Supplies
import SlabHeap.Proofs.WeakLaw

namespace SlabHeap

/-! Helpers for the standard types.

A helper may collect the heap before it has stored what it was given. `Order.fulfils` says that what it
was given survives this all the same, that the new object holds it, and that the object lies apart from all
that could be reached.
-/

open Block

theorem Block.Settled.tag {shape : Shape} {forgotten : Value → Prop} {memory after : Memory} {block : Block}
    (settled : block.Settled shape forgotten memory after) :
    after.tag block.start = memory.tag block.start := by
  by_cases breaks : ∃ offset, shape.WeakSlot memory block.start offset ∧
      forgotten (memory.value (block.start + offset))
  · obtain ⟨offset, slot, gone⟩ := breaks
    rw [Memory.tag, settled.broken offset slot gone]
    rfl
  · rw [Memory.tag, settled.whole fun offset slot gone => breaks ⟨offset, slot, gone⟩]
    rfl

/-- What a collection made of an object stays so while its words stay the same. -/
theorem Block.Settled.keep {shape : Shape} {forgotten : Value → Prop} {memory mid after : Memory}
    {block : Block} (settled : block.Settled shape forgotten memory mid)
    (describes : shape.Describes memory block.start block.size) (large : 16 ≤ block.size)
    (kept : block.Kept mid after) : block.Settled shape forgotten memory after := by
  have header : after.header block.start = mid.header block.start :=
    congrArg Header.ofWord (kept _ ⟨Nat.le_refl _, by simp only [Block.stop]; omega⟩)
  have value {offset : Nat} (slot : shape.Slot memory block.start offset) :
      after.value (block.start + offset) = mid.value (block.start + offset) := by
    have inside := describes.slotInside offset slot
    exact congrArg Value.mk (kept _ ⟨by omega, by simp only [Block.stop]; omega⟩)
  constructor
  · intro offset slot gone
    rw [value (.inr (.inl slot))]
    exact settled.cleared offset slot gone
  · intro offset slot stays
    rw [value (.inr (.inl slot))]
    exact settled.held offset slot stays
  · intro offset slot gone
    rw [header]
    exact settled.broken offset slot gone
  · intro stay
    rw [header]
    exact settled.whole stay
  · intro gone offset slot
    rw [value (.inr (.inr slot))]
    exact settled.dropped gone offset slot
  · intro offset slot stays dependent behind
    rw [value (.inr (.inr behind))]
    exact settled.spared offset slot stays dependent behind
  · intro address lower upper clear
    rw [kept address ⟨by omega, upper⟩]
    exact settled.others address lower upper clear

namespace Heap

variable {heap prepared : Heap} {machine mid final : Machine} {tiling divided swept : Slab → List Block}
  {context : Option Context} {held roots : List Value} {block : Block} {value : Value} {memory : Memory}

/-- The slabs lie in memory that was reserved. -/
def Reserved (heap : Heap) (machine : Machine) : Prop :=
  ∀ slab ∈ heap.slabs, machine.Hosts slab ∧ slab.stop ≤ Memory.pageLimit * Memory.pageBytes

/-- The object in a block is as it was, or as a collection left it that kept what can be reached from
some roots. -/
def Settles (heap : Heap) (machine : Machine) (roots : List Value) (after : Memory) (block : Block) : Prop :=
  block.Kept machine.memory after ∨ heap.features.weakReferences = true ∧ ∀ shape,
    heap.shapes.get? (machine.memory.tag block.start) = some shape →
      block.Settled shape (heap.Unreachable machine roots) machine.memory after

theorem settles_holding : (heap.holding held).Settles machine roots memory block ↔
    heap.Settles machine roots memory block := by
  have same : (heap.holding held).Unreachable machine roots = heap.Unreachable machine roots := by
    funext value
    rw [Unreachable, reachable_holding]
    rfl
  rw [Settles, same]
  rfl

namespace WellFormed

variable (wellFormed : heap.WellFormed machine tiling)

include wellFormed

theorem holding (refer : ∀ value ∈ held, heap.RefersToObject tiling value) :
    (heap.holding held).WellFormed machine tiling where
  tiled := ⟨wellFormed.tiled.layout, wellFormed.tiled.apart⟩
  valid := wellFormed.valid
  unmarked := wellFormed.unmarked
  slots := wellFormed.slots
  frames := wellFormed.frames
  globals := wellFormed.globals
  scratch := List.forall_mem_append.mpr ⟨wellFormed.scratch, refer⟩

theorem refers_roots (rooted : ∀ handle ∈ context, heap.Object tiling handle.address) :
    ∀ value ∈ heap.roots context, heap.RefersToObject tiling value := by
  intro value listed
  cases context with
  | none =>
      rcases List.mem_append.mp (show value ∈ (heap.scratch ++ heap.globals.getD []) ++ [] from listed) with
        inHeap | none
      · exact (List.mem_append.mp inHeap).elim (wellFormed.scratch value) (wellFormed.globals value)
      · cases none
  | some handle => exact wellFormed.rootsRefer (rooted handle rfl) listed

/-- What marking reaches is still in use after the collection. -/
theorem collected_settles (rooted : ∀ value ∈ roots, heap.RefersToObject tiling value)
    (collected : heap.Collected tiling swept machine final (heap.Reach machine machine.Unmarked roots))
    (member : block ∈ heap.blocks tiling) (isObject : block.kind = .object)
    (alive : heap.Reachable machine roots block.start) :
    block ∈ heap.blocks swept ∧ heap.Settles machine roots final.memory block := by
  have reached := (wellFormed.grounded rooted).traced.reach_iff.mpr alive
  refine ⟨(collected.mem_swept (by simp [isObject])).mpr ⟨member, fun _ => reached⟩, ?_⟩
  have weakened := collected.objects block member isObject reached
  by_cases weak : heap.features.weakReferences = true
  · refine .inr ⟨weak, fun shape known => ?_⟩
    have describes := (wellFormed.tiled.describes member (by simp [isObject]) known).2
    have lost : ∀ offset, shape.WeakSlot machine.memory block.start offset →
        (heap.Lost machine (heap.Reach machine machine.Unmarked roots)
          (machine.memory.value (block.start + offset)) ↔
            heap.Unreachable machine roots (machine.memory.value (block.start + offset))) :=
      fun offset slot => wellFormed.lost_iff_unreachable rooted
        (wellFormed.slots block member isObject shape known offset (.inr slot))
    refine Weakened.settled describes (weakened.congr ?_ fun offset => ?_)
    · simp only [Breaks, weak, known, Option.some.injEq, exists_eq_left', true_and]
      exact Shape.breaks_congr (fun _ _ => rfl) lost
    · simp only [Drops, weak, known, Option.some.injEq, exists_eq_left', true_and]
      exact Shape.drops_congr (fun _ _ => rfl) lost offset
  · exact .inl (weakened.unchanged (fun breaks => weak breaks.1) (fun _ drops => weak drops.1)
      (wellFormed.tiled.bounds member).2.1)

theorem settles_keep {mid after : Memory} (member : block ∈ heap.blocks tiling)
    (isObject : block.kind = .object) (settles : heap.Settles machine roots mid block)
    (kept : block.Kept mid after) : heap.Settles machine roots after block := by
  have bounds := wellFormed.tiled.bounds member
  obtain still | ⟨weak, settled⟩ := settles
  · exact .inl fun address covers => (kept address covers).trans (still address covers)
  · refine .inr ⟨weak, fun shape known => ?_⟩
    exact (settled shape known).keep (wellFormed.tiled.describes member (by simp [isObject]) known).2
      bounds.2.2.1 kept

/-- What can be reached stays in use while the heap is prepared for a request. -/
theorem prepared_settles (reserved : heap.Reserved machine)
    (rooted : ∀ handle ∈ context, heap.Object tiling handle.address)
    (prepares : heap.Prepared context tiling machine prepared divided final)
    (member : block ∈ heap.blocks tiling) (isObject : block.kind = .object)
    (alive : heap.Reachable machine (heap.roots context) block.start) :
    block ∈ prepared.blocks divided ∧ heap.Settles machine (heap.roots context) final.memory block := by
  have roots := wellFormed.refers_roots rooted
  cases prepares with
  | ready quiet => exact ⟨member, .inl fun address _ => by rw [quiet.memory]⟩
  | collected collected quiet =>
      rw [quiet.memory]
      exact wellFormed.collected_settles roots collected member isObject alive
  | grown collected created =>
      obtain ⟨stays, settles⟩ := wellFormed.collected_settles roots collected member isObject alive
      have hosted := fun slab inHeap => (reserved slab inHeap).1.keep collected.steady.taken_subset
      have kept := collected.tiled.kept_created hosted created stays
      exact ⟨(mem_blocks_grown_of_hosted hosted created (by simp [isObject])).mpr stays,
        wellFormed.settles_keep member isObject settles kept⟩

end WellFormed

end Heap

namespace Order

/-- The object holds what a helper was given, as is read from objects of its type. -/
def Holds (heap : Heap) (memory : Memory) (object : Value) : Order → Prop
  | .pair _ car cdr => heap.car? memory object = some car ∧ heap.cdr? memory object = some cdr
  | .vector _ length value => heap.vectorLength? memory object = some length ∧ ∀ index,
      heap.vectorRef? memory object index = .ok (if index < length then some value else none)
  | .bytes _ contents => heap.bytes? memory object = some contents
  | .weakBox _ target => heap.weakTarget? memory object = some target
  | .ephemeron _ key value => heap.ephemeronKey? memory object = some key ∧
      heap.ephemeronValue? memory object = some value
  | .context _ | .object _ _ _ | .storage _ _ => True

variable {order : Order} {heap after : Heap} {machine final : Machine} {tiling : Slab → List Block}
  {memory before : Memory} {start request identity : Nat} {object : Value}

/-- A word of an object is read from where it was stored. -/
theorem fieldOf?_eq {tag : UInt8} {offset : Nat} {value : Value}
    (found : heap.objectOf? memory tag object = some start)
    (stored : memory.value (start + offset) = value) :
    heap.fieldOf? memory tag offset object = some value := by
  simp only [Heap.fieldOf?, Heap.fieldAddress?, found, Option.map_some, stored]

theorem holds_of_stored (small : order.size < 0x4000000000000000) (stored : order.Stored memory start)
    (found : ∀ tag ∈ order.tag?, heap.objectOf? memory tag object = some start) :
    order.Holds heap memory object := by
  cases order with
  | pair root car cdr =>
      exact ⟨fieldOf?_eq (found _ rfl) stored.1, fieldOf?_eq (found _ rfl) stored.2⟩
  | ephemeron root key value =>
      exact ⟨fieldOf?_eq (found _ rfl) stored.1, fieldOf?_eq (found _ rfl) stored.2⟩
  | weakBox root target => exact fieldOf?_eq (found _ rfl) stored
  | vector root length value =>
      obtain ⟨lengthWord, elements⟩ := stored
      simp only [size, Layout.Sequence.contents, wordBytes] at small
      have isObject := found Tag.vector rfl
      have counts : (Value.fixnum length).toCount? = some length := by
        rw [Value.toCount?, Value.toInt?_fixnum ⟨by omega, by omega⟩, Option.map_some, Size.limit]
        congr 1
        omega
      have lengthRead : heap.vectorLength? memory object = some length := by
        rw [Heap.vectorLength?, fieldOf?_eq isObject (congrArg Value.mk lengthWord)]
        exact counts
      refine ⟨lengthRead, fun index => ?_⟩
      simp only [Heap.vectorRef?, Heap.elementAddress?, isObject, lengthRead]
      by_cases inside : index < length
      · have product : Size.mul index wordBytes = .ok (index * wordBytes) :=
          Size.mul_eq_ok (by simp only [wordBytes, Size.limit]; omega)
        have sum : Size.add Layout.Sequence.contents (index * wordBytes) =
            .ok (Layout.Sequence.contents + index * wordBytes) :=
          Size.add_eq_ok (by simp only [wordBytes, Layout.Sequence.contents, Size.limit]; omega)
        rw [if_pos inside, if_pos inside, product]
        simp only [bind, Except.bind, sum, pure, Except.pure, Option.map_some, elements index inside]
      · rw [if_neg inside, if_neg inside]
        rfl
  | bytes root contents =>
      obtain ⟨lengthWord, held⟩ := stored
      simp only [size, Layout.Sequence.contents] at small
      have length : (memory.value (start + Layout.Sequence.length)).toInt? = some (contents.length : Int) := by
        rw [show memory.value (start + Layout.Sequence.length) = .fixnum contents.length from
          congrArg Value.mk lengthWord]
        exact Value.toInt?_fixnum ⟨by omega, by omega⟩
      simp only [Holds, Heap.bytes?, found Tag.bytes rfl, length, Option.bind_eq_bind, Option.bind_some,
        Int.toNat_natCast, held, Option.pure_def]
  | context | object | storage => trivial

/-- A helper was given a block for an object. -/
structure Fulfilled (order : Order) (heap : Heap) (tiling : Slab → List Block) (machine : Machine)
    (after : Heap) (object : Value) (final : Machine) : Prop where
  found : ∀ tag ∈ order.tag?, after.objectOf? final.memory tag object = some object.untagged
  holds : order.Holds after final.memory object
  apart : ∃ taken size, after.Tiled final.memory taken ∧
    (⟨object.untagged, size, .object⟩ : Block) ∈ after.blocks taken ∧
      ∀ other, heap.Reachable machine (order.roots heap) other → ∃ block ∈ heap.blocks tiling,
        block.start = other ∧ block.kind = .object ∧ block ∈ after.blocks taken ∧
          block.Disjoint ⟨object.untagged, size, .object⟩ ∧
            heap.Settles machine (order.roots heap) final.memory block

variable (typed : order.Typed) (wellFormed : heap.WellFormed machine tiling)
  (reserved : heap.Reserved machine) (standard : heap.shapes.Extends)
  (rooted : ∀ handle ∈ order.root, heap.Object tiling handle.address)
  (held : ∀ value ∈ order.held, heap.RefersToObject tiling value)

include typed standard

theorem Typed.apt : order.Apt heap.shapes where
  standard _ := standard
  exact root tag size same := by
    subst same
    exact typed.elim

theorem Typed.confined : ∀ tag ∈ order.tag?, ∀ shape, heap.shapes.get? tag = some shape →
    shape.Confined := by
  have known {tag : UInt8} {own shape : Shape} (isStandard : ShapeTable.standard.get? tag = some own)
      (found : heap.shapes.get? tag = some shape) : shape.Confined := by
    obtain rfl := Option.some.inj ((standard tag own isStandard).symm.trans found)
    exact ShapeTable.confined_standard isStandard
  intro tag tagged shape found
  cases order with
  | pair | vector | bytes | weakBox | ephemeron =>
      cases tagged
      exact known rfl found
  | context | object | storage => exact typed.elim

omit standard in
theorem Typed.tagged : ∃ tag, order.tag? = some tag := by
  cases order with
  | pair | vector | bytes | weakBox | ephemeron => exact ⟨_, rfl⟩
  | context | object | storage => exact typed.elim

include wellFormed reserved rooted held

omit typed standard in
theorem Typed.collectable : (heap.holding order.held).Collectable order.root tiling machine where
  toClean := (wellFormed.holding held).clean
  closed := ((wellFormed.holding held).grounded ((wellFormed.holding held).refers_roots rooted)).traced.closed
  hosted slab inHeap := (reserved slab inHeap).1
  upper slab inHeap := (reserved slab inHeap).2

/-- As long as the heap can count what it does for it, a helper answers, and leaves the values that are kept
alive as they were. If it gives an object, this is new and holds what the helper was given, and what could
be reached from the context, the heap's own roots and what was given is still there. -/
theorem fulfils : (order.perform heap).Meets machine
    (fun answer final => answer.1.scratch = heap.scratch ∧ ∀ object, answer.2 = .ok object →
      order.Fulfilled heap tiling machine answer.1 object final)
    fun _ => heap.Exhausted tiling := by
  have apt : order.Apt heap.shapes := Typed.apt typed standard
  have holds := wellFormed.holding held
  have collectable := Typed.collectable wellFormed reserved rooted held
  refine (perform_meets collectable apt.registered).weaken ?_ fun _ => Heap.Overflows.exhausted
  rintro ⟨after, answer⟩ final ⟨given, rfl, allotted⟩
  rcases supplied_of_allotted collectable (Typed.confined typed standard) apt allotted with
    ⟨start, request, prepared, divided, taken, mid, before, rfl, rfl, supplied⟩ |
    ⟨refusal, prepared, divided, rfl, rfl, refused⟩
  swap
  · exact ⟨rfl, fun object made => by cases made⟩
  refine ⟨rfl, fun object made => ?_⟩
  obtain rfl := Except.ok.inj made
  obtain ⟨tag, tagged⟩ := Typed.tagged typed
  have obtained := supplied.obtained
  have isObject := kind_eq_object tagged
  rw [isObject] at obtained
  have untagged := supplied.address_reference
  have isNew : (⟨start, request, .object⟩ : Block) ∈ prepared.blocks taken :=
    (obtained.mem_iff (by simp)).mpr (.inr (List.mem_singleton_self _))
  have furnished := supplied.furnished (Typed.confined typed standard) apt tagged
  have found : ∀ tag ∈ order.tag?, prepared.objectOf? final.memory tag (.reference start) = some start := by
    intro other isTag
    obtain rfl := Option.some.inj (tagged.symm.trans isTag)
    rw [obtained.tiled.objectOf?_reference tag isNew rfl]
    exact if_pos (congrArg Header.tag furnished.header)
  refine ⟨?_, ?_, taken, request, ⟨obtained.tiled.layout, obtained.tiled.apart⟩, ?_, ?_⟩
  · rw [untagged]
    exact found
  · exact holds_of_stored supplied.size_lt (supplied.filled ▸ order.stored_fill supplied.bounds.1) found
  · rw [untagged]
    exact isNew
  -- What can be reached stays, and lies apart from the new object.
  · intro other alive
    have roots := holds.refers_roots rooted
    rw [← Heap.reachable_holding] at alive
    obtain ⟨block, member, kind, rfl⟩ := (holds.grounded roots).traced.object_of_reachable alive
    obtain ⟨stays, settles⟩ := holds.prepared_settles reserved rooted supplied.prepares member kind alive
    have inUse : block.kind ≠ .free := by simp [kind]
    have kept := obtained.kept block stays inUse
    refine ⟨block, member, rfl, kind, (obtained.mem_iff inUse).mpr (.inl stays), ?_, ?_⟩
    · by_contra overlap
      rw [untagged] at overlap
      obtain ⟨address, inBlock, inNew⟩ := Block.exists_covers
        (wellFormed.tiled.bounds member).2.2.1 obtained.large.1 overlap
      exact obtained.apart stays inUse inBlock inNew
    · exact Heap.settles_holding.mp (holds.settles_keep member kind settles kept)

end Order

namespace Heap

/-- A vector that the slab has no room for. -/
def ringOrder : Order := .vector ⟨0x3ffffffff010⟩ 3 (.reference 0x3ffffffff040)

/-- The heap is collected and grows, and the pair that the vector is to hold lasts. -/
theorem fulfils_ring : ∃ after object final,
    (ringOrder.perform ringHeap).run ringMachine = .ok (after, .ok object) final ∧
      after.counters.collections = 1 ∧
        ringOrder.Fulfilled ringHeap (fun _ => ringBlocks) ringMachine after object final := by
  have reserved : ringHeap.Reserved ringMachine := by
    intro slab member
    obtain rfl : slab = ringSlab := by simpa [ringHeap] using member
    decide
  have rooted : ∀ handle ∈ ringOrder.root, ringHeap.Object (fun _ => ringBlocks) handle.address := by
    intro handle isRoot
    obtain rfl := Option.some.inj isRoot
    exact ⟨⟨0x3ffffffff010, 48, .object⟩, by rw [blocks_ring]; simp [ringBlocks], rfl, rfl⟩
  have held : ∀ value ∈ ringOrder.held, ringHeap.RefersToObject (fun _ => ringBlocks) value := by
    intro value isHeld
    obtain rfl := List.mem_singleton.mp isHeld
    exact ring_refers _ (.inr (.inr rfl))
  have answers : (ringOrder.perform ringHeap).passes ringMachine
      (fun answer => answer.2.toBool && answer.1.counters.collections == 1) = true := by decide +kernel
  obtain ⟨⟨after, answer⟩, final, ran, outcome⟩ := Action.ensures_of_passes answers
  simp only [Bool.and_eq_true, beq_iff_eq] at outcome
  cases answer with
  | error refusal => cases outcome.1
  | ok object =>
      have typed : ringOrder.Typed := trivial
      have fulfilled := (Order.fulfils typed wellFormed_ring reserved (fun _ _ known => known) rooted
        held).of_run ran
      exact ⟨after, object, final, ran, outcome.2, fulfilled.2 object rfl⟩

end Heap

end SlabHeap
