import SlabHeap.Proofs.Capacity
import SlabHeap.Proofs.Conservation

namespace SlabHeap

/-! Orders that are granted.

An order may collect the heap before it is granted, and a program that made objects before expects to find
them afterwards. `Order.Granted` says that it finds those that it could reach from what the order was given,
apart from the new one, and what became of the ledger otherwise.

With each order a heap collects at most once, and gives out a unit at least. So it stays `Heap.Paced`, and of its
counts only the bytes freed can leave their range, `Heap.Paced.overflows_bytes`.
-/

open Block

namespace Heap

variable {heap : Heap} {machine : Machine} {tiling : Slab → List Block} {entries : List Block}

/-- A heap collected no more often than it gave out units, and refused nothing. -/
structure Paced (heap : Heap) (entries : List Block) : Prop where
  bounded : heap.Bounded
  collections : blockUnit * heap.counters.collections ≤ heap.counters.bytesFreed + bytes entries
  countable : heap.counters.bytesFreed < Size.limit
  unrefused : heap.counters.outOfMemory = 0

theorem Bounded.paced (bounded : heap.Bounded) (fresh : heap.counters = {}) (entries : List Block) :
    heap.Paced entries := by
  refine ⟨bounded, ?_, ?_, ?_⟩
  all_goals rw [fresh]
  · exact Nat.zero_le _
  · decide

namespace Paced

variable (paced : heap.Paced entries)

include paced

theorem holding (held : List Value) : (heap.holding held).Paced entries :=
  ⟨⟨paced.bounded.sizes, paced.bounded.limited, paced.bounded.counted⟩, paced.collections, paced.countable,
    paced.unrefused⟩

variable (accounted : heap.Accounted tiling machine entries)

include accounted

/-- Every slab has a unit of its own, and what was given out is freed or in a slab. -/
theorem unspent : ¬ heap.counters.Spent ∧ heap.counters.collections + 1 < Size.limit := by
  obtain ⟨free, _, balance⟩ := accounted.balance
  have total := accounted.consistent.tiled.totalSize_lt
  have slabs := paced.bounded.counted
  have collections := paced.collections
  have countable := paced.countable
  have unrefused := paced.unrefused
  simp only [Counters.Spent, Size.limit, blockUnit] at *
  omega

/-- A collection that cannot be counted frees too much, and it frees what it takes off the ledger. -/
theorem overflows_bytes {context : Option Context} (rooted : ∀ value ∈ heap.roots context, heap.Denotes tiling value)
    (overflows : heap.Overflows context tiling machine) :
    Size.limit + bytes (heap.survivors machine (heap.roots context) entries) ≤
      heap.counters.bytesFreed + bytes entries := by
  obtain ⟨unspent, further⟩ := paced.unspent accounted
  obtain ⟨stats, swept, final, collected, freed, uncounted⟩ := overflows.resolve_left unspent
  have ledger := accounted.records.survive accounted.consistent.tiled collected
    fun block member isObject => accounted.consistent.reach_iff rooted member isObject
  have large : Size.limit ≤ heap.counters.bytesFreed + stats.sumFreed :=
    Nat.le_of_not_lt fun small => uncounted ⟨further, small⟩
  rw [ledger.bytes_eq, accounted.records.bytes_eq]
  omega

end Paced

end Heap

namespace Order

def block (order : Order) (start : Nat) : Block := ⟨start, order.footprint, order.kind⟩

/-- An order was granted, and the heap kept at least what is needed of what it had given out. -/
structure Granted (order : Order) (heap after : Heap) (machine final : Machine)
    (entries needed later : List Block) (start : Nat) : Prop where
  untagged : (Value.reference start).untagged = start
  accounted : ∃ tiling, after.Accounted tiling final later
  orderly : final.Orderly
  shapes : after.shapes = heap.shapes
  globals : after.globals = heap.globals
  scratch : after.scratch = heap.scratch
  identity : after.identity = heap.identity
  counts : after.counters.bytesFreed + Block.bytes later =
    heap.counters.bytesFreed + Block.bytes entries + order.footprint
  made : order.block start ∈ later
  only : ∀ block ∈ later, block ∈ entries ∨ block = order.block start
  kept : ∀ block ∈ needed, block ∈ later ∧ block.Kept machine.memory final.memory
  calm : after.counters.collections = heap.counters.collections → ∀ block ∈ entries, block ∈ later
  apart : ∀ block ∈ needed, block.Disjoint (order.block start)
  stored : order.Stored final.memory start
  furnished : ∀ tag ∈ order.tag?, ∃ size before, Furnished heap.shapes tag order.values start size before final.memory
  paced : heap.Paced entries → after.Paced later

theorem Granted.tagged {order : Order} {heap after : Heap} {machine final : Machine}
    {entries needed later : List Block} {start : Nat} {tag : UInt8}
    (granted : order.Granted heap after machine final entries needed later start) (tagged : order.tag? = some tag) :
    final.memory.tag start = tag := by
  obtain ⟨_, _, furnished⟩ := granted.furnished tag tagged
  exact congrArg Header.tag furnished.header

variable {order : Order} {heap after : Heap} {machine final : Machine} {tiling : Slab → List Block}
  {entries needed : List Block} {answer : Except HeapError Value} {value : Value}

/-- A context that is made is where its value says, and names its heap. -/
theorem of_makeContext {parent : Option Context} {context : Context}
    (accounted : heap.Accounted tiling machine entries)
    (apt : (Operation.make (.context parent)).Apt heap machine (Listed entries))
    (named : heap.identity < Size.limit)
    (ran : (heap.makeContext parent).run machine = .ok (after, .ok context) final) :
    context.toValue.untagged = context.address ∧ context.isIn after final.memory = true := by
  have ready := (rooted_of_apt accounted apt).collectable accounted.consistent
  have collectable : heap.Collectable parent tiling machine := by
    rw [show heap.holding (Order.context parent).held = heap from heap.holding_nil] at ready
    exact ready
  obtain ⟨given, same, allotted⟩ := collectable.makeContext_meets.of_run ran
  rcases supplied_of_allotted ready (fun tag _ => accounted.consistent.confined tag) apt.1 allotted with
    ⟨start, request, prepared, divided, taken, mid, before, rfl, kept, supplied⟩ | ⟨_, _, _, rfl, _, _⟩
  · cases same
    refine ⟨supplied.address_reference, ?_⟩
    have identity : after.identity = heap.identity :=
      (congrArg Heap.identity kept).trans supplied.prepares.identity_eq
    have word : final.memory.read (start + Layout.Context.heap) = .ofNat heap.identity := by
      have apart {first second : Nat} (differs : first / 8 ≠ second / 8) :
          (start + first) / 8 ≠ (start + second) / 8 := by
        have := supplied.bounds.1
        omega
      rw [supplied.filled]
      simp only [fill, contents, tag?, Heap.contextFill]
      rw [Memory.read_write_ne (apart (by decide)), Memory.read_write_ne (apart (by decide)),
        Memory.read_write_ne (apart (by decide)), Memory.read_write_same]
    rw [Context.isIn, Context.heapWord, word, identity, UInt64.toNat_ofNat',
      Nat.mod_eq_of_lt (show heap.identity < 2 ^ 64 from named)]
    exact decide_eq_true rfl
  · cases same

/-- With an order that is granted, a heap collects once at most, and gives out a unit at least. -/
theorem paces {later : List Block} (accounted : heap.Accounted tiling machine entries)
    (apt : (Operation.make order).Apt heap machine (Listed entries))
    (ran : (order.perform heap).run machine = .ok (after, .ok value) final)
    (counts : after.counters.bytesFreed + Block.bytes later =
      heap.counters.bytesFreed + Block.bytes entries + order.footprint)
    (paced : heap.Paced entries) : after.Paced later := by
  obtain ⟨unit, unrefused⟩ : blockUnit ≤ order.footprint ∧
      after.counters.outOfMemory = heap.counters.outOfMemory := by
    cases (rooted_of_apt accounted apt).performed accounted.consistent apt.1 ran with
    | @supplied _ _ _ _ _ _ _ request supplied =>
        obtain ⟨atLeast, _⟩ := Size.alignUp?_eq_some
          (show Size.alignUp? (max order.size blockUnit) (1 <<< 4) = some request from supplied.rounded)
        refine ⟨?_, supplied.prepares.outOfMemory_eq⟩
        rw [footprint, supplied.rounded]
        exact (Nat.le_max_right _ _).trans atLeast
  have bounded := (Heap.answers_order heap order _ _ _ ran).bounded paced.bounded
  obtain ⟨calm, countable⟩ : after.counters.collections ≤ heap.counters.collections + 1 ∧
      after.counters.bytesFreed < Size.limit := by
    cases of_perform apt.1.registered ran with
    | never same =>
        exact ⟨same.collections ▸ Nat.le_succ _, same.bytesFreed ▸ paced.countable⟩
    | once collected same =>
        obtain ⟨counted, _, countable⟩ := Heap.answers_collectFrom_counts _ _ _ _ _ collected
        exact ⟨(same.collections.trans (by rw [counted]; rfl)).le, same.bytesFreed ▸ counted ▸ countable⟩
  refine ⟨bounded, ?_, countable, unrefused.trans paced.unrefused⟩
  have collections := paced.collections
  simp only [blockUnit] at *
  omega

section Needs

variable (accounted : heap.Accounted tiling machine entries)
  (apt : (Operation.make order).Apt heap machine (Listed entries))
  (needs : ∀ block ∈ needed, block ∈ entries ∧ block.kind = .object)
  (alive : ∀ block ∈ needed, heap.Reachable machine (order.roots heap) block.start)

include accounted apt needs alive

theorem granted (orderly : machine.Orderly) (strong : ∀ block ∈ needed, ∀ shape,
      heap.shapes.get? (machine.memory.tag block.start) = some shape → shape.weak = none)
    (ran : (order.perform heap).run machine = .ok (after, answer) final) (made : answer = .ok value) :
    ∃ later start, value = .reference start ∧ order.Granted heap after machine final entries needed later start := by
  have acts : ((Operation.make order).perform heap).run machine = .ok (after, .made answer) final :=
    Action.run_bind ran
  obtain ⟨start, rfl, untagged, stored, _⟩ := gives accounted apt ran made
  obtain rfl := made
  obtain ⟨⟨taken, still⟩, newOrderly, _, _⟩ := Operation.keeps accounted orderly apt acts
  have counts := Operation.conserves accounted orderly apt acts
  obtain ⟨_, _, _, _, _, shapes, globals, scratch, identity, _⟩ := prepares accounted apt ran
  have ledger : (Operation.make order).ledger heap after machine entries (.made (.ok (.reference start))) =
      heap.remaining after machine (order.roots heap) entries ++ [order.block start] := by
    rw [Operation.ledger, untagged, block]
  rw [ledger] at still counts
  have kept : ∀ entry ∈ needed, entry ∈ heap.remaining after machine (order.roots heap) entries ∧
      entry.Kept machine.memory final.memory := by
    intro entry member
    have spared : heap.Spares machine (order.roots heap) entry := fun _ => alive entry member
    have listed := (needs entry member).1
    exact ⟨Heap.mem_remaining.mpr ⟨listed, .inr spared⟩, keeps_strong accounted apt ran listed
      (needs entry member).2 (.inr spared) (strong entry member)⟩
  exact ⟨_, start, rfl, untagged, ⟨taken, still⟩, newOrderly, shapes, globals, scratch, identity, counts,
    List.mem_append_right _ (List.mem_singleton_self _),
    fun entry member => (List.mem_append.mp member).imp (fun old => (Heap.mem_remaining.mp old).1)
      List.mem_singleton.mp,
    fun entry member => ⟨List.mem_append_left _ (kept entry member).1, (kept entry member).2⟩,
    fun same entry member => List.mem_append_left _ (Heap.mem_remaining.mpr ⟨member, .inl same⟩),
    fun entry member => (List.pairwise_append.mp (still.records.disjoint still.consistent.tiled)).2.2 _
      (kept entry member).1 _ (List.mem_singleton_self _), stored,
    fun tag tagged => untagged ▸ furnishes accounted apt ran rfl tagged, paces accounted apt ran counts⟩

/-- An order is granted or refused, unless a collection on the way frees more than can be counted. -/
theorem grants (paced : heap.Paced entries) (orderly : machine.Orderly) (strong : ∀ block ∈ needed, ∀ shape,
      heap.shapes.get? (machine.memory.tag block.start) = some shape → shape.weak = none)
    (distinct : needed.Nodup) : (order.perform heap).Meets machine
      (fun answer final => ∀ value, answer.2 = .ok value → ∃ later start, value = .reference start ∧
        order.Granted heap answer.1 machine final entries needed later start)
      fun _ => Size.limit + Block.bytes needed ≤ heap.counters.bytesFreed + Block.bytes entries := by
  have rooted := rooted_of_apt accounted apt
  rcases perform_meets (rooted.collectable accounted.consistent) apt.1.registered with
    ⟨⟨after, answer⟩, final, ran, _⟩ | ⟨final, failed, overflows⟩
  · exact .inl ⟨_, final, ran, fun value made => granted accounted apt needs alive orderly strong ran made⟩
  · have holds := accounted.holding rooted.held
    have bound := (paced.holding order.held).overflows_bytes holds (holds.consistent.rooted rooted.root) overflows
    rw [Heap.survivors_holding] at bound
    have live : Block.bytes needed ≤ Block.bytes (heap.survivors machine (order.roots heap) entries) :=
      Block.bytes_le distinct fun block member =>
        Heap.mem_survivors.mpr ⟨(needs block member).1, fun _ => alive block member⟩
    exact .inr ⟨final, failed, (Nat.add_le_add_left live _).trans bound⟩

end Needs

end Order

end SlabHeap
