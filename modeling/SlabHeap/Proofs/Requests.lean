import SlabHeap.Proofs.Budgets
import SlabHeap.Proofs.Capacity
import SlabHeap.Proofs.Helpers

namespace SlabHeap

/-! Requests of any size.

A size may be as large as a word holds, and on its way to a block it is multiplied, added to, rounded and
doubled. `Heap.WellFormed.requests_decided` says that every order is met or refused all the same, and every
request for a slab answered: no check on the way fails, and all that is counted stays a size.
-/

open SlabHeap.Action Block

namespace Counters

/-- All counts are sizes. -/
structure InRange (counters : Counters) : Prop where
  collections : counters.collections < Size.limit
  bytesFreed : counters.bytesFreed < Size.limit
  growths : counters.growths < Size.limit
  outOfMemory : counters.outOfMemory < Size.limit

/-- All counts are sizes, and what goes up by one at a time stays one if it does. -/
structure Unspent (counters : Counters) : Prop where
  collections : counters.collections + 1 < Size.limit
  bytesFreed : counters.bytesFreed < Size.limit
  growths : counters.growths + 1 < Size.limit
  outOfMemory : counters.outOfMemory + 1 < Size.limit

variable {counters : Counters}

theorem Unspent.inRange (unspent : counters.Unspent) : counters.InRange :=
  ⟨Nat.lt_of_succ_lt unspent.collections, unspent.bytesFreed, Nat.lt_of_succ_lt unspent.growths,
    Nat.lt_of_succ_lt unspent.outOfMemory⟩

theorem Unspent.refused (unspent : counters.Unspent) :
    { counters with outOfMemory := counters.outOfMemory + 1 }.InRange :=
  ⟨unspent.inRange.collections, unspent.bytesFreed, unspent.inRange.growths, unspent.outOfMemory⟩

theorem Unspent.grew (unspent : counters.Unspent) :
    { counters with growths := counters.growths + 1 }.InRange :=
  ⟨unspent.inRange.collections, unspent.bytesFreed, unspent.growths, unspent.inRange.outOfMemory⟩

end Counters

namespace Heap

variable {heap after : Heap} {machine final : Machine} {tiling : Slab → List Block}
  {context : Option Context} {held : List Value} {size request : Nat} {fill : Nat → Memory → Memory}
  {answer : Except HeapError Nat}

/-- All that a heap counts is a size. -/
structure InRange (heap : Heap) : Prop where
  total : heap.totalSize < Size.limit
  counters : heap.counters.InRange

theorem answers_appendSlab_counters (heap : Heap) (request : Nat) :
    (heap.appendSlab request).Answers fun answer => answer.1.counters = heap.counters ∨
      answer.1.counters = { heap.counters with growths := heap.counters.growths + 1 } := by
  rintro machine ⟨after, grew⟩ final ran
  rcases of_appendSlab ran with ⟨_, rfl⟩ | ⟨_, slab, _, _, _, rfl, _⟩
  · exact .inl rfl
  · exact .inr rfl

theorem answers_growFor_counters (heap : Heap) (swept : SweepStats) (request : Nat) :
    (heap.growFor swept request).Answers fun after => after.counters = heap.counters ∨
      after.counters = { heap.counters with growths := heap.counters.growths + 1 } := by
  unfold growFor
  refine answers_after fun _ => answers_after fun _ => answers_after fun _ => ?_
  dsimp only
  split
  · split
    · exact answers_after fun _ => answers_pure (.inl rfl)
    · exact (answers_appendSlab_counters heap request).bind fun _ grows => answers_pure grows
  · exact answers_pure (.inl rfl)

/-- At most one collection, one slab and one refusal are counted on the way to a block. -/
theorem answers_allocateBlock_inRange (unspent : heap.counters.Unspent) :
    (heap.allocateBlock context size).Answers fun answer => answer.1.counters.InRange := by
  unfold allocateBlock
  split
  · exact answers_count heap.countRefusal_eq fun _ => answers_after fun _ => answers_pure unspent.refused
  · next request _ =>
    refine answers_after fun found => ?_
    cases found with
    | some block => exact answers_pure unspent.inRange
    | none =>
        refine (answers_collectFrom_counts heap context).bind fun ⟨smaller, swept⟩ ⟨counted, _, freed⟩ => ?_
        obtain rfl : smaller = heap.counted swept := counted
        refine (answers_growFor_counters (heap.counted swept) swept request).bind fun grown grows => ?_
        have final : grown.counters.collections < Size.limit ∧ grown.counters.bytesFreed < Size.limit ∧
            grown.counters.growths < Size.limit ∧ grown.counters.outOfMemory + 1 < Size.limit := by
          rcases grows with same | more
          · rw [same]
            exact ⟨unspent.collections, freed, Nat.lt_of_succ_lt unspent.growths, unspent.outOfMemory⟩
          · rw [more]
            exact ⟨unspent.collections, freed, unspent.growths, unspent.outOfMemory⟩
        obtain ⟨collections, bytesFreed, growths, outOfMemory⟩ := final
        refine answers_after fun again => ?_
        cases again with
        | some block => exact answers_pure ⟨collections, bytesFreed, growths, Nat.lt_of_succ_lt outOfMemory⟩
        | none =>
            refine answers_count grown.countRefusal_eq fun _ => ?_
            exact answers_after fun _ => answers_pure ⟨collections, bytesFreed, growths, outOfMemory⟩

/-- The slabs of a heap that an allocation made are no larger than the range of addresses. -/
theorem Allotted.totalSize_lt (allotted : heap.Allotted context held tiling machine size fill after answer final)
    (collectable : (heap.holding held).Collectable context tiling machine) :
    after.totalSize < Size.limit := by
  obtain ⟨prepared, divided, mid, answering, prepares, answered, rfl⟩ := allotted
  have total := (prepares.tiled collectable).totalSize_lt
  rcases answered with ⟨_, _, _, _, same, _⟩ | ⟨_, same, _⟩
  · obtain rfl := congrArg Prod.fst same
    exact total
  · obtain rfl := congrArg Prod.fst same
    exact total

/-- A request for a slab is answered, whatever its size. -/
theorem Tiled.appendSlab_inRange (tiled : heap.Tiled machine.memory tiling)
    (hosted : ∀ slab ∈ heap.slabs, machine.Hosts slab) (unspent : heap.counters.Unspent) :
    (heap.appendSlab request).Ensures machine fun answer _ => answer.1.InRange := by
  refine ((tiled.appendSlab_meets hosted).ensures fun _ spent => ?_).weaken ?_
  · exact absurd unspent.growths (Nat.not_lt.mpr spent.1)
  rintro _ final (⟨rfl, _⟩ | ⟨slab, rfl, _, _, created⟩)
  · exact ⟨tiled.totalSize_lt, unspent.inRange⟩
  · exact ⟨(tiled.grown hosted created).totalSize_lt, unspent.grew⟩

end Heap

namespace Order

variable {order : Order} {heap after : Heap} {machine final : Machine} {tiling : Slab → List Block}
  {refusal : HeapError}

/-- The bytes that a refusal names: what was asked for in whole units, as far as that is a size. -/
def named (order : Order) : Nat :=
  let size := Size.saturate order.size
  (Size.alignUp? (max size blockUnit) blockUnit).getD size

/-- The order was met by an object or storage, or refused for want of the bytes that it asked for. -/
def Decides (order : Order) (answer : Except HeapError Value) : Prop :=
  (∃ start, answer = .ok (.reference start)) ∨ answer = .error (.outOfMemory order.named)

/-- A program can give the order: it knows the tag, it refers to objects only, and it asks for a size or for
so many elements that their bytes are none. -/
structure Askable (order : Order) (heap : Heap) (tiling : Slab → List Block) : Prop where
  registered : ∀ tag ∈ order.tag?, heap.shapes.isRegistered tag = true
  rooted : ∀ handle ∈ order.root, heap.Object tiling handle.address
  held : ∀ value ∈ order.held, heap.RefersToObject tiling value
  sized : order.Oversized ∨ order.size < Size.limit

/-- What an order is refused for is what it asked for. -/
theorem refusal_eq (registered : ∀ tag ∈ order.tag?, heap.shapes.isRegistered tag = true)
    (sized : order.Oversized ∨ order.size < Size.limit)
    (ran : (order.perform heap).run machine = .ok (after, .error refusal) final) :
    refusal = .outOfMemory order.named := by
  rw [perform_eq registered] at ran
  split at ran
  · next oversized =>
    cases (of_run_count heap.countRefusal_eq ran).2
    have large : Size.limit ≤ order.size := by
      cases order <;> first | exact oversized | exact oversized.elim
    have whole : Size.saturate order.size = Size.limit - 1 := by
      rw [Size.saturate]
      exact Nat.min_eq_right (Nat.le_trans (Nat.sub_le _ _) large)
    simp only [named, whole]
    rfl
  · next fits =>
    have whole : Size.saturate order.size = order.size := by
      rw [Size.saturate]
      exact Nat.min_eq_left (Nat.le_sub_one_of_lt (sized.resolve_left fits))
    obtain ⟨⟨prepared, given⟩, mid, allocated, ran⟩ := of_run_bind ran
    cases given with
    | error reason =>
        cases ran
        simp only [named, whole]
        exact Heap.answers_allocateBlock_refusal _ _ _ _ _ _ allocated _ rfl
    | ok start => cases (of_deliver ran).2

theorem answers_perform_inRange (registered : ∀ tag ∈ order.tag?, heap.shapes.isRegistered tag = true)
    (unspent : heap.counters.Unspent) :
    (order.perform heap).Answers fun answer => answer.1.counters.InRange := by
  rw [perform_eq registered]
  split
  · exact answers_count heap.countRefusal_eq fun _ => answers_pure unspent.refused
  · have held : (heap.holding order.held).counters.Unspent := unspent
    refine (Heap.answers_allocateBlock_inRange held).bind fun ⟨prepared, given⟩ inRange => ?_
    intro machine answer final ran
    rw [answers_deliver order heap prepared given machine answer final ran]
    exact inRange

end Order

namespace Heap

variable {heap : Heap} {machine : Machine} {tiling : Slab → List Block}

/-- A well-formed heap decides every order as long as it can count the bytes that a collection frees, and
answers every request for a slab, whatever the sizes. No check fails, and all that it counts is a size before
and after. -/
theorem WellFormed.requests_decided (wellFormed : heap.WellFormed machine tiling)
    (reserved : heap.Reserved machine) (unspent : heap.counters.Unspent) :
    heap.InRange ∧
    (∀ order : Order, order.Askable heap tiling →
      ¬ (heap.holding order.held).Overflows order.root tiling machine →
        (order.perform heap).Ensures machine fun answer _ => order.Decides answer.2 ∧ answer.1.InRange) ∧
    ∀ request, (heap.appendSlab request).Ensures machine fun answer _ => answer.1.InRange := by
  refine ⟨⟨wellFormed.tiled.totalSize_lt, unspent.inRange⟩, fun order askable counts => ?_, fun request => ?_⟩
  · have collectable := Order.Typed.collectable wellFormed reserved askable.rooted askable.held
    obtain ⟨⟨after, answer⟩, final, ran, given, same, allotted⟩ :=
      (Order.perform_meets collectable askable.registered).resolve_right fun ⟨_, _, overflows⟩ =>
        counts overflows
    refine ⟨_, final, ran, ?_, allotted.totalSize_lt collectable,
      Order.answers_perform_inRange askable.registered unspent _ _ _ ran⟩
    obtain rfl : answer = given.map Value.reference := same
    cases given with
    | ok start => exact .inl ⟨start, rfl⟩
    | error refusal =>
        exact .inr (congrArg Except.error (Order.refusal_eq askable.registered askable.sized ran))
  · exact wellFormed.tiled.appendSlab_inRange (fun slab inHeap => (reserved slab inHeap).1) unspent

section Ring

/-- Requests that memory cannot hold, some of whose sizes leave no room for a header, for rounding or for
doubling. -/
theorem requests_decided_ring :
    (∀ order ∈ [Order.storage ⟨0x3ffffffff010⟩ 0xffffffffffffffff, .object ⟨0x3ffffffff010⟩ Tag.pair (1 <<< 63),
        .vector ⟨0x3ffffffff010⟩ (1 <<< 61) (.reference 0x3ffffffff040)],
      (order.perform ringHeap).Ensures ringMachine fun answer _ =>
        order.Decides answer.2 ∧ answer.1.InRange) ∧
    (ringHeap.appendSlab 0xffffffffffffffff).Ensures ringMachine fun answer _ => answer.1.InRange := by
  have reserved : ringHeap.Reserved ringMachine := by
    intro slab member
    obtain rfl : slab = ringSlab := by simpa [ringHeap] using member
    decide
  have isObject : ringHeap.Object (fun _ => ringBlocks) 0x3ffffffff010 :=
    ⟨⟨0x3ffffffff010, 48, .object⟩, by rw [blocks_ring]; simp [ringBlocks], rfl, rfl⟩
  have unspent : ringHeap.counters.Unspent := by
    constructor <;> decide
  have counts (order : Order) :
      ¬ (ringHeap.holding order.held).Overflows order.root (fun _ => ringBlocks) ringMachine := by
    intro overflows
    have exhausted : ringHeap.Exhausted fun _ => ringBlocks := overflows.exhausted
    have used : ringHeap.usedBytes (fun _ => ringBlocks) = 80 := by
      rw [usedBytes, blocks_ring]
      rfl
    rw [Exhausted, used] at exhausted
    exact absurd exhausted (by decide)
  obtain ⟨_, decided, answered⟩ := wellFormed_ring.requests_decided reserved unspent
  refine ⟨fun order listed => decided order ?_ (counts order), answered _⟩
  simp only [List.mem_cons, List.not_mem_nil, or_false] at listed
  rcases listed with rfl | rfl | rfl
  · exact ⟨by simp [Order.tag?], by simp [Order.root, isObject], by simp [Order.held], .inr (by decide)⟩
  · exact ⟨by simp [Order.tag?]; rfl, by simp [Order.root, isObject], by simp [Order.held],
      .inr (by decide)⟩
  · refine ⟨by simp [Order.tag?]; rfl, by simp [Order.root, isObject], ?_, .inl (by decide)⟩
    simpa [Order.held] using ring_refers _ (.inr (.inr rfl))

end Ring

end Heap

end SlabHeap
