import SlabHeap.Proofs.Budgets
import SlabHeap.Proofs.Jobs

namespace SlabHeap

/-! Orders that are refused.

An order is refused only after a collection, and where no free block has room for it. Since no free blocks touch,
there is at most one more of them than blocks in use, so that a slab whose free blocks are all too small for a
pair is hardly larger than what is in use: `Heap.Accounted.size_le_of_full`.
-/

open SlabHeap.Action Block

namespace Block

variable {blocks : List Block}

/-- Between two free blocks there is one in use. -/
theorem Coalesced.length_frees_le (coalesced : Coalesced blocks) :
    (frees blocks).length ≤ (used blocks).length + 1 := by
  -- Behind a free block there are no more free blocks than blocks in use.
  have counts : (frees blocks).length ≤ (used blocks).length + 1 ∧
      ∀ first ∈ blocks.head?, first.kind ≠ .free → (frees blocks).length ≤ (used blocks).length := by
    induction blocks with
    | nil => simp [frees]
    | cons block rest ih =>
        obtain ⟨neighbour, after⟩ := List.isChain_cons.mp coalesced
        obtain ⟨some, fewer⟩ := ih after
        by_cases isFree : block.kind = .free
        · have behind : (frees rest).length ≤ (used rest).length := by
            cases rest with
            | nil => simp [frees]
            | cons next others => exact fewer next rfl fun alsoFree => neighbour next rfl ⟨isFree, alsoFree⟩
          simp [frees, used, isFree] at *
          omega
        · simp [frees, used, isFree] at *
          omega
  exact counts.1

end Block

namespace Heap

variable {heap after : Heap} {machine final : Machine} {tiling : Slab → List Block} {context : Option Context}
  {entries : List Block} {slab : Slab} {size request : Nat} {refusal : HeapError}

/-- No free block has room for the request. -/
def Full (heap : Heap) (memory : Memory) (request : Nat) : Prop :=
  ∀ slab ∈ heap.slabs, ∀ entry ∈ slab.freeBlocks memory, entry.2 < request

theorem Tiled.full_iff {memory : Memory} (tiled : heap.Tiled memory tiling) :
    heap.Full memory request ↔ ¬ HasRoom (heap.blocks tiling) request := by
  rw [not_hasRoom_iff]
  refine forall₂_congr fun slab inHeap => ?_
  rw [(tiled.layout slab inHeap).freeBlocks_eq]

/-- A block that cannot be given is asked for once more after a collection. -/
theorem Collectable.full_of_refused (collectable : heap.Collectable context tiling machine)
    (rounds : Size.alignUp? (max size blockUnit) blockUnit = some request)
    (ran : (heap.allocateBlock context size).run machine = .ok (after, .error refusal) final) :
    after.counters.collections ≠ heap.counters.collections ∧ after.Full final.memory request := by
  obtain ⟨atLeast, _, whole, _⟩ := Size.alignUp?_eq_some
    (show Size.alignUp? (max size blockUnit) (1 <<< 4) = some request from rounds)
  have positive : 0 < request := by
    have : 0 < blockUnit := by decide
    omega
  unfold allocateBlock at ran
  simp only [rounds] at ran
  obtain ⟨found, first, tried, goesOn⟩ := of_run_bind ran
  rcases (Tiled.ensures_attempt whole positive collectable.tiled).of_run tried with
    ⟨rfl, rfl, _⟩ | ⟨_, rfl, _, _, _⟩
  swap
  · cases goesOn
  obtain ⟨⟨_, stats⟩, mid, collects, grows⟩ := of_run_bind goesOn
  obtain ⟨same, swept, collected⟩ := collectable.collectFrom_meets.of_run collects
  obtain rfl : _ = heap.counted stats := same
  have begun : heap.Prepared context tiling first (heap.counted stats) swept mid := .collected collected (.refl mid)
  have below : ∀ slab ∈ heap.slabs, mid.Hosts slab := fun slab inHeap =>
    (collectable.hosted slab inHeap).keep collected.steady.taken_subset
  obtain ⟨prepared, last, grew, retries⟩ := of_run_bind grows
  obtain ⟨divided, prepares, counts⟩ : ∃ divided, heap.Prepared context tiling first prepared divided last ∧
      prepared.counters.collections = heap.counters.collections + 1 := by
    rcases ((begun.tiled collectable).growFor_meets below).of_run grew with
      ⟨rfl, quiet, _⟩ | ⟨slab, rfl, _, _, _, created⟩
    · exact ⟨swept, .collected collected quiet, rfl⟩
    · exact ⟨_, .grown collected created, rfl⟩
  obtain ⟨again, tried, searched, refuses⟩ := of_run_bind retries
  rcases (Tiled.ensures_attempt whole positive (prepares.tiled collectable)).of_run searched with
    ⟨rfl, rfl, noRoom⟩ | ⟨_, rfl, _, _, _⟩
  swap
  · cases refuses
  obtain ⟨_, ended, notes, ends⟩ := of_run_bind (of_run_count prepared.countRefusal_eq refuses).2
  cases notes
  cases ends
  have full := (prepares.tiled collectable).full_iff.mpr noRoom
  exact ⟨Nat.ne_of_gt (counts ▸ Nat.lt_succ_self _), full⟩

/-- A slab in which no pair has room is full of what is in use, but for a unit beside each block. -/
theorem Accounted.size_le_of_full (accounted : heap.Accounted tiling machine entries)
    (objects : ∀ entry ∈ entries, entry.kind = .object) (full : heap.Full machine.memory 32)
    (inHeap : slab ∈ heap.slabs) : slab.size ≤ 32 + bytes entries + 16 * entries.length := by
  have tiled := accounted.consistent.tiled
  have layout := tiled.layout slab inHeap
  have single : entries.flatMap Block.pieces = entries := by
    have each : ∀ entry ∈ entries, entry.pieces = [entry] := fun entry member => by
      rw [Block.pieces, objects entry member]
    rw [List.flatMap_congr each]
    simp
  have inUse : (used (tiling slab)).Sublist (used (heap.blocks tiling)) := by
    obtain ⟨front, back, split⟩ := List.append_of_mem inHeap
    rw [blocks, split, List.flatMap_append, List.flatMap_cons]
    exact ((List.sublist_append_left _ _).trans (List.sublist_append_right _ _)).filter _
  have perm := single ▸ accounted.records.perm
  have fewer : (used (tiling slab)).length ≤ entries.length := perm.length_eq ▸ inUse.length_le
  have small : ((used (tiling slab)).map Block.size).sum ≤ bytes entries := by
    rw [bytes, (perm.map _).sum_eq]
    exact (inUse.map _).sum_le_sum fun _ _ => Nat.zero_le _
  -- A free block without room for a pair is one unit.
  have units : ((frees (tiling slab)).map Prod.snd).sum ≤ 16 * (frees (tiling slab)).length := by
    rw [← List.length_map Prod.snd, Nat.mul_comm, ← Nat.nsmul_eq_mul]
    refine List.sum_le_card_nsmul _ _ fun size listed => ?_
    obtain ⟨entry, member, rfl⟩ := List.mem_map.mp listed
    have room := full slab inHeap entry (layout.freeBlocks_eq ▸ member)
    have whole := (layout.bounds (mem_frees.mp member)).2.2.2
    dsimp only at whole
    omega
  have parts : ((frees (tiling slab)).map Prod.snd).sum + ((used (tiling slab)).map Block.size).sum =
    ((tiling slab).map Block.size).sum := sum_frees
  have sum := layout.tiles.sum_eq
  have between := (accounted.consistent.coalesced slab inHeap).length_frees_le
  simp only [Slab.objects, Slab.stop, blockUnit] at sum
  omega

end Heap

namespace Order

variable {order : Order} {heap after : Heap} {machine final : Machine} {tiling : Slab → List Block}
  {entries : List Block} {request : Nat} {refusal : HeapError}

/-- What an order is refused for is that the heap is full. -/
theorem full_of_refused (accounted : heap.Accounted tiling machine entries)
    (apt : (Operation.make order).Apt heap machine (Listed entries)) (fits : ¬ order.Oversized)
    (rounds : Size.alignUp? (max order.size blockUnit) blockUnit = some request)
    (ran : (order.perform heap).run machine = .ok (after, .error refusal) final) :
    after.counters.collections ≠ heap.counters.collections ∧ after.Full final.memory request := by
  have collectable := (rooted_of_apt accounted apt).collectable accounted.consistent
  rw [perform_eq apt.1.registered, if_neg fits] at ran
  obtain ⟨⟨prepared, given⟩, mid, allocated, delivered⟩ := of_run_bind ran
  cases given with
  | error reason =>
      cases delivered
      have full := collectable.full_of_refused rounds allocated
      cases order <;> exact full
  | ok start => cases (of_deliver delivered).2

end Order

namespace Stock.Held

open Command

variable {stock : Stock} {heap after : Heap} {machine final : Machine} {slab : Slab} {entries : List Block}
  {spare : Nat} {order : Order} {refusal : HeapError} {enough : Prop}

/-- Where an order for a cell is refused that reaches nothing but the stock, no slab has much more than the
stock in it. -/
theorem size_le_of_refused (held : stock.Held heap machine entries spare)
    (apt : (Operation.make order).Apt heap machine (Listed entries)) (fits : ¬ order.Oversized)
    (rounds : Size.alignUp? (max order.size blockUnit) blockUnit = some 32)
    (within : ∀ object, heap.Reachable machine (order.roots heap) object →
      object = stock.context.address ∨ object ∈ stock.cells)
    (ran : (order.perform heap).run machine = .ok (after, .error refusal) final) (inHeap : slab ∈ after.slabs) :
    slab.size ≤ 96 + 48 * stock.cells.length := by
  obtain ⟨tiling, accounted⟩ := held.accounted
  have acts : ((Operation.make order).perform heap).run machine = .ok (after, .made (.error refusal)) final :=
    Action.run_bind ran
  obtain ⟨collected, full⟩ := Order.full_of_refused accounted apt fits rounds ran
  obtain ⟨⟨taken, still⟩, _, _, _⟩ := Operation.keeps accounted held.orderly apt acts
  have ledger : (Operation.make order).ledger heap after machine entries (.made (.error refusal)) =
      heap.survivors machine (order.roots heap) entries := if_neg collected
  rw [ledger] at still
  -- What the collection left is of the stock.
  have left : ∀ block ∈ heap.survivors machine (order.roots heap) entries, block ∈ stock.blocks :=
    fun block member => by
      obtain ⟨listed, reached⟩ := Heap.mem_survivors.mp member
      exact held.mem_blocks listed (within block.start (reached (held.objects block listed)))
  have distinct := still.records.nodup still.consistent.tiled
  have few := (distinct.subperm left).length_le
  have small := Block.bytes_le distinct left
  have size := still.size_le_of_full (fun block member => kind_of_mem (left block member)) full inHeap
  rw [bytes_blocks] at small
  simp only [blocks, List.length_cons, List.length_map] at few
  omega

/-- The context that a job gets first is not refused by a slab that is large enough for it. -/
theorem affords_context (fresh : Fresh heap machine) (single : heap.slabs = [slab]) (room : enough → 64 ≤ slab.size) :
    (Step.call (·.makeContext none)).Yields heap machine (Step.Affords enough fun context after final =>
      ∃ later, Held ⟨context, []⟩ after final later 0 ∧ context.environment final.memory = .nil ∧
        after.Frugal final later slab machine enough) False := by
  obtain ⟨tiling, accounted⟩ := fresh.accounted
  have frugal : heap.Frugal machine [] slab machine enough :=
    ⟨fresh.bounded.paced fresh.uncounted [], single ▸ List.prefix_refl _, fun _ => ⟨single, .nil slab, .refl machine⟩⟩
  have apt : (Operation.make (.context none)).Apt heap machine (Listed []) :=
    ⟨⟨fun typed => typed.elim, by simp⟩, by simp [Order.root], by simp [Order.held]⟩
  have footprint : (Order.context none).footprint = 48 := by decide
  have few : enough → blockUnit + bytes [] + (Order.context none).footprint ≤ slab.size := fun isEnough => by
    rw [footprint]
    exact room isEnough
  refine Step.yields_call ?_
  rcases opens fresh with ⟨⟨after, answer⟩, final, ran, opened⟩ | ⟨_, _, bound⟩
  · have acts : (Order.perform heap (.context none)).run machine = .ok (after, answer.map Context.toValue) final :=
      Action.run_bind ran
    refine .inl ⟨_, final, ran, ?_⟩
    cases answer with
    | error refusal => exact frugal.refuses accounted apt (by decide) id few acts rfl
    | ok context =>
        obtain ⟨later, held, empty, granted⟩ := opened context rfl
        exact ⟨later, held, empty, frugal.grants accounted apt (by decide) id few acts rfl granted⟩
  · exact bound.elim

end Stock.Held

end SlabHeap
