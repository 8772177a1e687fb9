import Mathlib.Algebra.Order.BigOperators.Group.List
import Mathlib.Algebra.Order.Ring.Nat
import SlabHeap.Proofs.Histories
import SlabHeap.Proofs.Staying
import SlabHeap.Proofs.Traceable

namespace SlabHeap

/-! Bytes are conserved.

The bytes of a heap are those of its sentinels, those that are free, and those that its ledger lists. What
a collection adds to the free ones it took off the ledger and counted as freed, so that over a whole run
the blocks given out are in use or counted: `Balance.Reached.conserved`.
-/

open SlabHeap.Action Block

/-- The bytes that some blocks take together. -/
def Block.bytes (blocks : List Block) : Nat := (blocks.map Block.size).sum

theorem Block.bytes_append (left right : List Block) : bytes (left ++ right) = bytes left + bytes right := by
  rw [bytes, List.map_append, List.sum_append, bytes, bytes]

theorem Block.bytes_pieces {block : Block} (large : blockUnit ≤ block.size)
    (whole : block.size % blockUnit = 0) : bytes block.pieces = block.size := by
  have sum := (tiles_pieces large whole).sum_eq
  rw [bytes]
  simp only [Block.stop] at sum
  omega

theorem Block.bytes_le {some all : List Block} (distinct : some.Nodup) (fewer : ∀ block ∈ some, block ∈ all) :
    bytes some ≤ bytes all := by
  obtain ⟨others, same, sublist⟩ := List.subperm_of_subset distinct fewer
  rw [bytes, bytes, ← (same.map Block.size).sum_eq]
  exact (sublist.map Block.size).sum_le_sum fun _ _ => Nat.zero_le _

namespace Heap

variable {heap after : Heap} {machine mid final : Machine} {memory : Memory}
  {tiling swept : Slab → List Block} {entries : List Block} {stats : SweepStats} {held : List Value}
  {live : Nat → Prop} {context : Option Context}

/-- A slab is its sentinel, what is free, and what is in use. -/
theorem Tiled.totalSize_eq (tiled : heap.Tiled memory tiling) : heap.totalSize =
    blockUnit * heap.slabs.length + freeStorage tiling heap.slabs + heap.usedBytes tiling := by
  have counted : ∀ slabs : List Slab, (∀ slab ∈ slabs, slab ∈ heap.slabs) →
      slabs.foldr (fun slab total => slab.size + total) 0 = blockUnit * slabs.length +
        freeStorage tiling slabs + ((used (slabs.flatMap tiling)).map Block.size).sum := by
    intro slabs inHeap
    induction slabs with
    | nil => rfl
    | cons slab rest ih =>
        have sum := (tiled.layout slab (inHeap slab List.mem_cons_self)).tiles.sum_eq
        have parts : ((frees (tiling slab)).map Prod.snd).sum +
          ((used (tiling slab)).map Block.size).sum = ((tiling slab).map Block.size).sum := sum_frees
        have others := ih fun other member => inHeap other (List.mem_cons_of_mem _ member)
        have split : used ((slab :: rest).flatMap tiling) = used (tiling slab) ++ used (rest.flatMap tiling) :=
          List.filter_append _ _
        simp only [split, freeStorage, List.foldr_cons, List.length_cons, List.map_cons, List.map_append,
          List.sum_append, List.sum_cons, Slab.objects, Slab.stop, blockUnit] at *
        omega
  exact counted heap.slabs fun _ member => member

/-- The entries of a ledger take the bytes in use. -/
theorem Records.bytes_eq (records : heap.Records tiling entries) :
    bytes entries = heap.usedBytes tiling := by
  have split (some : List Block) (fewer : ∀ entry ∈ some, entry ∈ entries) :
      bytes some = bytes (some.flatMap Block.pieces) := by
    induction some with
    | nil => rfl
    | cons entry rest ih =>
        have whole := records.whole entry (fewer entry List.mem_cons_self)
        rw [List.flatMap_cons, bytes_append, bytes_pieces whole.1 whole.2,
          ← ih fun other member => fewer other (List.mem_cons_of_mem _ member)]
        rfl
  rw [split entries fun _ => id]
  exact (records.perm.map _).sum_eq

/-- A collection raised the free bytes by those that it freed. They are no more than there are. -/
def Raises (heap after : Heap) (machine final : Machine) (stats : SweepStats) : Prop :=
  ∃ free, heap.freeBytes machine.memory = .ok free ∧
    after.freeBytes final.memory = .ok (free + stats.sumFreed) ∧
    free + stats.sumFreed ≤ after.totalSize

/-- The end of a collection that answers frees what was not marked. -/
theorem Marked.frees (marked : heap.Marked tiling machine mid live)
    (ran : (heap.finishCollection context).run mid = .ok (after, stats) final) :
    after = heap.counted stats ∧ ∃ swept, heap.Collected tiling swept machine final live ∧
      stats.sumFreed + heap.usedBytes swept = heap.usedBytes tiling := by
  obtain ⟨shown, last, _, collected, _, again⟩ := marked.finishCollection_swept context
  rw [ran] at again
  split at again
  · cases again
    exact ⟨rfl, _, collected, Marked.sumFreed_eq⟩
  · cases again

theorem Collected.raises (collected : heap.Collected tiling swept machine final live)
    (tiled : heap.Tiled machine.memory tiling)
    (freed : stats.sumFreed + heap.usedBytes swept = heap.usedBytes tiling) :
    heap.Raises (heap.counted stats) machine final stats := by
  obtain ⟨before, _⟩ := tiled.freeBytes_eq_ok
  have again : (heap.counted stats).freeBytes final.memory = .ok (freeStorage swept heap.slabs) :=
    collected.tiled.freeBytes_eq_ok.1
  have sum := tiled.totalSize_eq
  have sumAfter := collected.tiled.totalSize_eq
  have total : (heap.counted stats).totalSize = heap.totalSize := rfl
  refine ⟨_, before, ?_, by omega⟩
  rw [again]
  congr 1
  omega

namespace Accounted

variable (accounted : heap.Accounted tiling machine entries)

include accounted

/-- The bytes of a heap are those of its sentinels, what is free, and what its ledger lists. -/
theorem balance : ∃ free, heap.freeBytes machine.memory = .ok free ∧
    heap.totalSize = blockUnit * heap.slabs.length + free + bytes entries := by
  refine ⟨_, accounted.consistent.tiled.freeBytes_eq_ok.1, ?_⟩
  rw [accounted.records.bytes_eq]
  exact accounted.consistent.tiled.totalSize_eq

theorem holding (denotes : ∀ value ∈ held, heap.Denotes tiling value) :
    (heap.holding held).Accounted tiling machine entries where
  consistent := accounted.consistent.holding denotes
  records := ⟨accounted.records.inUse, accounted.records.whole, accounted.records.inside,
    accounted.records.perm⟩

variable {collection : Collection}
  (listed : ∀ context ∈ collection.context, Listed entries context.address)

include listed

theorem rooted_collection : ∀ value ∈ collection.roots heap machine.memory (heap.blocks tiling),
    heap.Denotes tiling value := by
  cases collection with
  | plain context =>
      exact accounted.consistent.rooted fun handle isRoot => accounted.denotes_handle (listed handle isRoot)
  | scanning context snapshot =>
      exact accounted.consistent.rooted_named snapshot (accounted.denotes_handle (listed context rfl))

theorem ensures_marking : (collection.marking heap).Ensures machine fun _ mid =>
    heap.Marked tiling machine mid (heap.Reach machine machine.Unmarked
      (collection.roots heap machine.memory (heap.blocks tiling))) := by
  have consistent := accounted.consistent
  have closed := consistent.closed (accounted.rooted_collection listed)
  cases collection with
  | plain context =>
      refine closed.ensures_mark.weaken fun _ mid ran => ?_
      exact ⟨consistent.clean, ran.1, fun _ reached => closed.node reached, ran.2⟩
  | scanning context snapshot => exact consistent.ready.ensures_markAll closed consistent.clean

/-- A collection that answers frees what it takes off the ledger. -/
theorem collection_frees (ran : (collection.perform heap).run machine = .ok (after, stats) final) :
    after = heap.counted stats ∧ heap.Raises after machine final stats ∧
      stats.sumFreed + bytes (heap.survivors machine
        (collection.roots heap machine.memory (heap.blocks tiling)) entries) = bytes entries := by
  obtain ⟨_, mid, marks, marked⟩ := accounted.ensures_marking listed
  rw [collection.perform_eq, run_bind marks] at ran
  obtain ⟨rfl, swept, collected, freed⟩ := marked.frees ran
  have tiled := accounted.consistent.tiled
  have ledger := accounted.records.survive tiled collected fun block member isObject =>
    accounted.consistent.reach_iff (accounted.rooted_collection listed) member isObject
  refine ⟨rfl, collected.raises tiled freed, ?_⟩
  rw [ledger.bytes_eq, accounted.records.bytes_eq, freed]

end Accounted

end Heap

namespace Operation

open Heap

variable {heap after : Heap} {machine final : Machine} {tiling : Slab → List Block}
  {entries : List Block} {op : Operation} {answer : Answer}

/-- The bytes that an operation gives out. -/
def issued (op : Operation) (answer : Answer) : Nat := (op.made answer).elim 0 Block.size

/-- Only a collection takes blocks off the ledger. -/
theorem keeps_of_edits (only : op.Edits) (block : Block) : op.Keeps heap after machine entries block := by
  cases op with
  | make | collect | scan => exact only.elim
  | _ => trivial

open Classical in
/-- An operation that keeps everything takes nothing off the ledger. -/
theorem tallies_of_keeps (same : heap.Tallies after)
    (keeps : ∀ block, op.Keeps heap after machine entries block) :
    after.counters.bytesFreed + bytes (entries.filter (op.Keeps heap after machine entries ·)) =
      heap.counters.bytesFreed + bytes entries := by
  rw [same.bytesFreed, List.filter_eq_self.mpr fun block _ => by simpa using keeps block]

open Classical in
/-- One collection, perhaps of the heap while it holds further values, decides what is kept. -/
theorem tallies_of_collection {source later : Heap} {collection : Collection} {stats : SweepStats}
    {last : Machine} (holds : source.Accounted tiling machine entries)
    (alike : source.counters = heap.counters)
    (listed : ∀ context ∈ collection.context, Listed entries context.address)
    (acts : (collection.perform source).run machine = .ok (later, stats) last)
    (keeps : ∀ block, op.Keeps heap after machine entries block ↔ source.Spares machine
      (collection.roots source machine.memory (source.blocks tiling)) block)
    (same : later.Tallies after) :
    after.counters.bytesFreed + bytes (entries.filter (op.Keeps heap after machine entries ·)) =
      heap.counters.bytesFreed + bytes entries := by
  obtain ⟨rfl, _, freed⟩ := holds.collection_frees listed acts
  have survivors : entries.filter (op.Keeps heap after machine entries ·) = source.survivors machine
      (collection.roots source machine.memory (source.blocks tiling)) entries :=
    List.filter_congr fun block _ => by simp only [keeps, Spares]
  rw [survivors, same.bytesFreed, Heap.counted]
  dsimp only
  rw [alike]
  omega

open Classical in
/-- What an operation takes off the ledger it counts as freed. -/
theorem tallies (accounted : heap.Accounted tiling machine entries) (orderly : machine.Orderly)
    (apt : op.Apt heap machine (Listed entries))
    (ran : (op.perform heap).run machine = .ok (after, answer) final) :
    after.counters.bytesFreed + bytes (entries.filter (op.Keeps heap after machine entries ·)) =
      heap.counters.bytesFreed + bytes entries := by
  by_cases only : op.Edits
  · obtain ⟨rfl, _⟩ := edits only accounted orderly apt ran
    exact tallies_of_keeps (.refl after) (keeps_of_edits only)
  cases op with
  | append request =>
      obtain ⟨⟨later, grown⟩, same, acts⟩ := of_run_map ran
      cases same
      exact tallies_of_keeps (answers_appendSlab_tallies heap request _ _ _ acts) fun _ => trivial
  | register shape =>
      cases ran
      exact tallies_of_keeps ⟨rfl, rfl⟩ fun _ => trivial
  | collect context =>
      obtain ⟨⟨later, stats⟩, same, acts⟩ := of_run_map ran
      cases same
      have listed : ∀ handle ∈ (Collection.plain (some context)).context,
          Listed entries handle.address := fun handle isRoot => by
        obtain rfl := Option.some.inj isRoot
        exact apt
      exact tallies_of_collection accounted rfl listed acts (fun _ => .rfl) (.refl _)
  | scan context snapshot =>
      obtain ⟨⟨later, stats⟩, same, acts⟩ := of_run_map ran
      cases same
      have listed : ∀ handle ∈ (Collection.scanning context snapshot).context,
          Listed entries handle.address := fun handle isRoot => by
        obtain rfl := Option.some.inj isRoot
        exact apt
      refine tallies_of_collection accounted rfl listed acts (fun block => ?_) (.refl _)
      rw [Keeps, Spares, Spares, Collection.roots, accounted.reachable_named]
  | make order =>
      obtain ⟨fits, roots, held⟩ := apt
      obtain ⟨⟨later, given⟩, same, acts⟩ := of_run_map ran
      cases same
      cases Order.of_perform fits.registered acts with
      | never same silent =>
          exact tallies_of_keeps ⟨same.collections, same.bytesFreed⟩ fun _ => .inl same.collections
      | once ran same silent =>
          have holds := accounted.holding fun value listed => accounted.denotes (held value listed)
          have rooted : ∀ handle ∈ (Collection.plain order.root).context,
            Listed entries handle.address := roots
          -- The heap held what the order refers to while it was collected, which does not change
          -- what is kept.
          have grew : ¬ later.counters.collections = heap.counters.collections := by
            rw [same.collections, answers_collectFrom_counted _ _ _ _ _ ran]
            exact Nat.succ_ne_self _
          refine tallies_of_collection holds rfl rooted ran (fun block => ?_) same
          rw [Keeps, or_iff_right grew, Spares, Spares, reachable_holding]
          rfl
  | _ => exact absurd trivial only

/-- What an operation gives out is in use or was counted as freed, as all that was given out before. -/
theorem conserves (accounted : heap.Accounted tiling machine entries) (orderly : machine.Orderly)
    (apt : op.Apt heap machine (Listed entries))
    (ran : (op.perform heap).run machine = .ok (after, answer) final) :
    after.counters.bytesFreed + bytes (op.ledger heap after machine entries answer) =
      heap.counters.bytesFreed + bytes entries + op.issued answer := by
  have tallied := tallies accounted orderly apt ran
  rw [ledger_eq, bytes_append, ← tallied, issued]
  cases op.made answer with
  | none => simp [bytes]
  | some block =>
      simp only [Option.toList, bytes, List.map_cons, List.map_nil, List.sum_cons, List.sum_nil,
        Option.elim_some]
      omega

end Operation

/-- A heap, its ledger, and the bytes of all blocks that it ever gave out. -/
structure Balance where
  heap : Heap
  entries : List Block
  issued : Nat

namespace Balance

open Heap

variable {machine final : Machine} {balance : Balance}

/-- What happens to one heap: it is founded, and it is operated on. Whatever else a program does leaves the
words of its slabs alone, and the frames of its contexts. -/
inductive Reached : Machine → Balance → Prop
  | found {machine final : Machine} {settings : Settings} {shapes : ShapeTable} {features : Features}
      {heap : Heap} (orderly : machine.Orderly)
      (confined : ∀ tag shape, shapes.get? tag = some shape → shape.Confined)
      (ran : (Heap.new settings shapes features).run machine = .ok (.ok heap) final) :
      Reached final ⟨heap, [], 0⟩
  | operate {machine final : Machine} {balance : Balance} {op : Operation} {after : Heap}
      {answer : Answer} (reached : Reached machine balance)
      (apt : op.Apt balance.heap machine (Listed balance.entries))
      (ran : (op.perform balance.heap).run machine = .ok (after, answer) final) :
      Reached final ⟨after, op.ledger balance.heap after machine balance.entries answer,
        balance.issued + op.issued answer⟩
  | elsewhere {machine final : Machine} {balance : Balance} (reached : Reached machine balance)
      (words : ∀ slab ∈ balance.heap.slabs, ∀ address, slab.start ≤ address → address < slab.stop →
        final.memory.read address = machine.memory.read address)
      (frames : ∀ number frame, machine.frame? number = some frame →
        balance.heap.contains frame.context.address = true → final.frame? number = some frame)
      (pages : machine.pages.taken ⊆ final.pages.taken) (orderly : final.Orderly) : Reached final balance

/-- The heap is accounted for, and what it gave out is in use or was freed. -/
structure Kept (machine : Machine) (balance : Balance) : Prop where
  accounted : ∃ tiling, balance.heap.Accounted tiling machine balance.entries
  orderly : machine.Orderly
  issued : balance.issued = balance.heap.counters.bytesFreed + bytes balance.entries

theorem Reached.kept (reached : Reached machine balance) : Kept machine balance := by
  induction reached with
  | @found machine _ settings shapes features _ orderly confined ran =>
      obtain ⟨_, absent, _⟩ | ⟨slab, made, found, created, rfl⟩ := Heap.ensures_new.of_run ran
      · cases absent
      · cases found
        have arises := arises_founded created confined settings features
          (Machine.heapIdentity machine.identities) (machine.identities + 1)
        exact ⟨arises.accounted, orderly.congr arises.reserved.frames, rfl⟩
  | operate reached apt ran ih =>
      obtain ⟨⟨tiling, accounted⟩, orderly, issued⟩ := ih
      obtain ⟨still, orderlyStill, _, _⟩ := Operation.keeps accounted orderly apt ran
      refine ⟨still, orderlyStill, ?_⟩
      rw [Operation.conserves accounted orderly apt ran, issued]
  | elsewhere reached words frames pages orderly ih =>
      obtain ⟨⟨tiling, consistent, records⟩, _, issued⟩ := ih
      exact ⟨⟨tiling, consistent.keep words frames pages, records⟩, orderly, issued⟩

/-- In every run, the bytes of a heap are those of its sentinels, those that are free, and those of the
blocks in use, and the blocks that it ever gave out are in use or were counted as freed. Every collection
raises the free bytes by those that it frees, also one that an order asks for, which never subtracts more
bytes than there are. -/
theorem Reached.conserved (reached : Reached machine balance) :
    (∃ free, balance.heap.freeBytes machine.memory = .ok free ∧ balance.heap.totalSize =
      blockUnit * balance.heap.slabs.length + free + bytes balance.entries) ∧
    balance.issued = balance.heap.counters.bytesFreed + bytes balance.entries ∧
    (∀ (collection : Collection) (after : Heap) (stats : SweepStats) (final : Machine),
      (∀ context ∈ collection.context, Listed balance.entries context.address) →
      (collection.perform balance.heap).run machine = .ok (after, stats) final →
      balance.heap.Raises after machine final stats) ∧
    ∀ order : Order, (Operation.make order).Apt balance.heap machine (Listed balance.entries) →
      (∀ (after : Heap) (stats : SweepStats) (final : Machine),
        ((balance.heap.holding order.held).collectFrom order.root).run machine = .ok (after, stats) final →
        (balance.heap.holding order.held).Raises after machine final stats) ∧
      ∀ final, (order.perform balance.heap).run machine ≠ .error .subtractionOverflow final := by
  obtain ⟨⟨tiling, accounted⟩, orderly, issued⟩ := reached.kept
  refine ⟨accounted.balance, issued, fun collection after stats final listed ran =>
    (accounted.collection_frees listed ran).2.1, fun order apt => ⟨fun after stats final ran => ?_,
      fun final faults => ?_⟩⟩
  · have holds := accounted.holding fun value listed => accounted.denotes (apt.2.2 value listed)
    have rooted : ∀ handle ∈ (Collection.plain order.root).context,
      Listed balance.entries handle.address := apt.2.1
    exact (holds.collection_frees rooted ran).2.1
  · have rooted := Order.rooted_of_apt accounted apt
    rcases Order.perform_meets (rooted.collectable accounted.consistent) apt.1.registered with
      ⟨_, _, ran, _⟩ | ⟨_, ran, _⟩
    all_goals
      rw [faults] at ran
      cases ran

/-- Makes a context and a pair that nothing refers to, and collects the heap. -/
def spend : Action (Option (Heap × Heap × Heap)) := do
  match ← Heap.new { initialSize := 256 } .standard {} with
  | .error _ => return none
  | .ok heap =>
      let first ← (Operation.make (.context none)).perform heap
      match first.2 with
      | .made (.ok context) =>
          let second ← (Operation.make (.pair ⟨context.untagged⟩ .nil .nil)).perform first.1
          match second.2 with
          | .made (.ok _) =>
              let third ← (Operation.collect ⟨context.untagged⟩).perform second.1
              return some (first.1, second.1, third.1)
          | _ => return none
      | _ => return none

def spends : Option (Heap × Heap × Heap) → Bool
  | some (first, second, third) => first.shapes = .standard &&
      second.counters.collections = first.counters.collections && third.counters.bytesFreed = 32
  | none => false

/-- The pair was given out and freed, and the context is in use. -/
theorem conserved_spent : ∃ machine balance free, Reached machine balance ∧ balance.issued = 80 ∧
    balance.heap.counters.bytesFreed = 32 ∧ bytes balance.entries = 48 ∧
    balance.heap.freeBytes machine.memory = .ok free ∧
    balance.heap.totalSize = blockUnit * balance.heap.slabs.length + free + 48 := by
  have made : spend.passes {} spends = true := by decide +kernel
  obtain ⟨answer, final, ran, outcome⟩ := ensures_of_passes made
  unfold spends at outcome
  split at outcome
  swap
  · exact absurd outcome Bool.false_ne_true
  next first second third =>
  simp only [Bool.and_eq_true, decide_eq_true_eq] at outcome
  obtain ⟨⟨standard, same⟩, freed⟩ := outcome
  unfold spend at ran
  obtain ⟨founded, machine, founds, ran⟩ := of_run_bind ran
  cases founded with
  | error refusal => cases ran
  | ok heap =>
      obtain ⟨⟨heap1, answer1⟩, machine1, makes, ran⟩ := of_run_bind ran
      dsimp only at ran
      split at ran
      swap
      · cases ran
      next context =>
      obtain ⟨⟨heap2, answer2⟩, machine2, asks, ran⟩ := of_run_bind ran
      dsimp only at ran
      split at ran
      swap
      · cases ran
      next pair =>
      obtain ⟨⟨heap3, stats⟩, machine3, collects, ends⟩ := of_run_bind ran
      cases ends
      obtain ⟨entries, begun, inUse⟩ : ∃ entries, Reached machine1 ⟨first, entries, 48⟩ ∧
          Listed entries context.untagged := by
        have apt : (Operation.make (.context none)).Apt heap machine (Listed []) :=
          ⟨⟨fun typed => typed.elim, by simp⟩, by simp [Order.root], by simp [Order.held]⟩
        have founded := Reached.found Account.orderly_fresh
          (fun _ _ known => ShapeTable.confined_standard known) founds
        exact ⟨_, founded.operate apt makes, _, List.mem_append_right _ (List.mem_singleton_self _), rfl⟩
      obtain ⟨later, paired, stillInUse⟩ : ∃ later, Reached machine2 ⟨second, later, 80⟩ ∧
          Listed later context.untagged := by
        have apt : (Operation.make (.pair ⟨context.untagged⟩ .nil .nil)).Apt first machine1
            (Listed entries) := by
          refine ⟨⟨fun _ => standard ▸ fun _ _ known => known, by simp⟩, ?_, ?_⟩
          · intro handle isRoot
            obtain rfl := Option.some.inj isRoot
            exact inUse
          · intro value isHeld address refers
            obtain rfl : value = .nil := by simpa [Order.held] using isHeld
            cases refers
        obtain ⟨block, listed, starts⟩ := inUse
        have given : (Operation.make (.pair ⟨context.untagged⟩ .nil .nil)).issued (.made (.ok pair)) = 32 :=
          show (Size.alignUp? (max 24 blockUnit) blockUnit).getD 0 = 32 by decide
        refine ⟨_, given ▸ begun.operate apt asks, block, ?_, starts⟩
        exact List.mem_append_left _ (mem_remaining.mpr ⟨listed, .inl same⟩)
      have apt : (Operation.collect ⟨context.untagged⟩).Apt second machine2 (Listed later) := stillInUse
      have spent := paired.operate apt collects
      obtain ⟨⟨free, freeBytes, total⟩, issued, _⟩ := spent.conserved
      rw [show heap3.counters.bytesFreed = 32 from freed] at issued
      have inBytes : bytes _ = 48 := Nat.add_left_cancel (n := 32) issued.symm
      exact ⟨final, _, free, spent, rfl, freed, inBytes, freeBytes, inBytes ▸ total⟩

end Balance

end SlabHeap
