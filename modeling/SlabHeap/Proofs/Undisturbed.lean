import SlabHeap.Proofs.Storage
import SlabHeap.Proofs.Tenants

namespace SlabHeap

/-! Storage that is left alone.

`Account.Turn` is one thing that happens while a program holds storage without a header: an operation of the
heap, a change of its global roots, or a change of the words of such storage which leaves its units without
tags. `Operation.PassesBy` says what an operation does about the storage, and `Heap.allocate_undisturbed` that
this holds of every operation after any number of turns.
-/

open Block

/-- The block for an order has room for it. -/
theorem Order.size_le_footprint {order : Order} (large : blockUnit ≤ order.footprint) :
    order.size ≤ order.footprint := by
  rw [Order.footprint] at large ⊢
  cases rounds : Size.alignUp? (max order.size blockUnit) blockUnit with
  | none =>
      rw [rounds, Option.getD_none, blockUnit] at large
      omega
  | some request =>
      have atLeast := (Size.alignUp?_eq_some
        (show Size.alignUp? (max order.size blockUnit) (1 <<< 4) = some request from rounds)).1
      exact Nat.le_trans (Nat.le_max_left _ _) atLeast

namespace Heap

variable {heap after : Heap} {machine final : Machine} {memory : Memory} {tiling : Slab → List Block}
  {entries : List Block} {raw : Block} {address : Nat} {word : UInt64} {keeps : Block → Prop}

namespace Accounted

variable (accounted : heap.Accounted tiling machine entries) (listed : raw ∈ entries)

include accounted

/-- Global roots may change as long as they refer to what is in use. -/
theorem reroot (globals : Option (List Value)) (refers : ∀ value ∈ globals.getD [], value.Refers (Listed entries)) :
    { heap with globals }.Accounted tiling machine entries := by
  obtain ⟨inUse, whole, inside, perm⟩ := accounted.records
  refine ⟨accounted.consistent.reroot rfl rfl rfl (fun value held => ?_) accounted.consistent.scratch,
    inUse, whole, inside, perm⟩
  exact accounted.denotes (refers value held)

include listed

/-- What is in use lies in whole words. -/
theorem aligned : raw.start % 16 = 0 ∧ raw.size % 16 = 0 := by
  obtain ⟨block, member, _, same⟩ := accounted.records.node listed
  exact ⟨same ▸ (accounted.consistent.tiled.bounds member).2.1, (accounted.records.whole raw listed).2⟩

/-- Any word may be stored behind the tags of storage without a header. -/
theorem rewritten_write (isBare : raw.kind = .bare) (inside : raw.Covers address)
    (untagged : address % 16 < 8 → (Header.ofWord word).tag = 0) :
    raw.Rewritten machine.memory (machine.memory.write address word) := by
  obtain ⟨aligned, whole⟩ := accounted.aligned listed
  constructor
  · intro other outside
    have elsewhere : other / 8 ≠ address / 8 := by
      simp only [Block.Covers, Block.stop] at inside outside
      omega
    rw [Memory.read_write, if_neg elsewhere]
  · intro unit inPieces
    obtain ⟨member, _⟩ := accounted.records.piece listed inPieces
    have kind := kind_of_mem_pieces isBare inPieces
    obtain ⟨slab, inHeap, inSlab⟩ := mem_blocks.mp member
    have before := ((accounted.consistent.tiled.layout slab inHeap).bare inSlab kind).2
    have unitAligned := (accounted.consistent.tiled.bounds member).2.1
    rw [Memory.tag, Memory.header, Memory.read_write]
    split
    · next here => exact untagged (by omega)
    · exact before

/-- No byte of what is in use is on a free list. -/
theorem disjoint_free {slab : Slab} (inHeap : slab ∈ heap.slabs) {start size : Nat}
    (isFree : (start, size) ∈ slab.freeBlocks machine.memory) : raw.Disjoint ⟨start, size, .free⟩ := by
  have run := ((accounted.canonical_slab inHeap).runs start size).mp isFree
  have large := (accounted.records.whole raw listed).1
  have nonempty := run.nonempty
  by_contra overlap
  refine run.free (max raw.start start) (by omega) ?_ raw listed ?_
  all_goals
    simp only [Block.Disjoint, Block.Covers, Block.stop, blockUnit] at *
    omega

/-- Objects that are finalized lie elsewhere. -/
theorem uncalled (isBare : raw.kind = .bare) (departs : heap.Departs tiling machine final keeps) :
    ∃ made, final.calls = machine.calls ++ made ∧ ∀ call ∈ made, ¬ raw.Covers call.1 := by
  obtain ⟨made, calls, called⟩ := departs
  refine ⟨made, calls, fun call among covers => ?_⟩
  obtain ⟨block, leaves, seen⟩ := forall₂_partner called.flip among
  obtain ⟨member, awaits⟩ := List.mem_filter.mp leaves
  rw [Bool.and_eq_true] at awaits
  have isObject := kind_of_awaits awaits.2
  rw [seen.address] at covers
  obtain ⟨unit, inPieces, unitMember, _, unitCovers⟩ := accounted.exists_piece listed covers
  have same := accounted.consistent.tiled.eq_of_covers unitMember member unitCovers
    (accounted.consistent.tiled.start_covers member)
  rw [← same, kind_of_mem_pieces isBare inPieces] at isObject
  cases isObject

end Accounted

end Heap

namespace Operation

variable {op : Operation} {heap after : Heap} {machine final : Machine} {tiling : Slab → List Block}
  {entries : List Block} {answer : Answer} {raw : Block}

/-- What an operation does about storage without a header: the storage stays in use, no block is given out
there, its words stay as they are but for marks, no finalizer is called there, and all objects are kept or
finalized that would be whatever its words were. -/
structure PassesBy (op : Operation) (heap after : Heap) (machine final : Machine) (entries : List Block)
    (answer : Answer) (raw : Block) : Prop where
  stays : raw ∈ op.ledger heap after machine entries answer
  apart : ∀ block, op.made answer = some block → raw.Disjoint block
  idles : ∀ unit ∈ raw.pieces,
    unit.Idles (op.Encounters heap after machine entries unit.start) machine.memory final.memory
  uncalled : ∃ made, final.calls = machine.calls ++ made ∧ ∀ call ∈ made, ¬ raw.Covers call.1
  proceeds : heap.Proceeds after machine final (op.ledger heap after machine entries answer)
  departs : ∃ tiling, heap.Accounted tiling machine entries ∧
    heap.Departs tiling machine final (op.Keeps heap after machine entries)
  blind : ∀ memory, raw.Rewritten machine.memory memory → ∀ block,
    op.Keeps heap after (machine.withMemory memory) entries block ↔ op.Keeps heap after machine entries block

theorem keeps_bare (isBare : raw.kind = .bare) : op.Keeps heap after machine entries raw := by
  cases op with
  | make order => exact .inr (Heap.spares_of_bare isBare)
  | collect context => exact Heap.spares_of_bare isBare
  | scan context snapshot => exact Heap.spares_of_bare isBare
  | _ => trivial

/-- An operation passes by storage without a header. -/
theorem passesBy (accounted : heap.Accounted tiling machine entries) (orderly : machine.Orderly)
    (apt : op.Apt heap machine (Listed entries)) (listed : raw ∈ entries) (isBare : raw.kind = .bare)
    (ran : (op.perform heap).run machine = .ok (after, answer) final) :
    op.PassesBy heap after machine final entries answer raw := by
  have proceeds := op.keeps accounted orderly apt ran
  have departs := op.departs accounted apt ran
  have keeps : op.Keeps heap after machine entries raw := keeps_bare isBare
  refine ⟨mem_ledger.mpr (.inl ⟨listed, keeps⟩), fun block made => ?_,
    op.idles accounted apt listed isBare orderly ran, accounted.uncalled listed isBare departs, proceeds,
    ⟨tiling, accounted, departs⟩, fun memory rewritten block => ?_⟩
  · obtain ⟨taken, still⟩ := proceeds.accounted
    have disjoint := still.records.disjoint still.consistent.tiled
    rw [ledger_eq, List.pairwise_append] at disjoint
    exact disjoint.2.2 raw (List.mem_filter.mpr ⟨listed, by simpa using keeps⟩) block (by simp [made])
  · exact op.keeps_rewritten accounted apt listed isBare rewritten

end Operation

namespace Account

variable {machine final : Machine} {account later : Account} {raw : Block}

/-- One thing that happens while a program holds storage without a header. -/
inductive Turn : Machine → Account → Machine → Account → Prop
  | operate {machine final : Machine} {account : Account} {op : Operation} {after : Heap} {answer : Answer}
      (apt : op.Apt account.heap machine (Listed account.entries))
      (ran : (op.perform account.heap).run machine = .ok (after, answer) final) :
      Turn machine account final ⟨after, op.ledger account.heap after machine account.entries answer⟩
  | reroot {machine : Machine} {account : Account} (globals : Option (List Value))
      (refers : ∀ value ∈ globals.getD [], value.Refers (Listed account.entries)) :
      Turn machine account machine ⟨{ account.heap with globals }, account.entries⟩
  | write {machine : Machine} {account : Account} {raw : Block} {memory : Memory}
      (listed : raw ∈ account.entries) (isBare : raw.kind = .bare)
      (rewritten : raw.Rewritten machine.memory memory) :
      Turn machine account (machine.withMemory memory) account

/-- What comes about turn by turn. -/
inductive Onward (machine : Machine) (account : Account) : Machine → Account → Prop
  | here : Onward machine account machine account
  | turn {mid final : Machine} {between later : Account} (onward : Onward machine account mid between)
      (turn : Turn mid between final later) : Onward machine account final later

/-- Storage without a header is in use in a heap that is accounted for. -/
structure Harbours (machine : Machine) (account : Account) (raw : Block) : Prop where
  accounted : ∃ tiling, account.heap.Accounted tiling machine account.entries
  orderly : machine.Orderly
  listed : raw ∈ account.entries
  isBare : raw.kind = .bare

/-- Every turn leaves the storage in use, and calls no finalizer there. -/
theorem Harbours.turn (harbours : account.Harbours machine raw) (turn : Turn machine account final later) :
    later.Harbours final raw ∧
      ∃ made, final.calls = machine.calls ++ made ∧ ∀ call ∈ made, ¬ raw.Covers call.1 := by
  obtain ⟨⟨tiling, accounted⟩, orderly, listed, isBare⟩ := harbours
  cases turn with
  | operate apt ran =>
      have passes := Operation.passesBy accounted orderly apt listed isBare ran
      exact ⟨⟨passes.proceeds.accounted, passes.proceeds.orderly, passes.stays, isBare⟩, passes.uncalled⟩
  | reroot globals refers =>
      exact ⟨⟨⟨tiling, accounted.reroot globals refers⟩, orderly, listed, isBare⟩,
        [], (List.append_nil _).symm, by simp⟩
  | write alsoListed alsoBare rewritten =>
      exact ⟨⟨⟨tiling, accounted.rewrite alsoListed alsoBare rewritten⟩, orderly.congr rfl, listed, isBare⟩,
        [], (List.append_nil _).symm, by simp⟩

theorem Harbours.onward (harbours : account.Harbours machine raw)
    (onward : Onward machine account final later) : later.Harbours final raw ∧
      ∃ made, final.calls = machine.calls ++ made ∧ ∀ call ∈ made, ¬ raw.Covers call.1 := by
  induction onward with
  | here => exact ⟨harbours, [], (List.append_nil _).symm, by simp⟩
  | turn _ turn ih =>
      obtain ⟨still, made, calls, clear⟩ := ih
      obtain ⟨again, more, moreCalls, alsoClear⟩ := still.turn turn
      exact ⟨again, made ++ more, by rw [moreCalls, calls, List.append_assoc],
        List.forall_mem_append.mpr ⟨clear, alsoClear⟩⟩

end Account

namespace Heap

/-- Storage that was given out stays with the program as long as no unit of it has a tag. Whatever else its
words are, and whether anything refers to it or not, it is on no free list and is not given out again, nothing
there is finalized, and the objects around it are kept as if it held nothing. A collection that finds a
reference to a unit, and a header there where it looks for one, leaves a mark in the first word of the unit. -/
theorem allocate_undisturbed {heap after : Heap} {machine mid : Machine} {tiling : Slab → List Block}
    {entries : List Block} {root : Context} {size : Nat} {value : Value}
    (accounted : heap.Accounted tiling machine entries) (orderly : machine.Orderly)
    (inUse : Listed entries root.address)
    (ran : (heap.allocate root size).run machine = .ok (after, .ok value) mid) :
    ∃ raw : Block, raw.kind = .bare ∧ raw.start = value.untagged ∧ size ≤ raw.size ∧
      ∀ (final : Machine) (account : Account), Account.Onward mid
          ⟨after, (Operation.make (.storage root size)).ledger heap after machine entries (.made (.ok value))⟩
          final account →
        (∃ tiling, account.heap.Accounted tiling final account.entries) ∧ raw ∈ account.entries ∧
        (∀ slab ∈ account.heap.slabs, ∀ start extent, (start, extent) ∈ slab.freeBlocks final.memory →
          raw.Disjoint ⟨start, extent, .free⟩) ∧
        (∀ other ∈ account.entries, other ≠ raw → raw.Disjoint other) ∧
        (∃ made, final.calls = mid.calls ++ made ∧ ∀ call ∈ made, ¬ raw.Covers call.1) ∧
        ∀ (op : Operation) (next : Heap) (answer : Answer) (last : Machine),
          op.Apt account.heap final (Listed account.entries) →
          (op.perform account.heap).run final = .ok (next, answer) last →
          op.PassesBy account.heap next final last account.entries answer raw := by
  have acts : ((Operation.make (.storage root size)).perform heap).run machine =
      .ok (after, .made (.ok value)) mid := Action.run_bind ran
  have apt : (Operation.make (.storage root size)).Apt heap machine (Listed entries) := by
    refine ⟨⟨fun typed => typed.elim, by simp⟩, fun handle isRoot => ?_, by simp [Order.held]⟩
    cases isRoot
    exact inUse
  have proceeds := Operation.keeps accounted orderly apt acts
  let raw : Block := ⟨value.untagged, (Order.storage root size).footprint, .bare⟩
  have harbours : Account.Harbours mid ⟨after, (Operation.make (.storage root size)).ledger heap after machine
      entries (.made (.ok value))⟩ raw :=
    ⟨proceeds.accounted, proceeds.orderly, List.mem_append_right _ (List.mem_singleton_self _), rfl⟩
  refine ⟨raw, rfl, rfl, ?_, fun final account onward => ?_⟩
  · obtain ⟨taken, still⟩ := harbours.accounted
    exact Order.size_le_footprint (still.records.whole raw harbours.listed).1
  · obtain ⟨⟨⟨divided, still⟩, alsoOrderly, listed, isBare⟩, uncalled⟩ := harbours.onward onward
    refine ⟨⟨divided, still⟩, listed, fun slab inHeap start extent isFree => still.disjoint_free listed inHeap isFree,
      fun other alsoListed distinct => ?_, uncalled, fun op next answer last apt ran => ?_⟩
    · exact still.records.disjoint_of_ne still.consistent.tiled listed alsoListed (Ne.symm distinct)
    · exact Operation.passesBy still alsoOrderly apt listed isBare ran

section Entrusted

/-- Founds a heap, asks it for storage, stores a word there and collects the heap. -/
def entrust : Action (Option (Heap × Heap × Heap × Value × Value × UInt64)) := do
  match ← Heap.new { initialSize := 256 } .standard {} with
  | .error _ => return none
  | .ok heap =>
      let first ← (Operation.make (.context none)).perform heap
      match first.2 with
      | .made (.ok context) =>
          let second ← first.1.allocate ⟨context.untagged⟩ 64
          match second.2 with
          | .error _ => return none
          | .ok value =>
              Action.store (value.untagged + 24) 0xffff
              let third ← (Operation.collect ⟨context.untagged⟩).perform second.1
              let memory ← Action.memory
              return some (first.1, second.1, third.1, context, value, memory.read (value.untagged + 24))
      | _ => return none

def entrusts : Option (Heap × Heap × Heap × Value × Value × UInt64) → Bool
  | some (first, second, third, _, value, word) =>
      second.counters.collections = first.counters.collections &&
        second.counters.collections < third.counters.collections && value.untagged % 16 = 0 && word = 0xffff
  | none => false

/-- The storage and the word in it outlast a collection. -/
theorem allocate_undisturbed_entrusted : ∃ (heap after : Heap) (root : Context) (value : Value)
    (entries : List Block) (machine mid final : Machine) (account : Account) (raw : Block),
    (heap.allocate root 64).run machine = .ok (after, .ok value) mid ∧
    Account.Onward mid
      ⟨after, (Operation.make (.storage root 64)).ledger heap after machine entries (.made (.ok value))⟩
      final account ∧
    after.counters.collections < account.heap.counters.collections ∧ raw ∈ account.entries ∧
    raw.start = value.untagged ∧ 64 ≤ raw.size ∧ final.memory.read (raw.start + 24) = 0xffff := by
  have made : entrust.passes {} entrusts = true := by decide +kernel
  obtain ⟨answer, final, ran, outcome⟩ := Action.ensures_of_passes made
  unfold entrusts at outcome
  split at outcome
  swap
  · exact absurd outcome Bool.false_ne_true
  next first second third context value word =>
  simp only [Bool.and_eq_true, decide_eq_true_eq] at outcome
  obtain ⟨⟨⟨same, collected⟩, aligned⟩, stored⟩ := outcome
  unfold entrust at ran
  obtain ⟨founded, machine, founds, ran⟩ := Action.of_run_bind ran
  obtain refusal | heap := founded
  · cases ran
  obtain ⟨⟨heap1, made1⟩, machine1, makes, ran⟩ := Action.of_run_bind ran
  dsimp only at ran
  split at ran
  swap
  · cases ran
  next told =>
  obtain ⟨⟨heap2, given⟩, machine2, allocates, ran⟩ := Action.of_run_bind ran
  dsimp only at ran
  obtain refusal | start := given
  · cases ran
  obtain ⟨_, machine3, stores, ran⟩ := Action.of_run_bind ran
  obtain ⟨⟨heap4, stats⟩, machine4, collects, ran⟩ := Action.of_run_bind ran
  obtain ⟨_, _, reads, ends⟩ := Action.of_run_bind ran
  cases reads
  cases ends
  cases stores
  have withHeap := (Account.Reached.start Account.orderly_fresh).step
    (.found (fun _ _ => ShapeTable.confined_standard) founds)
  have kept := (withHeap.step (.operate 0 rfl Tenancy.apt_context makes)).kept
  obtain ⟨entries, ⟨tiling, accounted⟩, inUse⟩ : ∃ entries, (∃ tiling, first.Accounted tiling machine1 entries) ∧
      Listed entries context.untagged :=
    ⟨_, kept.accounted 0 _ rfl, _, List.mem_append_right _ (List.mem_singleton_self _), rfl⟩
  obtain ⟨raw, isBare, starts, large, undisturbed⟩ :=
    allocate_undisturbed accounted kept.orderly inUse allocates
  obtain ⟨⟨divided, still⟩, listed, _⟩ := undisturbed _ _ .here
  have inside : raw.Covers (value.untagged + 24) := by
    simp only [Covers, stop, starts]
    omega
  have rewritten : raw.Rewritten machine2.memory (machine2.memory.write (value.untagged + 24) 0xffff) :=
    still.rewritten_write listed isBare inside fun early => by omega
  have written := Account.Onward.here.turn (.write listed isBare rewritten)
  have stays : Listed ((Operation.make (.storage ⟨context.untagged⟩ 64)).ledger first second machine1 entries
      (.made (.ok value))) context.untagged := by
    obtain ⟨entry, member, here⟩ := inUse
    exact ⟨entry, Operation.mem_ledger.mpr (.inl ⟨member, .inl same⟩), here⟩
  have onward := written.turn (.operate (by exact stays) collects)
  refine ⟨first, second, ⟨context.untagged⟩, value, entries, machine1, machine2, final, _, raw, allocates,
    onward, collected, (undisturbed _ _ onward).2.1, starts, large, ?_⟩
  rw [starts]
  exact stored

/-- Stores a word in the second unit of storage, collects the heap and asks it for more storage. The answer is the
first word of the storage after the collection, how many bytes that freed, and whether part of the storage was given
out again. -/
def disturbs (word : UInt64) (rooted : Bool) : ExceptT HeapError Action (UInt64 × Nat × Bool) := do
  let heap ← ExceptT.mk (Heap.new { initialSize := 256 } .standard {})
  let (heap, answer) ← heap.makeContext none
  let context ← ExceptT.mk (pure answer)
  let (heap, answer) ← heap.allocate context 64
  let storage ← ExceptT.mk (pure answer)
  Action.store (storage.untagged + 16) word
  if rooted then Action.onMemory (context.setEnvironment · storage)
  let (heap, stats) ← heap.collect context
  let memory ← Action.memory
  let (_, answer) ← heap.allocate context 32
  let more ← ExceptT.mk (pure answer)
  return (memory.read storage.untagged, stats.sumFreed,
    storage.untagged ≤ more.untagged && more.untagged < storage.untagged + 64)

/-- Where a later unit has a tag it is taken for a header, so that part of the storage is freed and given out
again. Where nothing has a tag and the storage is referred to, its first word is marked and stays marked. -/
theorem allocate_disturbs :
    ((disturbs 2 false).run.Ensures {} fun answer _ => answer = .ok (0, 32, true)) ∧
      (disturbs 0 true).run.Ensures {} fun answer _ => answer = .ok (256, 0, false) := by
  constructor
  · exact Action.ensures_ok_of_passes (by decide +kernel)
  · exact Action.ensures_ok_of_passes (by decide +kernel)

end Entrusted

end Heap

end SlabHeap
