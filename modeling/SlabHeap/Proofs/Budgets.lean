import SlabHeap.Proofs.Capacity
import SlabHeap.Proofs.Driver
import SlabHeap.Proofs.Stocks

namespace SlabHeap

/-! Orders that are met at once.

As long as a heap has one slab, and what is in use fills the start of it, the bytes behind are one free block.
An order for which they are enough is met where they begin, without a collection: `Stock.Held.affords`. An
order that is not met was refused for want of memory.
-/

open SlabHeap.Action Block Heap

/-- The blocks fill the start of the slab. -/
structure Slab.Packed (slab : Slab) (entries : List Block) : Prop where
  covered : ∀ address, slab.objects ≤ address → address < slab.objects + bytes entries →
    ∃ entry ∈ entries, entry.Covers address
  below : ∀ entry ∈ entries, entry.stop ≤ slab.objects + bytes entries

namespace Slab.Packed

variable {slab : Slab} {entries later : List Block} {start size : Nat}

theorem nil (slab : Slab) : slab.Packed [] where
  covered _ lower upper := absurd lower (Nat.not_le_of_lt upper)
  below _ member := (List.not_mem_nil member).elim

theorem extend (block : Block) (packed : slab.Packed entries) (counts : bytes later = bytes entries + block.size)
    (members : ∀ entry, entry ∈ later ↔ entry ∈ entries ∨ entry = block)
    (starts : block.start = slab.objects + bytes entries) : slab.Packed later where
  covered address lower upper := by
    by_cases early : address < slab.objects + bytes entries
    · obtain ⟨entry, member, covers⟩ := packed.covered address lower early
      exact ⟨entry, (members entry).mpr (.inl member), covers⟩
    · refine ⟨block, (members block).mpr (.inr rfl), ?_⟩
      simp only [Block.Covers, Block.stop]
      omega
  below entry member := by
    rcases (members entry).mp member with old | rfl
    · have := packed.below entry old
      omega
    · simp only [Block.stop]
      omega

section Runs

variable (packed : slab.Packed entries)

include packed

/-- The bytes behind the blocks are free. -/
theorem freeRun (large : blockUnit + bytes entries < slab.size) :
    slab.FreeRun entries (slab.objects + bytes entries) (slab.size - blockUnit - bytes entries) := by
  have ends : slab.objects + bytes entries + (slab.size - blockUnit - bytes entries) = slab.stop := by
    simp only [Slab.objects, Slab.stop]
    omega
  refine ⟨by omega, by omega, Nat.le_of_eq ends, fun address lower _ entry member covers => ?_, ?_, .inl ends⟩
  · have := packed.below entry member
    have := covers.2
    omega
  · by_cases none : bytes entries = 0
    · exact .inl (by omega)
    · exact .inr (packed.covered _ (by omega) (by omega))

/-- And no others are. -/
theorem start_of_freeRun (run : slab.FreeRun entries start size) : start = slab.objects + bytes entries := by
  have behind : ¬ start < slab.objects + bytes entries := fun early => by
    obtain ⟨entry, member, covers⟩ := packed.covered start run.lower early
    exact run.free start (Nat.le_refl start) (Nat.lt_add_of_pos_right run.nonempty) entry member covers
  rcases run.front with first | ⟨entry, member, covers⟩
  · omega
  · have := packed.below entry member
    have := covers.2
    omega

end Runs

end Slab.Packed

namespace Heap

variable {heap prepared : Heap} {machine mid : Machine} {tiling divided : Slab → List Block}
  {context : Option Context} {entries : List Block} {slab : Slab} {block : Block} {request : Nat}

theorem Prepared.quiet_of_calm (prepares : heap.Prepared context tiling machine prepared divided mid)
    (calm : prepared.counters.collections = heap.counters.collections) : machine.Quiet mid := by
  cases prepares with
  | ready quiet => exact quiet
  | collected collected quiet => exact absurd calm (Nat.succ_ne_self _)
  | grown collected created => exact absurd calm (Nat.succ_ne_self _)

theorem Accounted.freeRun (accounted : heap.Accounted tiling machine entries) (single : heap.slabs = [slab])
    {start size : Nat} : (⟨start, size, .free⟩ : Block) ∈ heap.blocks tiling ↔ slab.FreeRun entries start size := by
  have inHeap : slab ∈ heap.slabs := single ▸ List.mem_singleton_self slab
  rw [← (accounted.canonical_slab inHeap).runs, (accounted.consistent.tiled.layout slab inHeap).freeBlocks_eq,
    mem_frees]
  simp [blocks, single]

/-- A refusal names the bytes that were asked for in whole units, as far as that is a size. -/
theorem answers_allocateBlock_refusal (heap : Heap) (context : Option Context) (size : Nat) :
    (heap.allocateBlock context size).Answers fun answer => ∀ refusal, answer.2 = .error refusal →
      refusal = .outOfMemory ((Size.alignUp? (max size blockUnit) blockUnit).getD size) := by
  unfold allocateBlock
  split
  · next none =>
    rw [none]
    exact answers_after fun _ => answers_after fun _ => answers_pure fun refusal same => (Except.error.inj same).symm
  · next request rounds =>
    rw [rounds]
    refine answers_after fun found => ?_
    cases found with
    | some block => exact answers_pure fun _ same => nomatch same
    | none =>
        refine answers_after fun collected => answers_after fun grown => answers_after fun again => ?_
        cases again with
        | some block => exact answers_pure fun _ same => nomatch same
        | none =>
            refine answers_after fun _ => answers_after fun _ => answers_pure fun refusal same => ?_
            exact (Except.error.inj same).symm

end Heap

namespace Order

variable {order : Order} {heap prepared after : Heap} {machine final : Machine} {tiling : Slab → List Block}
  {entries : List Block} {answer : Except HeapError Value} {start request : Nat} {refusal : HeapError}

theorem settle_holding (order : Order) : order.settle heap (heap.holding order.held) = heap := by
  cases order <;> simp [settle, Heap.holding, held]

theorem refer_eq {value : Value} (referred : order.refer start = .ok value) : value = .reference start := by
  have ofAddress (found : Value.ofAddress start = .ok value) : value = .reference start := by
    unfold Value.ofAddress at found
    split at found
    · exact (Except.ok.inj found).symm
    · cases found
  cases order <;> first | exact ofAddress referred | exact (Except.ok.inj referred).symm

theorem of_deliver (ran : (order.deliver heap (prepared, .ok start)).run machine = .ok (after, answer) final) :
    after = order.settle heap prepared ∧ answer = .ok (.reference start) := by
  have ends {mid : Machine} (ran : EStateM.run (do
        order.write prepared.identity start
        return (order.settle heap prepared, .ok (← order.refer start)) :
          Action (Heap × Except HeapError Value)) mid = .ok (after, answer) final) :
      after = order.settle heap prepared ∧ answer = .ok (.reference start) := by
    obtain ⟨_, later, _, ran⟩ := of_run_bind ran
    obtain ⟨value, last, referred, ran⟩ := of_run_bind ran
    cases found : order.refer start with
    | error fault =>
        rw [found] at referred
        cases referred
    | ok given =>
        rw [found] at referred
        cases referred
        cases ran
        exact ⟨rfl, congrArg Except.ok (refer_eq found)⟩
  unfold deliver at ran
  dsimp only at ran
  split at ran
  · obtain ⟨_, mid, _, ran⟩ := of_run_bind ran
    exact ends ran
  · exact ends ran

/-- Only want of memory makes a heap refuse an order. -/
theorem refuses (registered : ∀ tag ∈ order.tag?, heap.shapes.isRegistered tag = true)
    (ran : (order.perform heap).run machine = .ok (after, .error refusal) final) :
    ∃ bytes, refusal = .outOfMemory bytes := by
  rw [perform_eq registered] at ran
  split at ran
  · cases (of_run_count heap.countRefusal_eq ran).2
    exact ⟨_, rfl⟩
  · obtain ⟨⟨prepared, given⟩, mid, allocated, ran⟩ := of_run_bind ran
    cases given with
    | error reason =>
        cases ran
        exact ⟨_, answers_allocateBlock_refusal _ _ _ _ _ _ allocated _ rfl⟩
    | ok start => cases (of_deliver ran).2

/-- An order for which a free block has room is met from the start of one. -/
theorem at_once (accounted : heap.Accounted tiling machine entries)
    (apt : (Operation.make order).Apt heap machine (Listed entries))
    (rounded : Size.alignUp? (max order.size blockUnit) blockUnit = some request) (fits : ¬ order.Oversized)
    (room : HasRoom (heap.blocks tiling) request)
    (ran : (order.perform heap).run machine = .ok (after, answer) final) :
    after = heap ∧ machine.Steady final ∧
      ∃ block ∈ heap.blocks tiling, block.kind = .free ∧ answer = .ok (.reference block.start) := by
  have rooted := rooted_of_apt accounted apt
  have collectable := rooted.collectable accounted.consistent
  have bounds : max order.size 16 ≤ request ∧ _ ∧ request % 16 = 0 ∧ _ :=
    Size.alignUp?_eq_some (show Size.alignUp? _ (1 <<< 4) = _ from rounded)
  have acts := ran
  rw [perform_eq apt.1.registered, if_neg fits] at acts
  obtain ⟨⟨prepared, given⟩, mid, allocated, delivered⟩ := of_run_bind acts
  unfold allocateBlock at allocated
  simp only [rounded] at allocated
  obtain ⟨found, other, tried, goesOn⟩ := of_run_bind allocated
  have tiled : (heap.holding order.held).Tiled machine.memory tiling := collectable.tiled
  rcases (tiled.ensures_attempt bounds.2.2.1 (by omega)).of_run tried with
    ⟨_, _, none⟩ | ⟨start, rfl, _, _, ⟨block, member, isFree, _, rfl⟩, _, _⟩
  · exact absurd room none
  cases goesOn
  obtain ⟨rfl, rfl⟩ := of_deliver delivered
  rw [settle_holding] at ran ⊢
  refine ⟨rfl, ?_, block, member, isFree, rfl⟩
  obtain ⟨given, same, allotted⟩ := (perform_meets collectable apt.1.registered).of_run ran
  rcases supplied_of_allotted collectable (fun tag _ => accounted.consistent.confined tag) apt.1 allotted with
    ⟨_, _, prepared, divided, taken, mid, before, rfl, after, supplied⟩ | ⟨_, _, _, rfl, _, _⟩
  · have calm : prepared.counters.collections = heap.counters.collections :=
      (congrArg (Counters.collections ∘ Heap.counters) after).symm
    exact (supplied.prepares.quiet_of_calm calm).toSteady.trans supplied.steady
  · cases same

end Order

/-- A heap that started with the slab, and is paced. If the slab is large enough for all that is to come, it is
still the only one, and what is in use fills its start. -/
structure Heap.Frugal (heap : Heap) (machine : Machine) (entries : List Block) (slab : Slab)
    (founding : Machine) (enough : Prop) : Prop where
  paced : heap.Paced entries
  slabs : [slab] <+: heap.slabs
  compact : enough → heap.slabs = [slab] ∧ slab.Packed entries ∧ founding.Steady machine

namespace Heap.Frugal

variable {heap after : Heap} {founding machine final : Machine} {entries needed later : List Block} {slab : Slab}
  {start : Nat} {enough : Prop} {order : Order} {tiling : Slab → List Block}
  {answer : Except HeapError Value} {refusal : HeapError}

section Orders

variable (frugal : heap.Frugal machine entries slab founding enough)
  (accounted : heap.Accounted tiling machine entries)
  (apt : (Operation.make order).Apt heap machine (Listed entries))
  (positive : 0 < order.footprint) (fits : ¬ order.Oversized)
  (room : enough → blockUnit + bytes entries + order.footprint ≤ slab.size)
  (ran : (order.perform heap).run machine = .ok (after, answer) final)

include frugal accounted apt positive fits room ran

/-- Where the bytes are enough, an order is met where the free ones begin. -/
theorem meets (isEnough : enough) : after = heap ∧ machine.Steady final ∧
    ∃ value, answer = .ok value ∧ value.untagged = slab.objects + bytes entries := by
  obtain ⟨single, packed, _⟩ := frugal.compact isEnough
  have room := room isEnough
  have free := (accounted.freeRun single).mpr (packed.freeRun (by omega))
  have rounded : Size.alignUp? (max order.size blockUnit) blockUnit = some order.footprint := by
    unfold Order.footprint at positive ⊢
    cases rounds : Size.alignUp? (max order.size blockUnit) blockUnit with
    | none => simp [rounds] at positive
    | some request => rfl
  obtain ⟨same, steady, block, member, isFree, given⟩ := Order.at_once accounted apt rounded fits
    ⟨_, free, rfl, by dsimp only; omega⟩ ran
  have place := accounted.consistent.tiled.bounds member
  simp only [Block.stop] at place
  refine ⟨same, steady, _, given, ?_⟩
  rw [Value.untagged_eq (Value.address?_reference (by omega) (by omega))]
  obtain ⟨first, size, kind⟩ := block
  obtain rfl : kind = .free := isFree
  exact packed.start_of_freeRun ((accounted.freeRun single).mp member)

theorem refuses (refused : answer = .error refusal) : ¬ enough ∧ ∃ bytes, refusal = .outOfMemory bytes := by
  refine ⟨fun isEnough => ?_, Order.refuses apt.1.registered (refused ▸ ran)⟩
  obtain ⟨_, _, value, met, _⟩ := frugal.meets accounted apt positive fits room ran isEnough
  cases refused.symm.trans met

/-- A heap stays frugal with what an order was granted. -/
theorem grants (made : answer = .ok (.reference start))
    (granted : order.Granted heap after machine final entries needed later start) :
    after.Frugal final later slab founding enough where
  paced := granted.paced frugal.paced
  slabs := frugal.slabs.trans (Heap.answers_order heap order _ _ _ ran).slabs
  compact isEnough := by
    obtain ⟨single, packed, kept⟩ := frugal.compact isEnough
    obtain ⟨rfl, steady, value, met, place⟩ := frugal.meets accounted apt positive fits room ran isEnough
    obtain rfl := Except.ok.inj (made.symm.trans met)
    refine ⟨single, packed.extend (order.block start) ?_ (fun block => ⟨granted.only block, ?_⟩)
      (granted.untagged.symm.trans place),
      kept.trans steady⟩
    · have := granted.counts
      simp only [Order.block]
      omega
    · rintro (old | rfl)
      · exact granted.calm rfl block old
      · exact granted.made

end Orders

theorem withMemory (frugal : heap.Frugal machine entries slab founding enough) (memory : Memory) :
    heap.Frugal (machine.withMemory memory) entries slab founding enough :=
  ⟨frugal.paced, frugal.slabs, fun isEnough =>
    have ⟨single, packed, steady⟩ := frugal.compact isEnough
    ⟨single, packed, steady.frames, steady.identities, steady.pages⟩⟩

end Heap.Frugal

end SlabHeap
