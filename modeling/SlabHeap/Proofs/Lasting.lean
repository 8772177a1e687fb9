import SlabHeap.Proofs.Allocation

namespace SlabHeap

/-! Objects that last.

While an object stays in use, a heap changes of it only slots, and the flag that says that a weak one was
cleared: `Block.Lasts`. This holds of survivors of a collection, `Heap.Collected.lasts`, and whenever a heap
is prepared for a request, `Heap.Prepared.lasts`. An object without weak slots does not change at all,
`Heap.Prepared.keeps`.
-/

open Block

namespace Block

variable {shapes : ShapeTable} {memory mid after : Memory} {block : Block} {address : Nat}

/-- The address lies behind the header of the object in the block, and in none of its slots. -/
def Fixed (shapes : ShapeTable) (memory : Memory) (block : Block) (address : Nat) : Prop :=
  (block.start + 8 ≤ address ∧ address < block.stop) ∧
    ∀ shape, shapes.get? (memory.tag block.start) = some shape → ∀ offset,
      shape.Slot memory block.start offset →
        ¬ (block.start + offset ≤ address ∧ address < block.start + offset + 8)

/-- The object stays what it is, whatever its slots hold. -/
structure Lasts (shapes : ShapeTable) (memory after : Memory) (block : Block) : Prop where
  header : after.header block.start = memory.header block.start ∨
    after.header block.start = (memory.header block.start).add .broken
  fixed : ∀ address, block.Fixed shapes memory address → after.read address = memory.read address

namespace Lasts

theorem of_kept (kept : block.Kept memory after) (covers : block.Covers block.start) :
    block.Lasts shapes memory after where
  header := .inl (congrArg Header.ofWord (kept _ covers))
  fixed address isFixed := kept address ⟨by have := isFixed.1; omega, isFixed.1.2⟩

theorem keep (lasts : block.Lasts shapes memory mid) (kept : block.Kept mid after)
    (covers : block.Covers block.start) : block.Lasts shapes memory after where
  header := by
    have same : after.header block.start = mid.header block.start := congrArg Header.ofWord (kept _ covers)
    rw [same]
    exact lasts.header
  fixed address isFixed :=
    (kept address ⟨by have := isFixed.1; omega, isFixed.1.2⟩).trans (lasts.fixed address isFixed)

variable (lasts : block.Lasts shapes memory after)

include lasts

theorem tag : after.tag block.start = memory.tag block.start := by
  obtain same | broken := lasts.header
  · rw [Memory.tag, Memory.tag, same]
  · rw [Memory.tag, Memory.tag, broken]
    rfl

/-- The link of a context is no slot. -/
theorem saves (large : 24 ≤ block.size) (isContext : memory.tag block.start = Tag.context) :
    (Context.mk block.start).saves after = (Context.mk block.start).saves memory := by
  refine congrArg UInt64.toNat (lasts.fixed _ ⟨?_, fun shape known offset slot => ?_⟩)
  · simp only [Layout.Context.saves, Block.stop]
    omega
  · have behind := Shape.slot_of_context (isContext ▸ known) slot
    simp only [Layout.Context.saves]
    omega

end Lasts

end Block

namespace Heap

variable {heap prepared : Heap} {machine final : Machine} {tiling swept divided : Slab → List Block}
  {block : Block} {live : Nat → Prop} {context : Option Context}

/-- Survivors last. -/
theorem Collected.lasts (collected : heap.Collected tiling swept machine final live)
    (member : block ∈ heap.blocks tiling) (isObject : block.kind = .object) (alive : live block.start) :
    block.Lasts heap.shapes machine.memory final.memory where
  header := by
    have weakened := collected.objects block member isObject alive
    by_cases breaks : heap.Breaks machine live block
    · exact .inr (weakened.broken breaks)
    · exact .inl (weakened.whole breaks)
  fixed address isFixed :=
    collected.read_eq member isObject alive isFixed.1.1 isFixed.1.2 isFixed.2

theorem Prepared.lasts (prepares : heap.Prepared context tiling machine prepared divided final)
    (consistent : heap.Consistent tiling machine) (member : block ∈ heap.blocks tiling)
    (isObject : block.kind = .object)
    (spared : prepared.counters.collections = heap.counters.collections ∨
      heap.Reach machine machine.Unmarked (heap.roots context) block.start) :
    block.Lasts heap.shapes machine.memory final.memory := by
  have covers := consistent.tiled.start_covers member
  cases prepares with
  | ready quiet => exact .of_kept (fun address _ => by rw [quiet.memory]) covers
  | collected collected quiet =>
      have alive := spared.resolve_left (by simp [counted])
      rw [quiet.memory]
      exact collected.lasts member isObject alive
  | grown collected created =>
      have alive := spared.resolve_left (by simp [counted, Heap.grown])
      obtain ⟨slab, inHeap, inSlab⟩ := mem_blocks.mp member
      have hosted := (consistent.collected_reach collected).hosted slab inHeap
      refine (collected.lasts member isObject alive).keep (fun address inside => ?_) covers
      have inside := consistent.tiled.slab_covers inHeap inSlab inside
      exact created.outside address (hosted.reserved inside.1 inside.2)

/-- A survivor without weak slots does not change. -/
theorem Collected.keeps (collected : heap.Collected tiling swept machine final live)
    (consistent : heap.Consistent tiling machine) (member : block ∈ heap.blocks tiling)
    (isObject : block.kind = .object) (alive : live block.start)
    (strong : ∀ shape, heap.shapes.get? (machine.memory.tag block.start) = some shape →
      shape.weak = none) : block.Kept machine.memory final.memory := by
  have notWeak {shape : Shape} {offset : Nat}
      (known : heap.shapes.get? (machine.memory.tag block.start) = some shape) :
      ¬ shape.WeakSlot machine.memory block.start offset ∧
        ¬ shape.DependentSlot machine.memory block.start offset := by
    have none := strong shape known
    constructor
    · rintro ⟨run, isRun, _⟩
      rw [none] at isRun
      cases isRun
    · rintro ⟨run, isRun, _⟩
      rw [none] at isRun
      cases isRun
  refine (collected.objects block member isObject alive).unchanged ?_ ?_
    (consistent.tiled.bounds member).2.1
  · rintro ⟨_, shape, known, offset, weak, _⟩
    exact (notWeak known).1 weak
  · rintro offset ⟨_, shape, known, drops⟩
    cases drops with
    | inl weak => exact (notWeak known).1 weak.1
    | inr dependent => exact (notWeak known).2 dependent.1

theorem Prepared.keeps (prepares : heap.Prepared context tiling machine prepared divided final)
    (consistent : heap.Consistent tiling machine) (member : block ∈ heap.blocks tiling)
    (isObject : block.kind = .object)
    (strong : ∀ shape, heap.shapes.get? (machine.memory.tag block.start) = some shape →
      shape.weak = none)
    (spared : prepared.counters.collections = heap.counters.collections ∨
      heap.Reach machine machine.Unmarked (heap.roots context) block.start) :
    block.Kept machine.memory final.memory := by
  cases prepares with
  | ready quiet => exact fun address _ => by rw [quiet.memory]
  | collected collected quiet =>
      have alive := spared.resolve_left (by simp [counted])
      intro address covers
      rw [quiet.memory]
      exact collected.keeps consistent member isObject alive strong address covers
  | grown collected created =>
      have alive := spared.resolve_left (by simp [counted, Heap.grown])
      intro address covers
      obtain ⟨slab, inHeap, inSlab⟩ := mem_blocks.mp member
      have inside := consistent.tiled.slab_covers inHeap inSlab covers
      have hosted := (consistent.collected_reach collected).hosted slab inHeap
      rw [created.outside address (hosted.reserved inside.1 inside.2)]
      exact collected.keeps consistent member isObject alive strong address covers

end Heap

end SlabHeap
