import Mathlib.Data.List.Pairwise
import Mathlib.Order.Interval.Finset.Nat
import SlabHeap.Proofs.Layout

namespace SlabHeap

/-! How all slabs of a heap are divided into blocks.

`Heap.Tiled` says that memory shows a division of every slab and that the slabs lie apart. An
address then lies in one block at most, and `Heap.Tiled.unique` says that memory determines the
blocks; `Heap.Allocated` speaks of objects without naming a division.
-/

def Slab.Apart (slab other : Slab) : Prop := slab.stop ≤ other.start ∨ other.stop ≤ slab.start

instance : Std.Symm Slab.Apart := ⟨fun _ _ apart => apart.symm⟩

/-- Slabs that lie apart in some room have place in it together. -/
theorem Slab.total_le {slabs : List Slab} {room : Finset Nat} (apart : slabs.Pairwise Slab.Apart)
    (inside : ∀ slab ∈ slabs, Finset.Ico slab.start slab.stop ⊆ room) :
    slabs.foldr (fun slab total => slab.size + total) 0 ≤ room.card := by
  induction slabs generalizing room with
  | nil => simp
  | cons slab rest ih =>
      rw [List.pairwise_cons] at apart
      have here := inside slab List.mem_cons_self
      have others : ∀ other ∈ rest,
          Finset.Ico other.start other.stop ⊆ room \ Finset.Ico slab.start slab.stop := by
        intro other member address covered
        have distinct := apart.1 other member
        refine Finset.mem_sdiff.mpr ⟨inside other (List.mem_cons_of_mem _ member) covered, ?_⟩
        simp only [Finset.mem_Ico, Apart] at *
        omega
      have smaller := ih apart.2 others
      have size : (Finset.Ico slab.start slab.stop).card = slab.size := by
        simp [Slab.stop]
      have fits := Finset.card_le_card here
      rw [Finset.card_sdiff_of_subset here] at smaller
      simp only [List.foldr_cons]
      omega

namespace Heap

variable {heap : Heap} {memory after : Memory} {tiling others : Slab → List Block}
  {block other : Block} {object address : Nat}

/-- Memory shows the blocks of every slab, and the slabs lie apart. -/
structure Tiled (heap : Heap) (memory : Memory) (tiling : Slab → List Block) : Prop where
  layout : ∀ slab ∈ heap.slabs, slab.Layout heap.shapes memory (tiling slab)
  apart : heap.slabs.Pairwise Slab.Apart

def blocks (heap : Heap) (tiling : Slab → List Block) : List Block := heap.slabs.flatMap tiling

def Object (heap : Heap) (tiling : Slab → List Block) (address : Nat) : Prop :=
  ∃ block ∈ heap.blocks tiling, block.kind = .object ∧ block.start = address

/-- Memory shows an object at the address. -/
def Allocated (heap : Heap) (memory : Memory) (address : Nat) : Prop :=
  ∃ tiling, heap.Tiled memory tiling ∧ heap.Object tiling address

theorem mem_blocks : block ∈ heap.blocks tiling ↔ ∃ slab ∈ heap.slabs, block ∈ tiling slab :=
  List.mem_flatMap

namespace Tiled

theorem bounds (tiled : heap.Tiled memory tiling) (member : block ∈ heap.blocks tiling) :
    16 < block.start ∧ block.start % 16 = 0 ∧ 16 ≤ block.size ∧ block.size % 16 = 0 ∧
      block.stop < Size.limit := by
  obtain ⟨slab, inHeap, inSlab⟩ := mem_blocks.mp member
  obtain ⟨lower, upper, large, whole, aligned, bounded⟩ := (tiled.layout slab inHeap).bounds inSlab
  have := (tiled.layout slab inHeap).placed.startPositive
  simp only [Block.stop]
  omega

theorem start_covers (tiled : heap.Tiled memory tiling) (member : block ∈ heap.blocks tiling) :
    block.Covers block.start := by
  have := (tiled.bounds member).2.2.1
  exact ⟨Nat.le_refl _, by simp only [Block.stop]; omega⟩

theorem contains (tiled : heap.Tiled memory tiling) (member : block ∈ heap.blocks tiling) :
    heap.contains block.start = true := by
  obtain ⟨slab, inHeap, inSlab⟩ := mem_blocks.mp member
  exact List.any_eq_true.mpr ⟨slab, inHeap, (tiled.layout slab inHeap).contains inSlab⟩

/-- Only objects have shapes, and each fits its block. -/
theorem describes (tiled : heap.Tiled memory tiling) (member : block ∈ heap.blocks tiling)
    (inUse : block.kind ≠ .free) {shape : Shape}
    (known : heap.shapes.get? (memory.tag block.start) = some shape) :
    block.kind = .object ∧ shape.Describes memory block.start block.size := by
  obtain ⟨slab, inHeap, inSlab⟩ := mem_blocks.mp member
  have layout := tiled.layout slab inHeap
  cases kind : block.kind with
  | free => exact absurd kind inUse
  | bare => simp [(layout.bare inSlab kind).2] at known
  | object =>
      obtain ⟨found, foundKnown, describes⟩ := layout.object inSlab kind
      obtain rfl := Option.some.inj (foundKnown.symm.trans known)
      exact ⟨rfl, describes⟩

theorem registered (tiled : heap.Tiled memory tiling) (member : block ∈ heap.blocks tiling)
    (isObject : block.kind = .object) : heap.shapes.isRegistered (memory.tag block.start) = true := by
  obtain ⟨slab, inHeap, inSlab⟩ := mem_blocks.mp member
  obtain ⟨shape, known, _⟩ := (tiled.layout slab inHeap).object inSlab isObject
  exact Option.isSome_iff_exists.mpr ⟨shape, known⟩

theorem slab_eq (tiled : heap.Tiled memory tiling) {slab other : Slab} (member : slab ∈ heap.slabs)
    (otherMember : other ∈ heap.slabs) (covers : slab.start ≤ address ∧ address < slab.stop)
    (otherCovers : other.start ≤ address ∧ address < other.stop) : slab = other := by
  by_contra distinct
  have apart := tiled.apart.forall member otherMember distinct
  simp only [Slab.Apart] at apart
  omega

theorem slab_covers (tiled : heap.Tiled memory tiling) {slab : Slab} (inHeap : slab ∈ heap.slabs)
    (inSlab : block ∈ tiling slab) (covers : block.Covers address) :
    slab.start ≤ address ∧ address < slab.stop := by
  have bounds := (tiled.layout slab inHeap).bounds inSlab
  simp only [Block.Covers, Block.stop] at covers
  omega

theorem eq_of_covers (tiled : heap.Tiled memory tiling) (member : block ∈ heap.blocks tiling)
    (otherMember : other ∈ heap.blocks tiling) (covers : block.Covers address)
    (otherCovers : other.Covers address) : block = other := by
  obtain ⟨slab, inHeap, inSlab⟩ := mem_blocks.mp member
  obtain ⟨otherSlab, otherInHeap, otherInSlab⟩ := mem_blocks.mp otherMember
  have same := tiled.slab_eq inHeap otherInHeap (tiled.slab_covers inHeap inSlab covers)
    (tiled.slab_covers otherInHeap otherInSlab otherCovers)
  subst same
  exact (tiled.layout slab inHeap).tiles.eq_of_covers inSlab otherInSlab covers otherCovers

theorem eq_of_start_eq (tiled : heap.Tiled memory tiling) (member : block ∈ heap.blocks tiling)
    (otherMember : other ∈ heap.blocks tiling) (same : block.start = other.start) :
    block = other :=
  tiled.eq_of_covers member otherMember (tiled.start_covers member)
    (same ▸ tiled.start_covers otherMember)

theorem unique (tiled : heap.Tiled memory tiling) (again : heap.Tiled memory others) {slab : Slab}
    (inHeap : slab ∈ heap.slabs) : tiling slab = others slab :=
  (tiled.layout slab inHeap).unique (again.layout slab inHeap)

theorem blocks_eq (tiled : heap.Tiled memory tiling) (again : heap.Tiled memory others) :
    heap.blocks tiling = heap.blocks others := by
  unfold Heap.blocks
  exact List.flatMap_congr fun slab inHeap => tiled.unique again inHeap

theorem allocated_iff (tiled : heap.Tiled memory tiling) :
    heap.Allocated memory address ↔ heap.Object tiling address := by
  constructor
  · rintro ⟨others, again, block, member, isObject, starts⟩
    exact ⟨block, tiled.blocks_eq again ▸ member, isObject, starts⟩
  · exact fun object => ⟨tiling, tiled, object⟩

/-- All slabs together are no larger than the range of addresses. -/
theorem totalSize_lt (tiled : heap.Tiled memory tiling) : heap.totalSize < Size.limit := by
  have inside : ∀ slab ∈ heap.slabs,
      Finset.Ico slab.start slab.stop ⊆ Finset.Ico 1 Size.limit := by
    intro slab inHeap
    have placed := (tiled.layout slab inHeap).placed
    exact Finset.Ico_subset_Ico placed.startPositive (Nat.le_of_lt placed.bounded)
  have fits := Slab.total_le tiled.apart inside
  rw [Nat.card_Ico] at fits
  exact Nat.lt_of_le_of_lt fits (by decide)

/-- A division depends on the words outside the blocks in use, on tags and on length words. -/
theorem congr_used (tiled : heap.Tiled memory tiling)
    (same : ∀ address, (∀ block ∈ heap.blocks tiling, block.kind ≠ .free → ¬ block.Covers address) →
      after.read address = memory.read address)
    (alike : ∀ block ∈ heap.blocks tiling, block.kind ≠ .free →
      block.Alike heap.shapes memory after) : heap.Tiled after tiling where
  layout slab inHeap := by
    refine (tiled.layout slab inHeap).congr_used (fun address lower upper free => same address ?_) ?_
    · intro block member inUse covers
      obtain ⟨other, otherInHeap, inSlab⟩ := mem_blocks.mp member
      obtain rfl := tiled.slab_eq otherInHeap inHeap (tiled.slab_covers otherInHeap inSlab covers)
        ⟨lower, upper⟩
      exact free block inSlab inUse covers
    · intro block inSlab inUse
      exact alike block (mem_blocks.mpr ⟨slab, inHeap, inSlab⟩) inUse
  apart := tiled.apart

end Tiled

end Heap

end SlabHeap
