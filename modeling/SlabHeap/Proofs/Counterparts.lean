import Mathlib.Data.List.Forall2
import SlabHeap.Proofs.Growth
import SlabHeap.Proofs.Mirror
import SlabHeap.Proofs.Relocation
import SlabHeap.Proofs.Sweep

namespace SlabHeap

/-! Heaps whose slabs have the same sizes.

Slab by slab, `Heap.place` leads the addresses among the blocks of one heap to those of another one, and
`Heap.carry` does so with references. Slabs that both heaps get later make no difference to what lies in
the earlier ones, `Heap.Resembles.place_grown`. Blocks that are moved are swept like those that they came from,
`Block.sweep_moved`.
-/

namespace Slab

variable {slab image : Slab} {slabs images : List Slab} {address : Nat}

def place : List Slab → List Slab → Nat → Nat
  | slab :: slabs, image :: images, address =>
      if slab.contains address then slab.counterpart image address else place slabs images address
  | _, _, address => address

def SameSize (slab image : Slab) : Prop := image.size = slab.size

theorem Apart.not_contains (apart : slab.Apart image) (inside : image.contains address = true) :
    slab.contains address = false := by
  rw [Bool.eq_false_iff]
  intro both
  rw [contains_iff] at both inside
  simp only [Apart, stop] at *
  omega

theorem place_eq (apart : slabs.Pairwise Apart) (paired : (slab, image) ∈ slabs.zip images)
    (inside : slab.contains address = true) :
    place slabs images address = slab.counterpart image address := by
  induction slabs generalizing images with
  | nil => cases paired
  | cons first slabs ih =>
      cases images with
      | nil => cases paired
      | cons second images =>
          rw [List.zip_cons_cons, List.mem_cons] at paired
          rw [List.pairwise_cons] at apart
          cases paired with
          | inl here =>
              cases here
              simp only [place, inside, if_true]
          | inr later =>
              have elsewhere := (apart.1 slab (List.of_mem_zip later).1).not_contains inside
              simp only [place, elsewhere, Bool.false_eq_true, if_false]
              exact ih apart.2 later

theorem exists_image (sizes : List.Forall₂ SameSize slabs images) (member : slab ∈ slabs) :
    ∃ image, (slab, image) ∈ slabs.zip images := by
  induction sizes with
  | nil => cases member
  | cons _ _ ih =>
      cases member with
      | head => exact ⟨_, List.mem_cons_self⟩
      | tail _ later =>
          obtain ⟨image, paired⟩ := ih later
          exact ⟨image, List.mem_cons_of_mem _ paired⟩

theorem exists_original (sizes : List.Forall₂ SameSize slabs images) (member : image ∈ images) :
    ∃ slab, (slab, image) ∈ slabs.zip images := by
  induction sizes with
  | nil => cases member
  | cons _ _ ih =>
      cases member with
      | head => exact ⟨_, List.mem_cons_self⟩
      | tail _ later =>
          obtain ⟨slab, paired⟩ := ih later
          exact ⟨slab, List.mem_cons_of_mem _ paired⟩

theorem zip_apart (apart : slabs.Pairwise Apart) (imagesApart : images.Pairwise Apart)
    {first second : Slab × Slab} (member : first ∈ slabs.zip images)
    (otherMember : second ∈ slabs.zip images) :
    first = second ∨ first.1.Apart second.1 ∧ first.2.Apart second.2 := by
  induction slabs generalizing images with
  | nil => cases member
  | cons slab slabs ih =>
      cases images with
      | nil => cases member
      | cons image images =>
          rw [List.pairwise_cons] at apart imagesApart
          rw [List.zip_cons_cons, List.mem_cons] at member otherMember
          cases member with
          | inl here =>
              cases otherMember with
              | inl alsoHere => exact .inl (here.trans alsoHere.symm)
              | inr later =>
                  cases here
                  have inside := List.of_mem_zip later
                  exact .inr ⟨apart.1 _ inside.1, imagesApart.1 _ inside.2⟩
          | inr later =>
              cases otherMember with
              | inl alsoHere =>
                  cases alsoHere
                  have inside := List.of_mem_zip later
                  exact .inr ⟨(apart.1 _ inside.1).symm, (imagesApart.1 _ inside.2).symm⟩
              | inr alsoLater => exact ih apart.2 imagesApart.2 later alsoLater

theorem place_append (sizes : List.Forall₂ SameSize slabs images) (inside : slabs.any (·.contains address))
    (moreSlabs moreImages : List Slab) :
    place (slabs ++ moreSlabs) (images ++ moreImages) address = place slabs images address := by
  induction sizes with
  | nil => cases inside
  | @cons slab image slabs images _ _ ih =>
      simp only [List.cons_append, place]
      cases here : slab.contains address with
      | true => rfl
      | false =>
          rw [List.any_cons, here, Bool.false_or] at inside
          simp only [Bool.false_eq_true, if_false]
          exact ih inside

theorem Layout.freeOffsets_eq {shapes : ShapeTable} {memory : Memory} {blocks : List Block}
    (layout : slab.Layout shapes memory blocks) : slab.freeOffsets memory =
      .ok ((Block.frees blocks).map fun entry => (entry.1 - slab.start, entry.2)) := by
  have behind : ∀ entry ∈ Block.frees blocks, slab.start ≤ entry.1 := by
    intro entry listed
    have bounds := layout.bounds (Block.mem_frees.mp listed)
    simp only at bounds
    omega
  rw [freeOffsets, layout.freeBlocks_eq]
  generalize Block.frees blocks = entries at behind
  induction entries with
  | nil => rfl
  | cons entry entries ih =>
      rw [List.forall_mem_cons] at behind
      obtain ⟨node, size⟩ := entry
      simp only [List.mapM_cons, ih behind.2, Size.sub_eq_ok behind.1]
      rfl

end Slab

namespace Block

variable {place : Nat → Nat} {block : Block} {behind rest blocks : List Block} {stats : SweepStats}
  {growing : Bool} {dead alsoDead : Block → Bool}

@[simp] theorem start_moved (place : Nat → Nat) (block : Block) :
    (block.moved place).start = place block.start := rfl

@[simp] theorem size_moved (place : Nat → Nat) (block : Block) : (block.moved place).size = block.size :=
  rfl

@[simp] theorem kind_moved (place : Nat → Nat) (block : Block) : (block.moved place).kind = block.kind :=
  rfl

theorem frees_moved_blocks (place : Nat → Nat) (blocks : List Block) :
    frees (blocks.map (Block.moved place)) =
      (frees blocks).map fun entry => (place entry.1, entry.2) := by
  induction blocks with
  | nil => rfl
  | cons block blocks ih =>
      simp only [List.map_cons, frees, kind_moved, ih]
      split <;> rfl

theorem reclaim_moved (place : Nat → Nat) (block : Block) (behind : List Block) :
    reclaim (block.moved place) (behind.map (Block.moved place)) =
      (reclaim block behind).map (Block.moved place) := by
  cases behind with
  | nil => rfl
  | cons last others =>
      by_cases free : last.kind = .free
      · simp only [List.map_cons, reclaim, kind_moved, free, if_true]
        rfl
      · simp only [List.map_cons, reclaim, kind_moved, free, if_false]
        rfl

theorem lastSize_moved (place : Nat → Nat) (behind : List Block) :
    lastSize (behind.map (Block.moved place)) = lastSize behind := by
  cases behind <;> rfl

/-- A sweep does with moved blocks what it does with those that they came from. -/
theorem sweepFrom_moved (behind : List Block) (alike : ∀ block ∈ rest, alsoDead (block.moved place) = dead block) :
    sweepFrom alsoDead (behind.map (Block.moved place)) growing stats (rest.map (Block.moved place)) =
      ((sweepFrom dead behind growing stats rest).1.map (Block.moved place),
        (sweepFrom dead behind growing stats rest).2) := by
  induction rest generalizing behind growing stats with
  | nil => simp only [List.map_nil, sweepFrom, List.map_reverse]
  | cons block rest ih =>
      rw [List.forall_mem_cons] at alike
      simp only [List.map_cons, sweepFrom, alike.1, kind_moved, size_moved, reclaim_moved, lastSize_moved]
      split
      · exact ih _ alike.2
      · split
        · exact ih _ alike.2
        · exact ih (block :: behind) alike.2

theorem sweep_moved (alike : ∀ block ∈ blocks, alsoDead (block.moved place) = dead block) :
    sweep alsoDead stats (blocks.map (Block.moved place)) =
      ((sweep dead stats blocks).1.map (Block.moved place), (sweep dead stats blocks).2) :=
  sweepFrom_moved [] alike

end Block

open Block

namespace Heap

variable {heap copy : Heap} {slab image : Slab} {tiling copied : Slab → List Block}
  {memory otherMemory : Memory} {address : Nat} {value : Value} {block : Block}

/-- The slabs of both heaps have the same sizes. -/
def Resembles (heap copy : Heap) : Prop := List.Forall₂ Slab.SameSize heap.slabs copy.slabs

def place (heap copy : Heap) : Nat → Nat := Slab.place heap.slabs copy.slabs

/-- What a value of a heap is in another one. -/
def carry (heap copy : Heap) : Value → Value := heap.moveValue (heap.place copy)

/-- If the value is a reference, it refers into the heap. -/
def RefersInside (heap : Heap) (value : Value) : Prop :=
  ∀ address, value.address? = some address → heap.contains address = true

/-- The blocks of the copy are those of the heap, each at its place. -/
def Carries (heap copy : Heap) (tiling copied : Slab → List Block) : Prop :=
  ∀ slab image, (slab, image) ∈ heap.slabs.zip copy.slabs →
    copied image = (tiling slab).map (Block.moved (heap.place copy))

theorem contains_iff : heap.contains address = true ↔ ∃ slab ∈ heap.slabs, slab.contains address = true :=
  List.any_eq_true

theorem contains_grown (inside : heap.contains address = true) :
    (heap.grown slab).contains address = true := by
  obtain ⟨old, member, holds⟩ := contains_iff.mp inside
  exact contains_iff.mpr ⟨old, List.mem_append_left _ member, holds⟩

theorem Tiled.refersInside (tiled : heap.Tiled memory tiling) (refers : heap.RefersToObject tiling value) :
    heap.RefersInside value := tiled.contains_of_refers refers

namespace Resembles

variable (resembles : heap.Resembles copy)

include resembles

theorem totalSize_eq : copy.totalSize = heap.totalSize := by
  simp only [totalSize]
  unfold Resembles at resembles
  generalize heap.slabs = slabs, copy.slabs = images at resembles
  induction resembles with
  | nil => rfl
  | cons same _ ih =>
      rw [List.foldr_cons, List.foldr_cons, ih, same]

theorem lastSlab_size : copy.lastSlab.size = heap.lastSlab.size := by
  have sizes : copy.slabs.map Slab.size = heap.slabs.map Slab.size := by
    unfold Resembles at resembles
    generalize heap.slabs = slabs, copy.slabs = images at resembles
    induction resembles with
    | nil => rfl
    | cons same _ ih => rw [List.map_cons, List.map_cons, ih, same]
  have last (heap : Heap) : some heap.lastSlab.size = (heap.slabs.map Slab.size).getLast? := by
    rw [List.getLast?_map, List.getLast?_eq_some_getLast heap.slabs_nonempty]
    rfl
  exact Option.some.inj ((last copy).trans (sizes ▸ (last heap).symm))

theorem append (same : image.size = slab.size) : (heap.grown slab).Resembles (copy.grown image) :=
  List.rel_append resembles (.cons same .nil)

theorem size_eq (paired : (slab, image) ∈ heap.slabs.zip copy.slabs) : image.size = slab.size :=
  (List.forall₂_iff_zip.mp resembles).2 paired

theorem place_grown (inside : heap.contains address = true) :
    (heap.grown slab).place (copy.grown image) address = heap.place copy address :=
  Slab.place_append resembles inside [slab] [image]

variable (tiled : heap.Tiled memory tiling)

include tiled

omit resembles in
theorem place_eq (paired : (slab, image) ∈ heap.slabs.zip copy.slabs)
    (inside : slab.contains address = true) :
    heap.place copy address = slab.counterpart image address :=
  Slab.place_eq tiled.apart paired inside

theorem exists_place (inside : heap.contains address = true) :
    ∃ slab image, (slab, image) ∈ heap.slabs.zip copy.slabs ∧ slab.contains address = true ∧
      heap.place copy address = slab.counterpart image address := by
  obtain ⟨slab, member, holds⟩ := contains_iff.mp inside
  obtain ⟨image, paired⟩ := Slab.exists_image resembles member
  exact ⟨slab, image, paired, holds, place_eq tiled paired holds⟩

variable (copyTiled : copy.Tiled otherMemory copied)

include copyTiled

theorem places : heap.Places copy (heap.place copy) := by
  -- The numbers that decide where a pair of slabs lies.
  have shape {slab image : Slab} (paired : (slab, image) ∈ heap.slabs.zip copy.slabs) :
      image.size = slab.size ∧ slab.start % 16 = 0 ∧ image.start % 16 = 0 ∧ image.stop < Size.limit := by
    obtain ⟨member, imageMember⟩ := List.of_mem_zip paired
    exact ⟨resembles.size_eq paired, (tiled.layout slab member).placed.startAligned,
      (copyTiled.layout image imageMember).placed.startAligned,
      (copyTiled.layout image imageMember).placed.bounded⟩
  constructor
  · intro address inside
    obtain ⟨slab, image, paired, holds, same⟩ := resembles.exists_place tiled inside
    obtain ⟨size, _⟩ := shape paired
    rw [same]
    apply contains_iff.mpr
    refine ⟨image, (List.of_mem_zip paired).2, ?_⟩
    rw [Slab.contains_iff] at holds ⊢
    simp only [Slab.counterpart, Slab.stop] at holds ⊢
    omega
  · intro address inside
    obtain ⟨slab, image, paired, holds, same⟩ := resembles.exists_place tiled inside
    obtain ⟨size, _, _, bounded⟩ := shape paired
    rw [same]
    rw [Slab.contains_iff] at holds
    simp only [Slab.counterpart, Slab.stop] at holds bounded ⊢
    omega
  · intro address inside
    obtain ⟨slab, image, paired, holds, same⟩ := resembles.exists_place tiled inside
    obtain ⟨_, aligned, imageAligned, _⟩ := shape paired
    rw [same]
    rw [Slab.contains_iff] at holds
    simp only [Slab.counterpart]
    omega
  · intro first second inside alsoInside equal
    obtain ⟨slab, image, paired, holds, same⟩ := resembles.exists_place tiled inside
    obtain ⟨other, otherImage, otherPaired, otherHolds, otherSame⟩ :=
      resembles.exists_place tiled alsoInside
    obtain ⟨size, _⟩ := shape paired
    obtain ⟨otherSize, _⟩ := shape otherPaired
    rw [same, otherSame] at equal
    rw [Slab.contains_iff] at holds otherHolds
    cases Slab.zip_apart tiled.apart copyTiled.apart paired otherPaired with
    | inl samePair =>
        cases samePair
        simp only [Slab.counterpart] at equal
        omega
    | inr apart =>
        have imagesApart : image.Apart otherImage := apart.2
        simp only [Slab.Apart, Slab.counterpart, Slab.stop] at *
        omega

omit resembles tiled copyTiled in
theorem carry_reference (inside : heap.contains address = true) (whole : address % 8 = 0)
    (small : address < Size.limit) :
    heap.carry copy (.reference address) = .reference (heap.place copy address) := by
  have found : (Value.reference address).address? = some address := Value.address?_reference whole small
  simp only [carry, moveValue, found, inside, if_true]

end Resembles

namespace Carries

variable (carries : heap.Carries copy tiling copied) (resembles : heap.Resembles copy)

include carries resembles

theorem mem_blocks : block ∈ copy.blocks copied ↔
    ∃ original ∈ heap.blocks tiling, original.moved (heap.place copy) = block := by
  simp only [Heap.mem_blocks]
  constructor
  · intro inCopy
    obtain ⟨image, member, listed⟩ := inCopy
    obtain ⟨slab, paired⟩ := Slab.exists_original resembles member
    rw [carries slab image paired, List.mem_map] at listed
    obtain ⟨original, inSlab, same⟩ := listed
    exact ⟨original, ⟨slab, (List.of_mem_zip paired).1, inSlab⟩, same⟩
  · intro moved
    obtain ⟨original, inHeap, same⟩ := moved
    obtain ⟨slab, member, inSlab⟩ := inHeap
    obtain ⟨image, paired⟩ := Slab.exists_image resembles member
    refine ⟨image, (List.of_mem_zip paired).2, ?_⟩
    rw [carries slab image paired]
    exact List.mem_map.mpr ⟨original, inSlab, same⟩

omit resembles in
theorem freeOffsets_eq (tiled : heap.Tiled memory tiling) (copyTiled : copy.Tiled otherMemory copied)
    (paired : (slab, image) ∈ heap.slabs.zip copy.slabs) :
    image.freeOffsets otherMemory = slab.freeOffsets memory := by
  obtain ⟨member, imageMember⟩ := List.of_mem_zip paired
  have layout := tiled.layout slab member
  have imageLayout := copyTiled.layout image imageMember
  rw [layout.freeOffsets_eq, imageLayout.freeOffsets_eq, carries slab image paired, frees_moved_blocks,
    List.map_map]
  refine congrArg Except.ok (List.map_congr_left fun entry listed => ?_)
  have inBlocks := mem_frees.mp listed
  have placed : heap.place copy entry.1 = slab.counterpart image entry.1 :=
    Resembles.place_eq tiled paired (layout.contains inBlocks)
  simp only [Function.comp_apply, placed, Slab.counterpart, Nat.add_sub_cancel]

theorem freeStorage_eq :
    freeStorage copied copy.slabs = freeStorage tiling heap.slabs := by
  have sums (slab image : Slab) (paired : (slab, image) ∈ heap.slabs.zip copy.slabs) :
      ((frees (copied image)).map Prod.snd).sum = ((frees (tiling slab)).map Prod.snd).sum := by
    rw [carries slab image paired, frees_moved_blocks, List.map_map]
    rfl
  have sizes : List.Forall₂ Slab.SameSize heap.slabs copy.slabs := resembles
  simp only [freeStorage]
  generalize heap.slabs = slabs, copy.slabs = images at sizes sums
  induction sizes with
  | nil => rfl
  | cons _ _ ih =>
      rw [List.map_cons, List.map_cons, List.sum_cons, List.sum_cons, sums _ _ List.mem_cons_self,
        ih fun slab image paired => sums slab image (List.mem_cons_of_mem _ paired)]

section Swept

variable (alike : ∀ block ∈ heap.blocks tiling,
  (block.moved (heap.place copy)).isDead otherMemory = block.isDead memory)

include alike

omit resembles in
theorem swept : heap.Carries copy (sweptTiling memory tiling) (sweptTiling otherMemory copied) := by
  intro slab image paired
  have member := (List.of_mem_zip paired).1
  rw [sweptTiling, sweptTiling, carries slab image paired, sweep_moved fun block inSlab =>
    alike block (Heap.mem_blocks.mpr ⟨slab, member, inSlab⟩)]

/-- Sweeps of both heaps achieve the same. -/
theorem sweptStats_eq :
    sweptStats otherMemory copied copy.slabs = sweptStats memory tiling heap.slabs := by
  have steps (slab image : Slab) (paired : (slab, image) ∈ heap.slabs.zip copy.slabs)
      (stats : SweepStats) : (Block.sweep (isDead otherMemory) stats (copied image)).2 =
        (Block.sweep (isDead memory) stats (tiling slab)).2 := by
    have member := (List.of_mem_zip paired).1
    rw [carries slab image paired, sweep_moved fun block inSlab =>
      alike block (Heap.mem_blocks.mpr ⟨slab, member, inSlab⟩)]
  have sizes : List.Forall₂ Slab.SameSize heap.slabs copy.slabs := resembles
  simp only [sweptStats]
  generalize ({} : SweepStats) = stats
  generalize heap.slabs = slabs, copy.slabs = images at sizes steps
  induction sizes generalizing stats with
  | nil => rfl
  | cons _ _ ih =>
      rw [List.foldl_cons, List.foldl_cons, steps _ _ List.mem_cons_self]
      exact ih _ fun slab image paired => steps slab image (List.mem_cons_of_mem _ paired)

end Swept

end Carries

end Heap

end SlabHeap
