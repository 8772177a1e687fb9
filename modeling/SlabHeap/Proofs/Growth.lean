import SlabHeap.Heap.Allocation
import SlabHeap.Proofs.Creation
import SlabHeap.Proofs.Reclaim

namespace SlabHeap

/-! Growth.

A heap grows by a slab apart from its others, or stays as it is. The bytes in use are counted before;
`Heap.Tiled.freeBytes_eq_ok` says that they can be.
-/

open FreeList Block

namespace Slab

variable {slab : Slab} {shapes : ShapeTable} {memory : Memory} {blocks : List Block}
  {machine final later : Machine}

theorem Layout.freeBlocks_eq (layout : slab.Layout shapes memory blocks) :
    slab.freeBlocks memory = frees blocks :=
  (chain_iff_path.mpr layout.listed).blocks_eq layout.frees_length_le

/-- The largest free block is too small for a request just if all are. -/
theorem largestFree_lt_iff {request : Nat} (positive : 0 < request) :
    slab.largestFree memory < request ↔ ∀ free ∈ slab.freeBlocks memory, free.2 < request := by
  have counted (sizes : List Nat) (most : Nat) :
      sizes.foldl max most < request ↔ most < request ∧ ∀ size ∈ sizes, size < request := by
    induction sizes generalizing most with
    | nil => simp
    | cons size rest ih => simp [ih, and_assoc]
  rw [largestFree, counted, and_iff_right positive, List.forall_mem_map]

theorem Layout.free_le (layout : slab.Layout shapes memory blocks) :
    ((frees blocks).map Prod.snd).sum ≤ slab.size := by
  have same : (frees blocks).map Prod.snd = (blocks.filter (·.kind = .free)).map Block.size := by
    clear layout
    induction blocks with
    | nil => rfl
    | cons block rest ih =>
        simp only [frees, List.filter_cons, decide_eq_true_eq]
        split
        · simp [ih]
        · exact ih
  have fits := layout.tiles.sum_filter_le (·.kind = .free)
  rw [same]
  simp only [Slab.objects, Slab.stop] at fits
  omega

theorem Layout.freeBytes_eq_ok (layout : slab.Layout shapes memory blocks) :
    slab.freeBytes memory = .ok ((frees blocks).map Prod.snd).sum := by
  have small := layout.free_le
  have bounded := layout.placed.bounded
  simp only [Slab.stop] at bounded
  have room : slab.size < Size.limit := by omega
  rw [freeBytes, layout.freeBlocks_eq]
  exact Size.total_eq_ok (Nat.lt_of_le_of_lt small room)

theorem Created.quiet (created : slab.Created shapes machine final) (quiet : final.Quiet later) :
    slab.Created shapes machine later where
  layout := quiet.memory ▸ created.layout
  hosted := created.hosted.keep quiet.taken_subset
  vacant := created.vacant
  upper := created.upper
  pages := List.Subset.trans created.pages quiet.taken_subset
  frames := quiet.frames.trans created.frames
  identities := quiet.identities.trans created.identities
  outside := quiet.memory ▸ created.outside

end Slab

namespace Heap

variable {heap : Heap} {memory : Memory} {machine final : Machine} {tiling : Slab → List Block}
  {slab : Slab} {request : Nat} {swept : SweepStats}

/-- The bytes of the free blocks of some slabs. -/
def freeStorage (tiling : Slab → List Block) (slabs : List Slab) : Nat :=
  (slabs.map fun slab => ((frees (tiling slab)).map Prod.snd).sum).sum

/-- The bytes that are free can be counted, and are no more than there are. -/
theorem Tiled.freeBytes_eq_ok (tiled : heap.Tiled memory tiling) :
    heap.freeBytes memory = .ok (freeStorage tiling heap.slabs) ∧
      freeStorage tiling heap.slabs ≤ heap.totalSize := by
  have counted : ∀ slabs : List Slab, (∀ slab ∈ slabs, slab ∈ heap.slabs) →
      slabs.mapM (·.freeBytes memory) =
          .ok (slabs.map fun slab => ((frees (tiling slab)).map Prod.snd).sum) ∧
        freeStorage tiling slabs ≤ slabs.foldr (fun slab total => slab.size + total) 0 := by
    intro slabs inHeap
    induction slabs with
    | nil => exact ⟨rfl, Nat.le_refl _⟩
    | cons slab rest ih =>
        obtain ⟨counted, fits⟩ := ih fun other member => inHeap other (List.mem_cons_of_mem _ member)
        have layout := tiled.layout slab (inHeap slab List.mem_cons_self)
        have small := layout.free_le
        refine ⟨?_, ?_⟩
        · simp only [List.mapM_cons, layout.freeBytes_eq_ok, counted]
          rfl
        · simp only [freeStorage, List.map_cons, List.sum_cons, List.foldr_cons] at fits ⊢
          omega
  obtain ⟨counted, fits⟩ := counted heap.slabs fun _ member => member
  have total := tiled.totalSize_lt
  refine ⟨?_, fits⟩
  simp only [freeBytes, counted, bind, Except.bind]
  exact Size.total_eq_ok (Nat.lt_of_le_of_lt fits total)

/-- The size of the slab that a heap would get for a request. -/
def nextSize? (heap : Heap) (request : Nat) : Option Nat :=
  nextSlabSize? heap.lastSlab.size request heap.totalSize heap.settings.maxSize

/-- Why a heap gets no further slab for a request. -/
inductive Barred (heap : Heap) (machine : Machine) (request : Nat) : Prop
  | atLimit (limited : heap.settings.maxSize ≠ 0)
      (reached : heap.settings.maxSize ≤ heap.totalSize)
  /-- What the limit leaves is no slab, or none with room for the request behind its sentinel. -/
  | clamped (limited : heap.settings.maxSize ≠ 0)
      (small : (heap.settings.maxSize - heap.totalSize) / blockUnit * blockUnit <
        max (request + blockUnit) minSlabSize)
  | overflow (doubled :
      Size.alignUp? (Size.saturate (max heap.lastSlab.size request * 2)) blockUnit = none)
  | reservation {size : Nat} (sized : heap.nextSize? request = some size)
      (noRoom : ¬ machine.Room size)

section NextSize

variable {last total maximum size : Nat}

/-- The size that the limit is applied to. -/
theorem doubled_bounds (large : minSlabSize ≤ last)
    (doubled : Size.alignUp? (Size.saturate (max last request * 2)) blockUnit = some size) :
    size % blockUnit = 0 ∧ minSlabSize ≤ size ∧ request + blockUnit ≤ size ∧
      size < Size.limit := by
  obtain ⟨lower, _, whole, small⟩ := Size.alignUp?_eq_some
    (show Size.alignUp? (Size.saturate (max last request * 2)) (1 <<< 4) = some size from doubled)
  have below : max last request * 2 ≤ size := by
    -- The saturated number is odd, so that a multiple of 16 at or above it is no size.
    simp only [Size.saturate, Size.limit] at lower small
    omega
  simp only [minSlabSize, blockUnit] at *
  omega

/-- A slab is not made only because the limit leaves too little or the numbers are too large. -/
theorem nextSlabSize?_eq_none (large : minSlabSize ≤ last)
    (none : nextSlabSize? last request total maximum = none) :
    Size.alignUp? (Size.saturate (max last request * 2)) blockUnit = Option.none ∨
      maximum ≠ 0 ∧ (maximum - total) / blockUnit * blockUnit <
        max (request + blockUnit) minSlabSize := by
  cases doubles : Size.alignUp? (Size.saturate (max last request * 2)) blockUnit with
  | none => exact .inl rfl
  | some doubled =>
      obtain ⟨whole, least, room, _⟩ := doubled_bounds large doubles
      simp only [nextSlabSize?, doubles, Option.bind_eq_bind, Option.bind_some] at none
      split at none
      · contradiction
      · next limited =>
        split at none
        · next small =>
          refine .inr ⟨limited, ?_⟩
          have capped : Size.saturate (request + blockUnit) ≤ request + blockUnit := Nat.min_le_left _ _
          simp only [blockUnit, minSlabSize] at *
          omega
        · contradiction

theorem nextSlabSize?_eq_none_of_le (limited : maximum ≠ 0) (reached : maximum ≤ total) :
    nextSlabSize? last request total maximum = none := by
  cases doubles : Size.alignUp? (Size.saturate (max last request * 2)) blockUnit with
  | none => simp [nextSlabSize?, doubles]
  | some doubled =>
      have nothing : maximum - total = 0 := Nat.sub_eq_zero_of_le reached
      simp [nextSlabSize?, doubles, limited, nothing, minSlabSize]

/-- A slab that is made has room for the request, and the limit holds. -/
theorem nextSlabSize?_eq_some (large : minSlabSize ≤ last)
    (found : nextSlabSize? last request total maximum = some size) :
    Slab.roundedSize? size = some size ∧ request + blockUnit ≤ size ∧
      (maximum ≠ 0 → total + size ≤ maximum) := by
  have exact {size : Nat} (aligned : size % blockUnit = 0) (least : minSlabSize ≤ size)
      (small : size < Size.limit) : Slab.roundedSize? size = some size := by
    have unit : (1 : Nat) <<< 4 = blockUnit := rfl
    rw [Slab.roundedSize?, Nat.max_eq_left least, ← unit, Size.alignUp?_shift, unit, if_pos]
    · simp only [blockUnit, Option.some.injEq] at *
      omega
    · simp only [blockUnit, Size.limit] at *
      omega
  cases doubles : Size.alignUp? (Size.saturate (max last request * 2)) blockUnit with
  | none => simp [nextSlabSize?, doubles] at found
  | some doubled =>
      obtain ⟨aligned, least, room, small⟩ := doubled_bounds large doubles
      simp only [nextSlabSize?, doubles, Option.bind_eq_bind, Option.bind_some] at found
      split at found
      · next unlimited =>
        obtain rfl := Option.some.inj found
        exact ⟨exact aligned least small, room, fun limited => absurd unlimited limited⟩
      · split at found
        · contradiction
        · next enough =>
          obtain rfl := Option.some.inj found
          have fits : request + blockUnit ≤ min doubled (maximum - total) / blockUnit * blockUnit := by
            simp only [Size.saturate, Size.limit, blockUnit, minSlabSize] at *
            omega
          refine ⟨exact (Nat.mul_mod_left _ _) ?_ ?_, fits, fun _ => ?_⟩ <;>
            simp only [Size.limit, blockUnit, minSlabSize] at * <;> omega

end NextSize

theorem Tiled.lastSlab_large (tiled : heap.Tiled memory tiling) :
    minSlabSize ≤ heap.lastSlab.size :=
  (tiled.layout _ (List.getLast_mem _)).placed.large

theorem append_nonempty (heap : Heap) (slab : Slab) : heap.slabs ++ [slab] ≠ [] := by simp

def grown (heap : Heap) (slab : Slab) : Heap :=
  { heap with
    slabs := heap.slabs ++ [slab]
    slabs_nonempty := append_nonempty heap slab
    counters := { heap.counters with growths := heap.counters.growths + 1 } }

/-- A heap whose last request could not be met. -/
def refused (heap : Heap) : Heap :=
  { heap with counters := { heap.counters with outOfMemory := heap.counters.outOfMemory + 1 } }

theorem countRefusal_eq (heap : Heap) : heap.countRefusal =
    if heap.counters.outOfMemory + 1 < Size.limit then .ok heap.refused else .error .additionOverflow := by
  rw [countRefusal, Counters.refuse_eq]
  split <;> rfl

theorem totalSize_grown (heap : Heap) (slab : Slab) :
    (heap.grown slab).totalSize = heap.totalSize + slab.size := by
  have shift (slabs : List Slab) (extra : Nat) :
      slabs.foldr (fun slab total => slab.size + total) extra =
        slabs.foldr (fun slab total => slab.size + total) 0 + extra := by
    induction slabs with
    | nil => simp
    | cons slab rest ih =>
        simp only [List.foldr_cons, ih]
        omega
  simp only [Heap.grown, totalSize, List.foldr_append, List.foldr_cons, List.foldr_nil,
    Nat.add_zero]
  exact shift _ _

/-- What is left of an allocation after a collection: the heap grows if it must and can, and the
request is tried once more. -/
def retry (heap : Heap) (stats : SweepStats) (request : Nat) : Action (Heap × Except HeapError Nat) := do
  let heap ← heap.growFor stats request
  match ← takeFrom request heap.slabs with
  | some block => return (heap, .ok block)
  | none =>
      let heap ← heap.countRefusal
      Action.note (.outOfMemory request heap.totalSize)
      return (heap, .error (.outOfMemory request))

section Below

variable (tiled : heap.Tiled machine.memory tiling)
  (hosted : ∀ slab ∈ heap.slabs, machine.Hosts slab)

include hosted

theorem new_of_created (created : slab.Created heap.shapes machine final) : slab ∉ heap.slabs := by
  intro member
  have apart := created.vacant.apart (hosted slab member)
  have large := created.layout.placed.large
  simp only [Slab.Apart, Slab.stop, minSlabSize] at *
  omega

include tiled

/-- A new slab is one free block, and the others are as they were. -/
theorem Tiled.grown (created : slab.Created heap.shapes machine final) :
    (heap.grown slab).Tiled final.memory
      (Function.update tiling slab [⟨slab.objects, slab.size - blockUnit, .free⟩]) where
  layout other member := by
    rcases List.mem_append.mp member with inHeap | isNew
    · have distinct : other ≠ slab := fun same =>
        new_of_created hosted created (same ▸ inHeap)
      rw [Function.update_of_ne distinct]
      exact (tiled.layout other inHeap).keep fun address above below =>
        created.outside address ((hosted other inHeap).reserved above below)
    · obtain rfl := List.mem_singleton.mp isNew
      rw [Function.update_self]
      exact created.layout
  apart := by
    refine List.pairwise_append.mpr ⟨tiled.apart, List.pairwise_singleton _ _, ?_⟩
    intro other inHeap new isNew
    obtain rfl := List.mem_singleton.mp isNew
    exact (created.vacant.apart (hosted other inHeap)).symm

/-- Growing adds a slab of the size that the request asks for, or nothing. It fails only where that slab cannot
be counted. -/
theorem Tiled.appendSlab_meets :
    (heap.appendSlab request).Meets machine
      (fun answer final => (answer = (heap, false) ∧ machine.Quiet final ∧ heap.Barred machine request) ∨
        ∃ slab, answer = (heap.grown slab, true) ∧ heap.nextSize? request = some slab.size ∧
          machine.Room slab.size ∧ slab.Created heap.shapes machine final)
      fun final => Size.limit ≤ heap.counters.growths + 1 ∧
        ∃ slab : Slab, slab.Created heap.shapes machine final := by
  unfold appendSlab
  simp only
  split
  · next none =>
    refine .inl ?_
    rw [Action.ensures_note]
    refine Action.ensures_pure.mpr (.inl ⟨rfl, machine.quiet_logging _, ?_⟩)
    rcases nextSlabSize?_eq_none tiled.lastSlab_large none with overflow | ⟨limited, small⟩
    · exact .overflow overflow
    · exact .clamped limited small
  · next size sized =>
    obtain ⟨exact, _⟩ := nextSlabSize?_eq_some tiled.lastSlab_large sized
    refine (Slab.ensures_create heap.shapes).meets.bind ?_
    rintro _ made (⟨rfl, rfl, noRoom⟩ | ⟨slab, rfl, rounded, room, _, created⟩)
    · refine .inl ?_
      rw [Action.ensures_note]
      exact Action.ensures_pure.mpr (.inl ⟨rfl, Machine.quiet_logging _ _,
        .reservation sized (noRoom size exact)⟩)
    · obtain rfl := Option.some.inj (exact.symm.trans rounded)
      have total := (tiled.grown hosted created).totalSize_lt
      have whole := heap.totalSize_grown slab
      refine (Action.meets_check (Size.add_eq_ok (by omega))).mpr (Action.meets_note.mpr ?_)
      have noted := created.quiet (Machine.quiet_logging _ (.notice (.grown slab.size (heap.totalSize + slab.size))))
      refine Action.meets_count heap.counters.grow_eq (fun _ => ?_) fun spent => ⟨Nat.not_lt.mp spent, slab, noted⟩
      exact .inl (Action.ensures_pure.mpr (.inr ⟨slab, rfl, sized, room, noted⟩))

/-- A heap grows if it wants to and can. Where it wants to and does not, it could not be made to. -/
theorem Tiled.growFor_meets :
    (heap.growFor swept request).Meets machine
      (fun answer final => (answer = heap ∧ machine.Quiet final ∧
        (wantsGrowth heap.settings swept (heap.totalSize - freeStorage tiling heap.slabs)
            heap.totalSize request = false ∨
          heap.Barred machine request ∧
            (heap.appendSlab request).Ensures machine fun answer _ => answer = (heap, false))) ∨
        ∃ slab, answer = heap.grown slab ∧
          wantsGrowth heap.settings swept (heap.totalSize - freeStorage tiling heap.slabs)
            heap.totalSize request = true ∧
          heap.nextSize? request = some slab.size ∧ machine.Room slab.size ∧
          slab.Created heap.shapes machine final)
      fun final => Size.limit ≤ heap.counters.growths + 1 ∧
        ∃ slab : Slab, slab.Created heap.shapes machine final := by
  obtain ⟨counted, fits⟩ := tiled.freeBytes_eq_ok
  unfold growFor
  simp only
  rw [Action.meets_memory, Action.meets_check counted, Action.meets_check (Size.sub_eq_ok fits)]
  split
  · next wanted =>
    split
    · next full =>
      refine .inl ?_
      rw [Action.ensures_note]
      refine Action.ensures_pure.mpr (.inl ⟨rfl, machine.quiet_logging _, .inr
        ⟨.atLimit full.1 full.2, ?_⟩⟩)
      unfold appendSlab
      simp only [nextSlabSize?_eq_none_of_le full.1 full.2]
      rw [Action.ensures_note]
      exact Action.ensures_pure.mpr rfl
    · rcases tiled.appendSlab_meets hosted with
        ⟨_, final, ran, ⟨rfl, quiet, barred⟩ | ⟨slab, rfl, sized, room, created⟩⟩ | ⟨final, failed, spent⟩
      · exact (Action.meets_bind_iff ran).mpr (.inl (Action.ensures_pure.mpr
          (.inl ⟨rfl, quiet, .inr ⟨barred, _, final, ran, rfl⟩⟩)))
      · exact (Action.meets_bind_iff ran).mpr (.inl (Action.ensures_pure.mpr
          (.inr ⟨slab, rfl, wanted, sized, room, created⟩)))
      · exact .inr ⟨final, by rw [EStateM.run_bind, failed], spent⟩
  · next unwanted =>
    exact .inl (Action.ensures_pure.mpr
      (.inl ⟨rfl, .refl machine, .inl (Bool.not_eq_true _ ▸ unwanted)⟩))

end Below

end Heap

end SlabHeap
