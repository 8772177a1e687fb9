import SlabHeap.Proofs.WorkList

namespace SlabHeap

/-! Marking reaches exactly what the roots keep alive.

Whatever marks there are at the start, `Heap.Closed.ensures_mark` says that marking adds those of the
objects that can be reached through objects without a mark, and changes nothing else, in a heap whose
blocks in use are closed under reference.
-/

namespace Heap

variable {heap : Heap} {machine after : Machine} {memory : Memory} {tiling : Slab → List Block}
  {fresh : Nat → Prop} {block : Block} {object : Nat} {value : Value} {roots : List Value}

theorem Tiled.scattered (tiled : heap.Tiled memory tiling) : Scattered (heap.blocks tiling) where
  bounds block member := by
    obtain ⟨positive, aligned, large, _, bounded⟩ := tiled.bounds member
    exact ⟨by omega, aligned, large, bounded⟩
  unique _ member _ otherMember _ covers otherCovers :=
    tiled.eq_of_covers member otherMember covers otherCovers

theorem Node.startsIn (node : heap.Node tiling object) : StartsIn (heap.blocks tiling) object := by
  obtain ⟨block, member, _, starts⟩ := node
  exact ⟨block, member, starts⟩

theorem Tiled.fits (tiled : heap.Tiled memory tiling) (member : block ∈ heap.blocks tiling)
    (inUse : block.kind ≠ .free) : heap.Fits memory block :=
  fun _ known => (tiled.describes member inUse known).2

/-- What an object keeps alive depends on its tag, on its contents, and on the save frames. -/
theorem Tiled.keptValues_congr (tiled : heap.Tiled machine.memory tiling)
    (member : block ∈ heap.blocks tiling) (inUse : block.kind ≠ .free)
    (frames : after.frames = machine.frames)
    (tag : after.memory.tag block.start = machine.memory.tag block.start)
    (contents : ∀ address, block.start + 8 ≤ address → address < block.stop →
      after.memory.read address = machine.memory.read address) :
    heap.keptValues after block.start = heap.keptValues machine block.start :=
  (tiled.fits member inUse).keptValues_congr frames tag contents

section Colouring

variable (tiled : heap.Tiled machine.memory tiling) (nodes : ∀ object, fresh object →
    heap.Node tiling object) (marked : machine.memory.MarkedOn after.memory fresh)

include tiled nodes marked

theorem Tiled.contents_marked (member : block ∈ heap.blocks tiling) {address : Nat}
    (lower : block.start + 8 ≤ address) (upper : address < block.stop) :
    after.memory.read address = machine.memory.read address :=
  tiled.scattered.contents_marked (fun object isFresh => (nodes object isFresh).startsIn) marked member
    lower upper

theorem Tiled.header_unmarked (member : block ∈ heap.blocks tiling) (old : ¬ fresh block.start) :
    after.memory.header block.start = machine.memory.header block.start :=
  tiled.scattered.header_unmarked (fun object isFresh => (nodes object isFresh).startsIn) marked member old

theorem Tiled.isMarked_iff (member : block ∈ heap.blocks tiling) :
    (after.memory.header block.start).isMarked = true ↔
      fresh block.start ∨ (machine.memory.header block.start).isMarked = true :=
  tiled.scattered.isMarked_iff (fun object isFresh => (nodes object isFresh).startsIn) marked member

theorem Tiled.tag_marked (member : block ∈ heap.blocks tiling) :
    after.memory.tag block.start = machine.memory.tag block.start :=
  tiled.scattered.tag_marked (fun object isFresh => (nodes object isFresh).startsIn) marked member

theorem Tiled.alike_marked (member : block ∈ heap.blocks tiling) :
    block.Alike heap.shapes machine.memory after.memory := by
  obtain ⟨slab, inHeap, inSlab⟩ := mem_blocks.mp member
  exact ((tiled.layout slab inHeap).fits block inSlab).alike (tiled.tag_marked nodes marked member)
    fun address lower upper => tiled.contents_marked nodes marked member lower upper

theorem Tiled.of_marked : heap.Tiled after.memory tiling := by
  refine tiled.congr_used (fun address outside => marked.same address fun object isFresh inside => ?_)
    fun block member _ => tiled.alike_marked nodes marked member
  obtain ⟨block, member, inUse, rfl⟩ := nodes object isFresh
  have large := (tiled.bounds member).2.2.1
  exact outside block member inUse ⟨inside.1, by simp only [Block.stop]; omega⟩

theorem Tiled.target?_marked (value : Value) :
    heap.target? after.memory value = heap.target? machine.memory value :=
  tiled.scattered.target?_marked (fun object isFresh => (nodes object isFresh).startsIn) marked value

theorem Tiled.keptValues_marked (steady : machine.Steady after)
    (member : block ∈ heap.blocks tiling) (inUse : block.kind ≠ .free) :
    heap.keptValues after block.start = heap.keptValues machine block.start :=
  tiled.keptValues_congr member inUse steady.frames (tiled.tag_marked nodes marked member)
    fun _ lower upper => tiled.contents_marked nodes marked member lower upper

end Colouring

/-- All references that marking from some roots can meet lead to storage in use. -/
structure Closed (heap : Heap) (machine : Machine) (tiling : Slab → List Block)
    (roots : List Value) : Prop where
  tiled : heap.Tiled machine.memory tiling
  kept : ∀ owner, heap.Reach machine machine.Unmarked roots owner → heap.Node tiling owner →
    ∀ value ∈ heap.keptValues machine owner, ∀ object,
      heap.target? machine.memory value = some object → heap.Node tiling object
  roots : ∀ value ∈ roots, ∀ object, heap.target? machine.memory value = some object →
    heap.Node tiling object

namespace Closed

variable (closed : heap.Closed machine tiling roots)

include closed

theorem node (reached : heap.Reach machine machine.Unmarked roots object) : heap.Node tiling object := by
  induction reached with
  | root listed found _ => exact closed.roots _ listed _ found
  | kept reached held found _ ih => exact closed.kept _ reached ih _ held _ found

/-- Marking stays in the blocks in use. -/
theorem confined : heap.Confined machine
    ((heap.blocks tiling).filter fun block => block.kind ≠ .free) roots := by
  have startsIn {address : Nat} : heap.Node tiling address ↔
      StartsIn ((heap.blocks tiling).filter fun block => block.kind ≠ .free) address := by
    simp [Node, StartsIn, and_assoc]
  have scattered := closed.tiled.scattered
  refine ⟨⟨fun block member => ?_, fun block member other otherMember => ?_⟩, fun block member => ?_,
    fun owner reached node value held object found => ?_, fun value listed object found => ?_⟩
  · exact scattered.bounds block (List.mem_of_mem_filter member)
  · exact scattered.unique block (List.mem_of_mem_filter member) other (List.mem_of_mem_filter otherMember)
  · exact closed.tiled.fits (List.mem_of_mem_filter member) (by simpa using List.of_mem_filter member)
  · exact startsIn.mp (closed.kept owner reached (startsIn.mpr node) value held object found)
  · exact startsIn.mp (closed.roots value listed object found)

/-- Marking adds marks to what can be reached without passing a mark, and changes nothing else. -/
theorem ensures_mark :
    (heap.mark roots).Ensures machine fun _ final => machine.Steady final ∧
      machine.memory.MarkedOn final.memory (heap.Reach machine machine.Unmarked roots) := by
  obtain ⟨final, ran, steady, marked⟩ := closed.confined.run_markInOrder arranges_reverseAux
  refine ⟨(), final, ?_, steady, marked⟩
  rw [mark, ← markInOrder_reverseAux]
  exact ran _ (Nat.le_refl _)

end Closed

end Heap

end SlabHeap
