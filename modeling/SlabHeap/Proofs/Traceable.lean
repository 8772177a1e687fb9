import SlabHeap.Proofs.Conservative
import SlabHeap.Proofs.Exactness

namespace SlabHeap

/-! Collections of all kinds.

`Heap.Traceable` asks of weak slots only that what they refer to in the heap is an object; they may
refer to objects of other heaps. A `Heap.Collection`, with a snapshot or without, keeps what can be
reached from its roots: `Heap.Traceable.perform_run`.
-/

open Block

namespace Heap

variable {heap : Heap} {machine : Machine} {tiling : Slab → List Block}

/-- Objects are ready to be marked; strong slots, linked frames and the heap's own roots refer to
objects, and so does what refers into the heap from a weak slot. -/
structure Traceable (heap : Heap) (machine : Machine) (tiling : Slab → List Block) : Prop
    extends heap.Ready tiling machine where
  strong : ∀ block ∈ heap.blocks tiling, block.kind = .object → ∀ shape,
    heap.shapes.get? (machine.memory.tag block.start) = some shape → ∀ offset,
      shape.StrongSlot machine.memory block.start offset →
        heap.RefersToObject tiling (machine.memory.value (block.start + offset))
  weak : ∀ block ∈ heap.blocks tiling, block.kind = .object → ∀ shape,
    heap.shapes.get? (machine.memory.tag block.start) = some shape → ∀ offset,
      shape.WeakSlot machine.memory block.start offset → ∀ address,
        (machine.memory.value (block.start + offset)).address? = some address →
          heap.contains address = true → heap.Object tiling address
  frames : ∀ block ∈ heap.blocks tiling, block.kind = .object →
    machine.memory.tag block.start = Tag.context → ∀ frame,
      machine.Linked ((Context.mk block.start).saves machine.memory) frame →
        ∀ value ∈ frame.values, heap.RefersToObject tiling value
  globals : ∀ value ∈ heap.globals.getD [], heap.RefersToObject tiling value
  scratch : ∀ value ∈ heap.scratch, heap.RefersToObject tiling value

theorem WellFormed.traceable (wellFormed : heap.WellFormed machine tiling) :
    heap.Traceable machine tiling where
  toReady := wellFormed.intact.ready
  strong block member isObject shape known offset slot :=
    wellFormed.slots block member isObject shape known offset (.inl slot)
  weak block member isObject shape known offset slot address found _ :=
    wellFormed.slots block member isObject shape known offset (.inr slot) address found
  frames := wellFormed.frames
  globals := wellFormed.globals
  scratch := wellFormed.scratch

/-- How a collection ends. It fails only if it, or the bytes that it freed, cannot be counted any more, after it
has freed them. -/
def finished (heap : Heap) (stats : SweepStats) (final : Machine) :
    EStateM.Result Fault Machine (Heap × SweepStats) :=
  if heap.counters.Counts 1 stats.sumFreed then
    .ok (heap.counted stats, stats) final
  else .error .additionOverflow final

/-- A collection from a context, if there is one, or with a snapshot as well. -/
inductive Collection
  | plain (context : Option Context)
  | scanning (context : Context) (snapshot : Snapshot)

namespace Collection

def context : Collection → Option Context
  | plain context => context
  | scanning context _ => some context

def marking (heap : Heap) : Collection → Action Unit
  | plain context => heap.mark (heap.roots context)
  | scanning context snapshot => do
      heap.mark (heap.roots (some context))
      heap.markNamed snapshot

def roots (heap : Heap) (memory : Memory) (blocks : List Block) : Collection → List Value
  | plain context => heap.roots context
  | scanning context snapshot => heap.roots (some context) ++ heap.named memory snapshot blocks

def perform (heap : Heap) : Collection → Action (Heap × SweepStats)
  | plain context => heap.collectFrom context
  | scanning context snapshot => heap.collectWithSnapshot context snapshot

variable (collection : Collection)

theorem perform_eq : collection.perform heap =
    (collection.marking heap >>= fun _ => heap.finishCollection collection.context) := by
  cases collection with
  | plain context => rfl
  | scanning context snapshot =>
      simp only [perform, collectWithSnapshot, marking, Collection.context, bind_assoc]

end Collection

namespace Traceable

variable {roots : List Value} (traceable : heap.Traceable machine tiling)

include traceable

theorem clean : heap.Clean tiling machine where
  tiled := traceable.tiled
  unmarked := traceable.unmarked
  weak _ block member isObject shape known offset slot address found inHeap :=
    (traceable.weak block member isObject shape known offset slot address found inHeap).node

/-- Marking can begin with any objects. -/
theorem traced (rooted : ∀ value ∈ roots, heap.RefersToObject tiling value) :
    heap.Traced machine tiling roots :=
  traceable.toReady.traced rooted
    (fun block member isObject _ isContext frame linked value held =>
      traceable.frames block member isObject isContext frame linked value held)
    fun block member isObject _ shape known offset slot =>
      traceable.strong block member isObject shape known offset slot

variable {collection : Collection}
  (objects : ∀ context ∈ collection.context, heap.Object tiling context.address)

include objects

theorem rooted : ∀ value ∈ collection.roots heap machine.memory (heap.blocks tiling),
    heap.RefersToObject tiling value := by
  have own {context : Option Context}
      (objects : ∀ handle ∈ context, heap.Object tiling handle.address) :
      ∀ value ∈ heap.roots context, heap.RefersToObject tiling value := by
    refine List.forall_mem_append.mpr
      ⟨List.forall_mem_append.mpr ⟨traceable.scratch, traceable.globals⟩, fun value listed => ?_⟩
    cases context with
    | none => cases listed
    | some handle =>
        obtain rfl := List.mem_singleton.mp listed
        exact traceable.tiled.refersToObject (objects handle rfl)
  cases collection with
  | plain context => exact own objects
  | scanning context snapshot =>
      exact List.forall_mem_append.mpr
        ⟨own objects, fun value listed => traceable.tiled.named_denotes listed⟩

/-- The mark phase marks what can be reached. -/
theorem ensures_marking : (collection.marking heap).Ensures machine fun _ mid =>
    heap.Marked tiling machine mid
      (heap.Reachable machine (collection.roots heap machine.memory (heap.blocks tiling))) := by
  have traced := traceable.traced (traceable.rooted objects)
  have same : heap.Reachable machine (collection.roots heap machine.memory (heap.blocks tiling)) =
      heap.Reach machine machine.Unmarked
        (collection.roots heap machine.memory (heap.blocks tiling)) :=
    funext fun object => propext traced.reach_iff.symm
  rw [same]
  cases collection with
  | plain context =>
      refine traced.closed.ensures_mark.weaken fun _ mid ran => ?_
      exact ⟨traceable.clean, ran.1, fun _ reached => traced.closed.node reached, ran.2⟩
  | scanning context snapshot =>
      exact traceable.toReady.ensures_markAll traced.closed traceable.clean

/-- A collection keeps what can be reached, and nothing else. -/
theorem perform_run : ∃ marked stats final swept,
    (collection.marking heap).run machine = .ok () marked ∧
    heap.Marked tiling machine marked
      (heap.Reachable machine (collection.roots heap machine.memory (heap.blocks tiling))) ∧
    heap.Collected tiling swept machine final
      (heap.Reachable machine (collection.roots heap machine.memory (heap.blocks tiling))) ∧
    stats.sumFreed + heap.usedBytes swept = heap.usedBytes tiling ∧
    (collection.perform heap).run machine = heap.finished stats final := by
  obtain ⟨_, marked, ran, isMarked⟩ := traceable.ensures_marking objects
  obtain ⟨shown, final, _, collected, _, finished⟩ :=
    isMarked.finishCollection_swept collection.context
  refine ⟨marked, sweptStats shown tiling heap.slabs, final, _, ran, isMarked, collected,
    Marked.sumFreed_eq, ?_⟩
  rw [collection.perform_eq, Action.run_bind ran]
  exact finished

/-- What can be reached is what is allocated afterwards. -/
theorem allocated_iff {final : Machine} {swept : Slab → List Block} {object : Nat}
    (collected : heap.Collected tiling swept machine final
      (heap.Reachable machine (collection.roots heap machine.memory (heap.blocks tiling)))) :
    heap.Allocated final.memory object ↔
      heap.Reachable machine (collection.roots heap machine.memory (heap.blocks tiling)) object := by
  rw [collected.tiled.allocated_iff]
  constructor
  · intro isObject
    obtain ⟨block, member, kind, rfl⟩ := isObject
    exact ((collected.mem_swept (by simp [kind])).mp member).2 kind
  · intro alive
    have traced := traceable.traced (traceable.rooted objects)
    obtain ⟨block, member, kind, rfl⟩ := traced.object_of_reachable alive
    exact ⟨block, (collected.mem_swept (by simp [kind])).mpr ⟨member, fun _ => alive⟩, kind, rfl⟩

end Traceable

end Heap

end SlabHeap
