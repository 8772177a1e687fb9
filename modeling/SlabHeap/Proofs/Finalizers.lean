import Mathlib.Data.List.Forall2
import SlabHeap.Proofs.Conduct
import SlabHeap.Proofs.Release
import SlabHeap.Proofs.Tiling

namespace SlabHeap

/-! Calls of finalizers.

Calls stand in the journal among the notices. `Machine.Silent` says that none were added, and is tolerant
of everything but calls themselves. `Slab.Finalized` says which calls a sweep of blocks makes: one for each
block that dies while it awaits one, in the order of the blocks, and every call sees its object as it was
when the sweep began, on no free list.
-/

theorem forall₂_weaken {α β : Type} {related weaker : α → β → Prop} {first : List α}
    {second : List β} (holds : List.Forall₂ related first second)
    (weakens : ∀ entry ∈ first, ∀ other, related entry other → weaker entry other) :
    List.Forall₂ weaker first second := by
  induction holds with
  | nil => exact .nil
  | cons here _ ih =>
      obtain ⟨weakensHere, weakensLater⟩ := List.forall_mem_cons.mp weakens
      exact .cons (weakensHere _ here) (ih weakensLater)

theorem forall₂_partner {α β : Type} {related : α → β → Prop} {first : List α} {second : List β}
    (holds : List.Forall₂ related first second) {entry : α} (member : entry ∈ first) :
    ∃ other ∈ second, related entry other := by
  induction holds with
  | nil => contradiction
  | cons here _ ih =>
      rcases List.mem_cons.mp member with rfl | later
      · exact ⟨_, List.mem_cons_self, here⟩
      · obtain ⟨other, listed, partners⟩ := ih later
        exact ⟨other, List.mem_cons_of_mem _ listed, partners⟩

/-- The call that an event is, if it is one: the object, and the memory that the finalizer saw. -/
def Event.call? : Event → Option (Nat × Memory)
  | .notice _ => none
  | .finalized object memory => some (object, memory)

namespace Machine

def calls (machine : Machine) : List (Nat × Memory) := machine.journal.reverse.filterMap Event.call?

/-- No finalizer was called in between. -/
def Silent (machine final : Machine) : Prop := final.calls = machine.calls

theorem calls_logging (machine : Machine) (event : Event) :
    (machine.logging event).calls = machine.calls ++ event.call?.toList := by
  cases called : event.call? <;> simp [calls, logging, called]

instance : Tolerant Silent where
  trans first second := Eq.trans second first
  same equal := by rw [Silent, calls, calls, equal]
  notice machine notice := by
    rw [Silent, calls_logging]
    exact List.append_nil _

end Machine

namespace Block

variable {shapes : ShapeTable} {memory after : Memory} {block : Block}

/-- The block is an object that is finalized when it dies: its type has a finalizer, and the heap owns
it. -/
def awaits (shapes : ShapeTable) (memory : Memory) (block : Block) : Bool :=
  decide (block.kind = .object) && (shapes.get? (memory.tag block.start)).any (·.finalized) &&
    (memory.header block.start).flags.includes .owned

theorem kind_of_awaits (awaits : block.awaits shapes memory = true) : block.kind = .object := by
  simp only [Block.awaits, Bool.and_eq_true, decide_eq_true_eq] at awaits
  exact awaits.1.1

theorem awaits_of_ne (other : block.kind ≠ .object) : block.awaits shapes memory = false := by
  simp [awaits, other]

theorem awaits_congr (same : after.header block.start = memory.header block.start) :
    block.awaits shapes after = block.awaits shapes memory := by
  simp only [awaits, Memory.tag, same]

theorem Kept.header_eq (kept : block.Kept memory after) (covers : block.Covers block.start) :
    after.header block.start = memory.header block.start := by
  rw [Memory.header, Memory.header, kept block.start covers]

/-- The block dies and its finalizer is called. -/
def ends (shapes : ShapeTable) (dead : Block → Bool) (memory : Memory) (block : Block) : Bool :=
  dead block && block.awaits shapes memory

theorem ends_used (dead : Block → Bool) (blocks : List Block) :
    (used blocks).filter (ends shapes dead memory) = blocks.filter (ends shapes dead memory) := by
  rw [used, List.filter_filter]
  refine List.filter_congr fun block _ => ?_
  cases kind : block.kind with
  | free => simp [ends, awaits, kind]
  | object => simp
  | bare => simp

end Block

namespace Slab

open Block

variable {slab : Slab} {shapes : ShapeTable} {dead : Block → Bool} {machine mid final : Machine}
  {block : Block} {rest further ahead : List Block} {before memory : Memory} {call : Nat × Memory}

/-- A call came for a block while it was in use, with all its words as they were before. -/
structure Called (slab : Slab) (shapes : ShapeTable) (before : Memory) (block : Block)
    (call : Nat × Memory) : Prop where
  address : call.1 = block.start
  kept : block.Kept before call.2
  present : ∃ blocks, slab.Layout shapes call.2 blocks ∧ block ∈ blocks
  outside : ∀ address, address < slab.start ∨ slab.stop ≤ address →
    call.2.read address = before.read address

/-- The calls between two machines are those for the blocks that die. -/
def Finalized (slab : Slab) (shapes : ShapeTable) (dead : Block → Bool) (machine final : Machine)
    (rest : List Block) : Prop :=
  ∃ made, final.calls = machine.calls ++ made ∧
    List.Forall₂ (slab.Called shapes machine.memory) (rest.filter (ends shapes dead machine.memory)) made

theorem Called.since (called : slab.Called shapes memory block call) (kept : block.Kept before memory)
    (outside : ∀ address, address < slab.start ∨ slab.stop ≤ address →
      memory.read address = before.read address) : slab.Called shapes before block call where
  address := called.address
  kept := kept.trans called.kept
  present := called.present
  outside address apart := (called.outside address apart).trans (outside address apart)

theorem Finalized.nil (machine : Machine) : slab.Finalized shapes dead machine machine [] :=
  ⟨[], (List.append_nil _).symm, .nil⟩

/-- What changes on the way to the remaining blocks does not touch them. -/
theorem Finalized.since (later : slab.Finalized shapes dead mid final further)
    (kept : ∀ block ∈ used further, block.Covers block.start ∧ block.Kept machine.memory mid.memory)
    (outside : ∀ address, address < slab.start ∨ slab.stop ≤ address →
      mid.memory.read address = machine.memory.read address) :
    ∃ made, final.calls = mid.calls ++ made ∧
      List.Forall₂ (slab.Called shapes machine.memory)
        (further.filter (ends shapes dead machine.memory)) made := by
  obtain ⟨made, calls, called⟩ := later
  have same : further.filter (ends shapes dead mid.memory) =
      further.filter (ends shapes dead machine.memory) := by
    rw [← ends_used dead further, ← ends_used dead further]
    refine List.filter_congr fun block inUse => ?_
    obtain ⟨covers, kept⟩ := kept block inUse
    rw [ends, ends, awaits_congr (kept.header_eq covers)]
  have untouched : ∀ block ∈ further.filter (ends shapes dead machine.memory),
      block.Kept machine.memory mid.memory := by
    intro block member
    rw [← ends_used] at member
    exact (kept block (List.mem_filter.mp member).1).2
  rw [same] at called
  exact ⟨made, calls, forall₂_weaken called fun block member call seen => seen.since (untouched block member) outside⟩

/-- A block that stays is passed in silence. -/
theorem Finalized.pass (later : slab.Finalized shapes dead mid final rest)
    (silent : machine.Silent mid) (stays : ends shapes dead machine.memory block = false)
    (kept : ∀ block ∈ used rest, block.Covers block.start ∧ block.Kept machine.memory mid.memory)
    (outside : ∀ address, address < slab.start ∨ slab.stop ≤ address →
      mid.memory.read address = machine.memory.read address) :
    slab.Finalized shapes dead machine final (block :: rest) := by
  obtain ⟨made, calls, called⟩ := later.since kept outside
  rw [silent] at calls
  refine ⟨made, calls, ?_⟩
  rwa [List.filter_cons_of_neg (by simp [stays])]

/-- A block that dies is called for if it awaits a call. -/
theorem Finalized.reclaim (later : slab.Finalized shapes dead mid final further)
    (layout : slab.Layout shapes machine.memory rest) (member : block ∈ rest) (dies : dead block = true)
    (calls : mid.calls = machine.calls ++
      if block.awaits shapes machine.memory then [(block.start, machine.memory)] else [])
    (same : used further = used ahead)
    (kept : ∀ block ∈ used further, block.Covers block.start ∧ block.Kept machine.memory mid.memory)
    (outside : ∀ address, address < slab.start ∨ slab.stop ≤ address →
      mid.memory.read address = machine.memory.read address) :
    slab.Finalized shapes dead machine final (block :: ahead) := by
  obtain ⟨made, more, called⟩ := later.since kept outside
  rw [← ends_used, same, ends_used] at called
  rw [calls, List.append_assoc] at more
  refine ⟨_, more, ?_⟩
  cases await : block.awaits shapes machine.memory with
  | false =>
      rwa [List.filter_cons_of_neg (by simp [ends, await])]
  | true =>
      rw [List.filter_cons_of_pos (by simp [ends, dies, await])]
      exact .cons ⟨rfl, fun _ _ => rfl, ⟨rest, layout, member⟩, fun _ _ => rfl⟩ called

end Slab

namespace Heap

variable {heap : Heap} {tiling : Slab → List Block} {dead : Block → Bool} {machine final : Machine}
  {before memory : Memory} {block : Block} {call : Nat × Memory} {slabs : List Slab}

/-- A call came for a block of a heap while it was in use, with all its words as they were before. -/
structure Called (heap : Heap) (before : Memory) (block : Block) (call : Nat × Memory) : Prop where
  address : call.1 = block.start
  kept : block.Kept before call.2
  present : ∃ tiling, heap.Tiled call.2 tiling ∧ block ∈ heap.blocks tiling

/-- The calls between two machines are those for the blocks of some slabs that die. -/
def Finalized (heap : Heap) (tiling : Slab → List Block) (dead : Block → Bool) (before : Memory)
    (machine final : Machine) (slabs : List Slab) : Prop :=
  ∃ made, final.calls = machine.calls ++ made ∧ List.Forall₂ (heap.Called before)
    ((slabs.flatMap tiling).filter (Block.ends heap.shapes dead before)) made

theorem Called.since (called : heap.Called memory block call) (kept : block.Kept before memory) :
    heap.Called before block call where
  address := called.address
  kept := kept.trans called.kept
  present := called.present

/-- What happened before to other blocks makes no difference. -/
theorem Finalized.since (finalized : heap.Finalized tiling dead memory machine final slabs)
    (kept : ∀ slab ∈ slabs, ∀ block ∈ tiling slab, block.kind = .object → dead block = true →
      block.Covers block.start ∧ block.Kept before memory) :
    heap.Finalized tiling dead before machine final slabs := by
  obtain ⟨made, calls, called⟩ := finalized
  have untouched (block : Block) (member : block ∈ slabs.flatMap tiling) (isObject : block.kind = .object)
      (dies : dead block = true) : block.Covers block.start ∧ block.Kept before memory := by
    obtain ⟨slab, inSlabs, inSlab⟩ := List.mem_flatMap.mp member
    exact kept slab inSlabs block inSlab isObject dies
  have same : (slabs.flatMap tiling).filter (Block.ends heap.shapes dead memory) =
      (slabs.flatMap tiling).filter (Block.ends heap.shapes dead before) := by
    refine List.filter_congr fun block member => ?_
    cases dies : dead block with
    | false => simp [Block.ends, dies]
    | true =>
        by_cases isObject : block.kind = .object
        · obtain ⟨covers, kept⟩ := untouched block member isObject dies
          rw [Block.ends, Block.ends, Block.awaits_congr (kept.header_eq covers)]
        · simp [Block.ends, Block.awaits_of_ne isObject]
  rw [same] at called
  refine ⟨made, calls, forall₂_weaken called fun block member call seen => seen.since ?_⟩
  obtain ⟨listed, ends⟩ := List.mem_filter.mp member
  rw [Block.ends, Bool.and_eq_true] at ends
  exact (untouched block listed (Block.kind_of_awaits ends.2) ends.1).2

end Heap

end SlabHeap
