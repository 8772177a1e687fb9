import SlabHeap.Proofs.Founding
import SlabHeap.Proofs.Staying

namespace SlabHeap

/-! Flags of ownership.

`Memory.owns` reads the flag in the header of an object. An operation leaves the flags of all objects that it
keeps, `Operation.owns_kept`, and sets that of an object which it makes, `Operation.owns_made`. Only copies
lose theirs.
-/

open Block Heap

def Memory.owns (memory : Memory) (object : Nat) : Bool := (memory.header object).flags.includes .owned

namespace Memory

variable {memory after : Memory} {object : Nat}

theorem owns_congr (same : after.header object = memory.header object) :
    after.owns object = memory.owns object := by
  rw [owns, owns, same]

theorem owns_of_read (same : after.read object = memory.read object) :
    after.owns object = memory.owns object :=
  owns_congr (congrArg Header.ofWord same)

theorem owns_add_broken (broken : after.header object = (memory.header object).add .broken) :
    after.owns object = memory.owns object := by
  rw [owns, owns, broken]
  exact Flags.includes_union_of_disjoint (by decide)

theorem owns_of_fresh {tag : UInt8} (fresh : memory.header object = .fresh tag) :
    memory.owns object = true := by
  rw [owns, fresh]
  exact (by decide : Flags.owned.includes .owned = true)

theorem owns_of_removed {original : Header} (removed : memory.header object = original.remove .owned) :
    memory.owns object = false := by
  rw [owns, removed]
  exact Flags.includes_without original.flags (by decide)

end Memory

namespace Heap

variable {heap prepared copy : Heap} {machine mid final : Machine} {tiling swept divided : Slab → List Block}
  {entries : List Block} {block : Block} {live : Nat → Prop} {context : Option Context}

/-- Words behind the headers of objects are no headers. -/
theorem Edits.owns (edits : heap.Edits tiling machine final entries)
    (tiled : heap.Tiled machine.memory tiling) (member : block ∈ heap.blocks tiling) :
    final.memory.owns block.start = machine.memory.owns block.start :=
  Memory.owns_of_read (edits.read_start tiled member)

/-- Flags stay as they are while nothing touches the heap. -/
theorem Records.owns (records : heap.Records tiling entries) (untouched : heap.Untouched machine final)
    (listed : block ∈ entries) : final.memory.owns block.start = machine.memory.owns block.start := by
  obtain ⟨slab, inHeap, above, below⟩ := records.inside block listed
  have large := (records.whole block listed).1
  simp only [Slab.objects, Block.stop, blockUnit] at above below large
  exact Memory.owns_of_read (untouched slab inHeap block.start (by omega) (by omega))

/-- Without ownership nothing is left of it in a copy. -/
theorem Headed.owns {source target : Slab} {keepOwnership : Bool} {memory after : Memory}
    (headed : Headed source target keepOwnership memory after entries) (member : block ∈ entries)
    (isObject : block.kind = .object) (drops : keepOwnership = false) :
    after.owns (source.moveBlock target block).start = false := by
  have header := headed block member isObject
  rw [drops, if_neg Bool.false_ne_true] at header
  exact Memory.owns_of_removed header

end Heap

namespace Operation

variable {heap after : Heap} {machine final : Machine} {tiling : Slab → List Block}
  {entries : List Block} {op : Operation} {answer : Answer} {block : Block}
  (accounted : heap.Accounted tiling machine entries) (orderly : machine.Orderly)
  (apt : op.Apt heap machine (Listed entries))
  (ran : (op.perform heap).run machine = .ok (after, answer) final)

include accounted apt ran

/-- An operation owns what it makes. -/
theorem owns_made (isNew : op.made answer = some block) (isObject : block.kind = .object) :
    final.memory.owns block.start = true := by
  obtain ⟨_, _, _, _, furnished⟩ := furnished_made accounted apt ran isNew isObject
  exact Memory.owns_of_fresh furnished.header

include orderly

/-- An operation leaves the flags of the objects that it keeps. -/
theorem owns_kept (listed : block ∈ entries) (isObject : block.kind = .object)
    (keeps : op.Keeps heap after machine entries block) :
    final.memory.owns block.start = machine.memory.owns block.start := by
  by_cases frames : op.Frames
  · have only : op.Edits := by
      cases op with
      | make | collect | scan | append | register => exact frames.elim
      | _ => trivial
    have member := (accounted.records.mem_iff_of_object isObject).mp listed
    exact (edits only accounted orderly apt ran).2.owns accounted.consistent.tiled member
  · obtain same | broken := ((lasts accounted orderly apt ran frames).2 block listed isObject keeps).header
    · exact Memory.owns_congr same
    · exact Memory.owns_add_broken broken

end Operation

end SlabHeap
