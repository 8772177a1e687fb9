import SlabHeap.Proofs.FirstFit
import SlabHeap.Proofs.Graphs

namespace SlabHeap

/-! What marking and the weak pass may do to objects that are in order, while nothing is known of the words
around them.

`Heap.Altered` says of each word what may have become of it. It is kept by every write of the weak pass
(`Altered.ensures_breakWeakSlots`), whatever it is that the weak slots refer to.
-/

open Block

namespace Heap

variable {heap : Heap} {machine mid final : Machine} {memory after : Memory} {objects : List Block}
  {block : Block} {offset address : Nat} {listed : List (Nat × Nat)} {slab : Slab}

/-- The word belongs to a weak slot of the object, or to one that is cleared with the weak ones. -/
def WeakWord (heap : Heap) (memory : Memory) (block : Block) (address : Nat) : Prop :=
  ∃ shape offset, heap.shapes.get? (memory.tag block.start) = some shape ∧
    (shape.WeakSlot memory block.start offset ∨ shape.DependentSlot memory block.start offset) ∧
    address / 8 = (block.start + offset) / 8

/-- What marking and the weak pass may have done to some objects: headers got other flags, and weak slots
were cleared. -/
structure Altered (heap : Heap) (objects : List Block) (memory after : Memory) : Prop where
  headers : ∀ block ∈ objects, ∃ flags,
    after.header block.start = { memory.header block.start with flags }
  contents : ∀ block ∈ objects, ∀ address, block.start + 8 ≤ address → address < block.stop →
    after.read address = memory.read address ∨
      after.value address = .no ∧ heap.WeakWord memory block address
  outside : ∀ address, (∀ block ∈ objects, ¬ block.Covers address) →
    after.read address = memory.read address

namespace Altered

section Facts

variable (altered : heap.Altered objects memory after) (member : block ∈ objects)

include altered member

theorem tag : after.tag block.start = memory.tag block.start := by
  obtain ⟨flags, header⟩ := altered.headers block member
  rw [Memory.tag, header]
  rfl

theorem lengths {shape : Shape}
    (known : heap.shapes.get? (memory.tag block.start) = some shape)
    (describes : shape.Describes memory block.start block.size) (aligned : block.start % 8 = 0) :
    ∀ length ∈ shape.lengths,
      after.read (block.start + length.offset) = memory.read (block.start + length.offset) := by
  intro length isLength
  obtain ⟨whole, lower, upper⟩ := describes.lengthInside length isLength
  refine (altered.contents block member _ (by omega) (by simp only [Block.stop]; omega)).resolve_right ?_
  rintro ⟨_, other, offset, alsoKnown, weak, same⟩
  obtain rfl := Option.some.inj (alsoKnown.symm.trans known)
  obtain ⟨slotAligned, _, _, apart⟩ := describes.slotInside offset (.inr weak)
  exact apart length isLength (by omega)

end Facts

theorem of_marked {fresh : Nat → Prop} (scattered : Scattered objects)
    (nodes : ∀ object, fresh object → StartsIn objects object) (marked : memory.MarkedOn after fresh) :
    heap.Altered objects memory after where
  headers block member := by
    by_cases isFresh : fresh block.start
    · exact ⟨_, marked.marked _ isFresh⟩
    · exact ⟨_, scattered.header_unmarked nodes marked member isFresh⟩
  contents block member address lower upper :=
    .inl (scattered.contents_marked nodes marked member lower upper)
  outside address outside := by
    refine marked.same address fun object isFresh inside => ?_
    obtain ⟨block, member, rfl⟩ := nodes object isFresh
    have large := (scattered.bounds block member).2.2.1
    exact outside block member ⟨inside.1, by simp only [Block.stop]; omega⟩

section Changes

variable (altered : heap.Altered objects memory after) (scattered : Scattered objects)
  (member : block ∈ objects)

include altered scattered member

theorem drop (slot : offset % 8 = 0 ∧ 8 ≤ offset ∧ offset + 8 ≤ block.size)
    (weak : heap.WeakWord memory block (block.start + offset)) :
    heap.Altered objects memory (after.write (block.start + offset) Value.no.bits) := by
  obtain ⟨_, aligned, _⟩ := scattered.bounds block member
  have inside {address : Nat} (same : address / 8 = (block.start + offset) / 8) : block.Covers address :=
    ⟨by omega, by simp only [Block.stop]; omega⟩
  refine ⟨fun other otherMember => ?_, fun other otherMember address lower upper => ?_,
    fun address outside => ?_⟩
  · obtain ⟨flags, header⟩ := altered.headers other otherMember
    refine ⟨flags, header ▸ congrArg Header.ofWord ?_⟩
    refine Memory.read_write .. |>.trans (if_neg fun same => ?_)
    have starts := scattered.start_covers otherMember
    obtain rfl := scattered.unique other otherMember block member _ starts (inside same)
    omega
  · by_cases same : address / 8 = (block.start + offset) / 8
    · obtain rfl := scattered.unique other otherMember block member address ⟨by omega, upper⟩ (inside same)
      refine .inr ⟨?_, ?_⟩
      · rw [Memory.value, Memory.read_write, if_pos same]
      · obtain ⟨shape, place, known, slot, word⟩ := weak
        exact ⟨shape, place, known, slot, same.trans word⟩
    · simp only [Memory.value, Memory.read_write, if_neg same]
      exact altered.contents other otherMember address lower upper
  · rw [Memory.read_write, if_neg fun same => outside block member (inside same)]
    exact altered.outside address outside

theorem flag (flags : Flags) :
    heap.Altered objects memory (after.setHeader block.start ((after.header block.start).add flags)) := by
  obtain ⟨_, aligned, large, _⟩ := scattered.bounds block member
  have inside {address : Nat} (first : block.start ≤ address ∧ address < block.start + 8) :
      block.Covers address := ⟨first.1, by simp only [Block.stop]; omega⟩
  refine ⟨fun other otherMember => ?_, fun other otherMember address lower upper => ?_,
    fun address outside => ?_⟩
  · obtain ⟨old, header⟩ := altered.headers other otherMember
    by_cases same : other = block
    · subst same
      rw [Memory.header_setHeader, header]
      exact ⟨_, rfl⟩
    · refine ⟨old, header ▸ congrArg Header.ofWord (Memory.read_setHeader (by omega) fun first => same ?_)⟩
      exact scattered.unique other otherMember block member _ (scattered.start_covers otherMember)
        (inside first)
  · have elsewhere : ¬ (block.start ≤ address ∧ address < block.start + 8) := by
      intro first
      obtain rfl := scattered.unique other otherMember block member address ⟨by omega, upper⟩ (inside first)
      omega
    simp only [Memory.value, Memory.read_setHeader (by omega : block.start % 8 = 0) elsewhere]
    exact altered.contents other otherMember address lower upper
  · rw [Memory.read_setHeader (by omega) fun first => outside block member (inside first)]
    exact altered.outside address outside

end Changes

/-- Where no object starts, there is no mark that was not there before. -/
theorem unmarked (altered : heap.Altered objects memory after) (scattered : Scattered objects)
    (aligned : address % 16 = 0) (elsewhere : ¬ StartsIn objects address)
    (marked : (after.header address).isMarked = true) : after.header address = memory.header address := by
  by_cases covered : ∃ block ∈ objects, block.Covers address
  · obtain ⟨block, member, lower, upper⟩ := covered
    have other : block.start ≠ address := fun same => elsewhere ⟨block, member, same⟩
    have whole := (scattered.bounds block member).2.1
    refine congrArg Header.ofWord ((altered.contents block member address (by omega) upper).resolve_right ?_)
    rintro ⟨cleared, _⟩
    have word : after.read address = Value.no.bits := congrArg Value.bits cleared
    rw [Memory.header, word] at marked
    cases marked
  · exact congrArg Header.ofWord (altered.outside address fun block member covers =>
      covered ⟨block, member, covers⟩)

theorem stillListed (altered : heap.Altered objects memory after) (lists : slab.Listed memory listed)
    (beside : ∀ block ∈ objects, ∀ address, slab.start ≤ address → address < slab.objects →
      ¬ block.Covers address)
    (apart : ∀ block ∈ objects, ∀ entry ∈ listed, ∀ address, entry.1 ≤ address →
      address < entry.1 + entry.2 → ¬ block.Covers address) : slab.Listed after listed := by
  refine lists.congr (altered.outside _ fun block member => beside block member _ (by omega) ?_)
    fun entry member => ?_
  · simp only [Slab.objects, blockUnit]
    omega
  · have := lists.bounds member
    exact ⟨altered.outside _ fun block isObject => apart block isObject entry member _ (by omega) (by omega),
      altered.outside _ fun block isObject => apart block isObject entry member _ (by omega) (by omega)⟩

end Altered

/-- From one machine to the other, at most weak slots of one object were cleared. -/
structure Clears (heap : Heap) (objects : List Block) (memory : Memory) (block : Block)
    (machine mid : Machine) : Prop where
  steady : machine.Steady mid
  altered : heap.Altered objects memory mid.memory
  elsewhere : ∀ address, ¬ block.Covers address →
    mid.memory.read address = machine.memory.read address

theorem Clears.quiet (clears : heap.Clears objects memory block machine mid) (quiet : mid.Quiet final) :
    heap.Clears objects memory block machine final where
  steady := clears.steady.trans quiet.toSteady
  altered := quiet.memory ▸ clears.altered
  elsewhere := quiet.memory ▸ clears.elsewhere

section Clearing

variable {cleared count total : Nat} (scattered : Scattered objects) (member : block ∈ objects)
  (slots : ∀ index < total, (offset + wordBytes * index) % 8 = 0 ∧ 8 ≤ offset + wordBytes * index ∧
    offset + wordBytes * index + 8 ≤ block.size ∧
      heap.WeakWord memory block (block.start + (offset + wordBytes * index)))

include scattered member

theorem Clears.drop (clears : heap.Clears objects memory block machine mid)
    (slot : offset % 8 = 0 ∧ 8 ≤ offset ∧ offset + 8 ≤ block.size)
    (weak : heap.WeakWord memory block (block.start + offset)) :
    heap.Clears objects memory block machine
      (mid.withMemory (mid.memory.write (block.start + offset) Value.no.bits)) where
  steady := clears.steady.trans (mid.steady_withMemory _)
  altered := clears.altered.drop scattered member slot weak
  elsewhere address outside := by
    have aligned := (scattered.bounds block member).2.1
    simp only [Block.Covers, Block.stop] at outside
    rw [Machine.memory_withMemory, Memory.read_write, if_neg (by omega)]
    exact clears.elsewhere address (by simpa only [Block.Covers, Block.stop] using outside)

theorem Clears.flag (clears : heap.Clears objects memory block machine mid) (flags : Flags) :
    heap.Clears objects memory block machine (mid.withMemory
      (mid.memory.setHeader block.start ((mid.memory.header block.start).add flags))) where
  steady := clears.steady.trans (mid.steady_withMemory _)
  altered := clears.altered.flag scattered member flags
  elsewhere address outside := by
    obtain ⟨_, aligned, large, _⟩ := scattered.bounds block member
    simp only [Block.Covers, Block.stop] at outside
    rw [Machine.memory_withMemory, Memory.read_setHeader (by omega) (by omega)]
    exact clears.elsewhere address (by simpa only [Block.Covers, Block.stop] using outside)

include slots

/-- Clearing weak slots, whatever it is that they refer to. -/
theorem Clears.ensures_clearWeakSlots {done : Nat} (split : done + count = total)
    (clears : heap.Clears objects memory block machine mid) :
    (heap.clearWeakSlots block.start (offset + wordBytes * done) cleared count).Ensures mid
      fun _ final => heap.Clears objects memory block machine final := by
  induction count generalizing done cleared mid with
  | zero => exact Action.ensures_pure.mpr clears
  | succ count ih =>
      obtain ⟨aligned, lower, upper, weak⟩ := slots done (by omega)
      have further : offset + wordBytes * done + wordBytes = offset + wordBytes * (done + 1) := by
        rw [Nat.mul_succ, Nat.add_assoc]
      rw [clearWeakSlots, Action.ensures_memory, Action.ensures_check (Memory.field_eq_ok aligned), further]
      refine (ensures_losesReferent _).bind ?_
      rintro answer later ⟨_, quiet⟩
      have clears := clears.quiet quiet
      cases answer with
      | true =>
          simp only [if_true, Action.ensures_storeValue, Action.ensures_onHeader]
          exact ih (by omega) ((clears.drop scattered member ⟨aligned, lower, upper⟩ weak).flag scattered
            member _)
      | false => exact ih (by omega) clears

theorem Clears.ensures_clearSlots {done : Nat} (split : done + count = total)
    (clears : heap.Clears objects memory block machine mid) :
    (clearSlots block.start (offset + wordBytes * done) count).Ensures mid fun _ final =>
      heap.Clears objects memory block machine final := by
  induction count generalizing done mid with
  | zero => exact Action.ensures_pure.mpr clears
  | succ count ih =>
      obtain ⟨aligned, lower, upper, weak⟩ := slots done (by omega)
      have further : offset + wordBytes * done + wordBytes = offset + wordBytes * (done + 1) := by
        rw [Nat.mul_succ, Nat.add_assoc]
      rw [clearSlots, Action.ensures_memory, Action.ensures_check (Memory.field_eq_ok aligned),
        Action.ensures_storeValue, further]
      exact ih (by omega) (clears.drop scattered member ⟨aligned, lower, upper⟩ weak)

omit slots in
/-- An object that is in order loses weak slots, if anything. -/
theorem Altered.ensures_breakWeakSlots {shape : Shape} (altered : heap.Altered objects memory mid.memory)
    (known : heap.shapes.get? (memory.tag block.start) = some shape)
    (describes : shape.Describes memory block.start block.size) :
    (heap.breakWeakSlots block.start).Ensures mid fun _ final =>
      heap.Clears objects memory block mid final := by
  have aligned : block.start % 8 = 0 := by
    have := (scattered.bounds block member).2.1
    omega
  have lengths := altered.lengths member known describes aligned
  have start : heap.Clears objects memory block mid mid := ⟨.refl mid, altered, fun _ _ => rfl⟩
  unfold breakWeakSlots
  rw [Action.ensures_memory]
  simp only [altered.tag member, known]
  cases weak : shape.weak with
  | none => exact Action.ensures_pure.mpr start
  | some run =>
      have counted : run.slots mid.memory block.start = .ok (run.slotCount memory block.start) := by
        rw [(describes.congr lengths).weakSlots weak, Shape.weakCount_congr lengths weak]
      -- Both runs lie inside the object, in words that the description allows to change.
      have weakSlots : ∀ index < run.slotCount memory block.start,
          (run.offset + wordBytes * index) % 8 = 0 ∧ 8 ≤ run.offset + wordBytes * index ∧
            run.offset + wordBytes * index + 8 ≤ block.size ∧
              heap.WeakWord memory block (block.start + (run.offset + wordBytes * index)) := by
        intro index inRun
        have slot : shape.WeakSlot memory block.start (run.offset + wordBytes * index) :=
          ⟨run, weak, index, inRun, rfl⟩
        obtain ⟨whole, lower, upper, _⟩ := describes.slotInside _ (.inr (.inl slot))
        exact ⟨whole, lower, upper, shape, _, known, .inl slot, rfl⟩
      have dependentSlots : ∀ index < shape.dependent,
          (run.offset + wordBytes * run.slotCount memory block.start + wordBytes * index) % 8 = 0 ∧
            8 ≤ run.offset + wordBytes * run.slotCount memory block.start + wordBytes * index ∧
            run.offset + wordBytes * run.slotCount memory block.start + wordBytes * index + 8 ≤ block.size ∧
              heap.WeakWord memory block (block.start +
                (run.offset + wordBytes * run.slotCount memory block.start + wordBytes * index)) := by
        intro index inRun
        have slot : shape.DependentSlot memory block.start
            (run.offset + wordBytes * run.slotCount memory block.start + wordBytes * index) :=
          ⟨run, weak, index, inRun, by rw [Nat.mul_add, Nat.add_assoc]⟩
        obtain ⟨whole, lower, upper, _⟩ := describes.slotInside _ (.inr (.inr slot))
        exact ⟨whole, lower, upper, shape, _, known, .inr slot, rfl⟩
      simp only
      rw [Action.ensures_check counted]
      refine (start.ensures_clearWeakSlots scattered member weakSlots (Nat.zero_add _)).bind ?_
      intro answer later clears
      split
      · rw [Action.ensures_check (Size.add_eq_ok (describes.weakSlots_lt weak))]
        exact clears.ensures_clearSlots scattered member dependentSlots (Nat.zero_add _)
      · exact Action.ensures_pure.mpr clears

end Clearing

end Heap

end SlabHeap
