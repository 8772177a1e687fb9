import SlabHeap.Heap.WeakSlots
import SlabHeap.Proofs.Marking

namespace SlabHeap

/-! What becomes of weak slots.

`Block.Weakened` says which slots of a block were set to `#f` and whether the object there was flagged
as broken; nothing else of the block differs. `Heap.Tiled.ensures_breakWeakReferences` says so for all
marked objects of a heap: which slots are dropped depends on the memory before the pass alone.
-/

/-- Some slots of a block were dropped, and its header was flagged as broken if it `breaks`. -/
structure Block.Weakened (memory after : Memory) (block : Block) (breaks : Prop)
    (drops : Nat → Prop) : Prop where
  broken : breaks → after.header block.start = (memory.header block.start).add .broken
  whole : ¬ breaks → after.header block.start = memory.header block.start
  dropped : ∀ offset, drops offset → after.value (block.start + offset) = .no
  kept : ∀ address, block.start + 8 ≤ address → address < block.stop →
    (∀ offset, drops offset →
      ¬ (block.start + offset ≤ address ∧ address < block.start + offset + 8)) →
    after.read address = memory.read address

namespace Block.Weakened

variable {memory mid after : Memory} {block : Block} {breaks : Prop} {drops : Nat → Prop}
  {offset : Nat}

theorem refl (memory : Memory) (block : Block) :
    block.Weakened memory memory False fun _ => False :=
  ⟨False.elim, fun _ => rfl, fun _ => False.elim, fun _ _ _ _ => rfl⟩

theorem congr {alsoBreaks : Prop} {alsoDrops : Nat → Prop}
    (weakened : block.Weakened memory after breaks drops) (sameBreaks : breaks ↔ alsoBreaks)
    (sameDrops : ∀ offset, drops offset ↔ alsoDrops offset) :
    block.Weakened memory after alsoBreaks alsoDrops := by
  obtain rfl := propext sameBreaks
  obtain rfl : drops = alsoDrops := funext fun offset => propext (sameDrops offset)
  exact weakened

theorem drop (weakened : block.Weakened memory mid breaks drops) (aligned : block.start % 16 = 0)
    (slot : offset % 8 = 0 ∧ 8 ≤ offset) :
    block.Weakened memory (mid.write (block.start + offset) Value.no.bits) breaks
      fun place => drops place ∨ place = offset where
  broken breaks := by
    rw [← weakened.broken breaks]
    exact congrArg Header.ofWord (by rw [Memory.read_write, if_neg (by omega)])
  whole breaks := by
    rw [← weakened.whole breaks]
    exact congrArg Header.ofWord (by rw [Memory.read_write, if_neg (by omega)])
  dropped place drops := by
    rw [Memory.value, Memory.read_write]
    split
    · rfl
    · next other =>
      exact weakened.dropped place (drops.resolve_right fun same => other (by rw [same]))
  kept address lower upper outside := by
    have elsewhere := outside offset (.inr rfl)
    rw [Memory.read_write, if_neg (by omega)]
    exact weakened.kept address lower upper fun place drops => outside place (.inl drops)

theorem flag (weakened : block.Weakened memory mid breaks drops) (aligned : block.start % 16 = 0)
    (slots : ∀ offset, drops offset → 8 ≤ offset) :
    block.Weakened memory
      (mid.setHeader block.start ((mid.header block.start).add .broken)) True drops where
  broken _ := by
    rw [Memory.header_setHeader]
    by_cases breaks : breaks
    · rw [weakened.broken breaks, Header.add_broken_add_broken]
    · rw [weakened.whole breaks]
  whole never := absurd trivial never
  dropped offset drops := by
    have := slots offset drops
    rw [Memory.value, Memory.read_setHeader (by omega) (by omega)]
    exact weakened.dropped offset drops
  kept address lower upper outside := by
    rw [Memory.read_setHeader (by omega) (by omega)]
    exact weakened.kept address lower upper outside

theorem isMarked (weakened : block.Weakened memory after breaks drops) :
    (after.header block.start).isMarked = (memory.header block.start).isMarked := by
  by_cases breaks : breaks
  · rw [weakened.broken breaks, Header.isMarked_add_broken]
  · rw [weakened.whole breaks]

theorem isValid (weakened : block.Weakened memory after breaks drops) :
    (after.header block.start).isValid = (memory.header block.start).isValid := by
  by_cases breaks : breaks
  · rw [weakened.broken breaks]
    rfl
  · rw [weakened.whole breaks]

theorem tag (weakened : block.Weakened memory after breaks drops) :
    after.tag block.start = memory.tag block.start := by
  by_cases breaks : breaks
  · rw [Memory.tag, weakened.broken breaks]
    rfl
  · rw [Memory.tag, weakened.whole breaks]
    rfl

theorem keep (weakened : block.Weakened memory mid breaks drops) (kept : block.Kept mid after)
    (large : 16 ≤ block.size)
    (slots : ∀ offset, drops offset → 8 ≤ offset ∧ offset + 8 ≤ block.size) :
    block.Weakened memory after breaks drops where
  broken breaks := by
    rw [← weakened.broken breaks, Memory.header, Memory.header,
      kept block.start ⟨Nat.le_refl _, by simp only [Block.stop]; omega⟩]
  whole breaks := by
    rw [← weakened.whole breaks, Memory.header, Memory.header,
      kept block.start ⟨Nat.le_refl _, by simp only [Block.stop]; omega⟩]
  dropped offset drops := by
    have inside := slots offset drops
    rw [← weakened.dropped offset drops, Memory.value, Memory.value,
      kept _ ⟨by omega, by simp only [Block.stop]; omega⟩]
  kept address lower upper outside := by
    rw [kept address ⟨by omega, upper⟩]
    exact weakened.kept address lower upper outside

theorem unchanged (weakened : block.Weakened memory after breaks drops) (whole : ¬ breaks)
    (nothing : ∀ offset, ¬ drops offset) (aligned : block.start % 16 = 0) :
    block.Kept memory after :=
  .of_header aligned (weakened.whole whole) fun address lower upper =>
    weakened.kept address lower upper fun offset drops => absurd drops (nothing offset)

theorem of_kept (kept : block.Kept memory mid) (weakened : block.Weakened mid after breaks drops)
    (covers : block.Covers block.start) : block.Weakened memory after breaks drops where
  broken breaks := by rw [weakened.broken breaks, Memory.header, Memory.header, kept _ covers]
  whole breaks := by rw [weakened.whole breaks, Memory.header, Memory.header, kept _ covers]
  dropped := weakened.dropped
  kept address lower upper outside := by
    rw [weakened.kept address lower upper outside, kept address ⟨by omega, upper⟩]

/-- A slot that is not dropped keeps its value. -/
theorem value_eq {shape : Shape} (weakened : block.Weakened memory after breaks drops)
    (describes : shape.Describes memory block.start block.size)
    (slots : ∀ offset, drops offset → shape.Slot memory block.start offset)
    (slot : shape.Slot memory block.start offset) (stays : ¬ drops offset) :
    after.value (block.start + offset) = memory.value (block.start + offset) := by
  have place := describes.slotInside offset slot
  refine congrArg Value.mk (weakened.kept _ (by omega) (by simp only [Block.stop]; omega)
    fun other dropped inside => ?_)
  have otherPlace := describes.slotInside other (slots other dropped)
  obtain rfl : other = offset := by omega
  exact stays dropped

/-- Length words are no slots, so the block fits as it did. -/
theorem alike {shapes : ShapeTable} (weakened : block.Weakened memory after breaks drops)
    (fits : block.Fits shapes memory)
    (slots : ∀ shape, shapes.get? (memory.tag block.start) = some shape → ∀ offset, drops offset →
      shape.Slot memory block.start offset) : block.Alike shapes memory after where
  tag := weakened.tag
  lengths isObject shape known length listed := by
    simp only [Block.Fits, isObject] at fits
    obtain ⟨found, foundKnown, describes⟩ := fits
    obtain rfl := Option.some.inj (foundKnown.symm.trans known)
    obtain ⟨aligned, lower, upper⟩ := describes.lengthInside length listed
    refine weakened.kept _ (by omega) (by simp only [Block.stop]; omega) fun offset drops inside => ?_
    obtain ⟨slotAligned, _, _, apart⟩ := describes.slotInside offset (slots found known offset drops)
    exact apart length listed (by omega)

end Block.Weakened

/-- A weak slot is dropped with its referent, the dependent slots if all weak slots are. -/
def Shape.Drops (shape : Shape) (memory : Memory) (lost : Value → Prop) (object offset : Nat) :
    Prop :=
  (shape.WeakSlot memory object offset ∧ lost (memory.value (object + offset))) ∨
    shape.DependentSlot memory object offset ∧
      ∀ other, shape.WeakSlot memory object other → lost (memory.value (object + other))

/-- Some weak slot of the object is dropped. -/
def Shape.Breaks (shape : Shape) (memory : Memory) (lost : Value → Prop) (object : Nat) : Prop :=
  ∃ offset, shape.WeakSlot memory object offset ∧ lost (memory.value (object + offset))

namespace Shape

variable {shape : Shape} {memory after : Memory} {lost alsoLost : Value → Prop} {object other : Nat}
  (kept : ∀ length ∈ shape.lengths,
    after.read (other + length.offset) = memory.read (object + length.offset))
  (same : ∀ offset, shape.WeakSlot memory object offset →
    (alsoLost (after.value (other + offset)) ↔ lost (memory.value (object + offset))))

include kept same

theorem breaks_congr : shape.Breaks after alsoLost other ↔ shape.Breaks memory lost object := by
  refine exists_congr fun offset => ?_
  rw [weakSlot_congr kept]
  exact and_congr_right (same offset)

theorem drops_congr (offset : Nat) :
    shape.Drops after alsoLost other offset ↔ shape.Drops memory lost object offset := by
  simp only [Drops, weakSlot_congr kept, dependentSlot_congr kept]
  refine or_congr (and_congr_right (same offset)) (and_congr_right fun _ => ?_)
  exact forall_congr' fun place => imp_congr_right (same place)

end Shape

theorem Shape.Drops.slot {shape : Shape} {memory : Memory} {lost : Value → Prop}
    {object offset : Nat} (drops : shape.Drops memory lost object offset) :
    shape.Slot memory object offset :=
  drops.elim (fun both => .inr (.inl both.1)) fun both => .inr (.inr both.1)

namespace Heap

open Block

variable {heap : Heap} {machine mid final : Machine} {memory after : Memory}
  {tiling : Slab → List Block} {block : Block} {offset object : Nat} {value : Value}

/-- The value refers to an object of the heap that has no mark. -/
def Loses (heap : Heap) (memory : Memory) (value : Value) : Prop :=
  ∃ referent, heap.target? memory value = some referent ∧ heap.contains referent = true ∧
    (memory.header referent).isMarked = false

/-- The value refers to storage in use, if it is a reference. -/
def Denotes (tiling : Slab → List Block) (heap : Heap) (value : Value) : Prop :=
  ∀ address, value.address? = some address → heap.Node tiling address

/-- The value refers to storage in use, if it refers into the heap at all. -/
def DenotesWithin (tiling : Slab → List Block) (heap : Heap) (value : Value) : Prop :=
  ∀ address, value.address? = some address → heap.contains address = true →
    heap.Node tiling address

theorem Denotes.within (denotes : heap.Denotes tiling value) : heap.DenotesWithin tiling value :=
  fun address found _ => denotes address found

/-- Headers have the same marks, and are as valid as before. -/
def SameMarks (heap : Heap) (tiling : Slab → List Block) (memory after : Memory) : Prop :=
  ∀ object, heap.Node tiling object →
    (after.header object).isMarked = (memory.header object).isMarked ∧
      (after.header object).isValid = (memory.header object).isValid

theorem Loses.congr (same : heap.SameMarks tiling memory after)
    (denotes : heap.DenotesWithin tiling value) :
    heap.Loses after value ↔ heap.Loses memory value := by
  have transfer {first second : Memory} (alike : ∀ object, heap.Node tiling object →
      (second.header object).isMarked = (first.header object).isMarked ∧
        (second.header object).isValid = (first.header object).isValid)
      (loses : heap.Loses first value) : heap.Loses second value := by
    obtain ⟨referent, target, inHeap, unmarked⟩ := loses
    have found := address?_of_target? target
    obtain ⟨marks, valid⟩ := alike referent (denotes referent found inHeap)
    refine ⟨referent, ?_, inHeap, marks.trans unmarked⟩
    rw [← target]
    simp only [target?, found, Option.filter_some, valid]
  refine ⟨transfer fun object node => ?_, transfer same⟩
  exact ⟨(same object node).1.symm, (same object node).2.symm⟩

theorem ensures_losesReferent (value : Value) :
    (heap.losesReferent value).Ensures machine fun answer after =>
      (answer = true ↔ heap.Loses machine.memory value) ∧ machine.Quiet after := by
  unfold losesReferent
  cases found : value.address? with
  | none =>
      refine Action.ensures_pure.mpr ⟨?_, .refl machine⟩
      simp [Loses, target?, found]
  | some address =>
      simp only
      split
      · next inHeap =>
        refine (ensures_resolve value).bind ?_
        rintro _ after ⟨rfl, quiet⟩
        cases target : heap.target? machine.memory value with
        | none =>
            refine Action.ensures_pure.mpr ⟨?_, quiet⟩
            simp [Loses, target]
        | some referent =>
            obtain rfl := Option.some.inj (found.symm.trans (address?_of_target? target))
            rw [Action.ensures_memory]
            refine Action.ensures_pure.mpr ⟨?_, quiet⟩
            simp [Loses, target, inHeap, quiet.memory]
      · next foreign =>
        refine Action.ensures_pure.mpr ⟨?_, .refl machine⟩
        simp only [Bool.false_eq_true, false_iff]
        rintro ⟨referent, target, inHeap, _⟩
        obtain rfl := Option.some.inj (found.symm.trans (address?_of_target? target))
        exact foreign inHeap

/-- Slots of one block were dropped, nothing else changed. -/
structure Weakening (machine mid : Machine) (block : Block) (breaks : Prop) (drops : Nat → Prop) :
    Prop where
  steady : machine.Steady mid
  weakened : block.Weakened machine.memory mid.memory breaks drops
  elsewhere : ∀ address, ¬ block.Covers address →
    mid.memory.read address = machine.memory.read address

namespace Weakening

variable {breaks : Prop} {drops : Nat → Prop}

theorem none (whole : ¬ breaks) (nothing : ∀ offset, ¬ drops offset) :
    Weakening machine machine block breaks drops where
  steady := .refl machine
  weakened := (Block.Weakened.refl _ block).congr (iff_of_false id whole)
    fun offset => iff_of_false id (nothing offset)
  elsewhere _ _ := rfl

theorem quiet {later : Machine} (weakening : Weakening machine mid block breaks drops)
    (quiet : mid.Quiet later) : Weakening machine later block breaks drops where
  steady := weakening.steady.trans quiet.toSteady
  weakened := quiet.memory ▸ weakening.weakened
  elsewhere := quiet.memory ▸ weakening.elsewhere

theorem congr {alsoBreaks : Prop} {alsoDrops : Nat → Prop}
    (weakening : Weakening machine mid block breaks drops) (sameBreaks : breaks ↔ alsoBreaks)
    (sameDrops : ∀ offset, drops offset ↔ alsoDrops offset) :
    Weakening machine mid block alsoBreaks alsoDrops :=
  ⟨weakening.steady, weakening.weakened.congr sameBreaks sameDrops, weakening.elsewhere⟩

theorem drop (weakening : Weakening machine mid block breaks drops) (aligned : block.start % 16 = 0)
    (slot : offset % 8 = 0 ∧ 8 ≤ offset ∧ offset + 8 ≤ block.size) :
    Weakening machine (mid.withMemory (mid.memory.write (block.start + offset) Value.no.bits)) block
      breaks fun place => drops place ∨ place = offset where
  steady := weakening.steady.trans (mid.steady_withMemory _)
  weakened := weakening.weakened.drop aligned ⟨slot.1, slot.2.1⟩
  elsewhere address outside := by
    simp only [Block.Covers, Block.stop] at outside
    rw [Machine.memory_withMemory, Memory.read_write, if_neg (by omega)]
    exact weakening.elsewhere address (by simpa only [Block.Covers, Block.stop] using outside)

theorem flag (weakening : Weakening machine mid block breaks drops) (aligned : block.start % 16 = 0)
    (large : 16 ≤ block.size) (slots : ∀ offset, drops offset → 8 ≤ offset) :
    Weakening machine (mid.withMemory
      (mid.memory.setHeader block.start ((mid.memory.header block.start).add .broken))) block True
      drops where
  steady := weakening.steady.trans (mid.steady_withMemory _)
  weakened := weakening.weakened.flag aligned slots
  elsewhere address outside := by
    simp only [Block.Covers, Block.stop] at outside
    rw [Machine.memory_withMemory, Memory.read_setHeader (by omega) (by omega)]
    exact weakening.elsewhere address (by simpa only [Block.Covers, Block.stop] using outside)

theorem sameMarks (weakening : Weakening machine mid block breaks drops)
    (tiled : heap.Tiled memory tiling) (member : block ∈ heap.blocks tiling) :
    heap.SameMarks tiling machine.memory mid.memory := by
  rintro _ ⟨other, otherMember, _, rfl⟩
  by_cases same : other = block
  · exact same ▸ ⟨weakening.weakened.isMarked, weakening.weakened.isValid⟩
  · have header : mid.memory.header other.start = machine.memory.header other.start :=
      congrArg Header.ofWord (weakening.elsewhere _ fun covers =>
        same (tiled.eq_of_covers otherMember member (tiled.start_covers otherMember) covers))
    rw [header]
    exact ⟨rfl, rfl⟩

end Weakening

section Slots

/-- The slot number `index` of a run loses its referent. -/
def LosesAt (heap : Heap) (memory : Memory) (object offset index : Nat) : Prop :=
  heap.Loses memory (memory.value (object + (offset + wordBytes * index)))

/-- The weak slots of a run before number `done` were gone through, and `cleared` of them were dropped. -/
structure ClearedTo (heap : Heap) (machine mid : Machine) (block : Block) (offset done cleared : Nat) : Prop where
  fewer : cleared ≤ done
  counted : cleared = done ↔ ∀ index < done, heap.LosesAt machine.memory block.start offset index
  weakening : Weakening machine mid block
    (∃ index < done, heap.LosesAt machine.memory block.start offset index)
    fun place => ∃ index < done, place = offset + wordBytes * index ∧
      heap.LosesAt machine.memory block.start offset index

namespace ClearedTo

variable {done cleared : Nat}

theorem start : heap.ClearedTo machine machine block offset 0 0 :=
  ⟨Nat.le_refl 0, by simp, .none (by simp) (by simp)⟩

variable (clearedTo : heap.ClearedTo machine mid block offset done cleared)

include clearedTo

/-- The next slot has yet to be visited. -/
theorem read_next
    (slot : (offset + wordBytes * done) % 8 = 0 ∧ 8 ≤ offset + wordBytes * done ∧
      offset + wordBytes * done + 8 ≤ block.size) :
    mid.memory.read (block.start + (offset + wordBytes * done)) =
      machine.memory.read (block.start + (offset + wordBytes * done)) := by
  refine clearedTo.weakening.weakened.kept _ (by omega) (by simp only [Block.stop]; omega) ?_
  rintro _ ⟨index, before, rfl, _⟩ inside
  simp only [wordBytes] at inside
  omega

theorem quiet {later : Machine} (quiet : mid.Quiet later) :
    heap.ClearedTo machine later block offset done cleared :=
  { clearedTo with weakening := clearedTo.weakening.quiet quiet }

/-- A slot that loses its referent is dropped, and the object is flagged. -/
theorem lose (lost : heap.LosesAt machine.memory block.start offset done) (aligned : block.start % 16 = 0)
    (large : 16 ≤ block.size)
    (slots : ∀ index < done + 1, (offset + wordBytes * index) % 8 = 0 ∧
      8 ≤ offset + wordBytes * index ∧ offset + wordBytes * index + 8 ≤ block.size) :
    heap.ClearedTo machine
      ((mid.withMemory (mid.memory.write (block.start + (offset + wordBytes * done)) Value.no.bits)).withMemory
        ((mid.memory.write (block.start + (offset + wordBytes * done)) Value.no.bits).setHeader block.start
          (((mid.memory.write (block.start + (offset + wordBytes * done)) Value.no.bits).header
            block.start).add .broken))) block offset (done + 1) (cleared + 1) := by
  obtain ⟨fewer, counted, weakening⟩ := clearedTo
  have slot := slots done (Nat.lt_succ_self done)
  refine ⟨by omega, ?_, ((weakening.drop aligned slot).flag aligned large ?_).congr ?_ ?_⟩
  · rw [Nat.forall_lt_succ_right, and_iff_left lost, ← counted]
    omega
  · rintro place (⟨index, before, rfl, _⟩ | rfl)
    · exact (slots index (Nat.lt_succ_of_lt before)).2.1
    · exact slot.2.1
  · exact ⟨fun _ => ⟨done, Nat.lt_succ_self done, lost⟩, fun _ => trivial⟩
  · intro place
    rw [Nat.exists_lt_succ_right, and_iff_left lost]

/-- A slot that keeps its referent stays. -/
theorem spare (safe : ¬ heap.LosesAt machine.memory block.start offset done) :
    heap.ClearedTo machine mid block offset (done + 1) cleared := by
  obtain ⟨fewer, counted, weakening⟩ := clearedTo
  refine ⟨by omega, ?_, weakening.congr ?_ ?_⟩
  · exact ⟨fun same => by omega, fun all => absurd (all done (Nat.lt_succ_self done)) safe⟩
  · rw [Nat.exists_lt_succ_right, or_iff_left safe]
  · intro place
    rw [Nat.exists_lt_succ_right]
    exact (or_iff_left fun both => safe both.2).symm

end ClearedTo

variable (tiled : heap.Tiled memory tiling) (member : block ∈ heap.blocks tiling) {total : Nat}
  (slots : ∀ index < total, (offset + wordBytes * index) % 8 = 0 ∧
    8 ≤ offset + wordBytes * index ∧ offset + wordBytes * index + 8 ≤ block.size)

include tiled member slots

/-- Clearing goes through the weak slots of a run; those before number `done` are behind it. -/
theorem ensures_clearWeakSlots {done count cleared : Nat}
    (denotes : ∀ index < total,
      heap.DenotesWithin tiling (machine.memory.value (block.start + (offset + wordBytes * index))))
    (split : done + count = total) (clearedTo : heap.ClearedTo machine mid block offset done cleared) :
    (heap.clearWeakSlots block.start (offset + wordBytes * done) cleared count).Ensures mid
      fun answer final => heap.ClearedTo machine final block offset total answer := by
  induction count generalizing done cleared mid with
  | zero =>
      obtain rfl : done = total := split
      exact Action.ensures_pure.mpr clearedTo
  | succ count ih =>
      have inRun : done < total := by omega
      have slot := slots done inRun
      obtain ⟨_, blockAligned, large, _⟩ := tiled.bounds member
      have further : offset + wordBytes * done + wordBytes = offset + wordBytes * (done + 1) := by
        rw [Nat.mul_succ, Nat.add_assoc]
      have value : (⟨machine.memory.read (block.start + (offset + wordBytes * done))⟩ : Value) =
          machine.memory.value (block.start + (offset + wordBytes * done)) := rfl
      rw [clearWeakSlots, Action.ensures_memory, Action.ensures_check (Memory.field_eq_ok slot.1),
        clearedTo.read_next slot, value]
      refine (ensures_losesReferent _).bind ?_
      rintro answer later ⟨answered, quiet⟩
      rw [Loses.congr (clearedTo.weakening.sameMarks tiled member) (denotes done inRun)] at answered
      have clearedTo := clearedTo.quiet quiet
      cases answer with
      | true =>
          simp only [if_true, Action.ensures_storeValue, Action.ensures_onHeader]
          rw [further]
          exact ih (by omega) (clearedTo.lose (answered.mp rfl) blockAligned large fun index before =>
            slots index (by omega))
      | false =>
          simp only [Bool.false_eq_true, if_false]
          rw [further]
          exact ih (by omega) (clearedTo.spare fun lost => Bool.false_ne_true (answered.mpr lost))

omit slots in
/-- Clearing goes through the slots of a run; those before number `done` are behind it. -/
theorem ensures_clearSlots {done count : Nat} {breaks : Prop} {drops : Nat → Prop}
    (slots : ∀ index < total, (offset + wordBytes * index) % 8 = 0 ∧
      8 ≤ offset + wordBytes * index ∧ offset + wordBytes * index + 8 ≤ block.size)
    (split : done + count = total)
    (weakening : Weakening machine mid block breaks
      fun place => drops place ∨ ∃ index < done, place = offset + wordBytes * index) :
    (clearSlots block.start (offset + wordBytes * done) count).Ensures mid fun _ final =>
      Weakening machine final block breaks
        fun place => drops place ∨ ∃ index < total, place = offset + wordBytes * index := by
  induction count generalizing done mid with
  | zero =>
      obtain rfl : done = total := split
      exact Action.ensures_pure.mpr weakening
  | succ count ih =>
      have slot := slots done (by omega)
      have further : offset + wordBytes * done + wordBytes = offset + wordBytes * (done + 1) := by
        rw [Nat.mul_succ, Nat.add_assoc]
      rw [clearSlots, Action.ensures_memory, Action.ensures_check (Memory.field_eq_ok slot.1),
        Action.ensures_storeValue, further]
      refine ih (by omega) ((weakening.drop (tiled.bounds member).2.1 slot).congr .rfl ?_)
      intro place
      simp only [Nat.lt_succ_iff_lt_or_eq, or_and_right, exists_or, exists_eq_left, or_assoc]

end Slots

section Runs

variable {shape : Shape} {run : SlotRun} (weak : shape.weak = some run)

include weak

theorem weakSlot_iff {object place : Nat} : shape.WeakSlot memory object place ↔
    ∃ index < run.slotCount memory object, place = run.offset + wordBytes * index := by
  simp [Shape.WeakSlot, weak]

theorem dependentSlot_iff {object place : Nat} : shape.DependentSlot memory object place ↔
    ∃ index < shape.dependent,
      place = run.offset + wordBytes * run.slotCount memory object + wordBytes * index := by
  simp [Shape.DependentSlot, weak, Nat.mul_add, Nat.add_assoc]

theorem losesAny_iff {object : Nat} :
    (∃ index < run.slotCount memory object, heap.LosesAt memory object run.offset index) ↔
      shape.Breaks memory (heap.Loses memory) object := by
  simp only [Shape.Breaks, weakSlot_iff weak, LosesAt]
  constructor
  · rintro ⟨index, inRun, lost⟩
    exact ⟨_, ⟨index, inRun, rfl⟩, lost⟩
  · rintro ⟨_, ⟨index, inRun, rfl⟩, lost⟩
    exact ⟨index, inRun, lost⟩

theorem losesAll_iff {object : Nat} :
    (∀ index < run.slotCount memory object, heap.LosesAt memory object run.offset index) ↔
      ∀ offset, shape.WeakSlot memory object offset → heap.Loses memory (memory.value (object + offset)) := by
  simp only [weakSlot_iff weak, LosesAt]
  constructor
  · rintro every _ ⟨index, inRun, rfl⟩
    exact every index inRun
  · exact fun every index inRun => every _ ⟨index, inRun, rfl⟩

theorem losesPlace_iff {object : Nat} (place : Nat) :
    (∃ index < run.slotCount memory object, place = run.offset + wordBytes * index ∧
        heap.LosesAt memory object run.offset index) ↔
      shape.WeakSlot memory object place ∧ heap.Loses memory (memory.value (object + place)) := by
  simp only [weakSlot_iff weak, LosesAt]
  constructor
  · rintro ⟨index, inRun, rfl, lost⟩
    exact ⟨⟨index, inRun, rfl⟩, lost⟩
  · rintro ⟨⟨index, inRun, rfl⟩, lost⟩
    exact ⟨index, inRun, rfl, lost⟩

end Runs

/-- An object loses its weak slots whose referents have no mark, and all of its dependent slots
together with the last weak one. -/
theorem ensures_breakWeakSlots {shape : Shape} (tiled : heap.Tiled machine.memory tiling)
    (member : block ∈ heap.blocks tiling) (isObject : block.kind = .object)
    (known : heap.shapes.get? (machine.memory.tag block.start) = some shape)
    (denotes : ∀ offset, shape.WeakSlot machine.memory block.start offset →
      heap.DenotesWithin tiling (machine.memory.value (block.start + offset))) :
    (heap.breakWeakSlots block.start).Ensures machine fun _ final =>
      Weakening machine final block
        (shape.Breaks machine.memory (heap.Loses machine.memory) block.start)
        (shape.Drops machine.memory (heap.Loses machine.memory) block.start) := by
  have describes := (tiled.describes member (by simp [isObject]) known).2
  unfold breakWeakSlots
  rw [Action.ensures_memory]
  simp only [known]
  cases weak : shape.weak with
  | none =>
      refine Action.ensures_pure.mpr (.none ?_ fun offset => ?_)
      · rintro ⟨offset, ⟨run, isWeak, _⟩, _⟩
        simp [weak] at isWeak
      · rintro (⟨⟨run, isWeak, _⟩, _⟩ | ⟨⟨run, isWeak, _⟩, _⟩) <;> simp [weak] at isWeak
  | some run =>
      have slots : ∀ index < run.slotCount machine.memory block.start,
          (run.offset + wordBytes * index) % 8 = 0 ∧ 8 ≤ run.offset + wordBytes * index ∧
            run.offset + wordBytes * index + 8 ≤ block.size := by
        intro index inRun
        have inside := describes.slotInside _ (.inr (.inl ((weakSlot_iff weak).mpr ⟨index, inRun, rfl⟩)))
        exact ⟨inside.1, inside.2.1, inside.2.2.1⟩
      have dependentSlots : ∀ index < shape.dependent,
          (run.offset + wordBytes * run.slotCount machine.memory block.start + wordBytes * index) % 8 = 0 ∧
            8 ≤ run.offset + wordBytes * run.slotCount machine.memory block.start + wordBytes * index ∧
              run.offset + wordBytes * run.slotCount machine.memory block.start + wordBytes * index + 8 ≤
                block.size := by
        intro index inRun
        have inside := describes.slotInside _ (.inr (.inr ((dependentSlot_iff weak).mpr ⟨index, inRun, rfl⟩)))
        exact ⟨inside.1, inside.2.1, inside.2.2.1⟩
      simp only
      rw [Action.ensures_check (describes.weakSlots weak)]
      -- First the weak slots; what depends on them is cleared if all of them are lost.
      refine (ensures_clearWeakSlots tiled member slots
        (fun index inRun => denotes _ ((weakSlot_iff weak).mpr ⟨index, inRun, rfl⟩)) (Nat.zero_add _)
        .start).bind ?_
      rintro answer mid ⟨_, counted, weakening⟩
      rw [losesAll_iff weak] at counted
      have weakening := weakening.congr (losesAny_iff weak) (losesPlace_iff weak)
      split
      · next every =>
        have every := counted.mp every
        rw [Action.ensures_check (Size.add_eq_ok (describes.weakSlots_lt weak))]
        refine (ensures_clearSlots tiled member dependentSlots (Nat.zero_add _)
          (weakening.congr .rfl fun place => (or_iff_left (by simp)).symm)).weaken ?_
        refine fun _ final weakening => weakening.congr .rfl fun place => ?_
        rw [Shape.Drops, dependentSlot_iff weak, and_iff_left every]
      · next some =>
        refine Action.ensures_pure.mpr (weakening.congr .rfl fun place => ?_)
        rw [Shape.Drops]
        exact (or_iff_left fun both => some (counted.mpr both.2)).symm

/-- The weak pass flags the object in a block. -/
def BreaksIn (heap : Heap) (memory : Memory) (block : Block) : Prop :=
  block.kind = .object ∧ (memory.header block.start).isMarked = true ∧
    ∃ shape, heap.shapes.get? (memory.tag block.start) = some shape ∧
      shape.Breaks memory (heap.Loses memory) block.start

/-- The weak pass drops a slot of the object in a block. -/
def DropsIn (heap : Heap) (memory : Memory) (block : Block) (offset : Nat) : Prop :=
  block.kind = .object ∧ (memory.header block.start).isMarked = true ∧
    ∃ shape, heap.shapes.get? (memory.tag block.start) = some shape ∧
      shape.Drops memory (heap.Loses memory) block.start offset

/-- The weak pass is through with all blocks but the `rest`. -/
structure WeakPass (heap : Heap) (tiling : Slab → List Block) (machine mid : Machine)
    (rest : List Block) : Prop where
  steady : machine.Steady mid
  weakened : ∀ block ∈ heap.blocks tiling, block.kind ≠ .free →
    block.Weakened machine.memory mid.memory (block ∉ rest ∧ heap.BreaksIn machine.memory block)
      fun offset => block ∉ rest ∧ heap.DropsIn machine.memory block offset
  outside : ∀ address, (∀ block ∈ heap.blocks tiling, block.kind ≠ .free → ¬ block.Covers address) →
    mid.memory.read address = machine.memory.read address

theorem WeakPass.start (machine : Machine) :
    heap.WeakPass tiling machine machine (heap.blocks tiling) where
  steady := .refl machine
  weakened block member _ := (Block.Weakened.refl _ block).congr
    (iff_of_false id fun both => both.1 member) fun _ => iff_of_false id fun both => both.1 member
  outside _ _ := rfl

theorem Tiled.dropsIn_slot (tiled : heap.Tiled memory tiling) (member : block ∈ heap.blocks tiling)
    (drops : heap.DropsIn memory block offset) :
    8 ≤ offset ∧ offset + 8 ≤ block.size := by
  obtain ⟨isObject, _, shape, known, drops⟩ := drops
  have describes := (tiled.describes member (by simp [isObject]) known).2
  obtain ⟨_, lower, upper, _⟩ := describes.slotInside offset drops.slot
  exact ⟨lower, upper⟩

theorem Tiled.nodup_blocks (tiled : heap.Tiled memory tiling) : (heap.blocks tiling).Nodup := by
  have within : ∀ slabs : List Slab, (∀ slab ∈ slabs, slab ∈ heap.slabs) →
      slabs.Pairwise Slab.Apart → (slabs.flatMap tiling).Nodup := by
    intro slabs inHeap apart
    refine List.nodup_flatMap.mpr ⟨fun slab member => ?_, apart.imp_of_mem ?_⟩
    · have layout := tiled.layout slab (inHeap slab member)
      refine layout.tiles.ordered.imp_of_mem fun {block other} inSlab _ ordered same => ?_
      have large := (layout.bounds inSlab).2.2.1
      simp only [← same, Block.stop] at ordered
      omega
    · rintro slab other member otherMember apart block inSlab inOther
      have covers := (tiled.layout slab (inHeap slab member)).tiles.start_covers inSlab
      have here := tiled.slab_covers (inHeap slab member) inSlab covers
      have there := tiled.slab_covers (inHeap other otherMember) inOther covers
      simp only [Slab.Apart] at apart
      omega
  exact within heap.slabs (fun _ member => member) tiled.apart

section Pass

variable {rest : List Block}

theorem WeakPass.sameMarks (pass : heap.WeakPass tiling machine mid rest) :
    heap.SameMarks tiling machine.memory mid.memory := by
  rintro _ ⟨block, member, inUse, rfl⟩
  have weakened := pass.weakened block member inUse
  exact ⟨weakened.isMarked, weakened.isValid⟩

theorem WeakPass.skip (pass : heap.WeakPass tiling machine mid (block :: rest))
    (whole : ¬ heap.BreaksIn machine.memory block)
    (nothing : ∀ offset, ¬ heap.DropsIn machine.memory block offset) :
    heap.WeakPass tiling machine mid rest where
  steady := pass.steady
  weakened other member inUse := by
    have same (holds : Prop) (never : other = block → ¬ holds) :
        other ∉ block :: rest ∧ holds ↔ other ∉ rest ∧ holds := by
      rw [List.mem_cons, not_or, and_assoc, and_iff_right_iff_imp]
      exact fun both equal => never equal both.2
    refine (pass.weakened other member inUse).congr (same _ ?_) fun offset => same _ ?_
    · rintro rfl
      exact whole
    · rintro rfl
      exact nothing offset
  outside := pass.outside

variable (tiled : heap.Tiled machine.memory tiling)

include tiled

theorem WeakPass.stillTiled (pass : heap.WeakPass tiling machine mid rest) :
    heap.Tiled mid.memory tiling := by
  refine tiled.congr_used pass.outside fun block member inUse => ?_
  obtain ⟨slab, inHeap, inSlab⟩ := mem_blocks.mp member
  refine (pass.weakened block member inUse).alike ((tiled.layout slab inHeap).fits block inSlab) ?_
  rintro shape known offset ⟨_, _, _, found, foundKnown, drops⟩
  obtain rfl := Option.some.inj (foundKnown.symm.trans known)
  exact drops.slot

/-- A block that is still ahead is as it was. -/
theorem WeakPass.waiting (pass : heap.WeakPass tiling machine mid rest)
    (member : block ∈ heap.blocks tiling) (inUse : block.kind ≠ .free) (ahead : block ∈ rest) :
    block.Kept machine.memory mid.memory :=
  (pass.weakened block member inUse).unchanged (fun both => both.1 ahead)
    (fun _ both => both.1 ahead) (tiled.bounds member).2.1

/-- The slots of a block are dropped. -/
theorem WeakPass.advance (pass : heap.WeakPass tiling machine mid (block :: rest))
    (member : block ∈ heap.blocks tiling) (inUse : block.kind ≠ .free) (once : block ∉ rest)
    (weakening : Weakening mid final block (heap.BreaksIn machine.memory block)
      (heap.DropsIn machine.memory block)) : heap.WeakPass tiling machine final rest where
  steady := pass.steady.trans weakening.steady
  weakened other otherMember otherUsed := by
    by_cases same : other = block
    · subst same
      have kept := pass.waiting tiled member inUse List.mem_cons_self
      exact (weakening.weakened.of_kept kept (tiled.start_covers member)).congr
        (and_iff_right once).symm fun offset => (and_iff_right once).symm
    · have passed (holds : Prop) : other ∉ block :: rest ∧ holds ↔ other ∉ rest ∧ holds := by
        simp only [List.mem_cons, same, false_or]
      have kept : other.Kept mid.memory final.memory := fun address covers =>
        weakening.elsewhere address fun inside =>
          same (tiled.eq_of_covers otherMember member covers inside)
      refine ((pass.weakened other otherMember otherUsed).keep kept
        (tiled.bounds otherMember).2.2.1 fun offset drops => ?_).congr (passed _) fun _ => passed _
      exact tiled.dropsIn_slot otherMember drops.2
  outside address outside := by
    rw [weakening.elsewhere address (outside block member inUse)]
    exact pass.outside address outside

omit tiled in
/-- Nothing that the weak pass logs makes a difference. -/
theorem WeakPass.quiet {later : Machine} (pass : heap.WeakPass tiling machine mid rest) (quiet : mid.Quiet later) :
    heap.WeakPass tiling machine later rest :=
  ⟨pass.steady.trans quiet.toSteady, quiet.memory ▸ pass.weakened, quiet.memory ▸ pass.outside⟩

omit tiled in
/-- Only marked objects lose slots. -/
theorem WeakPass.passOver (pass : heap.WeakPass tiling machine mid (block :: rest))
    (spared : block.kind = .object → (machine.memory.header block.start).isMarked = false) :
    heap.WeakPass tiling machine mid rest :=
  pass.skip (fun breaks => Bool.false_ne_true ((spared breaks.1).symm.trans breaks.2.1))
    fun _ drops => Bool.false_ne_true ((spared drops.1).symm.trans drops.2.1)

/-- An object that is still ahead has the weak slots that it had, with what they held. -/
theorem WeakPass.weakSlots {holds : Value → Prop} (pass : heap.WeakPass tiling machine mid rest)
    (member : block ∈ heap.blocks tiling) (isObject : block.kind = .object) (ahead : block ∈ rest)
    (held : ∀ shape, heap.shapes.get? (machine.memory.tag block.start) = some shape →
      ∀ offset, shape.WeakSlot machine.memory block.start offset →
        holds (machine.memory.value (block.start + offset))) :
    ∀ shape, heap.shapes.get? (mid.memory.tag block.start) = some shape →
      ∀ offset, shape.WeakSlot mid.memory block.start offset →
        holds (mid.memory.value (block.start + offset)) := by
  intro shape known offset slot
  have kept := pass.waiting tiled member (by simp [isObject]) ahead
  rw [Memory.tag, Memory.header, kept _ (tiled.start_covers member)] at known
  have describes := (tiled.describes member (by simp [isObject]) known).2
  have inside {offset : Nat} (upper : offset + 8 ≤ block.size) :
      mid.memory.read (block.start + offset) = machine.memory.read (block.start + offset) :=
    kept _ ⟨by omega, by simp only [Block.stop]; omega⟩
  rw [Shape.weakSlot_congr fun length listed => inside (describes.lengthInside length listed).2.2] at slot
  rw [Memory.value, inside (describes.slotInside offset (.inr (.inl slot))).2.2.1]
  exact held shape known offset slot

/-- Which slots an object loses does not depend on how far the pass has come. -/
theorem WeakPass.ensures_visit (pass : heap.WeakPass tiling machine mid (block :: rest))
    (member : block ∈ heap.blocks tiling) (isObject : block.kind = .object) (once : block ∉ rest)
    (denotes : ∀ shape, heap.shapes.get? (machine.memory.tag block.start) = some shape →
      ∀ offset, shape.WeakSlot machine.memory block.start offset →
        heap.DenotesWithin tiling (machine.memory.value (block.start + offset)))
    (marked : (machine.memory.header block.start).isMarked = true) :
    (heap.breakWeakSlots block.start).Ensures mid fun _ final =>
      heap.WeakPass tiling machine final rest := by
  have inUse : block.kind ≠ .free := by simp [isObject]
  obtain ⟨slab, inHeap, inSlab⟩ := mem_blocks.mp member
  obtain ⟨shape, known, describes⟩ := (tiled.layout slab inHeap).object inSlab isObject
  have kept := pass.waiting tiled member inUse List.mem_cons_self
  have inside (offset : Nat) (lower : 8 ≤ offset) (upper : offset + 8 ≤ block.size) :
      mid.memory.read (block.start + offset) = machine.memory.read (block.start + offset) :=
    kept _ ⟨by omega, by simp only [Block.stop]; omega⟩
  have lengths : ∀ length ∈ shape.lengths, mid.memory.read (block.start + length.offset) =
      machine.memory.read (block.start + length.offset) := by
    intro length listed
    have place := (describes.lengthInside length listed).2
    exact inside _ place.1 place.2
  have values (offset : Nat) (slot : shape.WeakSlot machine.memory block.start offset) :
      mid.memory.value (block.start + offset) = machine.memory.value (block.start + offset) := by
    have place := (describes.slotInside offset (.inr (.inl slot))).2
    exact congrArg Value.mk (inside offset place.1 place.2.1)
  have losesSame (offset : Nat) (slot : shape.WeakSlot machine.memory block.start offset) :
      heap.Loses mid.memory (mid.memory.value (block.start + offset)) ↔
        heap.Loses machine.memory (machine.memory.value (block.start + offset)) := by
    rw [values offset slot]
    exact Loses.congr (pass.sameMarks) (denotes shape known offset slot)
  have midKnown : heap.shapes.get? (mid.memory.tag block.start) = some shape := by
    rw [Memory.tag, Memory.header, kept _ (tiled.start_covers member)]
    exact known
  have ahead := pass.weakSlots tiled member isObject List.mem_cons_self denotes shape midKnown
  refine (ensures_breakWeakSlots (pass.stillTiled tiled) member isObject midKnown ahead).weaken ?_
  refine fun _ final weakening => pass.advance tiled member inUse once (weakening.congr ?_ ?_)
  · rw [Shape.breaks_congr lengths losesSame]
    simp [BreaksIn, isObject, marked, known]
  · intro offset
    rw [Shape.drops_congr lengths losesSame]
    simp [DropsIn, isObject, marked, known]

/-- The weak pass takes from each marked object the slots that lose their referents. -/
theorem Tiled.ensures_breakWeakReferences
    (denotes : ∀ block ∈ heap.blocks tiling, block.kind = .object →
      (machine.memory.header block.start).isMarked = true → ∀ shape,
        heap.shapes.get? (machine.memory.tag block.start) = some shape → ∀ offset,
          shape.WeakSlot machine.memory block.start offset →
            heap.DenotesWithin tiling (machine.memory.value (block.start + offset))) :
    heap.breakWeakReferences.Ensures machine fun _ final =>
      heap.WeakPass tiling machine final [] := by
  refine ensures_foldAll (fun _ rest mid => heap.WeakPass tiling machine mid rest) ?_ ?_ ?_ ?_
    (.start machine)
  · exact fun _ _ _ pass => pass.stillTiled tiled
  · exact fun _ _ _ _ pass quiet => pass.quiet quiet
  · exact fun _ _ _ _ pass _ other => pass.passOver fun isObject => absurd isObject other
  · intro _ block rest mid pass suffix isObject
    have member : block ∈ heap.blocks tiling := suffix.mem List.mem_cons_self
    have once : block ∉ rest :=
      (List.nodup_cons.mp (tiled.nodup_blocks.sublist suffix.sublist)).1
    have sameMark := (pass.weakened block member (by simp [isObject])).isMarked
    rw [Action.ensures_memory]
    split
    · next marked =>
      rw [sameMark] at marked
      exact pass.ensures_visit tiled member isObject once (denotes block member isObject marked)
        marked
    · next unmarked =>
      rw [sameMark] at unmarked
      exact Action.ensures_pure.mpr (pass.passOver fun _ => Bool.eq_false_of_not_eq_true unmarked)

end Pass

end Heap

end SlabHeap
