import SlabHeap.Proofs.Overwrite

namespace SlabHeap

/-! Copying there and back.

A relocation followed by one in the other direction leaves every word as it was, `Heap.Relocated.restores`,
where references stay in the slab and contexts name the heap. So a heap that was copied into another one and
back is what it was, `Heap.copyInto_there_and_back`.
-/

open FreeList Block

namespace Slab

variable {source target : Slab} {blocks : List Block} {address link : Nat} {value : Value}

theorem counterpart_counterpart (lower : source.start ≤ address) :
    target.counterpart source (source.counterpart target address) = address := by
  simp only [counterpart]
  omega

theorem moveLink_moveLink (positive : 0 < target.start) (listed : link = 0 ∨ source.start ≤ link) :
    target.moveLink source (source.moveLink target link) = link := by
  by_cases none : link = 0
  · simp [moveLink, none]
  · have lower := listed.resolve_left none
    have present : source.counterpart target link ≠ 0 := by
      simp only [counterpart]
      omega
    simp only [moveLink, none, if_false, present, counterpart_counterpart lower]

theorem moveValue_back (beside : source.Beside target) (same : target.size = source.size)
    (inside : ∀ address, value.address? = some address → source.contains address = true) :
    target.moveValue source (source.moveValue target value) = value := by
  cases found : value.address? with
  | none => simp only [moveValue, found]
  | some address =>
      have contained := inside address found
      obtain ⟨lower, upper⟩ := Slab.contains_iff.mp contained
      have aligned := Value.address?_aligned found
      have sourceAligned := beside.sourcePlaced.startAligned
      have targetAligned := beside.targetPlaced.startAligned
      have bounded := beside.targetPlaced.bounded
      simp only [blockUnit, Slab.stop] at *
      have moved : source.moveValue target value = .reference (source.counterpart target address) := by
        simp only [moveValue, found, contained, if_true]
      have leads : (Value.reference (source.counterpart target address)).address? =
          some (source.counterpart target address) := by
        refine Value.address?_reference ?_ ?_ <;> simp only [counterpart] <;> omega
      have back : target.contains (source.counterpart target address) = true := by
        refine Slab.contains_iff.mpr ?_
        simp only [Slab.stop, counterpart]
        omega
      rw [moved]
      simp only [moveValue, leads, back, if_true]
      rw [counterpart_counterpart (by omega), (Value.eq_reference found).2.2]

theorem inLink_moved (lower : source.start ≤ address) (starts : ∀ block ∈ blocks, source.start ≤ block.start) :
    target.InLink (blocks.map (source.moveBlock target)) (source.counterpart target address) ↔
      source.InLink blocks address := by
  constructor
  · rintro ⟨_, rfl | ⟨moved, member, isFree, rfl⟩, inLink⟩
    · refine ⟨source.start, .inl rfl, ?_⟩
      simp only [counterpart] at inLink
      omega
    · obtain ⟨block, inBlocks, rfl⟩ := List.mem_map.mp member
      have := starts block inBlocks
      refine ⟨block.start, .inr ⟨block, inBlocks, isFree, rfl⟩, ?_⟩
      simp only [moveBlock, counterpart] at inLink
      omega
  · rintro ⟨_, rfl | ⟨block, member, isFree, rfl⟩, inLink⟩
    · refine ⟨target.start, .inl rfl, ?_⟩
      simp only [counterpart]
      omega
    · have := starts block member
      refine ⟨source.counterpart target block.start,
        .inr ⟨source.moveBlock target block, List.mem_map_of_mem member, isFree, rfl⟩, ?_⟩
      simp only [counterpart]
      omega

end Slab

namespace Heap

variable {heap other : Heap} {source target : Slab} {memory mid after : Memory} {blocks : List Block}
  {block : Block} {shape : Shape} {keepOwnership : Bool} {copyIdentity : Nat} {machine : Machine}
  {context : Context} {inTarget back : Value}

namespace Relocated

variable (relocated : heap.Relocated source target blocks keepOwnership copyIdentity memory mid)
  (layout : source.Layout heap.shapes memory blocks) (member : block ∈ blocks)
  (isObject : block.kind = .object)

include relocated layout member isObject

omit layout in
theorem tag : mid.tag (source.counterpart target block.start) = memory.tag block.start := by
  rw [Memory.tag, relocated.headers block member isObject]
  split
  · rfl
  · rfl

theorem lengths (known : heap.shapes.get? (memory.tag block.start) = some shape) :
    ∀ length ∈ shape.lengths, mid.read (source.counterpart target block.start + length.offset) =
      memory.read (block.start + length.offset) := by
  intro length listed
  obtain ⟨found, foundKnown, describes⟩ := layout.object member isObject
  obtain rfl := Option.some.inj (known.symm.trans foundKnown)
  obtain ⟨aligned, lower, upper⟩ := describes.lengthInside length listed
  have bounds := layout.bounds member
  have covers : block.Covers (block.start + length.offset) :=
    ⟨by omega, by simp only [Block.stop]; omega⟩
  -- Blocks lie apart, so that whatever else covers the word is the object itself.
  have own {other : Block} (otherMember : other ∈ blocks)
      (inside : other.Covers (block.start + length.offset)) : other = block :=
    layout.tiles.eq_of_covers otherMember member inside covers
  rw [← Slab.counterpart_add (by omega)]
  refine relocated.words _ ⟨by omega, ?_, ?_, ?_, ?_⟩
  · rintro ⟨node, rfl | ⟨free, freeMember, isFree, rfl⟩, inLink⟩
    · omega
    · have size := (layout.bounds freeMember).2.2.1
      have same := own freeMember ⟨by omega, by simp only [Block.stop]; omega⟩
      simp [same, isObject] at isFree
  · intro other otherMember otherObject inHeader
    have size := (layout.bounds otherMember).2.2.1
    have same := own otherMember ⟨inHeader.1, by simp only [Block.stop]; omega⟩
    subst same
    omega
  · intro other otherMember otherObject _ otherKnown offset slot inSlot
    obtain ⟨otherShape, alsoKnown, otherDescribes⟩ := layout.object otherMember otherObject
    obtain rfl := Option.some.inj (otherKnown.symm.trans alsoKnown)
    have place := otherDescribes.slotInside offset slot
    have same := own otherMember ⟨by omega, by simp only [Block.stop]; omega⟩
    subst same
    obtain rfl := Option.some.inj (known.symm.trans otherKnown)
    exact place.2.2.2 length listed (by omega)
  · intro other otherMember otherObject isContext inContext
    obtain ⟨_, otherKnown, otherDescribes⟩ := layout.object otherMember otherObject
    have size := Shape.size_of_context (isContext ▸ otherKnown) otherDescribes
    have same := own otherMember ⟨by omega, by simp only [Block.stop]; omega⟩
    subst same
    have none := Shape.lengths_of_context (isContext ▸ known)
    simp [none] at listed

theorem slot_iff (known : heap.shapes.get? (memory.tag block.start) = some shape) {offset : Nat} :
    shape.Slot mid (source.counterpart target block.start) offset ↔
      shape.Slot memory block.start offset :=
  Shape.slot_congr (relocated.lengths layout member isObject known)

omit member isObject in
/-- What is taken over as it is is taken back as it is. -/
theorem plain_moved {address : Nat} (shapes : other.shapes = heap.shapes) (same : target.size = source.size)
    (plain : heap.Plain source blocks memory address) :
    other.Plain target (blocks.map (source.moveBlock target)) mid (source.counterpart target address) := by
  obtain ⟨lower, upper⟩ := plain.inside
  have starts (block : Block) (member : block ∈ blocks) : source.start ≤ block.start := by
    have := layout.bounds member
    omega
  refine ⟨?_, fun inLink => plain.link ((Slab.inLink_moved lower starts).mp inLink), ?_, ?_, ?_⟩
  · simp only [Slab.stop, Slab.counterpart] at *
    omega
  all_goals
    intro moved member isObject
    obtain ⟨block, inBlocks, rfl⟩ := List.mem_map.mp member
    have above := starts block inBlocks
    have tagged := relocated.tag inBlocks isObject
    simp only [Slab.moveBlock, Slab.counterpart] at *
  · have := plain.header block inBlocks isObject
    omega
  · intro shape known offset slot
    rw [shapes, tagged] at known
    have := plain.slot block inBlocks isObject shape known offset
      ((relocated.slot_iff layout inBlocks isObject known).mp slot)
    omega
  · intro isContext
    have := plain.context block inBlocks isObject (tagged.symm.trans isContext)
    omega

end Relocated

/-- References stay in the slab, and contexts name the heap and have no frames. -/
structure Enclosing (heap : Heap) (slab : Slab) (blocks : List Block) (memory : Memory) : Prop where
  references : ∀ block ∈ blocks, block.kind = .object → ∀ shape,
    heap.shapes.get? (memory.tag block.start) = some shape → ∀ offset,
      shape.Slot memory block.start offset → ∀ address,
        (memory.value (block.start + offset)).address? = some address → slab.contains address = true
  contexts : ∀ block ∈ blocks, block.kind = .object → memory.tag block.start = Tag.context →
    (Context.mk block.start).heapWord memory = heap.identity ∧
      (Context.mk block.start).saves memory = 0

/-- What the aligned word at an address of a slab is. -/
inductive Word (heap : Heap) (slab : Slab) (blocks : List Block) (memory : Memory) : Nat → Prop where
  | link {node : Nat} (isNode : node = slab.start ∨ ∃ block ∈ blocks, block.kind = .free ∧ block.start = node) :
      heap.Word slab blocks memory (node + 8)
  | header {block : Block} (member : block ∈ blocks) (isObject : block.kind = .object) :
      heap.Word slab blocks memory block.start
  | slot {block : Block} {shape : Shape} {offset : Nat} (member : block ∈ blocks)
      (isObject : block.kind = .object) (known : heap.shapes.get? (memory.tag block.start) = some shape)
      (slot : shape.Slot memory block.start offset) : heap.Word slab blocks memory (block.start + offset)
  | heapWord {block : Block} (member : block ∈ blocks) (isObject : block.kind = .object)
      (isContext : memory.tag block.start = Tag.context) :
      heap.Word slab blocks memory (block.start + Layout.Context.heap)
  | saves {block : Block} (member : block ∈ blocks) (isObject : block.kind = .object)
      (isContext : memory.tag block.start = Tag.context) :
      heap.Word slab blocks memory (block.start + Layout.Context.saves)
  | plain {address : Nat} (plain : heap.Plain slab blocks memory address) :
      heap.Word slab blocks memory address

/-- A word that is neither a link nor a header, nor in a slot or the fixed part of a context, is plain. -/
theorem word_of_aligned {address : Nat} (layout : source.Layout heap.shapes memory blocks)
    (whole : address % 8 = 0) (lower : source.start ≤ address) (upper : address < source.stop) :
    heap.Word source blocks memory address := by
  have aligned {block : Block} (member : block ∈ blocks) : block.start % 16 = 0 := (layout.bounds member).2.2.2.2.1
  by_contra other
  refine other (.plain ⟨⟨lower, upper⟩, ?_, ?_, ?_, ?_⟩)
  · rintro ⟨node, isNode, above, below⟩
    have nodeAligned : node % 16 = 0 := by
      rcases isNode with rfl | ⟨block, member, _, rfl⟩
      · exact layout.placed.startAligned
      · exact aligned member
    obtain rfl : address = node + 8 := by omega
    exact other (.link isNode)
  · intro block member isObject inside
    have := aligned member
    obtain rfl : address = block.start := by omega
    exact other (.header member isObject)
  · intro block member isObject shape known offset slot inside
    obtain ⟨found, foundKnown, describes⟩ := layout.object member isObject
    obtain rfl := Option.some.inj (known.symm.trans foundKnown)
    have := aligned member
    have := (describes.slotInside offset slot).1
    obtain rfl : address = block.start + offset := by omega
    exact other (.slot member isObject known slot)
  · intro block member isObject isContext inside
    have := aligned member
    have which : address = block.start + Layout.Context.heap ∨ address = block.start + Layout.Context.saves := by
      simp only [Layout.Context.heap, Layout.Context.saves]
      omega
    rcases which with rfl | rfl
    · exact other (.heapWord member isObject isContext)
    · exact other (.saves member isObject isContext)

namespace Relocated

section Return

variable {after : Memory}
  (there : heap.Relocated source target blocks true other.identity memory mid)
  (returned : other.Relocated target source (blocks.map (source.moveBlock target)) true heap.identity mid after)
  (layout : source.Layout heap.shapes memory blocks)

include there returned layout

theorem restores_link (beside : source.Beside target) {node : Nat}
    (isNode : node = source.start ∨ ∃ block ∈ blocks, block.kind = .free ∧ block.start = node) :
    after.read (node + 8) = memory.read (node + 8) := by
  have starts {block : Block} (member : block ∈ blocks) : source.start ≤ block.start := by
    have := layout.bounds member
    omega
  have lower : source.start ≤ node := by
    rcases isNode with rfl | ⟨block, member, _, rfl⟩
    · exact Nat.le_refl _
    · exact starts member
  have listed : next memory node = 0 ∨ source.start ≤ next memory node := by
    refine (layout.listed.leads (isNode.imp_right ?_)).imp_right ?_
    · rintro ⟨⟨start, size, kind⟩, member, rfl, rfl⟩
      exact ⟨(start, size), mem_frees.mpr member, rfl⟩
    · rintro ⟨entry, member, leads⟩
      exact leads ▸ starts (mem_frees.mp member)
  have moved : source.counterpart target node = target.start ∨
      ∃ block ∈ blocks.map (source.moveBlock target), block.kind = .free ∧
        block.start = source.counterpart target node := by
    rcases isNode with rfl | ⟨block, member, isFree, rfl⟩
    · exact .inl (by simp [Slab.counterpart])
    · exact .inr ⟨_, List.mem_map_of_mem member, isFree, rfl⟩
  have linked := returned.links _ moved
  rw [Slab.counterpart_counterpart lower, there.links node isNode,
    Slab.moveLink_moveLink beside.targetPlaced.startPositive listed] at linked
  exact UInt64.toNat_inj.mp linked

section Object

variable (member : block ∈ blocks) (isObject : block.kind = .object)

include member isObject

theorem restores_header : after.read block.start = memory.read block.start := by
  have bounds := layout.bounds member
  have header := returned.headers _ (List.mem_map_of_mem member) isObject
  rw [if_pos rfl, show (source.moveBlock target block).start = source.counterpart target block.start from rfl,
    Slab.counterpart_counterpart (by omega), there.headers block member isObject, if_pos rfl] at header
  rw [← Header.toWord_ofWord (after.read block.start), ← Header.toWord_ofWord (memory.read block.start)]
  exact congrArg Header.toWord header

theorem restores_slot (beside : source.Beside target) (same : target.size = source.size)
    (shapes : other.shapes = heap.shapes) (enclosing : heap.Enclosing source blocks memory) {offset : Nat}
    (known : heap.shapes.get? (memory.tag block.start) = some shape)
    (slot : shape.Slot memory block.start offset) :
    after.read (block.start + offset) = memory.read (block.start + offset) := by
  have bounds := layout.bounds member
  have value := returned.slots _ (List.mem_map_of_mem member) isObject shape (by
    rw [shapes]
    exact (congrArg _ (there.tag member isObject)).trans known) offset
    ((there.slot_iff layout member isObject known).mpr slot)
  rw [show (source.moveBlock target block).start = source.counterpart target block.start from rfl,
    ← Slab.counterpart_add (by omega), Slab.counterpart_counterpart (by omega),
    there.slots block member isObject shape known offset slot,
    Slab.moveValue_back beside same (enclosing.references block member isObject shape known offset slot)]
    at value
  exact congrArg Value.bits value

theorem restores_heapWord (enclosing : heap.Enclosing source blocks memory)
    (isContext : memory.tag block.start = Tag.context) (isWord : other.identity < Size.limit) :
    after.read (block.start + Layout.Context.heap) = memory.read (block.start + Layout.Context.heap) := by
  have bounds := layout.bounds member
  obtain ⟨own, _⟩ := enclosing.contexts block member isObject isContext
  have word := there.heapWords block member isObject isContext
  have place : source.counterpart target (block.start + Layout.Context.heap) =
      (source.moveBlock target block).start + Layout.Context.heap := Slab.counterpart_add (by omega)
  rw [if_pos own, place] at word
  have named : (Context.mk (source.moveBlock target block).start).heapWord mid = other.identity := by
    rw [Context.heapWord, word, UInt64.toNat_ofNat']
    exact Nat.mod_eq_of_lt isWord
  have again := returned.heapWords _ (List.mem_map_of_mem member) isObject
    ((there.tag member isObject).trans isContext)
  rw [if_pos named, ← place, Slab.counterpart_counterpart (by omega)] at again
  rw [again, ← own, Context.heapWord, UInt64.ofNat_toNat]

theorem restores_saves (enclosing : heap.Enclosing source blocks memory)
    (isContext : memory.tag block.start = Tag.context) :
    after.read (block.start + Layout.Context.saves) = memory.read (block.start + Layout.Context.saves) := by
  have bounds := layout.bounds member
  obtain ⟨_, none⟩ := enclosing.contexts block member isObject isContext
  have again := returned.saves _ (List.mem_map_of_mem member) isObject ((there.tag member isObject).trans isContext)
  rw [show (source.moveBlock target block).start = source.counterpart target block.start from rfl,
    ← Slab.counterpart_add (by omega), Slab.counterpart_counterpart (by omega)] at again
  rw [again]
  exact (UInt64.toNat_inj.mp (show (memory.read (block.start + Layout.Context.saves)).toNat =
    (0 : UInt64).toNat from none)).symm

end Object

theorem restores_plain (same : target.size = source.size) (shapes : other.shapes = heap.shapes) {address : Nat}
    (plain : heap.Plain source blocks memory address) : after.read address = memory.read address := by
  have again := returned.words _ (there.plain_moved layout shapes same plain)
  rwa [Slab.counterpart_counterpart plain.inside.1, there.words address plain] at again

/-- What was relocated there and back is what it was. -/
theorem restores (beside : source.Beside target)
    (same : target.size = source.size) (shapes : other.shapes = heap.shapes)
    (enclosing : heap.Enclosing source blocks memory) (isWord : other.identity < Size.limit) :
    ∀ address, source.start ≤ address → address < source.stop → after.read address = memory.read address := by
  have words (address : Nat) (word : heap.Word source blocks memory address) :
      after.read address = memory.read address := by
    cases word with
    | link isNode => exact restores_link there returned layout beside isNode
    | header member isObject => exact restores_header there returned layout member isObject
    | slot member isObject known slot =>
        exact restores_slot there returned layout member isObject beside same shapes enclosing known slot
    | heapWord member isObject isContext =>
        exact restores_heapWord there returned layout member isObject enclosing isContext isWord
    | saves member isObject isContext =>
        exact restores_saves there returned layout member isObject enclosing isContext
    | plain plain => exact restores_plain there returned layout same shapes plain
  intro address lower upper
  -- memory is read by the word, so the aligned address below tells
  have startAligned := beside.sourcePlaced.startAligned
  have sizeAligned := beside.sourcePlaced.sizeAligned
  simp only [blockUnit, Slab.stop] at startAligned sizeAligned upper
  have word := words (address / 8 * 8) (word_of_aligned layout (by omega) (by omega)
    (by simp only [Slab.stop]; omega))
  rwa [Memory.read_congr _ (show address / 8 * 8 / 8 = address / 8 by omega),
    Memory.read_congr _ (show address / 8 * 8 / 8 = address / 8 by omega)] at word

end Return

end Relocated

/-- What names a context of a heap is an address of the heap. -/
theorem contains_of_names (names : (Context.ofValue? heap memory back).any (·.isIn heap memory) = true) :
    ∃ address, back.address? = some address ∧ heap.contains address = true := by
  cases found : back.address? with
  | none => simp [Context.ofValue?, objectOf?, object?, found] at names
  | some address =>
      refine ⟨address, rfl, ?_⟩
      by_contra absent
      simp only [Bool.not_eq_true] at absent
      simp [Context.ofValue?, objectOf?, object?, found, absent] at names

/-- An identity that a context names is a word. -/
theorem identity_lt_of_names
    (names : (Context.ofValue? heap memory back).any (·.isIn heap memory) = true) :
    heap.identity < Size.limit := by
  cases found : Context.ofValue? heap memory back with
  | none => simp [found] at names
  | some context =>
      simp only [found, Option.any_some, Context.isIn, decide_eq_true_eq] at names
      exact names ▸ UInt64.toNat_lt _

/-- Whether a value names a context depends on the words of the heap alone. -/
theorem ofValue_isIn_congr (single : heap.slabs = [source]) (placed : source.Placed)
    (same : ∀ address, source.start ≤ address → address < source.stop →
      after.read address = memory.read address) :
    (Context.ofValue? heap after back).any (·.isIn heap after) =
      (Context.ofValue? heap memory back).any (·.isIn heap memory) := by
  cases found : back.address? with
  | none => simp [Context.ofValue?, objectOf?, object?, found]
  | some address =>
      by_cases usable : address % blockUnit = 0 ∧ heap.contains address = true
      · obtain ⟨aligned, inside⟩ := id usable
        rw [contains_of_single single, Slab.contains_iff] at inside
        have startAligned := placed.startAligned
        have sizeAligned := placed.sizeAligned
        simp only [blockUnit, Slab.stop] at aligned startAligned sizeAligned inside
        have tag : after.tag address = memory.tag address :=
          congrArg (fun word => (Header.ofWord word).tag) (same _ (by omega) (by simp only [Slab.stop]; omega))
        have word : after.read (address + Layout.Context.heap) = memory.read (address + Layout.Context.heap) :=
          same _ (by omega) (by simp only [Slab.stop, Layout.Context.heap]; omega)
        have isIn : (Context.mk address).isIn heap after = (Context.mk address).isIn heap memory :=
          congrArg (fun word : UInt64 => decide (word.toNat = heap.identity)) word
        by_cases registered : heap.shapes.isRegistered (memory.tag address) = true
        · have object (image : Memory) (alike : image.tag address = memory.tag address) :
              heap.object? image back = some address := by
            simp [object?, found, usable, alike, registered]
          simp only [Context.ofValue?, objectOf?, object _ tag, object _ rfl, Option.filter_some, tag]
          split
          · exact isIn
          · rfl
        · simp [Context.ofValue?, objectOf?, object?, found, usable, tag, registered]
      · have unusable : ¬ address % blockUnit = 0 ∨ heap.contains address = false := by
          simpa [imp_iff_not_or] using usable
        simp [Context.ofValue?, objectOf?, object?, found, unusable]

/-- A heap that was copied into one with a slab of the same size, and back, is what it was. Any value that
names a context of the heap may stand for it on the way back. -/
theorem copyInto_there_and_back
    (accepted : heap.checkDestination context other inTarget machine.memory = .ok (source, target))
    (layout : source.Layout heap.shapes machine.memory blocks)
    (enclosing : heap.Enclosing source blocks machine.memory) (placed : target.Placed)
    (apart : source.Apart target) (sizes : target.size = source.size) (shapes : other.shapes = heap.shapes)
    (member : block ∈ blocks) (isObject : block.kind = .object) (starts : block.start = context.address)
    (isContext : machine.memory.tag context.address = Tag.context)
    (names : (Context.ofValue? heap machine.memory back).any (·.isIn heap machine.memory) = true) :
    (heap.copyInto context other inTarget true).Ensures machine fun answer mid =>
      ∃ copy moved, answer = (copy, .ok moved) ∧
        (copy.copyInto moved heap back true).Ensures mid fun answer final =>
          answer = ({ heap with globals := none, scratch := [] }, .ok context) ∧
            heap.Untouched machine final := by
  obtain ⟨⟨single, otherSingle, fits⟩, ⟨inside, isIn⟩, _, known⟩ := checkDestination_eq_ok_iff.mp accepted
  have beside : source.Beside target := ⟨layout.placed, placed, fits, apart⟩
  have home : target.Beside source := ⟨placed, layout.placed, Nat.le_of_eq sizes, apart.symm⟩
  refine (ensures_copyInto accepted beside layout member isObject starts isContext true).weaken ?_
  rintro _ mid ⟨rfl, duplicated⟩
  refine ⟨_, _, rfl, ?_⟩
  have there := duplicated.relocated layout sizes
  have laid : target.Layout heap.shapes mid.memory (blocks.map (source.moveBlock target)) := by
    have laid := duplicated.layout
    rwa [Block.extend, if_pos (by omega)] at laid
  have lower : source.start ≤ block.start := by
    have := layout.bounds member
    omega
  have movedTag : mid.memory.tag (source.counterpart target context.address) = Tag.context := by
    rw [← starts, there.tag member isObject, starts]
    exact isContext
  have isWord := identity_lt_of_names known
  have kept : ∀ address, source.start ≤ address → address < source.stop →
      mid.memory.read address = machine.memory.read address := by
    intro address above below
    simp only [Slab.Apart] at apart
    exact duplicated.outside address (by omega)
  -- The way back passes the checks that the way there passed.
  have acceptedBack : Heap.checkDestination { other with globals := none, scratch := [] }
      ⟨source.counterpart target context.address⟩ heap back mid.memory = .ok (target, source) := by
    refine checkDestination_eq_ok_iff.mpr ⟨⟨otherSingle, single, Nat.le_of_eq sizes⟩, ⟨?_, ?_⟩, ?_, ?_⟩
    · rw [← starts]
      exact laid.contains (List.mem_map_of_mem member)
    · have word := there.heapWords block member isObject (starts ▸ isContext)
      rw [if_pos (enclosing.contexts block member isObject (starts ▸ isContext)).1, starts,
        Slab.counterpart_add (starts ▸ lower)] at word
      simp only [Context.isIn, Context.heapWord, word, decide_eq_true_eq, UInt64.toNat_ofNat']
      exact Nat.mod_eq_of_lt isWord
    · obtain ⟨address, found, contained⟩ := contains_of_names names
      rw [contains_of_single single, Slab.contains_iff] at contained
      rw [found, Option.any_some, contains_of_single
        (show Heap.slabs { other with globals := none, scratch := [] } = [target] from otherSingle)]
      refine Bool.eq_false_iff.mpr fun alsoInside => ?_
      have := Slab.contains_iff.mp alsoInside
      simp only [Slab.Apart] at apart
      omega
    · rwa [ofValue_isIn_congr single layout.placed kept]
  refine (ensures_copyInto acceptedBack home (shapes.symm ▸ laid) (List.mem_map_of_mem member) isObject
    (congrArg (source.counterpart target) starts) movedTag true).weaken ?_
  rintro _ final ⟨rfl, duplicatedBack⟩
  have begun : heap.Relocated source target blocks true
      (Heap.identity { other with globals := none, scratch := [] }) machine.memory mid.memory := there
  have restored := begun.restores (duplicatedBack.relocated (shapes.symm ▸ laid) sizes.symm) layout beside
    sizes shapes enclosing isWord
  refine ⟨?_, fun slab inHeap address above below => ?_⟩
  · rw [Slab.counterpart_counterpart (starts ▸ lower)]
  · obtain rfl : slab = source := by simpa [single] using inHeap
    exact restored address above below

section Ring

/-- The slab of the context of `strayHeap`, as large as that of the ring. -/
def evenSlab : Slab := { start := 0x3fffffffe000, size := 128, maxSize := 0 }

def evenHeap : Heap :=
  { identity := 0x520000000010, settings := {}, shapes := .standard, features := {}
    slabs := [evenSlab], slabs_nonempty := by simp }

theorem header_kept : strayMachine.memory.header 0x3ffffffff010 = .fresh Tag.context ∧
    strayMachine.memory.header 0x3ffffffff040 = .fresh Tag.pair := by
  rw [Memory.header, Memory.header, stray_read (by omega), stray_read (by omega)]
  exact header_ring

theorem enclosing_ring : ringHeap.Enclosing ringSlab ringBlocks strayMachine.memory where
  references block member isObject shape known offset slot address found := by
    have wellFormed : ringHeap.WellFormed strayMachine fun _ => ringBlocks := by
      refine wellFormed_ring.keep (fun slab inHeap address lower _ => stray_read ?_) rfl
      obtain rfl : slab = ringSlab := by simpa [ringHeap] using inHeap
      exact lower
    have strong : shape.weak = none := by
      simp only [ringBlocks, List.mem_cons, List.not_mem_nil, or_false] at member
      rcases member with rfl | rfl | rfl
      · rw [Memory.tag, header_kept.1] at known
        cases known
        rfl
      · rw [Memory.tag, header_kept.2] at known
        cases known
        rfl
      · cases isObject
    obtain ⟨object, objectMember, _, rfl⟩ := wellFormed.slots block (by rwa [blocks_ring]) isObject shape known
      offset (.inl (slot.strong strong)) address found
    rw [blocks_ring] at objectMember
    exact layout_ring.contains objectMember
  contexts block member isObject isContext := by
    simp only [ringBlocks, List.mem_cons, List.not_mem_nil, or_false] at member
    rcases member with rfl | rfl | rfl
    · simp only [Context.heapWord, Context.saves, Layout.Context.heap, Layout.Context.saves]
      rw [stray_read (by omega), stray_read (by omega)]
      simp [ringMachine, ringWords, ringHeap, Memory.read_write]
    · rw [Memory.tag, header_kept.2] at isContext
      cases isContext
    · cases isObject

/-- The ring is what it was. -/
theorem copyInto_there_and_back_ring : ∃ copy moved mid final,
    (ringHeap.copyInto ⟨0x3ffffffff010⟩ evenHeap (.reference 0x3fffffffe010) true).run strayMachine =
      .ok (copy, .ok moved) mid ∧
    (copy.copyInto moved ringHeap (.reference 0x3ffffffff010) true).run mid =
      .ok (ringHeap, .ok ⟨0x3ffffffff010⟩) final ∧
    ∀ address, ringSlab.start ≤ address → address < ringSlab.stop →
      final.memory.read address = ringMachine.memory.read address := by
  have layout : ringSlab.Layout .standard strayMachine.memory ringBlocks :=
    layout_ring.keep fun _ lower _ => stray_read lower
  have accepted : ringHeap.checkDestination ⟨0x3ffffffff010⟩ evenHeap (.reference 0x3fffffffe010)
      strayMachine.memory = .ok (ringSlab, evenSlab) := rfl
  have member : (⟨0x3ffffffff010, 48, .object⟩ : Block) ∈ ringBlocks := by simp [ringBlocks]
  obtain ⟨_, mid, ran, copy, moved, rfl, _, final, again, rfl, untouched⟩ :=
    copyInto_there_and_back accepted layout enclosing_ring ⟨by decide, by decide, by decide, by decide, by decide⟩
      (.inr (by decide)) rfl rfl member rfl rfl (congrArg Header.tag header_kept.1)
      (show (Context.ofValue? ringHeap strayMachine.memory (.reference 0x3ffffffff010)).any
        (·.isIn ringHeap strayMachine.memory) = true from rfl)
  refine ⟨copy, moved, mid, final, ran, again, fun address lower upper => ?_⟩
  rw [untouched ringSlab (by simp [ringHeap]) address lower upper]
  exact stray_read lower

end Ring

end Heap

end SlabHeap
