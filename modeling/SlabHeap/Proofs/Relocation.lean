import SlabHeap.Heap.Duplication
import SlabHeap.Proofs.Tiling

namespace SlabHeap

/-! How the bytes of a slab and its free list get to another place.

`Slab.Transferred` compares a slab with the copy of its bytes: only links of the free list differ, and
they lead to the same places in the copy. `Slab.Transferred.layout` says that the copy is divided as
the slab is.
-/

open FreeList Block

namespace Slab

/-- Where an address of a slab lies in a copy of it. -/
def counterpart (source target : Slab) (address : Nat) : Nat :=
  address - source.start + target.start

/-- What becomes of a link of the free list. -/
def moveLink (source target : Slab) (link : Nat) : Nat :=
  if link = 0 then 0 else source.counterpart target link

/-- What becomes of a value in a slot: references to what lies among the blocks follow it. -/
def moveValue (source target : Slab) (value : Value) : Value :=
  match value.address? with
  | none => value
  | some address =>
      if source.contains address then .reference (source.counterpart target address) else value

/-- A slab with room for a copy of another one, apart from it. -/
structure Beside (source target : Slab) : Prop where
  sourcePlaced : source.Placed
  targetPlaced : target.Placed
  large : source.size ≤ target.size
  apart : source.Apart target

/-- The part of a slab that the copy of another one fills. -/
def filled (source target : Slab) : Slab := { target with size := source.size }

def moveBlock (source target : Slab) (block : Block) : Block :=
  { block with start := source.counterpart target block.start }

variable {source target : Slab} {shapes : ShapeTable} {memory copied after : Memory}
  {block : Block} {blocks : List Block} {address node : Nat} {rest : List (Nat × Nat)}

theorem counterpart_add {offset : Nat} (lower : source.start ≤ address) :
    source.counterpart target (address + offset) = source.counterpart target address + offset := by
  simp only [counterpart]
  omega

theorem relocate_eq_ok (beside : source.Beside target) (address : Nat)
    (inside : source.start ≤ address ∧ address < source.stop) :
    source.relocate target address = .ok (source.counterpart target address) := by
  have bounded := beside.targetPlaced.bounded
  have large := beside.large
  simp only [Slab.stop] at inside bounded
  rw [relocate, Size.sub_eq_ok inside.1]
  exact Size.add_eq_ok (by omega)

/-- Memory shows a free list from one of its nodes on, and `copied` the same links where the copies of the nodes
lie. -/
structure Carried (source target : Slab) (memory copied : Memory) (node : Nat) (rest : List (Nat × Nat)) :
    Prop where
  path : Path memory (next memory node) rest 0
  inside : ∀ other ∈ node :: rest.map Prod.fst,
    source.start ≤ other ∧ other + 16 ≤ source.stop ∧ other % 16 = 0
  increasing : (node :: rest.map Prod.fst).Pairwise (· < ·)
  same : ∀ other ∈ node :: rest.map Prod.fst, next copied (source.counterpart target other) = next memory other

namespace Carried

variable {head : Nat × Nat} (beside : source.Beside target)

/-- The copies of later nodes lie behind that of the first one. -/
theorem apart (carried : source.Carried target memory copied node rest) :
    ∀ other ∈ rest.map Prod.fst, source.counterpart target node + 16 ≤ source.counterpart target other := by
  intro other member
  have first := (List.pairwise_cons.mp carried.increasing).1 other member
  have nodeInside := carried.inside node List.mem_cons_self
  have otherInside := carried.inside other (List.mem_cons_of_mem _ member)
  simp only [counterpart]
  omega

variable (carried : source.Carried target memory copied node (head :: rest))

include beside carried

theorem aligned : source.counterpart target node % 16 = 0 := by
  have targetAligned := beside.targetPlaced.startAligned
  have sourceAligned := beside.sourcePlaced.startAligned
  have inside := carried.inside node List.mem_cons_self
  simp only [blockUnit] at targetAligned sourceAligned
  simp only [counterpart]
  omega

omit beside in
theorem next_eq : next memory node = head.1 ∧ head.1 ≠ 0 := by
  obtain ⟨start, present, _⟩ := carried.path
  exact ⟨start, start ▸ present⟩

theorem counterpart_lt : source.counterpart target head.1 < Size.limit := by
  have inside := carried.inside head.1 (by simp)
  have bounded := beside.targetPlaced.bounded
  have large := beside.large
  simp only [counterpart, Slab.stop] at *
  omega

theorem tail : source.Carried target memory
    (setNext copied (source.counterpart target node) (source.counterpart target head.1)) head.1 rest where
  path := by
    obtain ⟨start, _, _, goesOn⟩ := carried.path
    exact start ▸ goesOn
  inside other member := carried.inside other (List.mem_cons_of_mem _ member)
  increasing := (List.pairwise_cons.mp carried.increasing).2
  same other member := by
    have apart := carried.apart other member
    have aligned := carried.aligned beside
    rw [next, read_setNext (by omega) (by omega)]
    exact carried.same other (List.mem_cons_of_mem _ member)

end Carried

/-- Moving the links of a list from one of its nodes on. -/
theorem relink_eq_ok {bound : Nat} (beside : source.Beside target)
    (carried : source.Carried target memory copied node rest) (enough : rest.length ≤ bound) :
    ∃ after, relink (source.relocate target) copied (source.counterpart target node) bound =
        .ok (after, source.counterpart target (lastOr node rest)) ∧
      (∀ other ∈ node :: rest.map Prod.fst, next after (source.counterpart target other) =
        source.moveLink target (next memory other)) ∧
      ∀ address, (∀ other ∈ node :: rest.map Prod.fst,
        ¬ (source.counterpart target other + 8 ≤ address ∧
          address < source.counterpart target other + 16)) →
        after.read address = copied.read address := by
  induction rest generalizing node copied bound with
  | nil =>
      have ends : next memory node = 0 := carried.path
      have here := carried.same node List.mem_cons_self
      rw [ends] at here
      refine ⟨copied, ?_, ?_, fun _ _ => rfl⟩
      · cases bound with
        | zero => rfl
        | succ bound => simp only [relink, here, if_true, lastOr]
      · simp only [List.map_nil, List.mem_singleton, forall_eq, here, ends, moveLink, if_true]
  | cons head rest ih =>
      -- A link is moved, and the walk goes on from the node that it leads to.
      cases bound with
      | zero => simp at enough
      | succ bound =>
          obtain ⟨start, present⟩ := carried.next_eq
          have here := carried.same node List.mem_cons_self
          rw [start] at here
          have headInside := carried.inside head.1 (by simp)
          have moved := relocate_eq_ok beside head.1 (by omega)
          have nodeAligned := carried.aligned beside
          obtain ⟨after, ran, links, outside⟩ := ih (carried.tail beside) (by simpa using enough)
          refine ⟨after, ?_, ?_, ?_⟩
          · simp only [relink, here, present, if_false, moved]
            exact ran
          · intro other member
            rcases List.mem_cons.mp member with rfl | member
            · -- The links that are moved later lie elsewhere.
              have linked : after.read (source.counterpart target other + 8) =
                  (setNext copied (source.counterpart target other)
                    (source.counterpart target head.1)).read
                      (source.counterpart target other + 8) := by
                refine outside _ fun later member => ?_
                have := carried.apart later member
                omega
              rw [next, linked, ← next, next_setNext (carried.counterpart_lt beside), start, moveLink,
                if_neg present]
            · exact links other member
          · intro address clear
            rw [outside address fun other member => clear other (List.mem_cons_of_mem _ member)]
            exact read_setNext (by omega) (clear node List.mem_cons_self)

def InLink (slab : Slab) (blocks : List Block) (address : Nat) : Prop :=
  ∃ node, (node = slab.start ∨ ∃ block ∈ blocks, block.kind = .free ∧ block.start = node) ∧
    node + 8 ≤ address ∧ address < node + 16

/-- The bytes of a slab were copied, and the links of its free list were moved. -/
structure Transferred (source target : Slab) (blocks : List Block) (memory after : Memory) :
    Prop where
  links : ∀ node, (node = source.start ∨ ∃ block ∈ blocks, block.kind = .free ∧ block.start = node) →
    next after (source.counterpart target node) = source.moveLink target (next memory node)
  words : ∀ address, source.start ≤ address → address < source.stop →
    ¬ source.InLink blocks address →
      after.read (source.counterpart target address) = memory.read address
  outside : ∀ address, address < target.start ∨ target.start + source.size ≤ address →
    after.read address = memory.read address

theorem mem_nodes (slab : Slab) (blocks : List Block) (node : Nat) :
    node ∈ slab.start :: (frees blocks).map Prod.fst ↔
      node = slab.start ∨ ∃ block ∈ blocks, block.kind = .free ∧ block.start = node := by
  simp only [List.mem_cons, List.mem_map]
  refine or_congr_right ⟨?_, ?_⟩
  · rintro ⟨entry, listed, rfl⟩
    exact ⟨_, mem_frees.mp listed, rfl, rfl⟩
  · rintro ⟨⟨start, size, kind⟩, member, isFree, rfl⟩
    cases isFree
    exact ⟨(start, size), mem_frees.mpr member, rfl⟩

section Copied

variable (beside : source.Beside target)

include beside

/-- What memory reads once the bytes of a slab were copied. -/
theorem read_copied (address : Nat) :
    (memory.copyWords source.start target.start (source.size / wordBytes)).read address =
      if target.start ≤ address ∧ address < target.start + source.size then
        memory.read (source.start + (address - target.start))
      else memory.read address := by
  have sourceAligned := beside.sourcePlaced.startAligned
  have targetAligned := beside.targetPlaced.startAligned
  have sizeAligned := beside.sourcePlaced.sizeAligned
  have apart := beside.apart
  have large := beside.large
  simp only [blockUnit, Slab.Apart, Slab.stop] at *
  have whole : 8 * (source.size / wordBytes) = source.size := by
    simp only [wordBytes]
    omega
  have read := memory.read_copyWords (source.size / wordBytes) address (show source.start % 8 = 0 by omega)
    (show target.start % 8 = 0 by omega) (by omega)
  rwa [whole] at read

theorem read_copied_counterpart (lower : source.start ≤ address) (upper : address < source.stop) :
    (memory.copyWords source.start target.start (source.size / wordBytes)).read
      (source.counterpart target address) = memory.read address := by
  simp only [Slab.stop] at upper
  rw [read_copied beside, if_pos (by simp only [counterpart]; omega)]
  congr 1
  simp only [counterpart]
  omega

/-- The nodes of the free list are carried to the copy with the bytes. -/
theorem Layout.carried (layout : source.Layout shapes memory blocks) :
    source.Carried target memory (memory.copyWords source.start target.start (source.size / wordBytes))
      source.start (frees blocks) := by
  have aligned := beside.sourcePlaced.startAligned
  have atLeast := beside.sourcePlaced.large
  simp only [blockUnit, minSlabSize] at aligned atLeast
  have inside : ∀ node ∈ source.start :: (frees blocks).map Prod.fst,
      source.start ≤ node ∧ node + 16 ≤ source.stop ∧ node % 16 = 0 := by
    intro node member
    rcases (source.mem_nodes blocks node).mp member with rfl | ⟨block, inBlocks, _, rfl⟩
    · simp only [Slab.stop]
      omega
    · have bounds := layout.bounds inBlocks
      omega
  refine ⟨layout.listed, inside, layout.tiles.frees_increasing ?_, fun node member => ?_⟩
  · simp only [Slab.objects, blockUnit]
    omega
  · have bounds := inside node member
    rw [next, ← counterpart_add bounds.1, read_copied_counterpart beside (by omega) (by omega)]
    rfl

end Copied

/-- Copying a slab goes well before what the copy has more is made free. -/
theorem Layout.ensures_transfer (layout : source.Layout shapes memory blocks)
    (beside : source.Beside target) :
    ∃ after, relink (source.relocate target)
        (memory.copyWords source.start target.start (source.size / wordBytes)) target.start
        Size.wordLimit =
          .ok (after, source.counterpart target (lastOr source.start (frees blocks))) ∧
      source.Transferred target blocks memory after := by
  have carried := layout.carried beside
  have start : source.counterpart target source.start = target.start := by
    simp [counterpart]
  obtain ⟨after, ran, links, outside⟩ := relink_eq_ok beside carried layout.frees_length_le
  rw [start] at ran
  refine ⟨after, ran, fun node member => links node ((source.mem_nodes blocks node).mpr member), ?_, ?_⟩
  · intro address lower upper clear
    rw [outside _ fun node member inLink => ?_, read_copied_counterpart beside lower upper]
    have := carried.inside node member
    refine clear ⟨node, (source.mem_nodes blocks node).mp member, ?_⟩
    simp only [counterpart] at inLink
    omega
  · intro address apart
    rw [outside _ fun node member inLink => ?_, read_copied beside, if_neg (by omega)]
    have := carried.inside node member
    simp only [counterpart, Slab.stop] at *
    omega

theorem frees_moveBlock (blocks : List Block) :
    frees (blocks.map (source.moveBlock target)) =
      (frees blocks).map fun entry => (source.counterpart target entry.1, entry.2) := by
  induction blocks with
  | nil => rfl
  | cons block rest ih =>
      simp only [List.map_cons, frees, moveBlock, ih]
      split <;> rfl

theorem lastOr_moved (before : Nat) (listed : List (Nat × Nat)) :
    lastOr (source.counterpart target before)
        (listed.map fun entry => (source.counterpart target entry.1, entry.2)) =
      source.counterpart target (lastOr before listed) := by
  induction listed generalizing before with
  | nil => rfl
  | cons head rest ih => exact ih head.1

theorem tiles_moveBlock {start stop : Nat} (lower : source.start ≤ start)
    (tiles : Tiles start blocks stop) :
    Tiles (source.counterpart target start) (blocks.map (source.moveBlock target))
      (source.counterpart target stop) := by
  induction blocks generalizing start with
  | nil => exact congrArg _ tiles
  | cons block rest ih =>
      obtain ⟨begins, large, whole, later⟩ := tiles
      refine ⟨congrArg (source.counterpart target) begins, large, whole, ?_⟩
      have ends : (source.moveBlock target block).stop = source.counterpart target block.stop := by
        simp only [moveBlock, Block.stop, counterpart]
        omega
      rw [ends]
      exact ih (by simp only [Block.stop]; omega) later

/-- A moved list holds the moved blocks. -/
theorem path_moved (positive : 0 < target.start)
    (path : Path memory node rest 0)
    (sizes : ∀ entry ∈ rest, FreeList.size after (source.counterpart target entry.1) = FreeList.size memory entry.1)
    (links : ∀ entry ∈ rest, next after (source.counterpart target entry.1) =
      source.moveLink target (next memory entry.1)) :
    Path after (source.moveLink target node)
      (rest.map fun entry => (source.counterpart target entry.1, entry.2)) 0 := by
  induction rest generalizing node with
  | nil =>
      obtain rfl : node = 0 := path
      rfl
  | cons head rest ih =>
      obtain ⟨rfl, present, sized, goesOn⟩ := path
      have here : source.moveLink target head.1 = source.counterpart target head.1 :=
        if_neg present
      rw [here]
      refine ⟨rfl, ?_, (sizes head List.mem_cons_self).trans sized, ?_⟩
      · simp only [counterpart]
        omega
      · rw [links head List.mem_cons_self]
        exact ih goesOn (fun entry member => sizes entry (List.mem_cons_of_mem _ member))
          fun entry member => links entry (List.mem_cons_of_mem _ member)

namespace Transferred

variable (layout : source.Layout shapes memory blocks)
  (transferred : source.Transferred target blocks memory after)

include layout transferred

theorem used (member : block ∈ blocks) (inUse : block.kind ≠ .free) (covers : block.Covers address) :
    after.read (source.counterpart target address) = memory.read address := by
  have bounds := layout.bounds member
  have ⟨lower, upper⟩ := covers
  simp only [Block.stop] at upper
  refine transferred.words address (by omega) (by omega) ?_
  rintro ⟨node, rfl | ⟨free, freeMember, isFree, rfl⟩, inLink⟩
  · omega
  · have freeBounds := layout.bounds freeMember
    have same := layout.tiles.eq_of_covers member freeMember covers
      ⟨by omega, by simp only [Block.stop]; omega⟩
    exact inUse (same ▸ isFree)

/-- Sizes of free blocks are copied, and that of the sentinel. -/
theorem size_eq (isNode : node = source.start ∨
      ∃ block ∈ blocks, block.kind = .free ∧ block.start = node) :
    FreeList.size after (source.counterpart target node) = FreeList.size memory node := by
  have large := layout.placed.large
  have aligned := layout.placed.startAligned
  simp only [minSlabSize, blockUnit] at large aligned
  have inside : source.start ≤ node ∧ node < source.stop ∧ node % 16 = 0 := by
    rcases isNode with rfl | ⟨block, member, _, rfl⟩
    · simp only [Slab.stop]
      omega
    · have := layout.bounds member
      omega
  refine congrArg UInt64.toNat (transferred.words node inside.1 inside.2.1 ?_)
  rintro ⟨other, rfl | ⟨block, member, _, rfl⟩, inLink⟩
  · omega
  · have := layout.bounds member
    omega

/-- A moved block is used for what the block is used for. -/
theorem fits_moved (member : block ∈ blocks) (inUse : block.kind ≠ .free) :
    (source.moveBlock target block).Fits shapes after := by
  have bounds := layout.bounds member
  have read (offset : Nat) (inside : offset < block.size) :
      after.read (source.counterpart target block.start + offset) =
        memory.read (block.start + offset) := by
    have place : source.counterpart target block.start + offset =
        source.counterpart target (block.start + offset) := by
      simp only [counterpart]
      omega
    rw [place]
    exact used layout transferred member inUse ⟨by omega, by simp only [Block.stop]; omega⟩
  have tag : after.tag (source.counterpart target block.start) = memory.tag block.start :=
    congrArg (fun word => (Header.ofWord word).tag) (read 0 (by omega))
  simp only [Block.Fits, moveBlock]
  cases kind : block.kind with
  | free => trivial
  | bare =>
      obtain ⟨unit, untagged⟩ := layout.bare member kind
      exact ⟨unit, tag.trans untagged⟩
  | object =>
      obtain ⟨shape, known, describes⟩ := layout.object member kind
      refine ⟨shape, by rw [tag]; exact known, describes.congr fun length listed => ?_⟩
      have place := (describes.lengthInside length listed).2
      exact read _ (by omega)

/-- The copy is divided as the slab is. -/
theorem layout_filled (beside : source.Beside target) :
    (source.filled target).Layout shapes after (blocks.map (source.moveBlock target)) := by
  have positive := beside.targetPlaced.startPositive
  have start : source.counterpart target source.start = target.start := by
    simp [counterpart]
  refine ⟨⟨beside.targetPlaced.startAligned, positive, beside.sourcePlaced.sizeAligned,
    beside.sourcePlaced.large, ?_⟩, ?_, ?_, ?_, ?_⟩
  · have bounded := beside.targetPlaced.bounded
    have large := beside.large
    simp only [Slab.stop, filled] at *
    omega
  · have first : source.counterpart target source.objects = (source.filled target).objects := by
      simp only [counterpart, Slab.objects, filled]
      omega
    have last : source.counterpart target source.stop = (source.filled target).stop := by
      simp only [counterpart, Slab.stop, filled]
      omega
    rw [← first, ← last]
    exact tiles_moveBlock (by simp only [Slab.objects]; omega) layout.tiles
  · have sentinel := size_eq layout transferred (.inl rfl)
    rw [start] at sentinel
    exact sentinel.trans layout.sentinel
  -- The free list begins in the sentinel, which was copied with its link moved.
  · have first := transferred.links source.start (.inl rfl)
    rw [start] at first
    have begins : (source.filled target).firstFree after =
        source.moveLink target (source.firstFree memory) := first
    rw [begins, frees_moveBlock]
    refine path_moved positive layout.listed (fun entry listed => ?_) fun entry listed => ?_
    · exact size_eq layout transferred (.inr ⟨_, mem_frees.mp listed, rfl, rfl⟩)
    · exact transferred.links _ (.inr ⟨_, mem_frees.mp listed, rfl, rfl⟩)
  · intro moved member
    obtain ⟨block, inBlocks, rfl⟩ := List.mem_map.mp member
    by_cases inUse : block.kind = .free
    · simp [Block.Fits, moveBlock, inUse]
    · exact fits_moved layout transferred inBlocks inUse

end Transferred

end Slab

end SlabHeap
