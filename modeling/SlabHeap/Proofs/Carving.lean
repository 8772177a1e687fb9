import SlabHeap.Heap.Allocation
import SlabHeap.Proofs.Action
import SlabHeap.Proofs.Release
import SlabHeap.Proofs.Tiling

namespace SlabHeap

/-! Taking blocks.

The first free block with room for a request is split: its start becomes storage without a header,
which is divided into units, and the rest stays free. `Slab.Layout.carve` says what memory shows then,
`Heap.Tiled.ensures_takeFrom` which slab the block comes from.
-/

open FreeList Block

namespace Block

/-- Storage without a header, in units. -/
def units (start : Nat) : Nat → List Block
  | 0 => []
  | count + 1 => ⟨start, blockUnit, .bare⟩ :: units (start + blockUnit) count

/-- The block as a slab shows it: storage without a header is divided into units. -/
def pieces (block : Block) : List Block :=
  match block.kind with
  | .bare => units block.start (block.size / blockUnit)
  | _ => [block]

variable {start count size : Nat} {block unit : Block} {front back blocks : List Block}

theorem mem_units : unit ∈ units start count ↔
    ∃ index < count, unit = ⟨start + blockUnit * index, blockUnit, .bare⟩ := by
  induction count generalizing start with
  | zero => simp [units]
  | succ count ih =>
      simp only [units, List.mem_cons, ih]
      constructor
      · rintro (rfl | ⟨index, inside, rfl⟩)
        · exact ⟨0, Nat.succ_pos count, by simp⟩
        · exact ⟨index + 1, Nat.succ_lt_succ inside, by rw [Nat.mul_succ]; congr 1; omega⟩
      · rintro ⟨index, inside, rfl⟩
        cases index with
        | zero => exact .inl (by simp)
        | succ index => exact .inr ⟨index, by omega, by rw [Nat.mul_succ]; congr 1; omega⟩

theorem tiles_units : Tiles start (units start count) (start + blockUnit * count) := by
  induction count generalizing start with
  | zero => rfl
  | succ count ih =>
      refine ⟨rfl, Nat.le_refl _, Nat.mod_self _, ?_⟩
      rw [Nat.mul_succ, Nat.add_comm (blockUnit * count), ← Nat.add_assoc]
      exact ih

theorem frees_units : frees (units start count) = [] := by
  induction count generalizing start with
  | zero => rfl
  | succ count ih => simp [units, frees, ih]

theorem tiles_pieces (large : blockUnit ≤ block.size) (whole : block.size % blockUnit = 0) :
    Tiles block.start block.pieces block.stop := by
  have covers : block.start + blockUnit * (block.size / blockUnit) = block.stop := by
    rw [Nat.mul_div_cancel' (Nat.dvd_of_mod_eq_zero whole)]
    rfl
  cases kind : block.kind with
  | free => simp only [pieces, kind]; exact ⟨rfl, large, whole, rfl⟩
  | object => simp only [pieces, kind]; exact ⟨rfl, large, whole, rfl⟩
  | bare =>
      simp only [pieces, kind]
      exact covers ▸ tiles_units

theorem used_pieces (inUse : block.kind ≠ .free) : used block.pieces = block.pieces := by
  cases kind : block.kind with
  | free => exact absurd kind inUse
  | object => simp [pieces, kind, used]
  | bare =>
      simp only [pieces, kind, used, List.filter_eq_self, mem_units]
      rintro _ ⟨index, _, rfl⟩
      rfl

theorem frees_pieces (inUse : block.kind ≠ .free) : frees block.pieces = [] := by
  cases kind : block.kind with
  | free => exact absurd kind inUse
  | object => simp [pieces, kind, frees]
  | bare => simp only [pieces, kind, frees_units]

/-- What a request leaves of a free block. -/
def rest (start size request : Nat) : List Block :=
  if request + blockUnit ≤ size then [⟨start + request, size - request, .free⟩] else []

theorem used_rest {request : Nat} : used (rest start size request) = [] := by
  simp only [rest]
  split
  · simp [used]
  · rfl

/-- The units that a request takes and what it leaves tile the block. -/
theorem tiles_carved {request : Nat} (whole : request % blockUnit = 0) (wholeSize : size % blockUnit = 0)
    (fits : request ≤ size) :
    Tiles start (units start (request / blockUnit) ++ rest start size request) (start + size) := by
  have tiles : Tiles start (units start (request / blockUnit)) _ := tiles_units
  rw [Nat.mul_div_cancel' (Nat.dvd_of_mod_eq_zero whole)] at tiles
  refine tiles.append ?_
  simp only [rest]
  split
  · refine ⟨rfl, ?_, ?_, ?_⟩ <;> simp only [Tiles, Block.stop, blockUnit] at * <;> omega
  · simp only [Tiles, blockUnit] at *
    omega

/-- Units of zeros are storage without a header. -/
theorem fits_carved {shapes : ShapeTable} {after : Memory} {request : Nat}
    (zero : ∀ address, start ≤ address → address < start + request → after.read address = 0) :
    ∀ block ∈ units start (request / blockUnit) ++ rest start size request, block.Fits shapes after := by
  intro block member
  rcases List.mem_append.mp member with isUnit | isRest
  · obtain ⟨index, inside, rfl⟩ := mem_units.mp isUnit
    refine ⟨rfl, ?_⟩
    have zero := zero (start + blockUnit * index) (by omega) (by
      simp only [blockUnit] at *
      omega)
    simp only [Memory.tag, Memory.header, zero]
    rfl
  · simp only [rest] at isRest
    split at isRest
    · obtain rfl := List.mem_singleton.mp isRest
      trivial
    · contradiction

/-- Where an entry stands in a free list, the block stands among the others. -/
theorem frees_eq_append {passed later : List (Nat × Nat)} {entry : Nat × Nat}
    (split : frees blocks = passed ++ entry :: later) :
    ∃ front back, blocks = front ++ ⟨entry.1, entry.2, .free⟩ :: back ∧ frees front = passed ∧
      frees back = later := by
  induction blocks generalizing passed with
  | nil => simp [frees] at split
  | cons block blocks ih =>
      simp only [frees] at split
      by_cases isFree : block.kind = .free
      · rw [if_pos isFree] at split
        cases passed with
        | nil =>
            obtain ⟨rfl, rest⟩ := List.cons.inj split
            exact ⟨[], blocks, by rw [← isFree]; rfl, rfl, rest⟩
        | cons head passed =>
            obtain ⟨rfl, rest⟩ := List.cons.inj split
            obtain ⟨front, back, rfl, before, behind⟩ := ih rest
            exact ⟨block :: front, back, rfl, by simp [frees, isFree, before], behind⟩
      · rw [if_neg isFree] at split
        obtain ⟨front, back, rfl, before, behind⟩ := ih split
        exact ⟨block :: front, back, rfl, by simp [frees, isFree, before], behind⟩

/-- Blocks in use part what lies on both sides of them. -/
theorem coalesced_around {middle : List Block} (inUse : ∀ block ∈ middle, block.kind ≠ .free)
    (some : middle ≠ []) :
    Coalesced (front ++ (middle ++ back)) ↔ Coalesced front ∧ Coalesced back := by
  have separated {left right : Block} (member : left ∈ middle ∨ right ∈ middle) :
      Separate left right := fun both =>
    member.elim (fun inMiddle => inUse left inMiddle both.1) fun inMiddle =>
      inUse right inMiddle both.2
  constructor
  · intro coalesced
    obtain ⟨before, behind, _⟩ := List.isChain_append.mp coalesced
    exact ⟨before, (List.isChain_append.mp behind).2.1⟩
  · rintro ⟨before, behind⟩
    have middleChain : Coalesced middle := by
      refine List.Pairwise.isChain (List.pairwise_iff_forall_sublist.mpr fun sublist => ?_)
      exact separated (.inl (sublist.subset (by simp)))
    refine List.isChain_append.mpr ⟨before, List.isChain_append.mpr ⟨middleChain, behind, ?_⟩, ?_⟩
    · exact fun left last right _ => separated (.inl (List.mem_of_mem_getLast? last))
    · intro left _ right first
      obtain ⟨head, others, rfl⟩ := List.exists_cons_of_ne_nil some
      cases first
      exact separated (.inr List.mem_cons_self)

/-- What is left of a free block touches no other one. -/
theorem Coalesced.rest {request : Nat} (coalesced : Coalesced (⟨start, size, .free⟩ :: back)) :
    Coalesced (rest start size request ++ back) := by
  obtain ⟨neighbour, after⟩ := List.isChain_cons.mp coalesced
  simp only [Block.rest]
  split
  · exact List.isChain_cons.mpr ⟨fun next first both => neighbour next first ⟨rfl, both.2⟩, after⟩
  · exact after

end Block

namespace Slab

variable {slab : Slab} {shapes : ShapeTable} {memory : Memory} {blocks front back : List Block}
  {start size request : Nat}

/-- A search ends at the first free block with room, if there is one. -/
theorem Layout.fit?_eq (layout : slab.Layout shapes memory blocks) (request : Nat) :
    ((∀ entry ∈ frees blocks, entry.2 < request) ∧ slab.fit? memory request = .ok none) ∨
      ∃ front start size back, blocks = front ++ ⟨start, size, .free⟩ :: back ∧
        (∀ entry ∈ frees front, entry.2 < request) ∧ request ≤ size ∧
        slab.fit? memory request = .ok (some ⟨start, lastOr slab.start (frees front),
          decide (request + blockUnit ≤ size)⟩) := by
  have bounded := layout.frees_length_le
  by_cases small : ∀ entry ∈ frees blocks, entry.2 < request
  · have none : firstFit? memory request slab.start (slab.firstFree memory) Size.wordLimit = none :=
      ((chain_iff_path.mpr layout.listed).firstFit?_eq_none_iff bounded).mpr small
    exact .inl ⟨small, by simp only [fit?, none]; rfl⟩
  · simp only [not_forall, Nat.not_lt] at small
    obtain ⟨entry, listed, fits⟩ := small
    -- The search along the list stops where a search among the blocks does.
    obtain ⟨found, foundSome⟩ : ∃ found, (frees blocks).find? (fun entry => request ≤ entry.2) =
        some found := Option.isSome_iff_exists.mp
      (List.find?_isSome.mpr ⟨entry, listed, decide_eq_true fits⟩)
    obtain ⟨room, passed, later, split, before⟩ := List.find?_eq_some_iff_append.mp foundSome
    obtain ⟨front, back, rfl, same, _⟩ := frees_eq_append split
    have listed := layout.listed
    rw [split] at listed
    have present : found ∈ passed ++ found :: later := by simp
    have member : ⟨found.1, found.2, .free⟩ ∈ front ++ ⟨found.1, found.2, .free⟩ :: back := by simp
    have sized := (listed.present present).2
    have bounds := layout.bounds member
    simp only [decide_eq_true_eq] at room
    have small : ∀ other ∈ passed, other.2 < request := fun other member => by
      simpa using before other member
    have reached : firstFit? memory request slab.start (slab.firstFree memory) Size.wordLimit =
        some (lastOr slab.start passed, found.1) := by
      refine listed.firstFit small room ?_
      · rw [split] at bounded
        simp only [List.length_append, List.length_cons] at bounded
        omega
    refine .inr ⟨front, found.1, found.2, back, rfl, same ▸ small, room, ?_⟩
    have small : request + blockUnit < Size.limit := by
      simp only [blockUnit] at *
      omega
    simp only [fit?, reached, Size.add_eq_ok small, sized, same]
    rfl

/-- A request was taken from the start of a free block behind the node `last`: the bytes are zero, and
the list goes on with what is left of the block, or with `following`. -/
structure Taken (memory after : Memory) (last start size request following : Nat) : Prop where
  zero : ∀ address, start ≤ address → address < start + request → after.read address = 0
  linked : FreeList.next after last =
    if request + blockUnit ≤ size then start + request else following
  sized : request + blockUnit ≤ size → FreeList.size after (start + request) = size - request
  goesOn : request + blockUnit ≤ size → FreeList.next after (start + request) = following
  same : ∀ address, ¬ (start ≤ address ∧ address < start + size) →
    ¬ (last + 8 ≤ address ∧ address < last + 16) → after.read address = memory.read address

theorem taken_carve {last : Nat} (startAligned : start % 16 = 0) (lastAligned : last % 16 = 0)
    (whole : request % 16 = 0) (positive : 0 < request) (fits : request ≤ size)
    (before : last + 16 ≤ start) (bounded : start + size < Size.limit)
    (sized : FreeList.size memory start = size) :
    Taken memory ((Fit.mk start last (decide (request + blockUnit ≤ size))).carve request memory)
      last start size request (FreeList.next memory start) := by
  have following : FreeList.next memory start < Size.limit := (memory.read (start + 8)).toNat_lt
  have words : 8 * (request / wordBytes) = request := by
    simp only [wordBytes]
    omega
  have filled (unlinked : Memory) (address : Nat) :
      (unlinked.fillWords 0 start (request / wordBytes)).read address =
        if start ≤ address ∧ address < start + request then 0 else unlinked.read address := by
    rw [Memory.read_fillWords _ _ (by omega), words]
  simp only [Fit.carve, sized, decide_eq_true_eq]
  -- What is left becomes a node of its own, or is given away with the request.
  by_cases splits : request + blockUnit ≤ size
  · simp only [splits, if_true]
    simp only [blockUnit] at splits
    generalize unlinks : setNext (writeNode memory (start + request) (size - request)
      (FreeList.next memory start)) last (start + request) = unlinked
    have read (address : Nat) (apart : ¬ (last + 8 ≤ address ∧ address < last + 16)) :
        unlinked.read address = (writeNode memory (start + request) (size - request)
          (FreeList.next memory start)).read address := by
      rw [← unlinks, read_setNext (by omega) apart]
    refine ⟨fun address lower upper => ?_, ?_, fun _ => ?_, fun _ => ?_, fun address out link => ?_⟩
    · rw [filled, if_pos ⟨lower, upper⟩]
    · rw [FreeList.next, filled, if_neg (by omega), ← FreeList.next, ← unlinks,
        next_setNext (by omega)]
      exact (if_pos splits).symm
    · rw [FreeList.size, filled, if_neg (by omega), read _ (by omega), ← FreeList.size,
        size_writeNode (by omega) (by omega) (by omega), if_pos rfl]
    · rw [FreeList.next, filled, if_neg (by omega), read _ (by omega), ← FreeList.next,
        next_writeNode (by omega) (by omega) following, if_pos rfl]
    · rw [filled, if_neg (by omega), read _ link, read_writeNode (by omega) (by omega)]
  · simp only [splits, if_false]
    refine ⟨fun address lower upper => ?_, ?_, fun absurdly => absurd absurdly splits,
      fun absurdly => absurd absurdly splits, fun address out link => ?_⟩
    · rw [filled, if_pos ⟨lower, upper⟩]
    · rw [FreeList.next, filled, if_neg (by omega), ← FreeList.next, next_setNext following]
      exact (if_neg splits).symm
    · rw [filled, if_neg (by omega), read_setNext (by omega) link]

/-- Where a request is taken from the start of a free block, units of zeros come to lie. -/
theorem Layout.take {after : Memory}
    (layout : slab.Layout shapes memory (front ++ ⟨start, size, .free⟩ :: back))
    (whole : request % blockUnit = 0) (positive : 0 < request) (fits : request ≤ size)
    (taken : Taken memory after (lastOr slab.start (frees front)) start size request
      (FreeList.next memory start)) :
    slab.Layout shapes after
        (front ++ (units start (request / blockUnit) ++ rest start size request ++ back)) ∧
      slab.Untouched memory after (front ++ back) := by
  have member : ⟨start, size, .free⟩ ∈ front ++ ⟨start, size, .free⟩ :: back := by simp
  have bounds := layout.bounds member
  obtain ⟨mid, frontTiles, begins, large, wholeSize, backTiles⟩ := Tiles.append_iff.mp layout.tiles
  simp only at begins bounds large wholeSize
  subst begins
  have stop : (⟨start, size, .free⟩ : Block).stop = start + size := rfl
  rw [stop] at backTiles
  obtain ⟨_, lower, _, upper⟩ := layout.lastOr_bounds frontTiles
  have divided : slab.Layout shapes memory (front ++ ([⟨start, size, .free⟩] ++ back)) := layout
  have follows : FreeList.next memory start = firstOr 0 (frees back) := by
    have listed : frees (front ++ ⟨start, size, .free⟩ :: back) =
        (frees front ++ [(start, size)]) ++ frees back := by simp [frees_append, frees]
    have linked := layout.next_behind listed
    rwa [lastOr_append] at linked
  have carved : Tiles start (units start (request / blockUnit) ++ Block.rest start size request) (start + size) :=
    tiles_carved whole wholeSize fits
  obtain ⟨frontKept, backKept⟩ := divided.keeps_beside frontTiles carved.le backTiles taken.same
  refine ⟨divided.replace frontTiles carved backTiles taken.same ?_ (fits_carved taken.zero), ?_, ?_⟩
  · rw [frees_append, frees_units, List.nil_append, taken.linked, follows]
    simp only [rest]
    split
    · next splits =>
      simp only [frees, if_true, FreeList.Path]
      exact ⟨trivial, by omega, taken.sized splits, (taken.goesOn splits).trans follows⟩
    · rfl
  · intro block member inUse
    rcases List.mem_append.mp member with inFront | inBack
    · exact frontKept block inFront inUse
    · exact backKept block inBack
  · intro address outside
    have := frontTiles.le
    have := backTiles.le
    simp only [Slab.objects, blockUnit] at *
    exact taken.same address (by omega) (by omega)

end Slab

namespace Heap

variable {heap : Heap} {memory mid after : Memory} {machine : Machine}
  {tiling taken : Slab → List Block} {block other : Block} {blocks : List Block} {slab : Slab}
  {request : Nat} {slabs : List Slab}

theorem Tiled.update (tiled : heap.Tiled memory tiling) (inHeap : slab ∈ heap.slabs)
    (layout : slab.Layout heap.shapes after blocks)
    (outside : ∀ address, address < slab.start ∨ slab.stop ≤ address →
      after.read address = memory.read address) :
    heap.Tiled after (Function.update tiling slab blocks) where
  layout other otherInHeap := by
    by_cases same : other = slab
    · subst same
      rw [Function.update_self]
      exact layout
    · rw [Function.update_of_ne same]
      refine (tiled.layout other otherInHeap).keep fun address lower upper => outside address ?_
      have apart := tiled.apart.forall otherInHeap inHeap same
      simp only [Slab.Apart] at apart
      omega
  apart := tiled.apart

/-- A block came into use, and all others are as they were. -/
structure Obtained (heap : Heap) (tiling taken : Slab → List Block) (memory after : Memory)
    (block : Block) : Prop where
  tiled : heap.Tiled after taken
  coalesced : ∀ slab ∈ heap.slabs, Coalesced (tiling slab) → Coalesced (taken slab)
  place : ∃ slab ∈ heap.slabs, ∃ front back,
    taken = Function.update tiling slab (front ++ (block.pieces ++ back)) ∧
      used (tiling slab) = used front ++ used back
  inUse : block.kind ≠ .free
  large : blockUnit ≤ block.size ∧ block.size % blockUnit = 0
  kept : ∀ other ∈ heap.blocks tiling, other.kind ≠ .free → other.Kept memory after
  outside : ∀ address, (∀ slab ∈ heap.slabs, address < slab.start ∨ slab.stop ≤ address) →
    after.read address = memory.read address

/-- A request that was taken from a free block of a slab came into use. -/
theorem Tiled.take {front back : List Block} {start size : Nat}
    (tiled : heap.Tiled memory tiling) (inHeap : slab ∈ heap.slabs)
    (split : tiling slab = front ++ ⟨start, size, .free⟩ :: back)
    (whole : request % blockUnit = 0) (positive : 0 < request) (fits : request ≤ size)
    (carved : Slab.Taken memory after (lastOr slab.start (frees front)) start size request
      (FreeList.next memory start)) :
    heap.Obtained tiling (Function.update tiling slab
        (front ++ (units start (request / blockUnit) ++ (rest start size request ++ back))))
      memory after ⟨start, request, .bare⟩ := by
  have layout := tiled.layout slab inHeap
  rw [split] at layout
  obtain ⟨divided, untouched⟩ := layout.take whole positive fits carved
  rw [List.append_assoc] at divided
  have usedHere : used (tiling slab) = used front ++ used (rest start size request ++ back) := by
    rw [split, used_append, used_append, used_rest]
    simp [used]
  refine ⟨tiled.update inHeap divided untouched.outside, ?_, ⟨slab, inHeap, front, _, rfl, usedHere⟩,
    by simp, ⟨?_, whole⟩, ?_, fun address outside => untouched.outside address (outside slab inHeap)⟩
  · intro other otherInHeap coalesced
    -- The units keep the remainder apart from the free blocks in front; the other slabs are as they
    -- were.
    by_cases same : other = slab
    · subst same
      rw [Function.update_self]
      rw [split] at coalesced
      obtain ⟨left, right, _⟩ := List.isChain_append.mp coalesced
      refine (coalesced_around (fun block member => ?_) ?_).mpr ⟨left, Coalesced.rest right⟩
      · obtain ⟨_, _, rfl⟩ := mem_units.mp member
        simp
      · intro empty
        have unit : ⟨start, blockUnit, .bare⟩ ∈ units start (request / blockUnit) :=
          mem_units.mpr ⟨0, by simp only [blockUnit] at *; omega, rfl⟩
        simp [empty] at unit
    · rw [Function.update_of_ne same]
      exact coalesced
  · simp only [blockUnit] at *
    omega
  · intro other member inUse
    obtain ⟨otherSlab, otherInHeap, inSlab⟩ := mem_blocks.mp member
    by_cases same : otherSlab = slab
    · subst same
      have inUsed := mem_used.mpr ⟨inSlab, inUse⟩
      rw [usedHere, used_append, used_rest, List.nil_append, ← used_append] at inUsed
      exact untouched.blocks other (mem_used.mp inUsed).1 inUse
    · intro address covers
      have within := tiled.slab_covers otherInHeap inSlab covers
      have apart := tiled.apart.forall otherInHeap inHeap same
      simp only [Slab.Apart] at apart
      exact untouched.outside address (by omega)

/-- The first free block with room for a request, in the order of slabs and of addresses, lies between
these blocks of the slab. -/
structure FirstFit (tiling : Slab → List Block) (slabs : List Slab) (request : Nat) (slab : Slab)
    (front : List Block) (start size : Nat) (back : List Block) : Prop where
  place : ∃ earlier later, slabs = earlier ++ slab :: later ∧
    ∀ other ∈ earlier, ∀ entry ∈ frees (tiling other), entry.2 < request
  split : tiling slab = front ++ ⟨start, size, .free⟩ :: back
  passed : ∀ entry ∈ frees front, entry.2 < request
  fits : request ≤ size

def carved (front : List Block) (start size request : Nat) (back : List Block) : List Block :=
  front ++ (units start (request / blockUnit) ++ (rest start size request ++ back))

/-- What is carved from a free block comes into use. -/
theorem Tiled.carve {front back : List Block} {start size : Nat} (tiled : heap.Tiled memory tiling)
    (inHeap : slab ∈ heap.slabs) (split : tiling slab = front ++ ⟨start, size, .free⟩ :: back)
    (whole : request % blockUnit = 0) (positive : 0 < request) (fits : request ≤ size)
    (after : Memory) (carves : after = (Slab.Fit.mk start (lastOr slab.start (frees front))
      (decide (request + blockUnit ≤ size))).carve request memory) :
    heap.Obtained tiling (Function.update tiling slab (carved front start size request back)) memory after
        ⟨start, request, .bare⟩ ∧
      ∀ address, start ≤ address → address < start + request → after.read address = 0 := by
  have layout := tiled.layout slab inHeap
  rw [split] at layout
  have member : ⟨start, size, .free⟩ ∈ front ++ ⟨start, size, .free⟩ :: back := by simp
  have listed : (start, size) ∈ frees (front ++ ⟨start, size, .free⟩ :: back) := mem_frees.mpr member
  have bounds := layout.bounds member
  obtain ⟨mid, frontTiles, begins, _⟩ := Tiles.append_iff.mp layout.tiles
  obtain ⟨_, _, lastAligned, before⟩ := layout.lastOr_bounds frontTiles
  have sized := (layout.listed.present listed).2
  simp only at bounds begins
  have taken := Slab.taken_carve bounds.2.2.2.2.1 lastAligned whole positive fits (by omega) (by omega) sized
  rw [← carves] at taken
  exact ⟨tiled.take inHeap split whole positive fits taken, taken.zero⟩

theorem Tiled.ensures_takeFirst (tiled : heap.Tiled machine.memory tiling)
    (whole : request % blockUnit = 0) (positive : 0 < request)
    (inHeap : ∀ slab ∈ slabs, slab ∈ heap.slabs) :
    (takeFrom request slabs).Ensures machine fun answer final => machine.Steady final ∧
      ((answer = none ∧ final = machine ∧
        ∀ slab ∈ slabs, ∀ entry ∈ frees (tiling slab), entry.2 < request) ∨
      ∃ slab front start size back, answer = some start ∧
        FirstFit tiling slabs request slab front start size back ∧
        heap.Obtained tiling (Function.update tiling slab (carved front start size request back))
          machine.memory final.memory ⟨start, request, .bare⟩ ∧
          ∀ address, start ≤ address → address < start + request →
            final.memory.read address = 0) := by
  induction slabs with
  | nil => exact Action.ensures_pure.mpr ⟨.refl machine, .inl ⟨rfl, rfl, by simp⟩⟩
  | cons slab rest ih =>
      have here := inHeap slab List.mem_cons_self
      have layout := tiled.layout slab here
      unfold takeFrom
      rw [Action.ensures_memory]
      rcases layout.fit?_eq request with
        ⟨small, none⟩ | ⟨front, start, size, back, split, passed, fits, found⟩
      · rw [Action.ensures_check none]
        refine (ih fun other member => inHeap other (List.mem_cons_of_mem _ member)).weaken ?_
        rintro answer final ⟨steady, ⟨rfl, rfl, others⟩ |
          ⟨found, front, start, size, back, rfl, fit, obtained⟩⟩
        · exact ⟨steady, .inl ⟨rfl, rfl, List.forall_mem_cons.mpr ⟨small, others⟩⟩⟩
        · obtain ⟨earlier, later, rfl, before⟩ := fit.place
          exact ⟨steady, .inr ⟨found, front, start, size, back, rfl,
            { fit with
              place := ⟨slab :: earlier, later, rfl, List.forall_mem_cons.mpr ⟨small, before⟩⟩ },
            obtained⟩⟩
      · have fit : FirstFit tiling (slab :: rest) request slab front start size back :=
          ⟨⟨[], rest, rfl, by simp⟩, split, passed, fits⟩
        obtain ⟨obtained, zero⟩ := tiled.carve here split whole positive fits _ rfl
        rw [Action.ensures_check found, Action.ensures_onMemory]
        exact Action.ensures_pure.mpr ⟨machine.steady_withMemory _, .inr ⟨slab, front, start, size,
          back, rfl, fit, obtained, zero⟩⟩

theorem Tiled.ensures_takeFrom (tiled : heap.Tiled machine.memory tiling)
    (whole : request % blockUnit = 0) (positive : 0 < request)
    (inHeap : ∀ slab ∈ slabs, slab ∈ heap.slabs) :
    (takeFrom request slabs).Ensures machine fun answer final => machine.Steady final ∧
      ((answer = none ∧ final = machine ∧
        ∀ slab ∈ slabs, ∀ entry ∈ frees (tiling slab), entry.2 < request) ∨
      ∃ start taken, answer = some start ∧
        heap.Obtained tiling taken machine.memory final.memory ⟨start, request, .bare⟩ ∧
          ∀ address, start ≤ address → address < start + request →
            final.memory.read address = 0) := by
  refine (tiled.ensures_takeFirst whole positive inHeap).weaken ?_
  rintro answer final ⟨steady, none | ⟨_, _, start, _, _, answered, _, obtained, zero⟩⟩
  · exact ⟨steady, .inl none⟩
  · exact ⟨steady, .inr ⟨start, _, answered, obtained, zero⟩⟩

end Heap

end SlabHeap
