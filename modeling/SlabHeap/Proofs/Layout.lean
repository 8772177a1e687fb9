import Mathlib.Algebra.GroupWithZero.Nat
import SlabHeap.Heap
import SlabHeap.Proofs.Description
import SlabHeap.Proofs.FreeChain

namespace SlabHeap

/-! How a slab is divided into blocks.

`Slab.Layout` says that behind its sentinel a slab is tiled by the blocks of its free list, by objects
that fit their blocks, and by units of storage without a header. Memory admits at most one such
division (`Layout.unique`), so that one may speak of the allocated objects of a slab.
-/

/-- What a block is used for. Storage without a header is divided into units of 16 bytes. -/
inductive BlockKind where
  | free
  | object
  | bare
  deriving DecidableEq, Repr

structure Block where
  start : Nat
  size : Nat
  kind : BlockKind
  deriving DecidableEq, Repr

namespace Block

def stop (block : Block) : Nat := block.start + block.size

def Covers (block : Block) (address : Nat) : Prop := block.start ≤ address ∧ address < block.stop

instance (block : Block) (address : Nat) : Decidable (block.Covers address) :=
  inferInstanceAs (Decidable (_ ∧ _))

/-- All words of the block are the same in two memories. -/
def Kept (memory after : Memory) (block : Block) : Prop :=
  ∀ address, block.Covers address → after.read address = memory.read address

/-- The free blocks among several, as a free list has them. -/
def frees : List Block → List (Nat × Nat)
  | [] => []
  | block :: rest =>
      if block.kind = .free then (block.start, block.size) :: frees rest else frees rest

theorem frees_append (left right : List Block) :
    frees (left ++ right) = frees left ++ frees right := by
  induction left with
  | nil => rfl
  | cons block rest ih =>
      simp only [List.cons_append, frees, ih]
      split <;> rfl

theorem mem_frees {blocks : List Block} {entry : Nat × Nat} :
    entry ∈ frees blocks ↔ ⟨entry.1, entry.2, .free⟩ ∈ blocks := by
  induction blocks with
  | nil => simp [frees]
  | cons block rest ih =>
      obtain ⟨start, size, kind⟩ := block
      cases kind <;> simp [frees, ih, Prod.ext_iff]

theorem frees_length_le (blocks : List Block) : (frees blocks).length ≤ blocks.length := by
  induction blocks with
  | nil => simp [frees]
  | cons block rest ih =>
      simp only [frees]
      split <;> simp only [List.length_cons] <;> omega

end Block

open Block

/-- The blocks follow each other without gaps from `start` to `stop`. -/
def Tiles (start : Nat) : List Block → Nat → Prop
  | [], stop => start = stop
  | block :: rest, stop =>
      block.start = start ∧ blockUnit ≤ block.size ∧ block.size % blockUnit = 0 ∧
        Tiles block.stop rest stop

namespace Tiles

variable {start mid stop : Nat} {block other : Block} {blocks left right rest : List Block}

theorem append_iff :
    Tiles start (left ++ right) stop ↔ ∃ mid, Tiles start left mid ∧ Tiles mid right stop := by
  induction left generalizing start with
  | nil => simp [Tiles]
  | cons block left ih =>
      simp only [List.cons_append, Tiles, ih]
      constructor
      · rintro ⟨begins, large, whole, mid, first, second⟩
        exact ⟨mid, ⟨begins, large, whole, first⟩, second⟩
      · rintro ⟨mid, ⟨begins, large, whole, first⟩, second⟩
        exact ⟨begins, large, whole, mid, first, second⟩

theorem append (first : Tiles start left mid) (second : Tiles mid right stop) :
    Tiles start (left ++ right) stop := append_iff.mpr ⟨mid, first, second⟩

theorem le (tiles : Tiles start blocks stop) : start ≤ stop := by
  induction blocks generalizing start with
  | nil => exact Nat.le_of_eq tiles
  | cons block rest ih =>
      obtain ⟨begins, _, _, later⟩ := tiles
      have := ih later
      simp only [Block.stop] at this
      omega

theorem bounds (tiles : Tiles start blocks stop) (member : block ∈ blocks) :
    start ≤ block.start ∧ block.stop ≤ stop ∧ 16 ≤ block.size ∧ block.size % 16 = 0 := by
  induction blocks generalizing start with
  | nil => contradiction
  | cons head rest ih =>
      obtain ⟨begins, large, whole, later⟩ := tiles
      rcases List.mem_cons.mp member with rfl | member
      · exact ⟨Nat.le_of_eq begins.symm, later.le, large, whole⟩
      · obtain ⟨lower, upper⟩ := ih later member
        refine ⟨?_, upper⟩
        simp only [Block.stop] at lower
        omega

theorem aligned (tiles : Tiles start blocks stop) (wholeStart : start % 16 = 0)
    (member : block ∈ blocks) : block.start % 16 = 0 ∧ block.stop % 16 = 0 := by
  induction blocks generalizing start with
  | nil => contradiction
  | cons head rest ih =>
      obtain ⟨begins, _, whole, later⟩ := tiles
      simp only [blockUnit] at whole
      have wholeStop : head.stop % 16 = 0 := by
        simp only [Block.stop]
        omega
      rcases List.mem_cons.mp member with rfl | member
      · exact ⟨begins ▸ wholeStart, wholeStop⟩
      · exact ih later wholeStop member

theorem ordered (tiles : Tiles start blocks stop) :
    blocks.Pairwise fun block other => block.stop ≤ other.start := by
  induction blocks generalizing start with
  | nil => exact .nil
  | cons head rest ih =>
      obtain ⟨_, _, _, later⟩ := tiles
      exact .cons (fun other member => (later.bounds member).1) (ih later)

theorem eq_of_covers {address : Nat} (tiles : Tiles start blocks stop) (member : block ∈ blocks)
    (otherMember : other ∈ blocks) (covers : block.Covers address)
    (otherCovers : other.Covers address) : block = other := by
  obtain ⟨lower, upper⟩ := covers
  obtain ⟨otherLower, otherUpper⟩ := otherCovers
  have apart := tiles.ordered
  induction blocks generalizing start with
  | nil => contradiction
  | cons head rest ih =>
      obtain ⟨_, _, _, later⟩ := tiles
      rw [List.pairwise_cons] at apart
      rcases List.mem_cons.mp member with rfl | inRest <;>
        rcases List.mem_cons.mp otherMember with rfl | otherInRest
      · rfl
      · have := apart.1 other otherInRest
        omega
      · have := apart.1 block inRest
        omega
      · exact ih later inRest otherInRest apart.2

theorem ne_of_mem (tiles : Tiles start (left ++ block :: right) stop)
    (member : other ∈ left ++ right) : other ≠ block := by
  rintro rfl
  have inside : other ∈ left ++ other :: right := by simp
  have large := (tiles.bounds inside).2.2.1
  obtain ⟨_, behind, before⟩ := List.pairwise_append.mp tiles.ordered
  have meets : other.stop ≤ other.start := by
    rcases List.mem_append.mp member with inLeft | inRight
    · exact before other inLeft other List.mem_cons_self
    · exact (List.pairwise_cons.mp behind).1 other inRight
  simp only [Block.stop] at meets
  omega

theorem start_covers (tiles : Tiles start blocks stop) (member : block ∈ blocks) :
    block.Covers block.start := by
  obtain ⟨_, _, large, _⟩ := tiles.bounds member
  exact ⟨Nat.le_refl _, by simp only [Block.stop]; omega⟩

theorem eq_of_start_eq (tiles : Tiles start blocks stop) (member : block ∈ blocks)
    (otherMember : other ∈ blocks) (same : block.start = other.start) : block = other :=
  tiles.eq_of_covers member otherMember (tiles.start_covers member)
    (same ▸ tiles.start_covers otherMember)

theorem covered {address : Nat} (tiles : Tiles start blocks stop) (lower : start ≤ address)
    (upper : address < stop) : ∃ block ∈ blocks, block.Covers address := by
  induction blocks generalizing start with
  | nil =>
      simp only [Tiles] at tiles
      omega
  | cons head rest ih =>
      obtain ⟨begins, _, _, later⟩ := tiles
      by_cases inside : address < head.stop
      · exact ⟨head, List.mem_cons_self, by omega, inside⟩
      · obtain ⟨block, member, covers⟩ := ih later (by omega)
        exact ⟨block, List.mem_cons_of_mem _ member, covers⟩

theorem length_le (tiles : Tiles start blocks stop) : start + 16 * blocks.length ≤ stop := by
  induction blocks generalizing start with
  | nil => simpa [Tiles] using Nat.le_of_eq tiles
  | cons head rest ih =>
      obtain ⟨begins, large, _, later⟩ := tiles
      have := ih later
      simp only [Block.stop, blockUnit, List.length_cons] at *
      omega

/-- Some of the blocks take no more room than there is. -/
theorem sum_filter_le (tiles : Tiles start blocks stop) (chosen : Block → Bool) :
    start + ((blocks.filter chosen).map Block.size).sum ≤ stop := by
  induction blocks generalizing start with
  | nil => simpa [Tiles] using Nat.le_of_eq tiles
  | cons head rest ih =>
      obtain ⟨begins, _, _, later⟩ := tiles
      have fits := ih later
      simp only [Block.stop] at fits
      rw [List.filter_cons]
      split
      · simp only [List.map_cons, List.sum_cons]
        omega
      · omega

theorem whole (tiles : Tiles start blocks stop) : (stop - start) % 16 = 0 := by
  induction blocks generalizing start with
  | nil =>
      simp only [Tiles] at tiles
      omega
  | cons head rest ih =>
      obtain ⟨begins, _, wholeHead, later⟩ := tiles
      have := ih later
      have := later.le
      simp only [Block.stop, blockUnit] at *
      omega

theorem ends_eq {other otherStop : Nat} (tiles : Tiles start blocks stop)
    (again : Tiles other blocks otherStop) (some : blocks ≠ []) :
    start = other ∧ stop = otherStop := by
  induction blocks generalizing start other with
  | nil => contradiction
  | cons head rest ih =>
      obtain ⟨begins, _, _, later⟩ := tiles
      obtain ⟨otherBegins, _, _, otherLater⟩ := again
      refine ⟨begins.symm.trans otherBegins, ?_⟩
      cases rest with
      | nil => exact later.symm.trans otherLater
      | cons next others => exact (ih later otherLater (List.cons_ne_nil _ _)).2

theorem frees_ordered (tiles : Tiles start blocks stop) :
    (frees blocks).Pairwise fun block other => block.1 + block.2 ≤ other.1 := by
  have ordered := tiles.ordered
  clear tiles
  induction blocks with
  | nil => exact .nil
  | cons head rest ih =>
      rw [List.pairwise_cons] at ordered
      simp only [frees]
      split
      · refine .cons (fun entry member => ?_) (ih ordered.2)
        exact ordered.1 _ (mem_frees.mp member)
      · exact ih ordered.2

theorem frees_bounds (tiles : Tiles start blocks stop) {entry : Nat × Nat}
    (member : entry ∈ frees blocks) :
    start ≤ entry.1 ∧ entry.1 + entry.2 ≤ stop ∧ 16 ≤ entry.2 ∧ entry.2 % 16 = 0 :=
  tiles.bounds (mem_frees.mp member)

theorem frees_increasing (tiles : Tiles start blocks stop) {before : Nat} (behind : before < start) :
    (before :: (frees blocks).map (·.1)).Pairwise (· < ·) := by
  refine .cons ?_ ?_
  · intro address member
    obtain ⟨entry, listed, rfl⟩ := List.mem_map.mp member
    have := (tiles.frees_bounds listed).1
    omega
  · refine List.pairwise_map.mpr (tiles.frees_ordered.imp_of_mem ?_)
    intro entry other member _ ordered
    have := (tiles.frees_bounds member).2.2.1
    omega

end Tiles

/-- Where slabs lie: blocks and addresses fit into words. -/
structure Slab.Placed (slab : Slab) : Prop where
  startAligned : slab.start % blockUnit = 0
  startPositive : 0 < slab.start
  sizeAligned : slab.size % blockUnit = 0
  large : minSlabSize ≤ slab.size
  bounded : slab.stop < Size.limit

/-- Memory shows the block to be what it is used for. -/
def Block.Fits (shapes : ShapeTable) (memory : Memory) (block : Block) : Prop :=
  match block.kind with
  | .free => True
  | .object => ∃ shape, shapes.get? (memory.tag block.start) = some shape ∧
      shape.Describes memory block.start block.size
  | .bare => block.size = blockUnit ∧ memory.tag block.start = 0

/-- The blocks tile the slab, the free ones are listed in address order, objects fit their blocks,
and bare units carry no tag. -/
structure Slab.Layout (slab : Slab) (shapes : ShapeTable) (memory : Memory) (blocks : List Block) :
    Prop where
  placed : slab.Placed
  tiles : Tiles slab.objects blocks slab.stop
  sentinel : FreeList.size memory slab.start = 0
  listed : FreeList.Path memory (slab.firstFree memory) (frees blocks) 0
  fits : ∀ block ∈ blocks, block.Fits shapes memory

theorem Slab.contains_iff {slab : Slab} {address : Nat} :
    slab.contains address = true ↔ slab.start + 16 ≤ address ∧ address < slab.stop := by
  rw [Slab.contains, Bool.and_eq_true, decide_eq_true_eq, decide_eq_true_eq, Slab.objects, blockUnit]

namespace Slab.Layout

variable {slab : Slab} {shapes : ShapeTable} {memory after : Memory} {block other : Block}
  {blocks others : List Block}

theorem objectsAligned (layout : slab.Layout shapes memory blocks) : slab.objects % 16 = 0 := by
  have := layout.placed.startAligned
  simp only [Slab.objects, blockUnit] at *
  omega

/-- Blocks lie behind the sentinel, in whole units, before the end of the slab. -/
theorem bounds (layout : slab.Layout shapes memory blocks) (member : block ∈ blocks) :
    slab.start + 16 ≤ block.start ∧ block.start + block.size ≤ slab.stop ∧ 16 ≤ block.size ∧
      block.size % 16 = 0 ∧ block.start % 16 = 0 ∧ slab.stop < Size.limit := by
  obtain ⟨lower, upper, large, whole⟩ := layout.tiles.bounds member
  exact ⟨lower, upper, large, whole, (layout.tiles.aligned layout.objectsAligned member).1,
    layout.placed.bounded⟩

theorem contains (layout : slab.Layout shapes memory blocks) (member : block ∈ blocks) :
    slab.contains block.start = true := by
  obtain ⟨lower, upper, large, _⟩ := layout.bounds member
  exact Slab.contains_iff.mpr (by omega)

theorem length_lt (layout : slab.Layout shapes memory blocks) :
    blocks.length < slab.stepBound := by
  have := layout.tiles.length_le
  simp only [Slab.objects, Slab.stop, Slab.stepBound, blockUnit, wordBytes] at *
  omega

theorem frees_length_le (layout : slab.Layout shapes memory blocks) :
    (frees blocks).length ≤ Size.wordLimit := by
  have := Block.frees_length_le blocks
  have := layout.tiles.length_le
  have := layout.placed.bounded
  simp only [Size.wordLimit, Size.limit, wordBytes] at *
  omega

theorem object (layout : slab.Layout shapes memory blocks) (member : block ∈ blocks)
    (isObject : block.kind = .object) :
    ∃ shape, shapes.get? (memory.tag block.start) = some shape ∧
      shape.Describes memory block.start block.size := by
  have fits := layout.fits block member
  simp only [Block.Fits, isObject] at fits
  exact fits

theorem bare (layout : slab.Layout shapes memory blocks) (member : block ∈ blocks)
    (isBare : block.kind = .bare) : block.size = blockUnit ∧ memory.tag block.start = 0 := by
  have fits := layout.fits block member
  simp only [Block.Fits, isBare] at fits
  exact fits

theorem congr (layout : slab.Layout shapes memory blocks)
    (sentinel : after.read slab.start = memory.read slab.start ∧
      after.read (slab.start + 8) = memory.read (slab.start + 8))
    (nodes : ∀ block ∈ blocks, block.kind = .free →
      after.read block.start = memory.read block.start ∧
        after.read (block.start + 8) = memory.read (block.start + 8))
    (fits : ∀ block ∈ blocks, block.Fits shapes after) :
    slab.Layout shapes after blocks where
  placed := layout.placed
  tiles := layout.tiles
  sentinel := by
    rw [FreeList.size, sentinel.1]
    exact layout.sentinel
  listed := by
    rw [Slab.firstFree, FreeList.next, sentinel.2]
    exact layout.listed.congr fun entry member => nodes _ (mem_frees.mp member) rfl
  fits := fits

/-- A layout depends on the shapes of the objects that there are. -/
theorem refit {others : ShapeTable} (layout : slab.Layout shapes memory blocks)
    (same : ∀ block ∈ blocks, block.kind = .object →
      others.get? (memory.tag block.start) = shapes.get? (memory.tag block.start)) :
    slab.Layout others memory blocks where
  placed := layout.placed
  tiles := layout.tiles
  sentinel := layout.sentinel
  listed := layout.listed
  fits block member := by
    have fits := layout.fits block member
    cases kind : block.kind with
    | free => simp only [Block.Fits, kind]
    | bare =>
        simp only [Block.Fits, kind] at fits ⊢
        exact fits
    | object =>
        simp only [Block.Fits, kind] at fits ⊢
        rwa [same block member kind]

end Slab.Layout

/-- Two memories agree on what a block in use is used for: on its tag and its length words. -/
structure Block.Alike (shapes : ShapeTable) (memory after : Memory) (block : Block) : Prop where
  tag : after.tag block.start = memory.tag block.start
  lengths : block.kind = .object → ∀ shape,
    shapes.get? (memory.tag block.start) = some shape → ∀ length ∈ shape.lengths,
      after.read (block.start + length.offset) = memory.read (block.start + length.offset)

theorem Block.Alike.refl (shapes : ShapeTable) (memory : Memory) (block : Block) : block.Alike shapes memory memory :=
  ⟨rfl, fun _ _ _ _ _ => rfl⟩

theorem Block.Alike.trans {shapes : ShapeTable} {memory mid after : Memory} {block : Block}
    (first : block.Alike shapes memory mid) (second : block.Alike shapes mid after) :
    block.Alike shapes memory after :=
  ⟨second.tag.trans first.tag, fun isObject shape known length listed =>
    (second.lengths isObject shape (first.tag ▸ known) length listed).trans
      (first.lengths isObject shape known length listed)⟩

theorem Block.Fits.congr {shapes : ShapeTable} {memory after : Memory} {block : Block}
    (fits : block.Fits shapes memory)
    (alike : block.kind ≠ .free → block.Alike shapes memory after) :
    block.Fits shapes after := by
  obtain ⟨start, size, kind⟩ := block
  cases kind with
  | free => trivial
  | object =>
      obtain ⟨shape, known, describes⟩ := fits
      obtain ⟨tag, lengths⟩ := alike (by simp)
      exact ⟨shape, by rw [tag]; exact known, describes.congr (lengths rfl shape known)⟩
  | bare =>
      obtain ⟨unit, untagged⟩ := fits
      exact ⟨unit, by rw [(alike (by simp)).tag]; exact untagged⟩

/-- A block stays what it is while its words but for the header stay the same, and the tag. -/
theorem Block.Fits.alike {shapes : ShapeTable} {memory after : Memory} {block : Block}
    (fits : block.Fits shapes memory) (tag : after.tag block.start = memory.tag block.start)
    (kept : ∀ address, block.start + 8 ≤ address → address < block.stop →
      after.read address = memory.read address) : block.Alike shapes memory after where
  tag := tag
  lengths isObject shape known length member := by
    simp only [Block.Fits, isObject] at fits
    obtain ⟨found, foundKnown, describes⟩ := fits
    obtain rfl := Option.some.inj (foundKnown.symm.trans known)
    obtain ⟨_, lower, upper⟩ := describes.lengthInside length member
    exact kept _ (by omega) (by simp only [Block.stop]; omega)

theorem Block.Kept.alike {shapes : ShapeTable} {memory after : Memory} {block : Block}
    (kept : block.Kept memory after) (fits : block.Fits shapes memory) (large : 16 ≤ block.size) :
    block.Alike shapes memory after := by
  have first : after.read block.start = memory.read block.start :=
    kept _ ⟨Nat.le_refl _, by simp only [Block.stop]; omega⟩
  refine fits.alike (by simp only [Memory.tag, Memory.header, first]) fun address lower upper => ?_
  exact kept address ⟨by omega, upper⟩

/-- A block is as it was if its header is, and what lies behind it. -/
theorem Block.Kept.of_header {memory after : Memory} {block : Block}
    (aligned : block.start % 16 = 0)
    (header : after.header block.start = memory.header block.start)
    (contents : ∀ address, block.start + 8 ≤ address → address < block.stop →
      after.read address = memory.read address) : block.Kept memory after := by
  rintro address ⟨lower, upper⟩
  by_cases first : address < block.start + 8
  · have words (memory : Memory) : (memory.header block.start).toWord = memory.read address := by
      rw [Memory.header, Header.toWord_ofWord]
      exact memory.read_congr (by omega)
    rw [← words, ← words, header]
  · exact contents address (by omega) upper

/-- Memory and the free list tell how large a block is and what it is used for. -/
theorem Block.Fits.eq {shapes : ShapeTable} {memory : Memory} {block other : Block}
    (fits : block.Fits shapes memory) (otherFits : other.Fits shapes memory)
    (same : block.start = other.start) (listed : block.kind = .free ↔ other.kind = .free)
    (sized : block.kind = .free → block.size = other.size) : block = other := by
  obtain ⟨start, size, kind⟩ := block
  obtain ⟨otherStart, otherSize, otherKind⟩ := other
  simp only at same
  subst same
  cases kind <;> cases otherKind <;>
    simp only [reduceCtorEq, iff_true, iff_false, not_true] at listed
  case free.free => rw [Block.mk.injEq]; exact ⟨rfl, sized rfl, rfl⟩
  case object.object =>
    obtain ⟨shape, known, describes⟩ := fits
    obtain ⟨otherShape, otherKnown, otherDescribes⟩ := otherFits
    obtain rfl := Option.some.inj (known.symm.trans otherKnown)
    rw [Block.mk.injEq]
    exact ⟨rfl, Option.some.inj (describes.sized.symm.trans otherDescribes.sized), rfl⟩
  case object.bare =>
    obtain ⟨shape, known, _⟩ := fits
    have untagged : memory.tag start = 0 := otherFits.2
    simp [untagged] at known
  case bare.object =>
    obtain ⟨shape, known, _⟩ := otherFits
    have untagged : memory.tag start = 0 := fits.2
    simp [untagged] at known
  case bare.bare =>
    rw [Block.mk.injEq]
    exact ⟨rfl, fits.1.trans otherFits.1.symm, rfl⟩

theorem Tiles.unique {shapes : ShapeTable} {memory : Memory} {start stop : Nat}
    {blocks others : List Block} (tiles : Tiles start blocks stop)
    (otherTiles : Tiles start others stop) (sameFree : frees blocks = frees others)
    (fits : ∀ block ∈ blocks, block.Fits shapes memory)
    (otherFits : ∀ block ∈ others, block.Fits shapes memory) : blocks = others := by
  induction blocks generalizing start others with
  | nil =>
      cases others with
      | nil => rfl
      | cons other rest =>
          have := otherTiles.length_le
          simp only [Tiles, List.length_cons] at *
          omega
  | cons block rest ih =>
      cases others with
      | nil =>
          have := tiles.length_le
          simp only [Tiles, List.length_cons] at *
          omega
      | cons other otherRest =>
          have begins : block.start = other.start := tiles.1.trans otherTiles.1.symm
          -- The free list tells where a free block is. Other blocks are as long as their headers
          -- say.
          have freeHere : block.kind = .free → block = other := by
            intro isFree
            have listed : (block.start, block.size) ∈ frees (other :: otherRest) := by
              rw [← sameFree]
              simp [frees, isFree]
            have found := otherTiles.eq_of_start_eq (mem_frees.mp listed) List.mem_cons_self begins
            rw [← found, ← isFree]
          have freeThere : other.kind = .free → block = other := by
            intro isFree
            have listed : (other.start, other.size) ∈ frees (block :: rest) := by
              rw [sameFree]
              simp [frees, isFree]
            have found := tiles.eq_of_start_eq (mem_frees.mp listed) List.mem_cons_self begins.symm
            rw [← found, ← isFree]
          have same : block = other :=
            (fits block List.mem_cons_self).eq (otherFits other List.mem_cons_self) begins
              ⟨fun isFree => freeHere isFree ▸ isFree, fun isFree => freeThere isFree ▸ isFree⟩
              fun isFree => congrArg Block.size (freeHere isFree)
          subst same
          have restFree : frees rest = frees otherRest := by
            simp only [frees] at sameFree
            split at sameFree
            · exact (List.cons.inj sameFree).2
            · exact sameFree
          rw [ih tiles.2.2.2 otherTiles.2.2.2 restFree
            (fun block member => fits block (List.mem_cons_of_mem _ member))
            (fun block member => otherFits block (List.mem_cons_of_mem _ member))]

/-- A slab is divided in one way only. -/
theorem Slab.Layout.unique {slab : Slab} {shapes : ShapeTable} {memory : Memory}
    {blocks others : List Block} (layout : slab.Layout shapes memory blocks)
    (again : slab.Layout shapes memory others) : blocks = others := by
  have sameFree := (FreeList.chain_iff_path.mpr layout.listed).unique
    (FreeList.chain_iff_path.mpr again.listed)
  exact layout.tiles.unique again.tiles sameFree layout.fits again.fits

namespace Slab.Layout

open FreeList

variable {slab : Slab} {shapes : ShapeTable} {memory after : Memory} {block : Block}
  {blocks front old new back : List Block} {low high : Nat}

/-- The last free block of a front part, or the sentinel, lies in front of what follows. -/
theorem lastOr_bounds (layout : slab.Layout shapes memory blocks)
    (tiles : Tiles slab.objects front low) :
    (lastOr slab.start (frees front) = slab.start ∨
      ∃ block ∈ front, block.kind = .free ∧ block.start = lastOr slab.start (frees front)) ∧
    slab.start ≤ lastOr slab.start (frees front) ∧
      lastOr slab.start (frees front) % 16 = 0 ∧ lastOr slab.start (frees front) + 16 ≤ low := by
  have aligned := layout.placed.startAligned
  have lower := tiles.le
  rcases lastOr_mem slab.start (frees front) with same | ⟨entry, member, found⟩
  · refine ⟨.inl same, ?_⟩
    simp only [same, Slab.objects, blockUnit] at *
    omega
  · have inFront := mem_frees.mp member
    have bounds := tiles.bounds inFront
    have whole := (tiles.aligned layout.objectsAligned inFront).1
    refine ⟨.inr ⟨_, inFront, rfl, found⟩, ?_⟩
    rw [← found]
    simp only [Slab.objects, Block.stop, blockUnit] at *
    omega

/-- Where part of a slab is divided anew, blocks in use on both sides of it keep their words. -/
theorem keeps_beside (layout : slab.Layout shapes memory (front ++ (old ++ back)))
    (frontTiles : Tiles slab.objects front low) (ordered : low ≤ high)
    (backTiles : Tiles high back slab.stop)
    (same : ∀ address, ¬ (low ≤ address ∧ address < high) →
      ¬ (lastOr slab.start (frees front) + 8 ≤ address ∧
        address < lastOr slab.start (frees front) + 16) →
      after.read address = memory.read address) :
    (∀ block ∈ front, block.kind ≠ .free → block.Kept memory after) ∧
      ∀ block ∈ back, block.Kept memory after := by
  obtain ⟨which, lower, _, upper⟩ := layout.lastOr_bounds frontTiles
  generalize lastOr slab.start (frees front) = last at *
  constructor
  · intro block member used address covers
    have bounds := frontTiles.bounds member
    refine same address ?_ ?_
    · simp only [Block.Covers] at covers
      omega
    · intro inLink
      rcases which with isSentinel | ⟨free, freeMember, isFree, begins⟩
      · simp only [Block.Covers, Slab.objects, blockUnit] at *
        omega
      · have size := (frontTiles.bounds freeMember).2.2.1
        have equal := frontTiles.eq_of_covers member freeMember covers
          ⟨by omega, by simp only [Block.stop]; omega⟩
        exact used (equal ▸ isFree)
  · intro block member address covers
    have bounds := backTiles.bounds member
    simp only [Block.Covers] at covers
    exact same address (by omega) (by omega)

/-- Part of a slab is divided anew: only the words of that part and the link that leads into it may
change. -/
theorem replace (layout : slab.Layout shapes memory (front ++ (old ++ back)))
    (frontTiles : Tiles slab.objects front low) (newTiles : Tiles low new high)
    (backTiles : Tiles high back slab.stop)
    (same : ∀ address, ¬ (low ≤ address ∧ address < high) →
      ¬ (lastOr slab.start (frees front) + 8 ≤ address ∧
        address < lastOr slab.start (frees front) + 16) →
      after.read address = memory.read address)
    (goesOn : Path after (next after (lastOr slab.start (frees front))) (frees new)
      (firstOr 0 (frees back)))
    (fits : ∀ block ∈ new, block.Fits shapes after) :
    slab.Layout shapes after (front ++ (new ++ back)) := by
  obtain ⟨frontKept, backKept⟩ := layout.keeps_beside frontTiles newTiles.le backTiles same
  obtain ⟨_, lower, _, upper⟩ := layout.lastOr_bounds frontTiles
  generalize whole : lastOr slab.start (frees front) = last at *
  -- Of the nodes in front, only the link of the last one may change.
  have nodeKept : ∀ entry ∈ frees front, after.read entry.1 = memory.read entry.1 ∧
      (entry.1 ≠ last → after.read (entry.1 + 8) = memory.read (entry.1 + 8)) := by
    intro entry member
    have bounds := frontTiles.frees_bounds member
    have entryAligned := (frontTiles.aligned layout.objectsAligned (mem_frees.mp member)).1
    simp only [Slab.objects, blockUnit] at *
    exact ⟨same _ (by omega) (by omega), fun other => same _ (by omega) (by omega)⟩
  have tilesFront := frontTiles.le
  refine ⟨layout.placed, frontTiles.append (newTiles.append backTiles), ?_, ?_, ?_⟩
  · rw [FreeList.size, same slab.start (by simp only [Slab.objects, blockUnit] at *; omega)
      (by omega)]
    exact layout.sentinel
  · have listed := layout.listed
    rw [frees_append, frees_append, path_append] at listed
    obtain ⟨mid, pathFront, pathRest⟩ := listed
    obtain ⟨_, _, pathBack⟩ := path_append.mp pathRest
    rw [pathBack.start_eq] at pathBack
    rw [frees_append, frees_append]
    have increasing : (slab.start :: (frees front).map (·.1)).Pairwise (· < ·) :=
      frontTiles.frees_increasing (by simp only [Slab.objects, blockUnit]; omega)
    refine pathFront.splice (fun entry member => ?_) ?_ increasing ?_
    · rw [FreeList.size, FreeList.size, (nodeKept entry member).1]
    · rintro link (rfl | ⟨entry, member, rfl⟩) other
      · rw [whole] at other
        rw [next, next, same _ (by simp only [Slab.objects, blockUnit] at *; omega) (by omega)]
      · rw [whole] at other
        rw [next, next, (nodeKept entry member).2 other]
    · rw [whole]
      refine path_append.mpr ⟨_, goesOn, pathBack.congr fun entry member => ?_⟩
      have inBack := mem_frees.mp member
      have size := (backTiles.frees_bounds member).2.2.1
      refine ⟨backKept _ inBack _ ?_, backKept _ inBack _ ?_⟩ <;>
        simp only [Block.Covers, Block.stop] <;> omega
  · intro block member
    rcases List.mem_append.mp member with inFront | inRest
    · by_cases used : block.kind = .free
      · simp [Block.Fits, used]
      · have fits := layout.fits block (List.mem_append_left _ inFront)
        exact fits.congr fun used =>
          (frontKept block inFront used).alike fits (frontTiles.bounds inFront).2.2.1
    · rcases List.mem_append.mp inRest with inNew | inBack
      · exact fits block inNew
      · have wasThere : block ∈ front ++ (old ++ back) :=
          List.mem_append_right _ (List.mem_append_right _ inBack)
        have fits := layout.fits block wasThere
        exact fits.congr fun _ => (backKept block inBack).alike fits (backTiles.bounds inBack).2.2.1

/-- A layout depends on the words outside the blocks in use, on tags and on length words. -/
theorem congr_used (layout : slab.Layout shapes memory blocks)
    (same : ∀ address, slab.start ≤ address → address < slab.stop →
      (∀ block ∈ blocks, block.kind ≠ .free → ¬ block.Covers address) →
      after.read address = memory.read address)
    (alike : ∀ block ∈ blocks, block.kind ≠ .free → block.Alike shapes memory after) :
    slab.Layout shapes after blocks := by
  have large := layout.placed.large
  have sentinel : ∀ address, slab.start ≤ address → address < slab.start + 16 →
      after.read address = memory.read address := by
    intro address lower upper
    refine same address lower (by simp only [Slab.stop, minSlabSize] at *; omega) ?_
    intro block member _ covers
    have bounds := (layout.bounds member).1
    simp only [Block.Covers] at covers
    omega
  have nodes : ∀ block ∈ blocks, block.kind = .free → ∀ address, block.Covers address →
      after.read address = memory.read address := by
    intro block member isFree address covers
    have bounds := layout.bounds member
    have ⟨lower, upper⟩ := covers
    simp only [Block.stop] at upper
    refine same address (by omega) (by omega) fun other otherMember inUse otherCovers => ?_
    exact inUse (layout.tiles.eq_of_covers otherMember member otherCovers covers ▸ isFree)
  refine layout.congr ⟨sentinel _ (by omega) (by omega), sentinel _ (by omega) (by omega)⟩ ?_ ?_
  · intro block member isFree
    have size := (layout.bounds member).2.2.1
    exact ⟨nodes block member isFree _ ⟨by omega, by simp only [Block.stop]; omega⟩,
      nodes block member isFree _ ⟨by omega, by simp only [Block.stop]; omega⟩⟩
  · intro block member
    exact (layout.fits block member).congr (alike block member)

/-- A layout lasts while the words of its slab stay the same. -/
theorem keep (layout : slab.Layout shapes memory blocks)
    (same : ∀ address, slab.start ≤ address → address < slab.stop →
      after.read address = memory.read address) : slab.Layout shapes after blocks := by
  refine layout.congr_used (fun address lower upper _ => same address lower upper) ?_
  intro block member _
  obtain ⟨lower, upper, large, _⟩ := layout.bounds member
  refine Block.Kept.alike (fun address covers => ?_) (layout.fits block member) large
  simp only [Block.Covers, Block.stop] at covers
  exact same address (by omega) (by omega)

/-- The words of a block in use may change, but for its tag and its length words. -/
theorem change (layout : slab.Layout shapes memory blocks) (member : block ∈ blocks)
    (inUse : block.kind ≠ .free)
    (elsewhere : ∀ address, ¬ block.Covers address → after.read address = memory.read address)
    (alike : block.Alike shapes memory after) : slab.Layout shapes after blocks := by
  refine layout.congr_used (fun address _ _ outside => elsewhere address (outside block member inUse))
    ?_
  intro other otherMember _
  by_cases same : other = block
  · exact same ▸ alike
  · refine Block.Kept.alike (fun address covers => elsewhere address fun inside => same ?_)
      (layout.fits other otherMember) (layout.bounds otherMember).2.2.1
    exact layout.tiles.eq_of_covers otherMember member covers inside

/-- Changing the header of a block leaves the other blocks alone. -/
theorem kept_setHeader (layout : slab.Layout shapes memory blocks) (member : block ∈ blocks)
    (otherMember : other ∈ blocks) (distinct : other ≠ block) (header : Header) :
    other.Kept memory (memory.setHeader block.start header) := by
  obtain ⟨_, _, large, _, aligned, _⟩ := layout.bounds member
  refine fun address covers => Memory.read_setHeader (by omega) fun inside => distinct ?_
  exact layout.tiles.eq_of_covers otherMember member covers
    ⟨inside.1, by simp only [Block.stop]; omega⟩

/-- The header of a block in use may change as long as its tag does not. -/
theorem setHeader (layout : slab.Layout shapes memory blocks) (member : block ∈ blocks)
    (inUse : block.kind ≠ .free) {header : Header}
    (sameTag : header.tag = memory.tag block.start) :
    slab.Layout shapes (memory.setHeader block.start header) blocks := by
  obtain ⟨_, _, large, _, aligned, _⟩ := layout.bounds member
  have elsewhere : ∀ address, ¬ (block.start ≤ address ∧ address < block.start + 8) →
      (memory.setHeader block.start header).read address = memory.read address :=
    fun address outside => Memory.read_setHeader (by omega) outside
  refine layout.change member inUse (fun address outside => elsewhere address fun inside => ?_)
    ((layout.fits block member).alike ?_ fun address lower _ => elsewhere address (by omega))
  · exact outside ⟨inside.1, by simp only [Block.stop]; omega⟩
  · rw [Memory.tag, Memory.header_setHeader, sameTag]

end Slab.Layout

end SlabHeap
