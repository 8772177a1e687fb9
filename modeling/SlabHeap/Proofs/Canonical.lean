import SlabHeap.Proofs.Accounts

namespace SlabHeap

/-! Canonical free lists.

The free list of a slab is determined by what is in use: it lists the maximal runs of bytes that no block
in use covers, in address order. `Heap.Accounted.canonical_slab` says that this holds of every slab of a heap
that is accounted for by a ledger.
-/

open Block

/-- Blocks that share no byte. -/
def Block.Disjoint (block other : Block) : Prop := block.stop ≤ other.start ∨ other.stop ≤ block.start

theorem Block.exists_covers {block other : Block} (large : blockUnit ≤ block.size)
    (otherLarge : blockUnit ≤ other.size) (overlap : ¬ block.Disjoint other) :
    ∃ address, block.Covers address ∧ other.Covers address := by
  refine ⟨max block.start other.start, ?_⟩
  simp only [Disjoint, Covers, stop, blockUnit] at *
  omega

/-- A run of bytes behind the sentinel that no entry covers, and that cannot be extended. -/
structure Slab.FreeRun (slab : Slab) (entries : List Block) (start size : Nat) : Prop where
  nonempty : 0 < size
  lower : slab.objects ≤ start
  upper : start + size ≤ slab.stop
  free : ∀ address, start ≤ address → address < start + size → ∀ entry ∈ entries, ¬ entry.Covers address
  front : start = slab.objects ∨ ∃ entry ∈ entries, entry.Covers (start - 1)
  back : start + size = slab.stop ∨ ∃ entry ∈ entries, entry.Covers (start + size)

/-- The free list of a slab consists of the maximal runs of bytes that no entry covers. -/
structure Slab.Canonical (slab : Slab) (entries : List Block) (memory : Memory) : Prop where
  ends : FreeList.Chain memory (slab.firstFree memory) (slab.freeBlocks memory)
  increasing : (slab.freeBlocks memory).Pairwise fun block other => block.1 < other.1
  runs : ∀ start size, (start, size) ∈ slab.freeBlocks memory ↔ slab.FreeRun entries start size
  sizes : ∀ block ∈ slab.freeBlocks memory,
    block.2 ≠ 0 ∧ block.2 % 16 = 0 ∧ block.1 + block.2 ≤ slab.stop
  apart : (slab.freeBlocks memory).Pairwise fun block other => block.1 + block.2 < other.1
  total : blockUnit + ((slab.freeBlocks memory).map Prod.snd).sum +
    ((entries.filter fun entry => slab.contains entry.start).map Block.size).sum = slab.size

theorem Slab.FreeRun.eq {slab : Slab} {entries : List Block} {start size other otherSize : Nat}
    (run : slab.FreeRun entries start size) (again : slab.FreeRun entries other otherSize)
    (shared : other ≤ start ∧ start < other + otherSize) : start = other ∧ size = otherSize := by
  have starts : start = other := by
    by_contra distinct
    rcases run.front with first | ⟨entry, listed, covers⟩
    · have := again.lower
      omega
    · exact again.free (start - 1) (by omega) (by omega) entry listed covers
  subst starts
  refine ⟨rfl, ?_⟩
  rcases Nat.lt_trichotomy size otherSize with shorter | same | longer
  · rcases run.back with last | ⟨entry, listed, covers⟩
    · have := again.upper
      omega
    · exact absurd covers (again.free _ (by omega) (by omega) entry listed)
  · exact same
  · rcases again.back with last | ⟨entry, listed, covers⟩
    · have := run.upper
      omega
    · exact absurd covers (run.free _ (by omega) (by omega) entry listed)

namespace Tiles

variable {start stop : Nat} {blocks : List Block} {block : Block}

theorem sum_eq (tiles : Tiles start blocks stop) : start + (blocks.map Block.size).sum = stop := by
  induction blocks generalizing start with
  | nil => exact tiles
  | cons head rest ih =>
      obtain ⟨begins, _, _, later⟩ := tiles
      have sum := ih later
      simp only [Block.stop, List.map_cons, List.sum_cons] at *
      omega

end Tiles

namespace Block

variable {start stop : Nat} {blocks : List Block} {block other : Block}

theorem sum_frees : ((frees blocks).map Prod.snd).sum + ((used blocks).map Block.size).sum =
    (blocks.map Block.size).sum := by
  induction blocks with
  | nil => rfl
  | cons head rest ih =>
      by_cases isFree : head.kind = .free
      · have rest : used (head :: rest) = used rest := List.filter_cons_of_neg (by simp [isFree])
        simp only [frees, isFree, if_true, rest, List.map_cons, List.sum_cons]
        omega
      · have rest : used (head :: rest) = head :: used rest := List.filter_cons_of_pos (by simp [isFree])
        simp only [frees, isFree, if_false, rest, List.map_cons, List.sum_cons]
        omega

section Neighbours

variable (coalesced : Coalesced blocks) (tiles : Tiles start blocks stop) (member : block ∈ blocks)
  (isFree : block.kind = .free)

include coalesced tiles member isFree

/-- In front of a free block lies the start, or a block in use. -/
theorem Coalesced.front :
    block.start = start ∨ ∃ other ∈ used blocks, other.Covers (block.start - 1) := by
  obtain ⟨left, right, rfl⟩ := List.append_of_mem member
  obtain ⟨mid, leftTiles, begins, _⟩ := Tiles.append_iff.mp tiles
  rcases List.eq_nil_or_concat left with rfl | ⟨others, other, rfl⟩
  · exact .inl (begins.trans leftTiles.symm)
  · rw [List.concat_eq_append, List.append_assoc] at coalesced
    have separate : Separate other block :=
      (List.isChain_append.mp (List.isChain_append.mp coalesced).2.1).2.2 other (by simp) block (by simp)
    rw [List.concat_eq_append] at leftTiles
    obtain ⟨_, _, starts, large, _, ends⟩ := Tiles.append_iff.mp leftTiles
    have last : other.stop = mid := ends
    refine .inr ⟨other, mem_used.mpr ⟨by simp, fun alsoFree => separate ⟨alsoFree, isFree⟩⟩, ?_⟩
    simp only [Block.Covers, Block.stop, blockUnit] at *
    omega

/-- Behind a free block lies the end, or a block in use. -/
theorem Coalesced.back : block.stop = stop ∨ ∃ other ∈ used blocks, other.Covers block.stop := by
  obtain ⟨left, right, rfl⟩ := List.append_of_mem member
  obtain ⟨_, _, _, _, _, rightTiles⟩ := Tiles.append_iff.mp tiles
  cases right with
  | nil => exact .inl rightTiles
  | cons other others =>
      have separate : Separate block other :=
        (List.isChain_cons_cons.mp (List.isChain_append.mp coalesced).2.1).1
      refine .inr ⟨other, mem_used.mpr ⟨by simp, fun alsoFree => separate ⟨isFree, alsoFree⟩⟩, ?_⟩
      obtain ⟨starts, large, _⟩ := rightTiles
      simp only [Block.Covers, Block.stop, blockUnit] at *
      omega

end Neighbours

/-- Free blocks that do not touch are listed with room between them. -/
theorem Coalesced.frees_apart (coalesced : Coalesced blocks) (tiles : Tiles start blocks stop) :
    (frees blocks).Pairwise fun block other => block.1 + block.2 < other.1 := by
  refine tiles.frees_ordered.imp_of_mem fun {block other} member otherMember ordered => ?_
  refine Nat.lt_of_le_of_ne ordered fun touches => ?_
  have bounds := tiles.frees_bounds otherMember
  rcases coalesced.back tiles (mem_frees.mp member) rfl with last | ⟨neighbour, inUse, covers⟩
  · simp only [Block.stop] at last
    omega
  · obtain ⟨neighbourMember, kind⟩ := mem_used.mp inUse
    have same := tiles.eq_of_covers neighbourMember (mem_frees.mp otherMember) covers
      ⟨touches.ge, by simp only [Block.stop]; omega⟩
    exact kind (congrArg Block.kind same)

end Block

namespace Heap

variable {heap : Heap} {machine : Machine} {tiling : Slab → List Block} {entries : List Block}
  {slab : Slab} {entry block : Block} {address : Nat}

namespace Records

variable (records : heap.Records tiling entries)

include records

/-- What an entry covers, its pieces do, and nothing beside. -/
theorem covers_iff : (∃ entry ∈ entries, entry.Covers address) ↔
    ∃ block ∈ used (heap.blocks tiling), block.Covers address := by
  have pieces {entry : Block} (listed : entry ∈ entries) :
      entry.Covers address ↔ ∃ piece ∈ entry.pieces, piece.Covers address := by
    obtain ⟨large, whole⟩ := records.whole entry listed
    have tiles := tiles_pieces large whole
    constructor
    · exact fun covers => tiles.covered covers.1 covers.2
    · rintro ⟨piece, member, covers⟩
      have bounds := tiles.bounds member
      simp only [Block.Covers] at *
      omega
  constructor
  · rintro ⟨entry, listed, covers⟩
    obtain ⟨piece, member, covers⟩ := (pieces listed).mp covers
    exact ⟨piece, records.perm.mem_iff.mp (List.mem_flatMap.mpr ⟨entry, listed, member⟩), covers⟩
  · rintro ⟨block, inUse, covers⟩
    obtain ⟨entry, listed, member⟩ := List.mem_flatMap.mp (records.perm.mem_iff.mpr inUse)
    exact ⟨entry, listed, (pieces listed).mpr ⟨block, member, covers⟩⟩

theorem disjoint {memory : Memory} (tiled : heap.Tiled memory tiling) :
    entries.Pairwise Block.Disjoint := by
  have nodup := records.perm.nodup_iff.mpr (tiled.nodup_blocks.filter _)
  rw [List.nodup_flatMap] at nodup
  refine nodup.2.imp_of_mem fun {entry other} listed otherListed apart => ?_
  by_contra overlap
  obtain ⟨large, whole⟩ := records.whole entry listed
  obtain ⟨otherLarge, otherWhole⟩ := records.whole other otherListed
  obtain ⟨address, inEntry, inOther⟩ := Block.exists_covers large otherLarge overlap
  obtain ⟨piece, member, covers⟩ := (tiles_pieces large whole).covered inEntry.1 inEntry.2
  obtain ⟨otherPiece, otherMember, otherCovers⟩ :=
    (tiles_pieces otherLarge otherWhole).covered inOther.1 inOther.2
  have same := tiled.eq_of_covers (records.piece listed member).1 (records.piece otherListed otherMember).1
    covers otherCovers
  exact apart member (same ▸ otherMember)

theorem disjoint_of_ne {memory : Memory} (tiled : heap.Tiled memory tiling) {other : Block}
    (listed : entry ∈ entries) (otherListed : other ∈ entries) (distinct : entry ≠ other) :
    entry.Disjoint other := by
  have symmetric : Std.Symm Block.Disjoint := ⟨fun _ _ apart => apart.symm⟩
  exact (records.disjoint tiled).forall listed otherListed distinct

theorem nodup {memory : Memory} (tiled : heap.Tiled memory tiling) : entries.Nodup := by
  refine (records.disjoint tiled).imp_of_mem fun {entry other} listed _ apart same => ?_
  have large := (records.whole entry listed).1
  subst same
  simp only [Block.Disjoint, Block.stop, blockUnit] at *
  omega

theorem contains_piece {memory : Memory} (tiled : heap.Tiled memory tiling) (inHeap : slab ∈ heap.slabs)
    (listed : entry ∈ entries) (member : block ∈ entry.pieces) :
    slab.contains block.start = slab.contains entry.start := by
  obtain ⟨large, whole⟩ := records.whole entry listed
  have bounds := (tiles_pieces large whole).bounds member
  obtain ⟨home, homeInHeap, above, below⟩ := records.inside entry listed
  simp only [Block.stop, blockUnit, Slab.objects] at *
  by_cases same : slab = home
  · subst same
    have inside (address : Nat) (lower : entry.start ≤ address) (upper : address < entry.start + entry.size) :
        slab.contains address = true := Slab.contains_iff.mpr (by omega)
    rw [inside _ (by omega) (by omega), inside _ (by omega) (by omega)]
  · have outside (address : Nat) (lower : entry.start ≤ address)
        (upper : address < entry.start + entry.size) : slab.contains address = false := by
      refine Bool.eq_false_iff.mpr fun inside => same ?_
      have place := Slab.contains_iff.mp inside
      exact tiled.slab_eq inHeap homeInHeap ⟨by omega, place.2⟩ ⟨by omega, by omega⟩
    rw [outside _ (by omega) (by omega), outside _ (by omega) (by omega)]

/-- The entries in a slab take as many bytes as its blocks in use. -/
theorem sum_inside {memory : Memory} (tiled : heap.Tiled memory tiling) (inHeap : slab ∈ heap.slabs) :
    ((entries.filter fun entry => slab.contains entry.start).map Block.size).sum =
      ((used (tiling slab)).map Block.size).sum := by
  -- An entry lies in the slab just if its pieces do, and takes as many bytes as they do.
  have split (some : List Block) (fewer : ∀ entry ∈ some, entry ∈ entries) :
      ((some.filter fun entry => slab.contains entry.start).map Block.size).sum =
        (((some.flatMap Block.pieces).filter fun piece => slab.contains piece.start).map
          Block.size).sum := by
    induction some with
    | nil => rfl
    | cons entry rest ih =>
        have listed := fewer entry List.mem_cons_self
        obtain ⟨large, whole⟩ := records.whole entry listed
        have sum := (tiles_pieces large whole).sum_eq
        have same : entry.pieces.filter (fun piece => slab.contains piece.start) =
            entry.pieces.filter fun _ => slab.contains entry.start :=
          List.filter_congr fun piece member => records.contains_piece tiled inHeap listed member
        rw [List.flatMap_cons, List.filter_append, List.map_append, List.sum_append, same,
          ← ih fun other member => fewer other (List.mem_cons_of_mem _ member), List.filter_cons]
        cases inside : slab.contains entry.start with
        | true =>
            simp only [if_true, List.map_cons, List.sum_cons, List.filter_true, Block.stop] at sum ⊢
            omega
        | false => simp
  have nodup := tiled.nodup_blocks
  have inSlab : ((used (heap.blocks tiling)).filter fun piece => slab.contains piece.start).Perm
      (used (tiling slab)) := by
    refine (List.perm_ext_iff_of_nodup ((nodup.filter _).filter _)
      ((List.nodup_flatMap.mp nodup).1 slab inHeap |>.filter _)).mpr fun block => ?_
    rw [List.mem_filter, ← used, ← used, mem_used, mem_used]
    constructor
    · rintro ⟨⟨member, inUse⟩, inside⟩
      obtain ⟨home, homeInHeap, inHome⟩ := mem_blocks.mp member
      have place := Slab.contains_iff.mp inside
      have covers := (tiled.layout home homeInHeap).tiles.start_covers inHome
      obtain rfl := tiled.slab_eq homeInHeap inHeap (tiled.slab_covers homeInHeap inHome covers)
        ⟨by omega, place.2⟩
      exact ⟨inHome, inUse⟩
    · rintro ⟨member, inUse⟩
      exact ⟨⟨mem_blocks.mpr ⟨slab, inHeap, member⟩, inUse⟩, (tiled.layout slab inHeap).contains member⟩
  rw [split entries fun _ => id, ((records.perm.filter _).map _).sum_eq, (inSlab.map _).sum_eq]

end Records

namespace Accounted

variable (accounted : heap.Accounted tiling machine entries) (inHeap : slab ∈ heap.slabs)

include accounted inHeap

theorem covered_of_used {block : Block} (member : block ∈ used (tiling slab)) {address : Nat}
    (covers : block.Covers address) : ∃ entry ∈ entries, entry.Covers address := by
  obtain ⟨inSlab, inUse⟩ := mem_used.mp member
  exact accounted.records.covers_iff.mpr
    ⟨block, mem_used.mpr ⟨mem_blocks.mpr ⟨slab, inHeap, inSlab⟩, inUse⟩, covers⟩

theorem uncovered_of_free {block : Block} (member : block ∈ tiling slab) (isFree : block.kind = .free)
    {address : Nat} (covers : block.Covers address) : ∀ entry ∈ entries, ¬ entry.Covers address := by
  intro entry listed alsoCovers
  obtain ⟨other, otherUsed, otherCovers⟩ := accounted.records.covers_iff.mp ⟨entry, listed, alsoCovers⟩
  obtain ⟨otherMember, inUse⟩ := mem_used.mp otherUsed
  have same := accounted.consistent.tiled.eq_of_covers (mem_blocks.mpr ⟨slab, inHeap, member⟩) otherMember covers
    otherCovers
  exact inUse (same ▸ isFree)

/-- Free blocks are as long as they can be, since no two of them touch. -/
theorem freeRun_of_mem {start size : Nat} (member : (⟨start, size, .free⟩ : Block) ∈ tiling slab) :
    slab.FreeRun entries start size := by
  have tiles := (accounted.consistent.tiled.layout slab inHeap).tiles
  have coalesced := accounted.consistent.coalesced slab inHeap
  have bounds := tiles.bounds member
  simp only [Block.stop] at bounds
  refine ⟨by omega, bounds.1, bounds.2.1,
    fun address lower upper => accounted.uncovered_of_free inHeap member rfl ⟨lower, upper⟩, ?_, ?_⟩
  · refine (coalesced.front tiles member rfl).imp_right ?_
    rintro ⟨other, otherUsed, covers⟩
    exact accounted.covered_of_used inHeap otherUsed covers
  · refine (coalesced.back tiles member rfl).imp_right ?_
    rintro ⟨other, otherUsed, covers⟩
    exact accounted.covered_of_used inHeap otherUsed covers

/-- The free list has just the runs that the ledger leaves. -/
theorem mem_frees_iff_freeRun (start size : Nat) :
    (start, size) ∈ frees (tiling slab) ↔ slab.FreeRun entries start size := by
  refine ⟨fun member => accounted.freeRun_of_mem inHeap (mem_frees.mp member), fun maximal => mem_frees.mpr ?_⟩
  have tiles := (accounted.consistent.tiled.layout slab inHeap).tiles
  obtain ⟨nonempty, lower, upper, clear, _, _⟩ := id maximal
  obtain ⟨⟨first, length, kind⟩, member, covers⟩ := tiles.covered lower (show start < slab.stop by omega)
  have isFree : kind = .free := by
    by_contra inUse
    obtain ⟨entry, listed, alsoCovers⟩ := accounted.covered_of_used inHeap (mem_used.mpr ⟨member, inUse⟩) covers
    exact clear start (by omega) (by omega) entry listed alsoCovers
  subst isFree
  obtain ⟨rfl, rfl⟩ := maximal.eq (accounted.freeRun_of_mem inHeap member) covers
  exact member

/-- The free lists of a heap are determined by its ledger. -/
theorem canonical_slab : slab.Canonical entries machine.memory := by
  have layout := accounted.consistent.tiled.layout slab inHeap
  have tiles := layout.tiles
  have free := layout.freeBlocks_eq
  have sum := tiles.sum_eq
  have parts : ((frees (tiling slab)).map Prod.snd).sum + ((used (tiling slab)).map Block.size).sum =
      ((tiling slab).map Block.size).sum := sum_frees
  constructor
  · rw [free]
    exact FreeList.chain_iff_path.mpr layout.listed
  · rw [free]
    exact tiles.frees_ordered.imp_of_mem fun {block other} member _ ordered => by
      have := (tiles.frees_bounds member).2.2.1
      omega
  · rw [free]
    exact accounted.mem_frees_iff_freeRun inHeap
  · rw [free]
    intro block member
    have bounds := tiles.frees_bounds member
    exact ⟨by omega, bounds.2.2.2, bounds.2.1⟩
  · rw [free]
    exact (accounted.consistent.coalesced slab inHeap).frees_apart tiles
  · rw [free, accounted.records.sum_inside accounted.consistent.tiled inHeap]
    simp only [Slab.objects, Slab.stop] at sum
    omega

end Accounted

end Heap

end SlabHeap
