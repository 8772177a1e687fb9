import SlabHeap.Proofs.Release
import SlabHeap.Proofs.Relocation

namespace SlabHeap

/-! A copy in a larger slab: what the copy does not fill becomes free. -/

open FreeList Block

/-- The blocks of a slab that got `extra` bytes behind its old end. -/
def Block.extend (blocks : List Block) (stop extra : Nat) : List Block :=
  if extra = 0 then blocks else (reclaim ⟨stop, extra, .free⟩ blocks.reverse).reverse

theorem Block.used_extend {blocks : List Block} {stop extra : Nat} :
    used (Block.extend blocks stop extra) = used blocks := by
  simp only [Block.extend]
  split
  · rfl
  · rw [used_reclaim, List.reverse_reverse]

theorem Block.mem_extend {blocks : List Block} {block : Block} {stop extra : Nat}
    (inUse : block.kind ≠ .free) : block ∈ Block.extend blocks stop extra ↔ block ∈ blocks := by
  have both (others : List Block) : block ∈ used others ↔ block ∈ others := by
    rw [mem_used, and_iff_left inUse]
  rw [← both, used_extend, both]

namespace Slab

variable {inner target : Slab} {shapes : ShapeTable} {memory after : Memory} {block : Block}
  {blocks front : List Block} {address node extra : Nat}

theorem Layout.of_size_eq (layout : inner.Layout shapes memory blocks)
    (start : target.start = inner.start) (size : target.size = inner.size) :
    target.Layout shapes memory blocks := by
  obtain ⟨start, size, maxSize⟩ := inner
  obtain ⟨_, _, _⟩ := target
  cases start
  cases size
  exact ⟨⟨layout.placed.startAligned, layout.placed.startPositive, layout.placed.sizeAligned,
    layout.placed.large, layout.placed.bounded⟩, layout.tiles, layout.sentinel, layout.listed,
    layout.fits⟩

variable (layout : inner.Layout shapes memory blocks) (placed : target.Placed)
  (start : target.start = inner.start) (grown : target.size = inner.size + extra)

include layout placed start grown

theorem Layout.grow {last : Block} (split : blocks = front ++ [last]) (isFree : last.kind = .free) :
    target.Layout shapes (setSize memory last.start (last.size + extra))
      (front ++ [last.join ⟨inner.stop, extra, .free⟩]) := by
  have innerAligned := layout.placed.sizeAligned
  have sizeAligned := placed.sizeAligned
  have bounded := placed.bounded
  have member : last ∈ blocks := by simp [split]
  have bounds := layout.bounds member
  simp only [blockUnit, Slab.stop] at *
  have tiles := split ▸ layout.tiles
  obtain ⟨mid, frontTiles, begins, large, whole, ends⟩ := Tiles.append_iff.mp tiles
  -- Of all words only the size in the last node changes.
  have same (address : Nat) (clear : ¬ (last.start ≤ address ∧ address < last.start + 8)) :
      (setSize memory last.start (last.size + extra)).read address = memory.read address :=
    read_setSize (by omega) clear
  have lower := frontTiles.le
  simp only [Tiles, Slab.objects, blockUnit, Slab.stop, Block.stop] at *
  refine ⟨placed, ?_, ?_, ?_, ?_⟩
  · simp only [Slab.objects, Slab.stop, start, blockUnit]
    refine frontTiles.append ⟨begins, ?_, ?_, ?_⟩
    · simp only [join, blockUnit]
      omega
    · simp only [join, blockUnit]
      omega
    · simp only [Tiles, Block.stop, join]
      omega
  · rw [start, FreeList.size, same _ (by omega)]
    exact layout.sentinel
  · have listed := layout.listed
    rw [split, frees_append, path_append] at listed
    obtain ⟨mid, first, second⟩ := listed
    simp only [frees, isFree, if_true, FreeList.Path] at second
    obtain ⟨rfl, present, sized, none⟩ := second
    rw [frees_append, Slab.firstFree, FreeList.next, start, same _ (by omega)]
    refine path_append.mpr ⟨last.start, first.congr fun entry listed => ?_, ?_⟩
    · have entryBounds := frontTiles.frees_bounds listed
      exact ⟨same _ (by omega), same _ (by omega)⟩
    · simp only [frees, join, if_true, FreeList.Path]
      refine ⟨trivial, present, size_setSize (by omega), ?_⟩
      rw [FreeList.next, same _ (by omega)]
      exact none
  · intro block inBlocks
    rcases List.mem_append.mp inBlocks with inFront | isLast
    · have here : block ∈ blocks := by simp [split, inFront]
      have blockBounds := frontTiles.bounds inFront
      refine (layout.fits block here).congr fun _ => Kept.alike (fun address covers => ?_)
        (layout.fits block here) blockBounds.2.2.1
      simp only [Block.Covers, Block.stop] at covers blockBounds
      exact same _ (by omega)
    · obtain rfl := List.mem_singleton.mp isLast
      simp [Block.Fits, join]

/-- A free block is appended to a slab whose last block is in use. -/
theorem Layout.append (some : extra ≠ 0) (after : Memory)
    (same : ∀ address, ¬ (inner.stop ≤ address ∧ address < inner.stop + 16) →
      ¬ (lastOr inner.start (frees blocks) + 8 ≤ address ∧
        address < lastOr inner.start (frees blocks) + 16) →
      after.read address = memory.read address)
    (sized : FreeList.size after inner.stop = extra) (ended : FreeList.next after inner.stop = 0)
    (reached : FreeList.next after (lastOr inner.start (frees blocks)) = inner.stop) :
    target.Layout shapes after (blocks ++ [⟨inner.stop, extra, .free⟩]) ∧
      ∀ block ∈ blocks, block.kind ≠ .free → block.Kept memory after := by
  have innerAligned := layout.placed.sizeAligned
  have innerLarge := layout.placed.large
  have sizeAligned := placed.sizeAligned
  obtain ⟨which, lower, aligned, upper⟩ := layout.lastOr_bounds layout.tiles
  have kept : ∀ block ∈ blocks, block.kind ≠ .free → block.Kept memory after := by
    intro block member inUse address covers
    have bounds := layout.bounds member
    have ⟨begins, ends⟩ := covers
    simp only [Block.stop] at ends
    refine same address (by omega) fun inLink => ?_
    rcases which with isSentinel | ⟨free, freeMember, isFree, starts⟩
    · omega
    · have size := (layout.bounds freeMember).2.2.1
      have equal := layout.tiles.eq_of_covers member freeMember covers
        ⟨by omega, by simp only [Block.stop]; omega⟩
      exact inUse (equal ▸ isFree)
  -- Of the old nodes, only the link of the last one changes.
  generalize whole : lastOr inner.start (frees blocks) = last at *
  have nodeKept : ∀ entry ∈ frees blocks, after.read entry.1 = memory.read entry.1 ∧
      (entry.1 ≠ last → after.read (entry.1 + 8) = memory.read (entry.1 + 8)) := by
    intro entry member
    have bounds := layout.bounds (mem_frees.mp member)
    simp only at bounds
    exact ⟨same _ (by omega) (by omega), fun other => same _ (by omega) (by omega)⟩
  simp only [blockUnit, Slab.stop, minSlabSize] at *
  refine ⟨⟨placed, ?_, ?_, ?_, ?_⟩, kept⟩
  · have tiles := layout.tiles
    simp only [Slab.objects, Slab.stop, start] at tiles ⊢
    refine tiles.append ⟨rfl, ?_, ?_, ?_⟩
    · simp only [blockUnit]
      omega
    · simp only [blockUnit]
      omega
    · simp only [Tiles, Block.stop]
      omega
  · rw [start, FreeList.size, same _ (by omega) (by omega)]
    exact layout.sentinel
  · have increasing : (inner.start :: (frees blocks).map Prod.fst).Pairwise (· < ·) :=
      layout.tiles.frees_increasing (by simp only [Slab.objects, blockUnit]; omega)
    have tail : frees [⟨inner.start + inner.size, extra, .free⟩] =
        [(inner.start + inner.size, extra)] := rfl
    rw [Slab.firstFree, start, frees_append, tail]
    refine layout.listed.splice (fun entry listed => ?_) ?_ increasing ?_
    · rw [FreeList.size, FreeList.size, (nodeKept entry listed).1]
    · rintro link (rfl | ⟨entry, listed, rfl⟩) other
      · rw [whole] at other
        rw [FreeList.next, FreeList.next, same _ (by omega) (by omega)]
      · rw [whole] at other
        rw [FreeList.next, FreeList.next, (nodeKept entry listed).2 other]
    · rw [whole, reached]
      exact ⟨rfl, by omega, sized, ended⟩
  · intro block member
    rcases List.mem_append.mp member with inBlocks | isTail
    · refine (layout.fits block inBlocks).congr fun inUse => ?_
      exact (kept block inBlocks inUse).alike (layout.fits block inBlocks)
        (layout.bounds inBlocks).2.2.1
    · obtain rfl := List.mem_singleton.mp isTail
      simp [Block.Fits]

omit layout placed start grown in
theorem extendFree_touching {last stop : Nat} (some : extra ≠ 0)
    (touches : stop ≤ last + FreeList.size memory last)
    (small : last + FreeList.size memory last + extra < Size.limit) :
    extendFree memory last stop extra =
      .ok (setSize memory last (FreeList.size memory last + extra)) := by
  have first : last + FreeList.size memory last < Size.limit := by omega
  have second : FreeList.size memory last + extra < Size.limit := by omega
  simp only [extendFree, some, if_false, Size.add_eq_ok first, Size.add_eq_ok second]
  exact if_pos touches

omit layout placed start grown in
theorem extendFree_apart {last stop : Nat} (some : extra ≠ 0)
    (passed : last + FreeList.size memory last < stop) (small : stop < Size.limit) :
    extendFree memory last stop extra =
      .ok (FreeList.setNext (writeNode memory stop extra 0) last stop) := by
  have first : last + FreeList.size memory last < Size.limit := by omega
  simp only [extendFree, some, if_false, Size.add_eq_ok first]
  exact if_neg (by omega)

omit layout placed start grown in
/-- Only the last node and a node at the old end are written. -/
theorem read_extendFree {last stop : Nat} (ran : extendFree memory last stop extra = .ok after)
    (lastAligned : last % 8 = 0) (stopAligned : stop % 8 = 0)
    (beside : ¬ (last ≤ address ∧ address < last + 16))
    (apart : ¬ (stop ≤ address ∧ address < stop + 16)) : after.read address = memory.read address := by
  unfold extendFree at ran
  split at ran
  · cases ran
    rfl
  · cases reached : Size.add last (FreeList.size memory last) with
    | error fault => simp [reached, bind, Except.bind] at ran
    | ok reach =>
        simp only [reached, bind, Except.bind, pure, Except.pure] at ran
        split at ran
        · cases grown : Size.add (FreeList.size memory last) extra with
          | error fault => simp [grown] at ran
          | ok size =>
              simp only [grown, Except.ok.injEq] at ran
              rw [← ran, read_setSize lastAligned (by omega)]
        · cases ran
          rw [read_setNext lastAligned (by omega), read_writeNode stopAligned apart]

/-- The free list of a slab ends before a block in use that is the last one. -/
theorem Layout.extend_apart (some : extra ≠ 0)
    (passed : lastOr inner.start (frees blocks) +
      FreeList.size memory (lastOr inner.start (frees blocks)) < inner.stop)
    (reclaimed : (reclaim ⟨inner.stop, extra, .free⟩ blocks.reverse).reverse =
      blocks ++ [⟨inner.stop, extra, .free⟩]) :
    ∃ after, extendFree memory (lastOr inner.start (frees blocks)) inner.stop extra = .ok after ∧
      target.Layout shapes after (Block.extend blocks inner.stop extra) ∧
      target.Untouched memory after blocks := by
  have bounded := placed.bounded
  have innerLarge := layout.placed.large
  have innerAligned := layout.placed.sizeAligned
  have startAligned := layout.placed.startAligned
  have sizeAligned := placed.sizeAligned
  obtain ⟨_, lower, aligned, upper⟩ := layout.lastOr_bounds layout.tiles
  simp only [Slab.stop, minSlabSize, blockUnit] at *
  refine ⟨_, extendFree_apart some passed (by omega), ?_⟩
  have read (address : Nat)
      (clear : ¬ (inner.start + inner.size ≤ address ∧ address < inner.start + inner.size + 16))
      (apart : ¬ (lastOr inner.start (frees blocks) + 8 ≤ address ∧
        address < lastOr inner.start (frees blocks) + 16)) :
      (FreeList.setNext (writeNode memory (inner.start + inner.size) extra 0)
        (lastOr inner.start (frees blocks)) (inner.start + inner.size)).read address =
          memory.read address := by
    rw [read_setNext (by omega) apart, writeNode, read_setNext (by omega) (by omega),
      read_setSize (by omega) (by omega)]
  have sized : FreeList.size (FreeList.setNext
      (writeNode memory (inner.start + inner.size) extra 0) (lastOr inner.start (frees blocks))
        (inner.start + inner.size)) (inner.start + inner.size) = extra := by
    rw [FreeList.size, read_setNext (by omega) (by omega), ← FreeList.size,
      size_writeNode (by omega) (by omega) (by omega), if_pos rfl]
  have ended : FreeList.next (FreeList.setNext
      (writeNode memory (inner.start + inner.size) extra 0) (lastOr inner.start (frees blocks))
        (inner.start + inner.size)) (inner.start + inner.size) = 0 := by
    rw [FreeList.next, read_setNext (by omega) (by omega), ← FreeList.next,
      next_writeNode (by omega) (by omega) (by decide), if_pos rfl]
  obtain ⟨laid, kept⟩ := layout.append placed start grown some _ read sized ended
    (next_setNext (by omega))
  rw [Block.extend, if_neg some, reclaimed]
  refine ⟨laid, kept, fun address outside => ?_⟩
  simp only [Slab.stop] at outside
  exact read address (by omega) (by omega)

section LastBlock

variable {last : Block} (split : blocks = front ++ [last])

include split

/-- The last block of a slab is free, and joins what the slab got. -/
theorem Layout.extend_touching (some : extra ≠ 0) (isFree : last.kind = .free) :
    ∃ after, extendFree memory (lastOr inner.start (frees blocks)) inner.stop extra = .ok after ∧
      target.Layout shapes after (Block.extend blocks inner.stop extra) ∧
      target.Untouched memory after blocks := by
  have bounded := placed.bounded
  have member : last ∈ blocks := by simp [split]
  obtain ⟨_, frontTiles, begins, large, _, ends⟩ := Tiles.append_iff.mp (split ▸ layout.tiles)
  have lower := frontTiles.le
  simp only [Tiles, blockUnit, Slab.objects] at begins ends large lower
  have listed : (last.start, last.size) ∈ frees blocks := mem_frees.mpr (by rw [← isFree]; exact member)
  have sized := (layout.listed.present listed).2
  have behind : lastOr inner.start (frees blocks) = last.start := by
    rw [split, frees_append, lastOr_append]
    simp [frees, isFree, lastOr]
  have aligned := (layout.bounds member).2.2.2.2.1
  simp only [Slab.stop] at bounded sized
  rw [behind]
  refine ⟨_, extendFree_touching some ?_ ?_, ?_, ?_, fun address outside => ?_⟩
  · rw [sized, ← ends]
    rfl
  · rw [sized]
    simp only [Block.stop, Slab.stop] at ends
    omega
  · have joined := layout.grow placed start grown split isFree
    rw [sized]
    simpa [Block.extend, some, split, reclaim, isFree] using joined
  · intro block inBlocks inUse address covers
    refine read_setSize (by omega) fun inside => ?_
    have equal := layout.tiles.eq_of_covers inBlocks member covers
      ⟨inside.1, by simp only [Block.stop]; omega⟩
    exact inUse (equal ▸ isFree)
  · simp only [Block.stop, Slab.stop] at ends outside
    exact read_setSize (by omega) (by omega)

omit placed start grown in
/-- The free list ends before a last block that is in use. -/
theorem Layout.frees_before_last (inUse : last.kind ≠ .free) :
    lastOr inner.start (frees blocks) + FreeList.size memory (lastOr inner.start (frees blocks)) < inner.stop := by
  obtain ⟨_, frontTiles, begins, large, _, ends⟩ := Tiles.append_iff.mp (split ▸ layout.tiles)
  have lower := frontTiles.le
  simp only [Tiles, blockUnit, Slab.objects, Block.stop] at begins ends large lower
  rcases lastOr_mem inner.start (frees blocks) with same | ⟨entry, member, found⟩
  · rw [same, layout.sentinel]
    omega
  · have sized := (layout.listed.present member).2
    have inFront : entry ∈ frees front := by
      rw [split, frees_append] at member
      simpa [frees, inUse] using member
    have bounds := frontTiles.frees_bounds inFront
    rw [← found, sized]
    omega

end LastBlock

/-- What a slab got behind its old end becomes free. -/
theorem Layout.extendFree_eq_ok :
    ∃ after, extendFree memory (lastOr inner.start (frees blocks)) inner.stop extra = .ok after ∧
      target.Layout shapes after (Block.extend blocks inner.stop extra) ∧
      target.Untouched memory after blocks := by
  by_cases some : extra = 0
  · refine ⟨memory, by simp only [extendFree, some, if_true], ?_, fun _ _ _ _ _ => rfl,
      fun _ _ => rfl⟩
    simp only [Block.extend, some, if_true]
    exact layout.of_size_eq start (by omega)
  rcases List.eq_nil_or_concat blocks with none | ⟨front, last, split⟩
  · have large := layout.placed.large
    refine layout.extend_apart placed start grown some ?_ (by simp [none, reclaim])
    simp only [none, frees, lastOr, layout.sentinel, Slab.stop, minSlabSize] at *
    omega
  rw [List.concat_eq_append] at split
  by_cases isFree : last.kind = .free
  · exact layout.extend_touching placed start grown split some isFree
  · exact layout.extend_apart placed start grown some (layout.frees_before_last split isFree)
      (by simp [split, reclaim, isFree])

end Slab

end SlabHeap
