import SlabHeap.Proofs.Canonical
import SlabHeap.Proofs.Copies

namespace SlabHeap

/-! A copy takes the place of what a heap held, and all of it.

`Heap.copyInto_all_or_nothing` says that a refused copy changes nothing, and that one that is made fills
the target: the image of the source lies at its start, and what the image does not fill is free.
-/

open FreeList Block

/-- A free list of a slab that got `extra` bytes behind its old end at `stop`: its last block grows if it
reaches the old end, and otherwise there is one more. -/
def FreeList.enlarge (stop extra : Nat) (listed : List (Nat × Nat)) : List (Nat × Nat) :=
  if extra = 0 then listed
  else match listed.getLast? with
    | none => [(stop, extra)]
    | some last =>
        if last.1 + last.2 = stop then listed.dropLast ++ [(last.1, last.2 + extra)]
        else listed ++ [(stop, extra)]

theorem FreeList.sum_enlarge (stop extra : Nat) (listed : List (Nat × Nat)) :
    ((enlarge stop extra listed).map Prod.snd).sum = (listed.map Prod.snd).sum + extra := by
  unfold enlarge
  split
  · next none => rw [none, Nat.add_zero]
  · rcases List.eq_nil_or_concat listed with rfl | ⟨front, last, rfl⟩
    · simp
    · simp only [List.concat_eq_append, List.getLast?_append, List.getLast?_singleton, Option.some_or,
        List.dropLast_concat]
      split <;> simp only [List.map_append, List.map_cons, List.map_nil, List.sum_append, List.sum_cons,
        List.sum_nil] <;> omega

/-- A node that is written with what memory shows there is as it was. -/
theorem FreeList.read_writeNode_self {memory shown : Memory} {node offset : Nat} (aligned : node % 8 = 0)
    (inside : offset < 16) :
    (writeNode memory node (FreeList.size shown node) (next shown node)).read (node + offset) =
      shown.read (node + offset) := by
  by_cases inSize : offset < 8
  · have word : (writeNode memory node (FreeList.size shown node) (next shown node)).read node =
        shown.read node := by
      rw [writeNode, read_setNext aligned (by omega), setSize, Memory.read_write_same, FreeList.size,
        UInt64.ofNat_toNat]
    have same : (node + offset) / 8 = node / 8 := by omega
    rw [Memory.read_congr _ same, word, Memory.read_congr _ same]
  · have word : (writeNode memory node (FreeList.size shown node) (next shown node)).read (node + 8) =
        shown.read (node + 8) := by
      rw [writeNode, setNext, Memory.read_write_same, next, UInt64.ofNat_toNat]
    have same : (node + offset) / 8 = (node + 8) / 8 := by omega
    rw [Memory.read_congr _ same, word, Memory.read_congr _ same]

theorem Block.frees_extend {start stop extra : Nat} {blocks : List Block} (tiles : Tiles start blocks stop) :
    frees (Block.extend blocks stop extra) = enlarge stop extra (frees blocks) := by
  by_cases none : extra = 0
  · simp only [Block.extend, enlarge, none, if_true]
  rcases List.eq_nil_or_concat blocks with rfl | ⟨front, last, rfl⟩
  · simp [Block.extend, enlarge, none, reclaim, frees]
  rw [List.concat_eq_append] at *
  obtain ⟨mid, frontTiles, begins, large, _, ends⟩ := Tiles.append_iff.mp tiles
  have ends : last.stop = stop := ends
  simp only [Block.stop, blockUnit] at large ends
  by_cases isFree : last.kind = .free
  · have listed : frees (front ++ [last]) = frees front ++ [(last.start, last.size)] := by
      simp [frees_append, frees, isFree]
    simp [Block.extend, enlarge, none, reclaim, isFree, listed, ends, frees_append, frees, join]
  · have listed : frees (front ++ [last]) = frees front := by
      simp [frees_append, frees, isFree]
    have added : frees (Block.extend (front ++ [last]) stop extra) = frees front ++ [(stop, extra)] := by
      simp [Block.extend, none, reclaim, isFree, frees_append, frees]
    rw [added, listed, enlarge, if_neg none]
    cases behind : (frees front).getLast? with
    | none => simp [List.getLast?_eq_none_iff.mp behind]
    | some entry =>
        have bounds := frontTiles.frees_bounds (List.mem_of_getLast? behind)
        exact (if_neg (by omega)).symm

namespace Slab

/-- The last node of the free list, or the sentinel. -/
def lastNode (slab : Slab) (memory : Memory) : Nat := lastOr slab.start (slab.freeBlocks memory)

end Slab

namespace Heap

variable {source target copy : Heap} {fromSlab toSlab : Slab} {context moved : Context}
  {inTarget : Value} {machine final : Machine} {tiling : Slab → List Block} {blocks : List Block}
  {keepOwnership : Bool} {memory : Memory}

/-- A heap of one slab took a copy of another one in the place of all that it held. But for the last node of
its free list, which got what the image does not fill, the image is a relocation of the source. -/
structure Replaced (source target copy : Heap) (fromSlab toSlab : Slab) (blocks : List Block)
    (keepOwnership : Bool) (machine final : Machine) : Prop where
  slabs : source.slabs = [fromSlab] ∧ target.slabs = [toSlab]
  unrooted : copy = { target with globals := none, scratch := [] }
  totalSize : copy.totalSize = target.totalSize
  image : source.Relocated fromSlab toSlab blocks keepOwnership target.identity machine.memory
    (writeNode final.memory (fromSlab.counterpart toSlab (fromSlab.lastNode machine.memory))
      (FreeList.size machine.memory (fromSlab.lastNode machine.memory)) 0)
  exact : toSlab.size = fromSlab.size →
    source.Relocated fromSlab toSlab blocks keepOwnership target.identity machine.memory final.memory
  free : toSlab.freeBlocks final.memory = enlarge (toSlab.start + fromSlab.size)
    (toSlab.size - fromSlab.size) ((fromSlab.freeBlocks machine.memory).map fun entry =>
      (fromSlab.counterpart toSlab entry.1, entry.2))
  ends : Chain final.memory (toSlab.firstFree final.memory) (toSlab.freeBlocks final.memory)
  sentinel : FreeList.size final.memory toSlab.start = 0
  apart : (toSlab.freeBlocks final.memory).Pairwise fun block other => block.1 + block.2 < other.1
  inside : ∀ block ∈ toSlab.freeBlocks final.memory,
    toSlab.objects ≤ block.1 ∧ 0 < block.2 ∧ block.1 + block.2 ≤ toSlab.stop
  freeBytes : ∃ bytes, source.freeBytes machine.memory = .ok bytes ∧
    copy.freeBytes final.memory = .ok (bytes + (toSlab.size - fromSlab.size))
  outside : ∀ address, address < toSlab.start ∨ toSlab.stop ≤ address →
    final.memory.read address = machine.memory.read address
  untouched : source.Untouched machine final
  steady : machine.Steady final

theorem freeBytes_of_single {heap : Heap} {slab : Slab} (single : heap.slabs = [slab]) {bytes : Nat}
    (counted : slab.freeBytes memory = .ok bytes) (small : bytes < Size.limit) :
    heap.freeBytes memory = .ok bytes := by
  simp only [Heap.freeBytes, single, List.mapM_cons, List.mapM_nil, counted, bind, Except.bind, pure,
    Except.pure]
  exact Size.total_eq_ok (by simpa using small)

section Copied

variable (layout : fromSlab.Layout source.shapes machine.memory blocks) (beside : fromSlab.Beside toSlab)

include layout beside

/-- Apart from the last node of the free list, what a copy filled is a relocation. -/
theorem relocated_of_unpatched {copied : Memory} {identity : Nat}
    (transferred : fromSlab.Transferred toSlab blocks machine.memory copied)
    (duplicated : source.Duplicated fromSlab toSlab blocks keepOwnership identity machine final)
    (unpatched : ∀ address, fromSlab.Unpatched toSlab blocks address →
      (∀ block ∈ blocks, block.kind = .object → ¬ (fromSlab.moveBlock toSlab block).Covers address) →
        final.memory.read address = copied.read address) :
    source.Relocated fromSlab toSlab blocks keepOwnership identity machine.memory
      (writeNode final.memory (fromSlab.counterpart toSlab (fromSlab.lastNode machine.memory))
        (FreeList.size machine.memory (fromSlab.lastNode machine.memory)) 0) := by
  have lastNode : fromSlab.lastNode machine.memory = lastOr fromSlab.start (frees blocks) := by
    rw [Slab.lastNode, layout.freeBlocks_eq]
  obtain ⟨which, lower, aligned, upper⟩ := layout.lastOr_bounds layout.tiles
  have ended : next machine.memory (lastOr fromSlab.start (frees blocks)) = 0 := layout.listed.next_last
  have sourceAligned := beside.sourcePlaced.startAligned
  have targetAligned := beside.targetPlaced.startAligned
  rw [lastNode]
  generalize isLast : lastOr fromSlab.start (frees blocks) = last at *
  simp only [blockUnit] at sourceAligned targetAligned
  have copyAligned : fromSlab.counterpart toSlab last % 8 = 0 := by
    simp only [Slab.counterpart]
    omega
  have linked := transferred.links last which
  have sized := Slab.Transferred.size_eq layout transferred which
  -- Of the copied words, only those of the last free block differ.
  have kept (address : Nat) (above : fromSlab.start ≤ address)
      (clear : ¬ (last ≤ address ∧ address < last + 16)) :
      (writeNode final.memory (fromSlab.counterpart toSlab last) (FreeList.size machine.memory last)
        0).read (fromSlab.counterpart toSlab address) =
          final.memory.read (fromSlab.counterpart toSlab address) :=
    read_writeNode copyAligned (by simp only [Slab.counterpart]; omega)
  refine relocated_of_transferred layout transferred (fun block member isObject => ?_)
    fun address above below clear => ?_
  · obtain ⟨shape, known, describes⟩ := layout.object member isObject
    have bounds := layout.bounds member
    refine (duplicated.adapted block member isObject).keep bounds.2.2.1 known describes
      fun address covers => kept address (by have := covers.1; omega) fun inLast => ?_
    -- No object covers the last node, be it the sentinel or a free block.
    rcases which with sentinel | ⟨free, freeMember, isFree, starts⟩
    · have := covers.1
      omega
    · have size := (layout.bounds freeMember).2.2.1
      have same := layout.tiles.eq_of_covers member freeMember covers
        ⟨by omega, by simp only [Block.stop]; omega⟩
      simp [same, isFree] at isObject
  · by_cases inLast : last ≤ address ∧ address < last + 16
    · obtain ⟨offset, rfl⟩ := Nat.exists_eq_add_of_le inLast.1
      have ends : next copied (fromSlab.counterpart toSlab last) = 0 := by
        rw [linked, ended, Slab.moveLink, if_pos rfl]
      rw [Slab.counterpart_add lower, ← sized, ← ends]
      exact read_writeNode_self copyAligned (by omega)
    · rw [kept address above inLast]
      refine unpatched _ ⟨?_, ?_⟩ fun block member isObject covers => clear block member isObject ?_
      · simp only [isLast, Slab.counterpart]
        omega
      · simp only [Slab.filled, Slab.stop, Slab.counterpart] at *
        omega
      · exact (moveBlock_covers layout member above).mp covers

end Copied

theorem Replaced.of_quiet {begun : Machine} (quiet : machine.Quiet begun)
    (replaced : source.Replaced target copy fromSlab toSlab blocks keepOwnership begun final) :
    source.Replaced target copy fromSlab toSlab blocks keepOwnership machine final where
  slabs := replaced.slabs
  unrooted := replaced.unrooted
  totalSize := replaced.totalSize
  image := quiet.memory ▸ replaced.image
  exact := quiet.memory ▸ replaced.exact
  free := quiet.memory ▸ replaced.free
  ends := replaced.ends
  sentinel := replaced.sentinel
  apart := replaced.apart
  inside := replaced.inside
  freeBytes := quiet.memory ▸ replaced.freeBytes
  outside := quiet.memory ▸ replaced.outside
  untouched := fun slab inHeap address above below =>
    (replaced.untouched slab inHeap address above below).trans (by rw [quiet.memory])
  steady := quiet.toSteady.trans replaced.steady

/-- A slab that another one was copied into holds the image and nothing else in use. -/
theorem replaced_of_run (slabs : source.slabs = [fromSlab] ∧ target.slabs = [toSlab])
    (layout : fromSlab.Layout source.shapes machine.memory blocks) (coalesced : Coalesced blocks)
    (beside : fromSlab.Beside toSlab) (inside : fromSlab.contains context.address = true)
    (ran : (source.copySlab context target.identity fromSlab toSlab keepOwnership).run machine =
      .ok moved final) :
    source.Replaced target { target with globals := none, scratch := [] } fromSlab toSlab blocks
        keepOwnership machine final ∧
      moved = ⟨fromSlab.counterpart toSlab context.address⟩ := by
  have bounds := Slab.contains_iff.mp inside
  have large := beside.large
  obtain ⟨copied, after, transferred, duplicated, unpatched, runs⟩ :=
    run_copySlab beside layout (show fromSlab.start ≤ context.address ∧ context.address < fromSlab.stop by
      omega) keepOwnership target.identity
  rw [ran] at runs
  split at runs
  case isFalse => contradiction
  obtain ⟨rfl, rfl⟩ : moved = ⟨fromSlab.counterpart toSlab context.address⟩ ∧ final = after := by
    cases runs
    exact ⟨rfl, rfl⟩
  have tiles := (transferred.layout_filled layout beside).tiles
  have isFree : toSlab.freeBlocks final.memory = enlarge (toSlab.start + fromSlab.size)
      (toSlab.size - fromSlab.size) ((fromSlab.freeBlocks machine.memory).map fun entry =>
        (fromSlab.counterpart toSlab entry.1, entry.2)) := by
    rw [duplicated.layout.freeBlocks_eq, frees_extend tiles, Slab.frees_moveBlock, layout.freeBlocks_eq]
    rfl
  have sourceFree := layout.freeBytes_eq_ok
  have targetFree := duplicated.layout.freeBytes_eq_ok
  -- The free bytes of the copy are those of the source and the remainder of the target.
  have total : ((frees (Block.extend (blocks.map (fromSlab.moveBlock toSlab))
      (fromSlab.filled toSlab).stop (toSlab.size - fromSlab.size))).map Prod.snd).sum =
        ((frees blocks).map Prod.snd).sum + (toSlab.size - fromSlab.size) := by
    rw [frees_extend tiles, sum_enlarge, Slab.frees_moveBlock, List.map_map]
    rfl
  have small := layout.free_le
  have targetSmall := duplicated.layout.free_le
  have bounded := beside.targetPlaced.bounded
  refine ⟨⟨slabs, rfl, rfl, ?_, fun same => duplicated.relocated layout same, isFree, ?_,
    duplicated.layout.sentinel, ?_, fun entry listed => ?_, ⟨_, freeBytes_of_single slabs.1 sourceFree ?_, ?_⟩,
    duplicated.outside, ?_, duplicated.steady⟩, rfl⟩
  · exact relocated_of_unpatched layout beside transferred duplicated unpatched
  · rw [duplicated.layout.freeBlocks_eq]
    exact chain_iff_path.mpr duplicated.layout.listed
  · rw [duplicated.layout.freeBlocks_eq]
    exact coalesced.moved.extend.frees_apart duplicated.layout.tiles
  · rw [duplicated.layout.freeBlocks_eq] at listed
    have entryBounds := duplicated.layout.tiles.frees_bounds listed
    omega
  · simp only [Slab.stop] at bounded
    omega
  · rw [total] at targetFree
    exact freeBytes_of_single slabs.2 targetFree (by simp only [Slab.stop] at bounded; omega)
  · intro slab inHeap address above below
    obtain rfl : slab = fromSlab := by simpa [slabs.1] using inHeap
    have apart := beside.apart
    exact duplicated.outside address (by simp only [Slab.Apart] at apart; omega)

/-- Whether a copy is made is decided before anything changes. -/
theorem run_copyInto : (source.copyInto context target inTarget keepOwnership).run machine =
    match source.checkDestination context target inTarget machine.memory with
    | .error refusal => .ok (target, .error refusal) machine
    | .ok (fromSlab, toSlab) =>
        (do let moved ← source.copySlab context target.identity fromSlab toSlab keepOwnership
            return ({ target with globals := none, scratch := [] }, .ok moved) :
              Action (Heap × Except HeapError Context)).run
          (if target.globals.isSome then machine.logging (.notice (.rootsDropped target.identity))
            else machine) := by
  unfold copyInto
  rw [Action.run_bind (show Action.memory.run machine = .ok machine.memory machine from rfl)]
  cases source.checkDestination context target inTarget machine.memory with
  | error refusal => rfl
  | ok places =>
      dsimp only
      split
      · rfl
      · rfl

/-- A copy into another heap is refused and nothing happens, or it takes the place of all that the other heap
held: what is free in the target then is what was free in the source, and the room behind the image. -/
theorem copyInto_all_or_nothing :
    (∀ after refusal, (source.copyInto context target inTarget keepOwnership).run machine =
      .ok (after, .error refusal) final → after = target ∧ final = machine) ∧
    ∀ copy moved, (source.copyInto context target inTarget keepOwnership).run machine =
        .ok (copy, .ok moved) final →
      ∀ tiling, source.Tiled machine.memory tiling → (∀ slab ∈ source.slabs, Coalesced (tiling slab)) →
      (∀ slab ∈ target.slabs, slab.Placed) → source.Apart target →
        ∃ fromSlab toSlab, moved = ⟨fromSlab.counterpart toSlab context.address⟩ ∧
          source.Replaced target copy fromSlab toSlab (tiling fromSlab) keepOwnership machine final := by
  constructor
  · intro after refusal ran
    rw [run_copyInto] at ran
    split at ran
    · cases ran
      exact ⟨rfl, rfl⟩
    · obtain ⟨_, _, _, answers⟩ := Action.of_run_bind ran
      cases answers
  · intro copy moved ran tiling tiled coalesced placed apart
    rw [run_copyInto] at ran
    split at ran
    · cases ran
    · next fromSlab toSlab accepted =>
      obtain ⟨slabs, ⟨inside, _⟩, _⟩ := checkDestination_eq_ok_iff.mp accepted
      have fromHeap : fromSlab ∈ source.slabs := by simp [slabs.1]
      have toHeap : toSlab ∈ target.slabs := by simp [slabs.2.1]
      have layout := tiled.layout fromSlab fromHeap
      obtain ⟨_, _, copies, answers⟩ := Action.of_run_bind ran
      cases answers
      have quiet : machine.Quiet (if target.globals.isSome then
          machine.logging (.notice (.rootsDropped target.identity)) else machine) := by
        split
        · exact machine.quiet_logging _
        · exact .refl machine
      have beside : fromSlab.Beside toSlab :=
        ⟨layout.placed, placed toSlab toHeap, slabs.2.2, apart fromSlab fromHeap toSlab toHeap⟩
      obtain ⟨replaced, rfl⟩ := replaced_of_run ⟨slabs.1, slabs.2.1⟩ (quiet.memory.symm ▸ layout)
        (coalesced fromSlab fromHeap) beside inside copies
      exact ⟨fromSlab, toSlab, rfl, replaced.of_quiet quiet⟩

section Ring

/-- The free block of the ring reaches the end of its slab: in a larger slab its copy is larger. -/
theorem copyInto_all_or_nothing_spare : ∃ copy final,
    (ringHeap.copyInto ⟨0x3ffffffff010⟩ spareHeap (.reference 0x3fffffffe010) false).run strayMachine =
      .ok (copy, .ok ⟨0x3fffffffe010⟩) final ∧
    ringHeap.Replaced spareHeap copy ringSlab spareSlab ringBlocks false strayMachine final ∧
    spareSlab.freeBlocks final.memory = [(0x3fffffffe060, 64)] := by
  have layout : ringSlab.Layout .standard strayMachine.memory ringBlocks :=
    layout_ring.keep fun _ lower _ => stray_read lower
  have isContext : strayMachine.memory.tag 0x3ffffffff010 = Tag.context := by
    rw [Memory.tag, Memory.header, stray_read (by omega)]
    exact congrArg Header.tag header_ring.1
  have accepted : ringHeap.checkDestination ⟨0x3ffffffff010⟩ spareHeap (.reference 0x3fffffffe010)
      strayMachine.memory = .ok (ringSlab, spareSlab) := rfl
  have placed : spareSlab.Placed := ⟨by decide, by decide, by decide, by decide, by decide⟩
  have apart : ringSlab.Apart spareSlab := .inr (by decide)
  have member : (⟨0x3ffffffff010, 48, .object⟩ : Block) ∈ ringBlocks := by simp [ringBlocks]
  obtain ⟨_, final, ran, rfl, _⟩ := ensures_copyInto accepted ⟨layout.placed, placed, by decide, apart⟩
    layout member rfl rfl isContext false
  have tiled : ringHeap.Tiled strayMachine.memory fun _ => ringBlocks :=
    ⟨by simpa [ringHeap] using layout, by simp [ringHeap]⟩
  obtain ⟨fromSlab, toSlab, _, replaced⟩ := copyInto_all_or_nothing.2 _ _ ran (fun _ => ringBlocks) tiled
    (by simp [ringBlocks, Coalesced, Separate]) (by simpa [spareHeap] using placed)
    (by simpa [Heap.Apart, ringHeap, spareHeap] using apart)
  obtain ⟨single, alsoSingle⟩ := replaced.slabs
  cases single
  cases alsoSingle
  refine ⟨_, final, ran, replaced, ?_⟩
  rw [replaced.free, layout.freeBlocks_eq]
  decide

end Ring

end Heap

end SlabHeap
