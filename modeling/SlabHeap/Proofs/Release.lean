import SlabHeap.Proofs.Reclaim
import SlabHeap.Proofs.Walk

namespace SlabHeap

/-! Freeing one block.

`Slab.release` decides by addresses alone whether the block that it frees touches the free blocks in
front of it and behind it. `Slab.Layout.ensures_release` says that in a layout these decisions are
right: the blocks become what `Block.reclaim` and `Block.absorb` make of them.
-/

open FreeList

namespace Slab

open Block

variable {slab : Slab} {shapes : ShapeTable} {memory after : Memory} {block run : Block}
  {behind front old ahead rest blocks : List Block} {cursor : Nat}

/-- Memory shows a free run between the blocks in front of it and those ahead of it, and is
otherwise the same. -/
structure Freed (slab : Slab) (memory after : Memory) (front : List Block) (run : Block)
    (ahead : List Block) : Prop where
  sized : FreeList.size after run.start = run.size
  linked : FreeList.next after run.start = firstOr 0 (frees ahead)
  reached : FreeList.next after (lastOr slab.start (frees front)) = run.start
  same : ∀ address, ¬ (run.start ≤ address ∧ address < run.start + 16) →
    ¬ (lastOr slab.start (frees front) + 8 ≤ address ∧
      address < lastOr slab.start (frees front) + 16) →
    after.read address = memory.read address

/-- What a change leaves alone: the blocks in use and everything outside the slab. -/
structure Untouched (slab : Slab) (memory after : Memory) (blocks : List Block) : Prop where
  blocks : ∀ block ∈ blocks, block.kind ≠ .free → block.Kept memory after
  outside : ∀ address, address < slab.start ∨ slab.stop ≤ address →
    after.read address = memory.read address

theorem Layout.merge (layout : slab.Layout shapes memory (front ++ (old ++ ahead)))
    (isFree : run.kind = .free) (frontTiles : Tiles slab.objects front run.start)
    (oldTiles : Tiles run.start old run.stop) (some : old ≠ [])
    (aheadTiles : Tiles run.stop ahead slab.stop) (freed : slab.Freed memory after front run ahead) :
    slab.Layout shapes after (front ++ ([run] ++ ahead)) ∧
      slab.Untouched memory after (front ++ ahead) := by
  obtain ⟨_, lower, _, upper⟩ := layout.lastOr_bounds frontTiles
  have large : blockUnit ≤ run.size ∧ run.size % blockUnit = 0 := by
    have := oldTiles.length_le
    have := oldTiles.whole
    have := List.length_pos_iff.mpr some
    simp only [Block.stop, blockUnit] at *
    omega
  have same : ∀ address, ¬ (run.start ≤ address ∧ address < run.stop) →
      ¬ (lastOr slab.start (frees front) + 8 ≤ address ∧
        address < lastOr slab.start (frees front) + 16) →
      after.read address = memory.read address := by
    intro address outside
    refine freed.same address fun inside => outside ?_
    simp only [Block.stop, blockUnit] at *
    omega
  have runTiles : Tiles run.start [run] run.stop := ⟨rfl, large.1, large.2, rfl⟩
  obtain ⟨frontKept, aheadKept⟩ :=
    layout.keeps_beside frontTiles oldTiles.le aheadTiles same
  refine ⟨layout.replace frontTiles runTiles aheadTiles same ?_ ?_, ?_, ?_⟩
  · have present : run.start ≠ 0 := by
      have := layout.placed.startPositive
      omega
    simp only [frees, isFree, if_true, FreeList.Path, freed.reached, freed.sized, freed.linked]
    exact ⟨trivial, present, trivial, trivial⟩
  · intro block member
    obtain rfl := List.mem_singleton.mp member
    simp [Block.Fits, isFree]
  · intro block member inUse
    rcases List.mem_append.mp member with inFront | inAhead
    · exact frontKept block inFront inUse
    · exact aheadKept block inAhead
  · intro address outside
    have := aheadTiles.le
    have := oldTiles.le
    exact same address (by omega) (by omega)

/-- A block between others was reclaimed: `run` is the free block in its place, between `others` and
`ahead`. -/
structure Released (slab : Slab) (shapes : ShapeTable) (machine final : Machine)
    (behind : List Block) (block : Block) (rest : List Block) (run : Block)
    (others ahead : List Block) : Prop where
  absorbed : absorb (reclaim block behind) rest = (run :: others, ahead)
  isFree : run.kind = .free
  covers : block.stop ≤ run.stop
  steady : machine.Steady final
  layout : slab.Layout shapes final.memory ((run :: others).reverse ++ ahead)
  untouched : slab.Untouched machine.memory final.memory (others.reverse ++ ahead)

theorem Released.suffix {machine final : Machine} {others : List Block}
    (released : slab.Released shapes machine final behind block rest run others ahead) : ahead <:+ rest := by
  simpa [released.absorbed] using absorb_suffix (reclaim block behind) rest

theorem Released.quiet {machine mid final : Machine} {others : List Block}
    (released : slab.Released shapes mid final behind block rest run others ahead)
    (quiet : machine.Quiet mid) :
    slab.Released shapes machine final behind block rest run others ahead where
  absorbed := released.absorbed
  isFree := released.isFree
  covers := released.covers
  steady := quiet.toSteady.trans released.steady
  layout := released.layout
  untouched := quiet.memory ▸ released.untouched

section Release

variable {machine : Machine} {cursor size before after reach following : Nat}

/-- The decision whether a block touches another one. -/
theorem ensures_touches {β : Type} {absent : Prop} [Decidable absent] {start size other : Nat}
    {next : Bool → Action β} {post : β → Machine → Prop}
    (bounded : ¬ absent → start + size < Size.limit) :
    Action.Ensures (if absent then pure false >>= next
      else liftM (Size.add start size) >>= fun stop => pure (decide (stop = other)) >>= next)
      machine post ↔
      (next (decide (¬ absent ∧ start + size = other))).Ensures machine post := by
  by_cases none : absent
  · simp [none]
  · simp only [none, if_false, Action.ensures_check (Size.add_eq_ok (bounded none)), pure_bind,
      not_false_eq_true, true_and]

/-- What `release` makes of the free block behind the storage that it frees: how much it adds to the
run, and where the list goes on behind it. -/
structure Ahead (memory : Memory) (stop after reach following : Nat) : Prop where
  joined : after ≠ 0 ∧ stop = after →
    reach = FreeList.size memory after ∧ following = FreeList.next memory after
  apart : ¬ (after ≠ 0 ∧ stop = after) → reach = 0 ∧ following = after
  bounded : stop + reach < Size.limit
  isAddress : following < Size.limit

/-- Freed storage that grows the free block in front of it. -/
theorem ensures_release_joining (isNode : before ≠ slab.start) (aligned : before % 16 = 0)
    (touches : before + FreeList.size machine.memory before = cursor)
    (linked : FreeList.next machine.memory before = after)
    (ahead : Ahead machine.memory (cursor + size) after reach following) :
    (slab.release cursor size before after).Ensures machine fun answer final =>
      answer = (cursor + size + reach, FreeList.size machine.memory before + size + reach) ∧
        machine.Steady final ∧
        FreeList.size final.memory before =
          FreeList.size machine.memory before + size + reach ∧
        FreeList.next final.memory before = following ∧
        ∀ address, ¬ (before ≤ address ∧ address < before + 16) →
          final.memory.read address = machine.memory.read address := by
  have bounded := ahead.bounded
  have joined : Size.add (FreeList.size machine.memory before) size =
      .ok (FreeList.size machine.memory before + size) := Size.add_eq_ok (by omega)
  have last : Size.add before (FreeList.size machine.memory before + size + reach) =
      .ok (before + (FreeList.size machine.memory before + size + reach)) :=
    Size.add_eq_ok (by omega)
  have answer : before + (FreeList.size machine.memory before + size + reach) =
      cursor + size + reach := by omega
  simp only [release, Action.ensures_memory]
  rw [ensures_touches (by omega), ensures_touches (by omega)]
  simp only [isNode, touches, not_false_eq_true, and_self, decide_true, if_true]
  rw [Action.ensures_check joined]
  by_cases meets : after ≠ 0 ∧ cursor + size = after
  · obtain ⟨rfl, rfl⟩ := ahead.joined meets
    have whole : Size.add (FreeList.size machine.memory before + size)
        (FreeList.size machine.memory after) = .ok (FreeList.size machine.memory before + size +
          FreeList.size machine.memory after) := Size.add_eq_ok (by omega)
    simp only [meets, and_self, decide_true, if_true, not_false_eq_true]
    rw [Action.ensures_check whole, Action.ensures_check last]
    simp only [Action.ensures_onMemory, Action.ensures_pure, Machine.memory_withMemory]
    refine ⟨by rw [answer, meets.2], ⟨rfl, rfl, rfl⟩, size_setSize (by omega), ?_, ?_⟩
    · rw [FreeList.next, read_setSize (by omega) (by omega)]
      exact next_setNext ahead.isAddress
    · intro address outside
      rw [read_setSize (by omega) (by omega), read_setNext (by omega) (by omega)]
  · obtain ⟨rfl, rfl⟩ := ahead.apart meets
    rw [Nat.add_zero] at last answer
    simp only [meets, decide_false, Bool.false_eq_true, if_false, pure_bind]
    rw [Action.ensures_check last]
    simp only [Action.ensures_onMemory, Action.ensures_pure, Machine.memory_withMemory]
    refine ⟨by rw [answer]; rfl, ⟨rfl, rfl, rfl⟩, size_setSize (by omega), ?_, ?_⟩
    · rw [FreeList.next, read_setSize (by omega) (by omega)]
      exact linked
    · intro address outside
      rw [read_setSize (by omega) (by omega)]

/-- Freed storage that becomes a free block of its own. -/
theorem ensures_release_apart
    (apart : before = slab.start ∨ before + FreeList.size machine.memory before ≠ cursor)
    (aligned : before % 16 = 0) (cursorAligned : cursor % 16 = 0)
    (room : before ≠ slab.start → before + FreeList.size machine.memory before < Size.limit)
    (behind : before + 16 ≤ cursor)
    (ahead : Ahead machine.memory (cursor + size) after reach following) :
    (slab.release cursor size before after).Ensures machine fun answer final =>
      answer = (cursor + size + reach, size + reach) ∧ machine.Steady final ∧
        FreeList.size final.memory cursor = size + reach ∧
        FreeList.next final.memory cursor = following ∧
        FreeList.next final.memory before = cursor ∧
        ∀ address, ¬ (cursor ≤ address ∧ address < cursor + 16) →
          ¬ (before + 8 ≤ address ∧ address < before + 16) →
          final.memory.read address = machine.memory.read address := by
  have bounded := ahead.bounded
  have last : Size.add cursor (size + reach) = .ok (cursor + (size + reach)) :=
    Size.add_eq_ok (by omega)
  have separate : ¬ (¬ before = slab.start ∧
      before + FreeList.size machine.memory before = cursor) := by
    rintro ⟨isNode, touches⟩
    exact apart.elim isNode fun elsewhere => elsewhere touches
  have changed (run next : Nat) (isSize : run < Size.limit) (isAddress : next < Size.limit) :
      let changed := setNext (writeNode machine.memory cursor run next) before cursor
      FreeList.size changed cursor = run ∧ FreeList.next changed cursor = next ∧
        FreeList.next changed before = cursor ∧
        ∀ address, ¬ (cursor ≤ address ∧ address < cursor + 16) →
          ¬ (before + 8 ≤ address ∧ address < before + 16) →
          changed.read address = machine.memory.read address := by
    refine ⟨?_, ?_, next_setNext (by omega), ?_⟩
    · rw [FreeList.size, read_setNext (by omega) (by omega)]
      rw [writeNode, read_setNext (by omega) (by omega)]
      exact size_setSize isSize
    · rw [FreeList.next, read_setNext (by omega) (by omega)]
      exact next_setNext isAddress
    · intro address outside link
      rw [read_setNext (by omega) (by omega), writeNode, read_setNext (by omega) (by omega),
        read_setSize (by omega) (by omega)]
  simp only [release, Action.ensures_memory]
  rw [ensures_touches (by omega), ensures_touches room]
  simp only [separate, decide_false, Bool.false_eq_true, if_false]
  by_cases meets : after ≠ 0 ∧ cursor + size = after
  · obtain ⟨rfl, rfl⟩ := ahead.joined meets
    have whole : Size.add size (FreeList.size machine.memory after) =
        .ok (size + FreeList.size machine.memory after) := Size.add_eq_ok (by omega)
    simp only [meets, and_self, decide_true, if_true, not_false_eq_true]
    rw [Action.ensures_check whole]
    simp only [Action.ensures_onMemory, Machine.memory_withMemory]
    rw [Action.ensures_check last, Action.ensures_pure]
    refine ⟨by rw [← Nat.add_assoc, meets.2], ⟨rfl, rfl, rfl⟩, ?_⟩
    exact changed _ _ (by omega) ahead.isAddress
  · obtain ⟨rfl, rfl⟩ := ahead.apart meets
    rw [Nat.add_zero] at last
    simp only [meets, decide_false, Bool.false_eq_true, if_false, pure_bind,
      Action.ensures_onMemory, Machine.memory_withMemory]
    rw [Action.ensures_check last, Action.ensures_pure]
    exact ⟨rfl, ⟨rfl, rfl, rfl⟩, changed _ _ (by omega) ahead.isAddress⟩

end Release

/-- What the storage that a block leaves takes in of the blocks ahead of it: `taken`, with `reach` bytes. -/
structure Reaches (slab : Slab) (memory : Memory) (stop : Nat) (rest : List Block) (reach : Nat)
    (taken ahead : List Block) : Prop where
  split : rest = taken ++ ahead
  takenTiles : Tiles stop taken (stop + reach)
  aheadTiles : Tiles (stop + reach) ahead slab.stop
  decided : Ahead memory stop (firstOr 0 (frees rest)) reach (firstOr 0 (frees ahead))
  absorbs : ∀ run others, run.kind = .free →
    absorb (run :: others) rest = ({ run with size := run.size + reach } :: others, ahead)

theorem firstOr_frees_lt (placed : slab.Placed) (tiles : Tiles cursor ahead slab.stop) :
    firstOr 0 (frees ahead) < Size.limit := by
  have bounded := placed.bounded
  cases found : frees ahead with
  | nil => simp [firstOr, Size.limit]
  | cons entry others =>
      have := tiles.frees_bounds (show entry ∈ frees ahead by simp [found])
      simp only [firstOr]
      omega

/-- A free block right ahead of a block in use joins what that block leaves. -/
theorem Layout.reaches_free {next : Block}
    (layout : slab.Layout shapes memory (front ++ block :: next :: rest)) (inUse : block.kind ≠ .free)
    (isFree : next.kind = .free) : slab.Reaches memory block.stop (next :: rest) next.size [next] rest := by
  obtain ⟨_, _, _, _, _, begins, large, whole, further⟩ := layout.split_tiles rfl
  have bounded := layout.placed.bounded
  have starts : firstOr 0 (frees (next :: rest)) = next.start := next_free_eq isFree
  have entry : (next.start, next.size) ∈ frees (front ++ block :: next :: rest) := by
    simp [frees_append, frees, inUse, isFree]
  have sized := (layout.listed.present entry).2
  have split : frees (front ++ block :: next :: rest) = frees front ++ frees (next :: rest) := by
    simp [frees_append, frees, inUse]
  have path := layout.path_from split
  have linked : FreeList.next memory next.start = firstOr 0 (frees rest) := by
    simp only [frees, isFree, if_true, firstOr] at path
    exact path.2.2.2.start_eq
  have fits : next.stop = block.stop + next.size := by
    simp only [Block.stop] at begins ⊢
    omega
  have later := further.le
  refine ⟨rfl, ⟨begins, large, whole, fits⟩, fits ▸ further, ?_, ?_⟩
  · rw [starts]
    refine ⟨fun _ => ⟨sized.symm, linked.symm⟩, fun elsewhere => ?_, by omega,
      firstOr_frees_lt layout.placed further⟩
    refine absurd ⟨?_, begins.symm⟩ elsewhere
    have := (layout.listed.present entry).1
    exact this
  · intro run tail runFree
    simp [absorb, isFree, reclaim, runFree, join]

/-- With no free block right ahead of it, a block leaves its own storage alone. -/
theorem Layout.reaches_none (layout : slab.Layout shapes memory (front ++ block :: rest))
    (noneFree : ∀ next ∈ rest.head?, next.kind ≠ .free) : slab.Reaches memory block.stop rest 0 [] rest := by
  obtain ⟨cursor, behindTiles, begins, large, _, later⟩ := layout.split_tiles rfl
  obtain ⟨positive, _⟩ := layout.cursor_bounds behindTiles
  have bounded := layout.placed.bounded
  have below := later.le
  have apart : ¬ (firstOr 0 (frees rest) ≠ 0 ∧ block.stop = firstOr 0 (frees rest)) := by
    rintro ⟨present, touches⟩
    cases rest with
    | nil => exact present rfl
    | cons next others =>
        refine (next_free_behind ?_ later (noneFree next rfl)).1 touches.symm
        simp only [Block.stop]
        omega
  refine ⟨rfl, rfl, later, ⟨fun touches => absurd touches apart, fun _ => ⟨rfl, rfl⟩, by omega,
    firstOr_frees_lt layout.placed later⟩, ?_⟩
  intro run tail runFree
  cases rest with
  | nil => simp [absorb]
  | cons next others => simp [absorb, noneFree next rfl]

theorem Layout.exists_reaches (layout : slab.Layout shapes memory (front ++ block :: rest))
    (inUse : block.kind ≠ .free) : ∃ reach taken ahead, slab.Reaches memory block.stop rest reach taken ahead := by
  cases rest with
  | nil => exact ⟨_, _, _, layout.reaches_none (by simp)⟩
  | cons next others =>
      by_cases isFree : next.kind = .free
      · exact ⟨_, _, _, layout.reaches_free inUse isFree⟩
      · refine ⟨_, _, _, layout.reaches_none fun _ first => ?_⟩
        cases first
        exact isFree

/-- How reclaiming a block divides what lies behind it: a free block `head` takes the place of `lead`. -/
structure Reclaims (start stop : Nat) (behind : List Block) (block head : Block) (others lead : List Block) :
    Prop where
  reclaimed : reclaim block behind = head :: others
  isFree : head.kind = .free
  split : behind.reverse ++ [block] = others.reverse ++ lead
  some : lead ≠ []
  othersTiles : Tiles start others.reverse head.start
  leadTiles : Tiles head.start lead head.stop
  stops : head.stop = stop

/-- A block joins the free block behind it. -/
theorem reclaims_joining {start stop : Nat} {last : Block} {others : List Block}
    (tiles : Tiles start ((last :: others).reverse ++ [block]) stop) (isFree : last.kind = .free) :
    Reclaims start stop (last :: others) block (last.join block) others [last, block] ∧ last.stop = block.start := by
  obtain ⟨mid, behindTiles, begins, large, whole, stops⟩ := Tiles.append_iff.mp tiles
  simp only [Tiles] at stops
  rw [List.reverse_cons] at behindTiles
  obtain ⟨low, othersTiles, lastBegins, lastLarge, lastWhole, touches⟩ := Tiles.append_iff.mp behindTiles
  have meets : last.stop = block.start := touches.trans begins.symm
  have joined : (last.join block).stop = block.stop := by
    simp only [join, Block.stop] at meets ⊢
    omega
  refine ⟨⟨by simp [reclaim, isFree], rfl, by simp, by simp, ?_, ?_, joined.trans stops⟩, meets⟩
  · exact lastBegins ▸ othersTiles
  · exact ⟨rfl, lastLarge, lastWhole, meets.symm, large, whole, joined.symm⟩

/-- A block becomes free on its own. -/
theorem reclaims_alone {start stop : Nat} (tiles : Tiles start (behind.reverse ++ [block]) stop)
    (noneFree : ∀ last ∈ behind.head?, last.kind ≠ .free) :
    Reclaims start stop behind block { block with kind := .free } behind [block] := by
  obtain ⟨mid, behindTiles, begins, large, whole, stops⟩ := Tiles.append_iff.mp tiles
  have reclaimed : reclaim block behind = { block with kind := .free } :: behind := by
    cases behind with
    | nil => rfl
    | cons last others => simp [reclaim, noneFree last rfl]
  exact ⟨reclaimed, rfl, rfl, by simp, begins ▸ behindTiles, ⟨rfl, large, whole, rfl⟩, stops⟩

/-- Behind a block in use, no free block reaches the cursor. -/
theorem Layout.apart_before (layout : slab.Layout shapes memory (behind.reverse ++ rest))
    (tiles : Tiles slab.objects behind.reverse cursor)
    (noneFree : ∀ last ∈ behind.head?, last.kind ≠ .free) :
    (lastOr slab.start (frees behind.reverse) = slab.start ∨
      lastOr slab.start (frees behind.reverse) + FreeList.size memory
        (lastOr slab.start (frees behind.reverse)) ≠ cursor) ∧
    (lastOr slab.start (frees behind.reverse) ≠ slab.start →
      lastOr slab.start (frees behind.reverse) + FreeList.size memory
        (lastOr slab.start (frees behind.reverse)) ≤ cursor) := by
  rcases (layout.lastOr_bounds tiles).1 with isSentinel | ⟨free, member, isFree, starts⟩
  · exact ⟨.inl isSentinel, fun isNode => absurd isSentinel isNode⟩
  · have listed : (free.start, free.size) ∈ frees (behind.reverse ++ rest) :=
      mem_frees.mpr (isFree ▸ List.mem_append_left _ member)
    have sized := (layout.listed.present listed).2
    have bounds := tiles.bounds member
    rw [← starts, sized]
    refine ⟨.inr fun reaches => ?_, fun _ => bounds.2.1⟩
    cases behind with
    | nil => simp at member
    | cons last others =>
        have lastMember : last ∈ (last :: others).reverse := by simp
        obtain ⟨mid, _, _, large, _, stops⟩ := Tiles.append_iff.mp (List.reverse_cons ▸ tiles)
        simp only [Tiles] at stops
        have reaching : free.Covers (cursor - 1) := by
          simp only [Block.Covers, Block.stop]
          omega
        have same := tiles.eq_of_covers member lastMember reaching
          (by simp only [Block.Covers, Block.stop, blockUnit] at *; omega)
        exact noneFree last rfl (same ▸ isFree)

/-- The run that a free block makes with what it reaches ahead of it. -/
def grown (head : Block) (reach : Nat) : Block := { head with size := head.size + reach }

section Reclaiming

variable {machine final : Machine} {head : Block} {others lead taken : List Block} {reach : Nat}
  {answer : Nat × Nat}
  (layout : slab.Layout shapes machine.memory (behind.reverse ++ block :: rest))
  (reclaims : Reclaims slab.objects block.stop behind block head others lead)
  (reaches : slab.Reaches machine.memory block.stop rest reach taken ahead)

include layout reclaims reaches

/-- The blocks that make up a run are those behind the block that was reclaimed and those ahead of it. -/
theorem Layout.divided : slab.Layout shapes machine.memory (others.reverse ++ ((lead ++ taken) ++ ahead)) := by
  have regrouped : behind.reverse ++ block :: rest = (behind.reverse ++ [block]) ++ (taken ++ ahead) := by
    rw [reaches.split, List.append_assoc, List.singleton_append]
  rw [regrouped, reclaims.split] at layout
  simpa using layout

/-- When memory shows the run, the block is reclaimed. -/
theorem Layout.released (steady : machine.Steady final)
    (told : answer = (block.stop + reach, head.size + reach))
    (freed : slab.Freed machine.memory final.memory others.reverse (grown head reach) ahead) :
    answer = ((grown head reach).stop, (grown head reach).size) ∧
      slab.Released shapes machine final behind block rest (grown head reach) others ahead := by
  have runStop : (grown head reach).stop = block.stop + reach := by
    have stops := reclaims.stops
    simp only [grown, Block.stop] at stops ⊢
    omega
  have runTiles : Tiles (grown head reach).start (lead ++ taken) (grown head reach).stop := by
    rw [runStop]
    exact reclaims.leadTiles.append (reclaims.stops ▸ reaches.takenTiles)
  have aheadRun : Tiles (grown head reach).stop ahead slab.stop := by
    rw [runStop]
    exact reaches.aheadTiles
  obtain ⟨merged, untouched⟩ := (layout.divided reclaims reaches).merge (show (grown head reach).kind = .free from
    reclaims.isFree) reclaims.othersTiles runTiles (by simp [reclaims.some]) aheadRun freed
  refine ⟨by rw [told, runStop]; rfl, ?_, reclaims.isFree, by omega, steady, by simpa using merged, untouched⟩
  rw [reclaims.reclaimed]
  exact reaches.absorbs head others reclaims.isFree

end Reclaiming

theorem frees_grown {head : Block} (isFree : head.kind = .free) (others : List Block) (reach : Nat) :
    frees (grown head reach :: others).reverse =
      frees others.reverse ++ [((grown head reach).start, (grown head reach).size)] := by
  simp [frees_append, frees, grown, isFree]

/-- Freeing a block behind a free one adds to the node that is there. -/
theorem Layout.ensures_release_joining {machine : Machine} {last : Block} {others : List Block}
    (layout : slab.Layout shapes machine.memory ((last :: others).reverse ++ block :: rest))
    (inUse : block.kind ≠ .free) (isFree : last.kind = .free) :
    (slab.release block.start block.size (lastOr slab.start (frees (last :: others).reverse))
      (firstOr 0 (frees rest))).Ensures machine fun answer final =>
        ∃ run others' ahead, answer = (run.stop, run.size) ∧
          slab.Released shapes machine final (last :: others) block rest run others' ahead ∧
          ∃ left skipped, left ++ skipped = frees (run :: others').reverse ∧
            lastOr slab.start (frees (last :: others).reverse) = lastOr slab.start left := by
  obtain ⟨reach, taken, ahead, reaches⟩ := layout.exists_reaches inUse
  obtain ⟨cursor, behindTiles, begins, large, whole, _⟩ := layout.split_tiles rfl
  obtain ⟨reclaims, meets⟩ := reclaims_joining (behindTiles.append ⟨begins, large, whole, rfl⟩) isFree
  have divided := layout.divided reclaims reaches
  obtain ⟨_, lower, aligned, below⟩ := layout.lastOr_bounds behindTiles
  obtain ⟨_, headLower, headAligned, headBelow⟩ := divided.lastOr_bounds reclaims.othersTiles
  have node : lastOr slab.start (frees (last :: others).reverse) = last.start := by
    simp [frees_append, frees, isFree, lastOr_append_singleton]
  have listed : (last.start, last.size) ∈ frees ((last :: others).reverse ++ block :: rest) := by
    simp [frees_append, frees, isFree]
  have free := layout.listed.present listed
  have linked := layout.next_behind (frees_append _ _)
  simp only [frees, inUse, if_false, node] at linked
  have reached : FreeList.next machine.memory (lastOr slab.start (frees others.reverse)) = last.start := by
    have split : frees ((last :: others).reverse ++ block :: rest) =
        frees others.reverse ++ frees (last :: block :: rest) := by simp [frees_append, frees]
    simpa [frees, isFree, firstOr] using layout.next_behind split
  have stops := reclaims.stops
  simp only [Block.stop, join] at meets stops headBelow
  rw [node] at aligned ⊢
  refine (Slab.ensures_release_joining (by omega) aligned (by rw [free.2]; omega) linked
    reaches.decided).weaken ?_
  rintro answer final ⟨told, steady, length, goesOn, same⟩
  rw [free.2] at told length
  obtain ⟨ends, released⟩ := layout.released reclaims reaches steady told
    ⟨length, goesOn, by
      rw [FreeList.next, same _ (by omega), ← FreeList.next, reached]
      rfl, fun address inRun _ => same address inRun⟩
  refine ⟨_, others, ahead, ends, released, _, [], List.append_nil _, ?_⟩
  rw [frees_grown reclaims.isFree, lastOr_append_singleton]
  rfl

/-- Freeing a block behind one in use adds a node behind the one that is there. -/
theorem Layout.ensures_release_alone {machine : Machine}
    (layout : slab.Layout shapes machine.memory (behind.reverse ++ block :: rest))
    (inUse : block.kind ≠ .free) (noneFree : ∀ last ∈ behind.head?, last.kind ≠ .free) :
    (slab.release block.start block.size (lastOr slab.start (frees behind.reverse))
      (firstOr 0 (frees rest))).Ensures machine fun answer final =>
        ∃ run others ahead, answer = (run.stop, run.size) ∧
          slab.Released shapes machine final behind block rest run others ahead ∧
          ∃ left skipped, left ++ skipped = frees (run :: others).reverse ∧
            lastOr slab.start (frees behind.reverse) = lastOr slab.start left := by
  obtain ⟨reach, taken, ahead, reaches⟩ := layout.exists_reaches inUse
  obtain ⟨cursor, behindTiles, begins, large, whole, later⟩ := layout.split_tiles rfl
  have reclaims := reclaims_alone (behindTiles.append ⟨begins, large, whole, rfl⟩) noneFree
  obtain ⟨_, lower, beforeAligned, below⟩ := layout.lastOr_bounds behindTiles
  have bounded := layout.placed.bounded
  have aligned := (layout.cursor_bounds behindTiles).2
  have inside := later.le
  obtain ⟨apart, room⟩ := layout.apart_before behindTiles noneFree
  simp only [Block.stop] at inside
  refine (ensures_release_apart (begins ▸ apart) beforeAligned (by omega)
    (fun isNode => by have := room isNode; omega) (by omega) reaches.decided).weaken ?_
  rintro answer final ⟨told, steady, length, goesOn, reached, same⟩
  obtain ⟨ends, released⟩ := layout.released reclaims reaches steady told ⟨length, goesOn, reached, same⟩
  exact ⟨_, behind, ahead, ends, released, _, _, (frees_grown rfl behind reach).symm, rfl⟩

/-- Freeing a block in use reclaims it. The node in front of it stays on the list. -/
theorem Layout.ensures_release {machine : Machine}
    (layout : slab.Layout shapes machine.memory (behind.reverse ++ block :: rest))
    (inUse : block.kind ≠ .free) :
    (slab.release block.start block.size (lastOr slab.start (frees behind.reverse))
      (firstOr 0 (frees rest))).Ensures machine fun answer final =>
        ∃ run others ahead, answer = (run.stop, run.size) ∧
          slab.Released shapes machine final behind block rest run others ahead ∧
          ∃ left skipped, left ++ skipped = frees (run :: others).reverse ∧
            lastOr slab.start (frees behind.reverse) = lastOr slab.start left := by
  cases behind with
  | nil => exact layout.ensures_release_alone inUse (by simp)
  | cons last others =>
      by_cases isFree : last.kind = .free
      · exact layout.ensures_release_joining inUse isFree
      · refine layout.ensures_release_alone inUse fun _ first => ?_
        cases first
        exact isFree

end Slab

end SlabHeap
