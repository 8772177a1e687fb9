import SlabHeap.Proofs.Carving
import SlabHeap.Proofs.Standard
import SlabHeap.Proofs.Sweep

namespace SlabHeap

/-! Which addresses walks and sweeps look at.

`Slab.traceFrom` and `Slab.sweepTraceFrom` are a walk and a sweep that also answer where they stood and
what they took the storage there for; without these notes they are the loops themselves,
`Slab.fst_traceFrom` and `Slab.fst_sweepTraceFrom`. `Slab.Layout.agree` says that both see the blocks of
the layout, and end where the slab does.
-/

open FreeList Block

namespace Slab

variable {σ α : Type}

/-- Notes in front of a loop's own what its first step met. The loop answers with its notes and the place
where it ends. -/
def noting (met : α) (later : Action (σ × List α × Nat)) : Action (σ × List α × Nat) := do
  let (result, notes, stop) ← later
  return (result, met :: notes, stop)

/-- `Slab.foldFrom` with notes: what every step met at its cursor. -/
def traceFrom (slab : Slab) (shapes : ShapeTable) (scrutiny : Scrutiny) (visit : σ → Nat → Action σ)
    (cursor free : Nat) (state : σ) : Nat → Action (σ × List Block × Nat)
  | 0 => return (state, [], cursor)
  | bound + 1 => do
      if slab.stop ≤ cursor then return (state, [], cursor)
      let memory ← Action.memory
      let (_, free) := FreeList.seek memory cursor 0 free Size.wordLimit
      if free = cursor then
        let next ← Size.add cursor (FreeList.size memory free)
        noting ⟨cursor, FreeList.size memory free, .free⟩
          (slab.traceFrom shapes scrutiny visit next free state bound)
      else
        match ← (shapes.blockSize? memory cursor : Action _) with
        | none =>
            reportBadObject cursor
            noting ⟨cursor, blockUnit, .bare⟩
              (slab.traceFrom shapes scrutiny visit (cursor + blockUnit) free state bound)
        | some size =>
            scrutiny.inspect cursor size free
            let next ← Size.add cursor size
            let state ← visit state cursor
            noting ⟨cursor, size, .object⟩
              (slab.traceFrom shapes scrutiny visit next free state bound)

def trace (slab : Slab) (shapes : ShapeTable) (scrutiny : Scrutiny) (visit : σ → Nat → Action σ)
    (state : σ) : Action (σ × List Block × Nat) := do
  let memory ← Action.memory
  slab.traceFrom shapes scrutiny visit slab.objects (slab.firstFree memory) state slab.stepBound

/-- `Slab.sweepFrom` with notes: what every step met at its cursor, and whether it reclaimed it. -/
def sweepTraceFrom (slab : Slab) (shapes : ShapeTable) (scrutiny : Scrutiny) (cursor before : Nat)
    (stats : SweepStats) : Nat → Action (SweepStats × List (Block × Bool) × Nat)
  | 0 => return (stats, [], cursor)
  | bound + 1 => do
      if slab.stop ≤ cursor then return (stats, [], cursor)
      let memory ← Action.memory
      let (before, after) :=
        FreeList.seek memory cursor before (FreeList.next memory before) Size.wordLimit
      if after = cursor then
        let next ← Size.add cursor (FreeList.size memory after)
        noting (⟨cursor, FreeList.size memory after, .free⟩, false)
          (slab.sweepTraceFrom shapes scrutiny next before stats bound)
      else
        match ← (shapes.blockSize? memory cursor : Action _) with
        | none =>
            reportBadObject cursor
            noting (⟨cursor, blockUnit, .bare⟩, false)
              (slab.sweepTraceFrom shapes scrutiny (cursor + blockUnit) before stats bound)
        | some size =>
            scrutiny.inspect cursor size after
            if (memory.header cursor).isMarked then
              Action.onHeader cursor .unmark
              let next ← Size.add cursor size
              noting (⟨cursor, size, .object⟩, false)
                (slab.sweepTraceFrom shapes scrutiny next before stats bound)
            else
              finalize shapes cursor
              let sumFreed ← Size.add stats.sumFreed size
              let (next, run) ← slab.release cursor size before after
              let stats := { maxFreed := max stats.maxFreed run, sumFreed }
              noting (⟨cursor, size, .object⟩, true)
                (slab.sweepTraceFrom shapes scrutiny next before stats bound)

def sweepTrace (slab : Slab) (shapes : ShapeTable) (scrutiny : Scrutiny) (stats : SweepStats) :
    Action (SweepStats × List (Block × Bool) × Nat) :=
  slab.sweepTraceFrom shapes scrutiny slab.objects slab.start stats slab.stepBound

section Erasure

variable {slab : Slab} {shapes : ShapeTable} {scrutiny : Scrutiny} {visit : σ → Nat → Action σ}
  {cursor free before bound : Nat} {state : σ} {stats : SweepStats}

theorem fst_noting (met : α) (later : Action (σ × List α × Nat)) :
    Prod.fst <$> noting met later = Prod.fst <$> later := by
  simp only [noting, map_eq_pure_bind, bind_assoc, pure_bind]

/-- Without its notes, the walk is the walk. -/
theorem fst_traceFrom : Prod.fst <$> slab.traceFrom shapes scrutiny visit cursor free state bound =
    slab.foldFrom shapes scrutiny visit cursor free state bound := by
  induction bound generalizing cursor free state with
  | zero => simp only [traceFrom, foldFrom, map_pure]
  | succ bound ih =>
      rw [traceFrom, foldFrom]
      split
      · simp only [map_pure]
      · simp only [map_bind]
        refine bind_congr fun memory => ?_
        split
        · simp only [map_bind, fst_noting, ih]
        · simp only [map_bind]
          refine bind_congr fun size => ?_
          cases size <;> simp only [map_bind, fst_noting, ih]

theorem fst_trace : Prod.fst <$> slab.trace shapes scrutiny visit state =
    slab.foldObjects shapes scrutiny visit state := by
  simp only [trace, foldObjects, map_bind, fst_traceFrom]

/-- Without its notes, the sweep is the sweep. -/
theorem fst_sweepTraceFrom :
    Prod.fst <$> slab.sweepTraceFrom shapes scrutiny cursor before stats bound =
      slab.sweepFrom shapes scrutiny cursor before stats bound := by
  induction bound generalizing cursor before stats with
  | zero => simp only [sweepTraceFrom, sweepFrom, map_pure]
  | succ bound ih =>
      rw [sweepTraceFrom, sweepFrom]
      split
      · simp only [map_pure]
      · simp only [map_bind]
        refine bind_congr fun memory => ?_
        split
        · simp only [map_bind, fst_noting, ih]
        · simp only [map_bind]
          refine bind_congr fun size => ?_
          cases size with
          | none => simp only [map_bind, fst_noting, ih]
          | some size =>
              simp only [map_bind]
              refine bind_congr fun _ => ?_
              split <;> simp only [map_bind, fst_noting, ih]

theorem fst_sweepTrace : Prod.fst <$> slab.sweepTrace shapes scrutiny stats =
    slab.sweep shapes scrutiny stats := fst_sweepTraceFrom

end Erasure

section Steps

variable {slab : Slab} {shapes : ShapeTable} {scrutiny : Scrutiny} {visit : σ → Nat → Action σ}
  {block : Block} {done rest behind blocks : List Block} {machine : Machine} {cursor free before bound : Nat}
  {state : σ} {stats : SweepStats}

theorem ensures_noting {met : α} {later : Action (σ × List α × Nat)}
    {post : σ × List α × Nat → Machine → Prop} (ensures : later.Ensures machine post) :
    (noting met later).Ensures machine fun answer after =>
      ∃ notes, answer.2.1 = met :: notes ∧ post (answer.1, notes, answer.2.2) after :=
  ensures.bind fun _ _ holds => Action.ensures_pure.mpr ⟨_, rfl, holds⟩

namespace Walked

theorem trace_end (walked : slab.Walked done [] cursor free) :
    (slab.traceFrom shapes scrutiny visit cursor free state (bound + 1)).run machine =
      .ok (state, [], slab.stop) machine := by
  have finished : slab.stop ≤ cursor := Nat.le_of_eq walked.ahead.symm
  rw [traceFrom, if_pos finished, show cursor = slab.stop from walked.ahead]
  rfl

/-- A walk notes the block ahead, with which it does what it always does. -/
theorem trace_cons (walked : slab.Walked done (block :: rest) cursor free)
    (layout : slab.Layout shapes machine.memory (done ++ block :: rest)) :
    (slab.traceFrom shapes scrutiny visit cursor free state (bound + 1)).run machine =
      (do
        let state ← meet scrutiny visit state block (firstOr 0 (frees (block :: rest)))
        noting block (slab.traceFrom shapes scrutiny visit block.stop
          (firstOr 0 (frees (block :: rest))) state bound)).run machine := by
  have sum := walked.add_size layout
  have finished := walked.unfinished layout
  obtain ⟨front, sought⟩ := walked.sought layout
  have seen := layout.seen walked.ahead
  obtain rfl := walked.ahead.1
  obtain ⟨start, size, kind⟩ := block
  rw [traceFrom, if_neg finished,
    Action.run_bind (show Action.memory.run machine = .ok machine.memory machine from rfl), sought]
  cases kind with
  | free =>
      obtain ⟨here, sized⟩ := seen
      simp only [meet, here, if_true, sized, sum, Action.check_ok, pure_bind]
  | bare =>
      obtain ⟨elsewhere, unknown, passed⟩ := seen
      obtain rfl : size = blockUnit := (Nat.add_left_cancel passed).symm
      simp only [meet, elsewhere, if_false, unknown, passed, Action.check_ok, bind_assoc, pure_bind]
  | object =>
      obtain ⟨elsewhere, sized⟩ := seen
      simp only [meet, elsewhere, if_false, sized, sum, Action.check_ok, bind_assoc, pure_bind]

end Walked

namespace Sweeping

theorem trace_end (sweeping : slab.Sweeping done [] cursor before) :
    (slab.sweepTraceFrom shapes scrutiny cursor before stats (bound + 1)).run machine =
      .ok (stats, [], slab.stop) machine := by
  have finished : slab.stop ≤ cursor := Nat.le_of_eq sweeping.ahead.symm
  rw [sweepTraceFrom, if_pos finished, show cursor = slab.stop from sweeping.ahead]
  rfl

/-- A sweep notes the block ahead and what it decides about it, and clears it as it always does. -/
theorem trace_cons (sweeping : slab.Sweeping done (block :: rest) cursor before)
    (layout : slab.Layout shapes machine.memory (done ++ block :: rest)) :
    (slab.sweepTraceFrom shapes scrutiny cursor before stats (bound + 1)).run machine =
      (do
        let (next, stats) ← slab.clear shapes scrutiny stats block (lastOr slab.start (frees done))
          (firstOr 0 (frees (block :: rest)))
        noting (block, block.isDead machine.memory)
          (slab.sweepTraceFrom shapes scrutiny next (lastOr slab.start (frees done)) stats bound)).run
        machine := by
  obtain ⟨free, walked⟩ := sweeping.walked
  have sum := walked.add_size layout
  have finished := walked.unfinished layout
  have sought := sweeping.sought layout
  have seen := layout.seen sweeping.ahead
  obtain rfl := sweeping.ahead.1
  obtain ⟨start, size, kind⟩ := block
  rw [sweepTraceFrom, if_neg finished,
    Action.run_bind (show Action.memory.run machine = .ok machine.memory machine from rfl), sought]
  unfold clear
  cases kind with
  | free =>
      obtain ⟨here, sized⟩ := seen
      simp only [here, if_true, sized, sum, isDead, reduceCtorEq, decide_false, Bool.false_and,
        Action.check_ok, pure_bind]
  | bare =>
      obtain ⟨elsewhere, unknown, passed⟩ := seen
      obtain rfl : size = blockUnit := (Nat.add_left_cancel passed).symm
      simp only [elsewhere, if_false, unknown, passed, isDead, reduceCtorEq, decide_false,
        Bool.false_and, Action.check_ok, bind_assoc, pure_bind]
  | object =>
      obtain ⟨elsewhere, sized⟩ := seen
      simp only [elsewhere, if_false, sized, sum, isDead, decide_true, Bool.true_and, Action.check_ok,
        bind_assoc, pure_bind]
      rw [Action.run_bind (show Action.memory.run machine = .ok machine.memory machine from rfl)]
      cases (machine.memory.header start).isMarked with
      | true => simp only [if_true, Bool.not_true, bind_assoc, pure_bind]
      | false => simp only [Bool.false_eq_true, if_false, Bool.not_false, bind_assoc, pure_bind]

end Sweeping

end Steps

section Runs

variable {slab : Slab} {shapes : ShapeTable} {scrutiny : Scrutiny} {visit : σ → Nat → Action σ}
  {block : Block} {done rest behind blocks : List Block} {machine : Machine} {cursor free before bound : Nat}
  {state : σ} {stats : SweepStats}

/-- The visits leave the division of the slab alone. -/
def Harmless (slab : Slab) (shapes : ShapeTable) (blocks : List Block) (visit : σ → Nat → Action σ) :
    Prop :=
  ∀ block ∈ blocks, block.kind = .object → ∀ state mid, slab.Layout shapes mid.memory blocks →
    (visit state block.start).Ensures mid fun _ after => slab.Layout shapes after.memory blocks

theorem Layout.ensures_meet (layout : slab.Layout shapes machine.memory blocks)
    (harmless : slab.Harmless shapes blocks visit) (member : block ∈ blocks) :
    (meet scrutiny visit state block free).Ensures machine
      fun _ after => slab.Layout shapes after.memory blocks := by
  have bounds := layout.bounds member
  unfold meet
  cases kind : block.kind with
  | free => exact Action.ensures_pure.mpr layout
  | bare =>
      refine ensures_reportBadObject.bind fun _ after quiet => Action.ensures_pure.mpr ?_
      exact quiet.memory ▸ layout
  | object =>
      refine (Scrutiny.ensures_inspect (by omega)).bind fun _ after quiet => ?_
      exact harmless block member kind state after (quiet.memory ▸ layout)

/-- A walk meets the blocks ahead one after the other. -/
theorem Layout.ensures_traceFrom (layout : slab.Layout shapes machine.memory blocks)
    (harmless : slab.Harmless shapes blocks visit) (walked : slab.Walked done rest cursor free)
    (split : blocks = done ++ rest) (enough : rest.length < bound) :
    (slab.traceFrom shapes scrutiny visit cursor free state bound).Ensures machine
      fun answer _ => answer.2 = (rest, slab.stop) := by
  induction rest generalizing cursor free bound done state machine with
  | nil =>
      cases bound with
      | zero => simp at enough
      | succ bound => exact ⟨_, _, walked.trace_end, rfl⟩
  | cons block rest ih =>
      cases bound with
      | zero => simp at enough
      | succ bound =>
          have member : block ∈ blocks := split ▸ List.mem_append_right _ List.mem_cons_self
          rw [Action.Ensures, walked.trace_cons (split ▸ layout)]
          refine (layout.ensures_meet harmless member).bind fun state after laid => ?_
          have onward : (slab.traceFrom shapes scrutiny visit block.stop (firstOr 0 (frees (block :: rest)))
              state bound).Ensures after fun answer _ => answer.2 = (rest, slab.stop) :=
            ih laid walked.pass (by simp [split]) (by simpa using enough)
          refine (ensures_noting onward).weaken fun answer _ told => ?_
          obtain ⟨notes, noted, same⟩ := told
          obtain ⟨rfl, ends⟩ := Prod.mk.inj same
          exact Prod.ext noted ends

/-- What a sweep notes of the blocks in use. -/
def decisions (memory : Memory) (blocks : List Block) : List (Block × Bool) :=
  (used blocks).map fun block => (block, block.isDead memory)

/-- A sweep decides about the blocks in use ahead, one after the other. -/
theorem Layout.ensures_sweepTraceFrom
    (layout : slab.Layout shapes machine.memory (behind.reverse ++ rest))
    (sweeping : slab.Sweeping behind.reverse rest cursor before) (enough : rest.length < bound)
    (small : stats.sumFreed + (slab.stop - cursor) < Size.limit) :
    (slab.sweepTraceFrom shapes scrutiny cursor before stats bound).Ensures machine fun answer _ =>
      answer.2.1.filter (fun entry => entry.1.kind ≠ .free) = decisions machine.memory rest ∧
        answer.2.2 = slab.stop := by
  induction bound generalizing cursor behind rest before stats machine with
  | zero => simp at enough
  | succ bound ih =>
      cases rest with
      | nil => exact ⟨_, _, sweeping.trace_end, rfl, rfl⟩
      | cons block rest =>
          rw [Action.Ensures, sweeping.trace_cons layout]
          -- every decision is that of the machine where the sweep stands now
          refine (sweeping.ensures_clear layout small (fun _ _ => rfl) fun _ => isDead_used).bind
            fun answer after outcome => ?_
          obtain ⟨further, remaining, cleared⟩ := outcome
          have fewer : remaining.length < bound :=
            Nat.lt_of_le_of_lt cleared.suffix.length_le (by simpa using enough)
          have onward := ih cleared.layout cleared.sweeping fewer cleared.small
          refine (ensures_noting onward).weaken fun answer _ told => ?_
          obtain ⟨notes, noted, later, ends⟩ := told
          refine ⟨?_, ends⟩
          have same : decisions after.memory remaining = decisions machine.memory rest := by
            unfold decisions
            rw [← cleared.ahead]
            exact List.map_congr_left fun other inUse =>
              Prod.ext rfl (cleared.agrees other (mem_used.mp inUse).1).symm
          rw [noted, List.filter_cons, later, same]
          by_cases isFree : block.kind = .free <;> simp [decisions, used, isFree]

def objectsOf (blocks : List Block) : List Block := blocks.filter fun block => block.kind = .object

theorem objectsOf_pieces : objectsOf (blocks.flatMap pieces) = objectsOf blocks := by
  have alone (block : Block) : objectsOf block.pieces = objectsOf [block] := by
    cases kind : block.kind with
    | free => simp [pieces, kind, objectsOf]
    | object => simp [pieces, kind, objectsOf]
    | bare =>
        simp only [pieces, kind, objectsOf, List.filter_eq_nil_iff, List.filter_cons, reduceCtorEq,
          decide_false, Bool.false_eq_true, if_false, List.filter_nil, mem_units]
        rintro _ ⟨index, _, rfl⟩
        simp
  induction blocks with
  | nil => rfl
  | cons block rest ih =>
      rw [List.flatMap_cons, objectsOf, List.filter_append, ← objectsOf, ← objectsOf, ih, alone,
        objectsOf, objectsOf, objectsOf, ← List.filter_append, List.singleton_append]

/-- A walk that lists the objects of `blocks` has listed `found` and has the blocks `rest` ahead. -/
structure Listing (machine : Machine) (blocks : List Block) (found : List Nat) (rest : List Block)
    (mid : Machine) : Prop where
  quiet : machine.Quiet mid
  listed : found ++ (objectsOf rest).map Block.start = (objectsOf blocks).map Block.start

theorem Listing.pass {found : List Nat} {mid : Machine} (listing : Listing machine blocks found (block :: rest) mid)
    (notObject : block.kind ≠ .object) : Listing machine blocks found rest mid where
  quiet := listing.quiet
  listed := by
    have listed := listing.listed
    rwa [objectsOf, List.filter_cons_of_neg (by simpa using notObject)] at listed

theorem Listing.add {found : List Nat} {mid : Machine} (listing : Listing machine blocks found (block :: rest) mid)
    (isObject : block.kind = .object) : Listing machine blocks (found ++ [block.start]) rest mid where
  quiet := listing.quiet
  listed := by
    have listed := listing.listed
    rw [objectsOf, List.filter_cons_of_pos (by simpa using isObject), List.map_cons] at listed
    rwa [List.append_assoc, List.singleton_append]

/-- A walk that lists the objects that it visits. -/
theorem Layout.ensures_listing (layout : slab.Layout shapes machine.memory blocks) :
    (slab.foldObjects shapes scrutiny (fun found object => return found ++ [object]) []).Ensures machine
      fun found after => machine.Quiet after ∧ found = (objectsOf blocks).map Block.start := by
  refine (ensures_foldObjects (Listing machine blocks) ?_ ?_ ?_ ?_ ⟨.refl machine, List.nil_append _⟩).weaken ?_
  · exact fun _ _ _ listing => listing.quiet.memory ▸ layout
  · exact fun _ _ _ _ listing quiet => { listing with quiet := listing.quiet.trans quiet }
  · exact fun _ _ _ _ listing _ notObject => listing.pass notObject
  · exact fun _ _ _ _ listing _ isObject => Action.ensures_pure.mpr (listing.add isObject)
  · exact fun found final listing => ⟨listing.quiet, (List.append_nil found).symm.trans listing.listed⟩

/-- Walks and sweeps see the same blocks. Storage without a header may come in blocks of any size; the
loops meet it in units. -/
structure Agree (slab : Slab) (shapes : ShapeTable) (scrutiny : Scrutiny) (machine : Machine)
    (blocks : List Block) : Prop where
  /-- The notes belong to the walk and to the sweep themselves. -/
  walk : ∀ {σ : Type} (visit : σ → Nat → Action σ) (state : σ),
    Prod.fst <$> slab.trace shapes scrutiny visit state = slab.foldObjects shapes scrutiny visit state
  sweep : ∀ stats, Prod.fst <$> slab.sweepTrace shapes scrutiny stats = slab.sweep shapes scrutiny stats
  /-- A walk visits the objects, each once, in address order. -/
  visits : (slab.foldObjects shapes scrutiny (fun found object => return found ++ [object]) []).Ensures
    machine fun found after => machine.Quiet after ∧ found = (objectsOf blocks).map Block.start
  ordered : ((objectsOf blocks).map Block.start).Pairwise (· < ·)
  /-- Whatever it does to the objects, it meets the blocks one by one and ends where the slab does. -/
  meets : ∀ {σ : Type} (visit : σ → Nat → Action σ) (state : σ),
    slab.Harmless shapes (blocks.flatMap pieces) visit →
      (slab.trace shapes scrutiny visit state).Ensures machine fun answer _ =>
        answer.2.1 = blocks.flatMap pieces ∧ answer.2.2 = slab.stop
  /-- A sweep decides about the same objects, meets the same storage in use, and ends there too. -/
  decides : ∀ stats : SweepStats, stats.sumFreed + slab.size < Size.limit →
    (slab.sweepTrace shapes scrutiny stats).Ensures machine fun answer _ =>
      answer.2.1.filter (fun entry => entry.1.kind = .object) =
          (objectsOf blocks).map (fun block => (block, block.isDead machine.memory)) ∧
        (answer.2.1.filter fun entry => entry.1.kind ≠ .free).map Prod.fst =
          used (blocks.flatMap pieces) ∧
        answer.2.2 = slab.stop
  /-- Storage in use, whose headers are read, is met where an object starts, or a unit of headerless
  storage. -/
  headers : ∀ piece ∈ used (blocks.flatMap pieces),
    (piece ∈ blocks ∧ piece.kind = .object) ∨ ∃ block ∈ blocks, block.kind = .bare ∧
      ∃ index < block.size / blockUnit, piece.start = block.start + blockUnit * index

/-- In every slab that shows its blocks, walks and sweeps agree, whatever is marked. -/
theorem Layout.agree (layout : slab.Layout shapes machine.memory (blocks.flatMap pieces))
    (scrutiny : Scrutiny) : slab.Agree shapes scrutiny machine blocks where
  walk _ _ := fst_trace
  sweep _ := fst_sweepTrace
  visits := by
    rw [← objectsOf_pieces]
    exact layout.ensures_listing
  ordered := by
    rw [← objectsOf_pieces, List.pairwise_map]
    refine (layout.tiles.ordered.sublist List.filter_sublist).imp_of_mem fun member _ before => ?_
    have bounds := layout.bounds (List.mem_of_mem_filter member)
    simp only [Block.stop] at before bounds
    omega
  meets visit state harmless := by
    unfold trace
    rw [Action.ensures_memory]
    refine (layout.ensures_traceFrom harmless layout.walked rfl layout.length_lt).weaken ?_
    exact fun _ _ same => Prod.mk.inj same
  decides stats small := by
    have room : stats.sumFreed + (slab.stop - slab.objects) < Size.limit := by
      simp only [Slab.stop, Slab.objects]
      omega
    have laid : slab.Layout shapes machine.memory ([].reverse ++ blocks.flatMap pieces) := layout
    refine (laid.ensures_sweepTraceFrom layout.sweeping layout.length_lt room).weaken ?_
    rintro ⟨result, notes, stop⟩ _ ⟨decided, ends⟩
    refine ⟨?_, ?_, ends⟩
    · have narrowed : notes.filter (fun entry => entry.1.kind = .object) =
          (decisions machine.memory (blocks.flatMap pieces)).filter fun entry =>
            entry.1.kind = .object := by
        rw [← decided, List.filter_filter]
        refine List.filter_congr fun entry _ => ?_
        cases entry.1.kind <;> rfl
      rw [narrowed, decisions, List.filter_map, ← objectsOf_pieces, objectsOf, used, List.filter_filter]
      congr 1
      refine List.filter_congr fun block _ => ?_
      simp only [Function.comp_apply]
      cases block.kind <;> rfl
    · rw [decided, decisions, List.map_map]
      exact List.map_id _
  headers piece inUse := by
    obtain ⟨member, used⟩ := mem_used.mp inUse
    obtain ⟨block, inBlocks, isPiece⟩ := List.mem_flatMap.mp member
    cases kind : block.kind with
    | free =>
        simp only [pieces, kind, List.mem_singleton] at isPiece
        exact absurd (isPiece ▸ kind) used
    | object =>
        simp only [pieces, kind, List.mem_singleton] at isPiece
        exact .inl (isPiece ▸ ⟨inBlocks, kind⟩)
    | bare =>
        simp only [pieces, kind] at isPiece
        obtain ⟨index, inside, rfl⟩ := mem_units.mp isPiece
        exact .inr ⟨block, inBlocks, kind, index, inside, rfl⟩

section Headerless

/-- A pair, three units of storage without a header, and a free block behind them. -/
def headerlessBlocks : List Block := [⟨4112, 32, .object⟩, ⟨4144, 48, .bare⟩, ⟨4192, 32, .free⟩]

def headerlessMachine : Machine :=
  { memory := [(4104, 4192), (4112, (Header.fresh Tag.pair).toWord), (4192, 32)].foldl
      (fun memory entry => memory.write entry.1 entry.2) .empty }

def headerlessSlab : Slab := { start := 4096, size := 128, maxSize := 0 }

theorem pieces_headerless : headerlessBlocks.flatMap pieces = [⟨4112, 32, .object⟩, ⟨4144, 16, .bare⟩,
    ⟨4160, 16, .bare⟩, ⟨4176, 16, .bare⟩, ⟨4192, 32, .free⟩] := by decide

theorem layout_headerless : headerlessSlab.Layout .standard headerlessMachine.memory
    (headerlessBlocks.flatMap pieces) where
  placed := ⟨by decide, by decide, by decide, by decide, by decide⟩
  tiles := by
    simp [pieces_headerless, Tiles, headerlessSlab, Slab.objects, Slab.stop, Block.stop, blockUnit]
  sentinel := by decide +kernel
  listed := by
    simp [pieces_headerless, frees, FreeList.Path, FreeList.size, FreeList.next, Slab.firstFree,
      headerlessMachine, headerlessSlab, Memory.read_write]
  fits := by
    have tags : headerlessMachine.memory.tag 4112 = Tag.pair ∧ headerlessMachine.memory.tag 4144 = 0 ∧
        headerlessMachine.memory.tag 4160 = 0 ∧ headerlessMachine.memory.tag 4176 = 0 := by
      decide +kernel
    simp only [pieces_headerless, List.forall_mem_cons, Block.Fits, tags]
    exact ⟨⟨.pair, rfl, Shape.describes_pair _ _⟩, ⟨rfl, trivial⟩, ⟨rfl, trivial⟩, ⟨rfl, trivial⟩,
      trivial, by simp⟩

/-- The unmarked pair is reclaimed; the storage behind it is passed over in units. -/
theorem agree_headerless : ∃ stats notes final,
    (headerlessSlab.sweepTrace .standard ⟨true⟩ {}).run headerlessMachine =
      .ok (stats, notes, 4224) final ∧
    notes.filter (fun entry => entry.1.kind = .object) = [(⟨4112, 32, .object⟩, true)] ∧
    (notes.filter fun entry => entry.1.kind ≠ .free).map (·.1.start) = [4112, 4144, 4160, 4176] := by
  obtain ⟨⟨stats, notes, stop⟩, final, ran, decided, met, ends⟩ :=
    (layout_headerless.agree ⟨true⟩).decides {} (by decide)
  obtain rfl : stop = 4224 := ends
  have dies : (⟨4112, 32, .object⟩ : Block).isDead headerlessMachine.memory = true := by decide +kernel
  refine ⟨stats, notes, final, ran, ?_, ?_⟩
  · have only : objectsOf headerlessBlocks = [⟨4112, 32, .object⟩] := by decide
    rw [decided, only, List.map_singleton, dies]
  · have starts := congrArg (List.map Block.start) met
    rw [List.map_map, pieces_headerless] at starts
    exact starts

end Headerless

end Runs

end Slab

end SlabHeap
