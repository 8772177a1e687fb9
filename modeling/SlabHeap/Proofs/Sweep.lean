import SlabHeap.Heap.Collection
import SlabHeap.Proofs.Finalizers

namespace SlabHeap

/-! What a sweep leaves behind.

The sweep of a slab follows the free list that it rewrites. `Slab.Layout.ensures_sweep` says that it
does to the blocks what `Block.sweep` says, leaves survivors as they are but for their marks and calls
finalizers for what dies; `Heap.Tiled.ensures_sweep` says so for all slabs of a heap.
-/

open FreeList

namespace Slab

open Block

variable {slab : Slab} {shapes : ShapeTable} {memory after : Memory} {block run : Block}
  {behind front old ahead rest blocks : List Block} {cursor : Nat}

/-- What a sweep leaves of the blocks behind its cursor and of those ahead of it. -/
structure Swept (slab : Slab) (shapes : ShapeTable) (dead : Block → Bool) (machine final : Machine)
    (behind rest blocks : List Block) : Prop where
  steady : machine.Steady final
  layout : slab.Layout shapes final.memory blocks
  kept : ∀ block ∈ used behind.reverse, block.Kept machine.memory final.memory
  survived : ∀ block ∈ used rest, dead block = false →
    block.Survives machine.memory final.memory
  outside : ∀ address, address < slab.start ∨ slab.stop ≤ address →
    final.memory.read address = machine.memory.read address

theorem Swept.step {dead : Block → Bool} {machine mid final : Machine}
    {furtherBehind furtherRest : List Block}
    (later : slab.Swept shapes dead mid final furtherBehind furtherRest blocks)
    (steady : machine.Steady mid)
    (kept : ∀ block ∈ used behind.reverse,
      block ∈ used furtherBehind.reverse ∧ block.Kept machine.memory mid.memory)
    (passed : ∀ block ∈ used rest, dead block = false → block.Covers block.start ∧
      (block ∈ used furtherRest ∧ block.Kept machine.memory mid.memory ∨
        block ∈ used furtherBehind.reverse ∧ block.Survives machine.memory mid.memory))
    (outside : ∀ address, address < slab.start ∨ slab.stop ≤ address →
      mid.memory.read address = machine.memory.read address) :
    slab.Swept shapes dead machine final behind rest blocks where
  steady := steady.trans later.steady
  layout := later.layout
  kept block member := (kept block member).2.trans (later.kept block (kept block member).1)
  survived block member lives := by
    obtain ⟨covers, ⟨ahead, same⟩ | ⟨behind, survives⟩⟩ := passed block member lives
    · exact same.survives (later.survived block ahead lives) covers
    · exact survives.keep (later.kept block behind) covers
  outside address apart := (later.outside address apart).trans (outside address apart)

section Steps

variable {dead : Block → Bool} {machine mid final : Machine} {others remaining : List Block}
  (layout : slab.Layout shapes machine.memory (behind.reverse ++ block :: rest))

include layout

theorem Swept.pass (later : slab.Swept shapes dead mid final (block :: behind) rest blocks)
    (quiet : machine.Quiet mid) (notObject : block.kind ≠ .object) :
    slab.Swept shapes dead machine final behind (block :: rest) blocks := by
  refine later.step quiet.toSteady (fun other otherUsed => ⟨?_, fun _ _ => by rw [quiet.memory]⟩)
    (fun other otherUsed _ => ⟨?_, ?_⟩) fun _ _ => by rw [quiet.memory]
  · rw [List.reverse_cons, used_append]
    exact List.mem_append_left _ otherUsed
  · exact layout.tiles.start_covers (List.mem_append_right _ (mem_used.mp otherUsed).1)
  · obtain ⟨inRest, inUse⟩ := mem_used.mp otherUsed
    rcases List.mem_cons.mp inRest with rfl | inRest
    · exact .inr ⟨mem_used.mpr ⟨by simp, inUse⟩, fun isObject => absurd isObject notObject,
        fun _ _ _ => by rw [quiet.memory]⟩
    · exact .inl ⟨mem_used.mpr ⟨inRest, inUse⟩, fun _ _ => by rw [quiet.memory]⟩

theorem Swept.unmark (later : slab.Swept shapes dead mid final (block :: behind) rest blocks)
    (steady : machine.Steady mid) (isObject : block.kind = .object)
    (unmarked : mid.memory =
      machine.memory.setHeader block.start (machine.memory.header block.start).unmark) :
    slab.Swept shapes dead machine final behind (block :: rest) blocks := by
  have member : block ∈ behind.reverse ++ block :: rest := by simp
  obtain ⟨lower, upper, large, _, aligned, _⟩ := layout.bounds member
  have elsewhere : ∀ address, ¬ (block.start ≤ address ∧ address < block.start + 8) →
      mid.memory.read address = machine.memory.read address := by
    intro address outside
    rw [unmarked]
    exact Memory.read_setHeader (by omega) outside
  have kept : ∀ other ∈ behind.reverse ++ rest, other.Kept machine.memory mid.memory := by
    intro other inOthers
    have distinct := layout.tiles.ne_of_mem inOthers
    rw [unmarked]
    refine layout.kept_setHeader member ?_ distinct _
    rcases List.mem_append.mp inOthers with inBehind | inRest
    · exact List.mem_append_left _ inBehind
    · exact List.mem_append_right _ (List.mem_cons_of_mem _ inRest)
  refine later.step steady (fun other otherUsed => ⟨?_, ?_⟩) (fun other otherUsed _ => ⟨?_, ?_⟩)
    fun address outside => elsewhere address (by omega)
  · rw [List.reverse_cons, used_append]
    exact List.mem_append_left _ otherUsed
  · exact kept other (List.mem_append_left _ (mem_used.mp otherUsed).1)
  · exact layout.tiles.start_covers (List.mem_append_right _ (mem_used.mp otherUsed).1)
  · obtain ⟨inRest, inUse⟩ := mem_used.mp otherUsed
    rcases List.mem_cons.mp inRest with rfl | inRest
    · refine .inr ⟨mem_used.mpr ⟨by simp, inUse⟩, fun _ => ?_, fun address inside behind => ?_⟩
      · rw [unmarked, Memory.header_setHeader]
      · have := behind isObject
        exact elsewhere address (by omega)
    · exact .inl ⟨mem_used.mpr ⟨inRest, inUse⟩, kept other (List.mem_append_right _ inRest)⟩

/-- The sweep reclaims an object that dies. -/
theorem Swept.reclaim (later : slab.Swept shapes dead mid final (run :: others) remaining blocks)
    (released : slab.Released shapes machine mid behind block rest run others remaining)
    (dies : dead block = true) :
    slab.Swept shapes dead machine final behind (block :: rest) blocks := by
  obtain ⟨usedBehind, usedAhead⟩ := used_absorb (Block.reclaim block behind) rest
  rw [released.absorbed] at usedBehind usedAhead
  rw [used_reclaim] at usedBehind
  refine later.step released.steady (fun other otherUsed => ?_)
    (fun other otherUsed lives => ⟨?_, .inl ?_⟩) released.untouched.outside
  · rw [← usedBehind] at otherUsed
    obtain ⟨inFront, inUse⟩ := mem_used.mp otherUsed
    refine ⟨otherUsed, released.untouched.blocks other ?_ inUse⟩
    rw [List.reverse_cons, List.mem_append] at inFront
    rcases inFront with inOthers | isRun
    · exact List.mem_append_left _ inOthers
    · rw [List.mem_singleton.mp isRun] at inUse
      exact absurd released.isFree inUse
  · exact layout.tiles.start_covers (List.mem_append_right _ (mem_used.mp otherUsed).1)
  · obtain ⟨inRest, inUse⟩ := mem_used.mp otherUsed
    rcases List.mem_cons.mp inRest with rfl | inRest
    · simp [dies] at lives
    · have inRemaining : other ∈ used remaining := by
        rw [usedAhead]
        exact mem_used.mpr ⟨inRest, inUse⟩
      refine ⟨inRemaining, released.untouched.blocks other ?_ inUse⟩
      exact List.mem_append_right _ (mem_used.mp inRemaining).1

end Steps

/-- Calling a finalizer leaves at most a record of the call behind. -/
theorem ensures_finalize {machine : Machine} (isObject : block.kind = .object) :
    (finalize shapes block.start).Ensures machine fun _ after => machine.Quiet after ∧
      after.calls = machine.calls ++
        if block.awaits shapes machine.memory then [(block.start, machine.memory)] else [] := by
  unfold finalize
  rw [Action.ensures_memory]
  simp only [awaits, isObject, decide_true, Bool.true_and, Memory.tag]
  cases known : shapes.get? (machine.memory.header block.start).tag with
  | none => exact Action.ensures_pure.mpr ⟨Machine.Quiet.refl machine, by simp⟩
  | some shape =>
      simp only [Option.any_some]
      split
      · exact Action.ensures_last_record.mpr ⟨machine.quiet_logging _, machine.calls_logging _⟩
      · exact Action.ensures_pure.mpr ⟨Machine.Quiet.refl machine, (List.append_nil _).symm⟩

/-- A sweep stands at `cursor` with the blocks `done` behind it and `rest` ahead; `before` is a node of the free
list behind the cursor, or the sentinel. -/
structure Sweeping (slab : Slab) (done rest : List Block) (cursor before : Nat) : Prop where
  behind : Tiles slab.objects done cursor
  ahead : Tiles cursor rest slab.stop
  node : ∃ left skipped, left ++ skipped = frees done ∧ before = lastOr slab.start left

/-- What a sweep does with a block that it meets between the free blocks `before` and `after`. The answer is
where it goes on, and what it has achieved. -/
def clear (slab : Slab) (shapes : ShapeTable) (scrutiny : Scrutiny) (stats : SweepStats) (block : Block)
    (before after : Nat) : Action (Nat × SweepStats) := do
  match block.kind with
  | .free => return (block.stop, stats)
  | .bare =>
      reportBadObject block.start
      return (block.stop, stats)
  | .object =>
      let memory ← Action.memory
      scrutiny.inspect block.start block.size after
      if (memory.header block.start).isMarked then
        Action.onHeader block.start .unmark
        return (block.stop, stats)
      else
        finalize shapes block.start
        let sumFreed ← Size.add stats.sumFreed block.size
        let (next, run) ← slab.release block.start block.size before after
        return (next, { maxFreed := max stats.maxFreed run, sumFreed })

theorem Layout.sweeping (layout : slab.Layout shapes memory blocks) :
    slab.Sweeping [] blocks slab.objects slab.start :=
  ⟨rfl, layout.tiles, [], [], rfl, rfl⟩

theorem Released.sweeping {machine final : Machine} {others : List Block} {left skipped : List (Nat × Nat)}
    {before : Nat}
    (released : slab.Released shapes machine final behind block rest run others ahead)
    (listed : left ++ skipped = frees (run :: others).reverse) (node : before = lastOr slab.start left) :
    slab.Sweeping (run :: others).reverse ahead run.stop before := by
  obtain ⟨ends, behind, ahead⟩ := released.layout.split_tiles rfl
  obtain rfl : run.stop = ends := by
    rw [List.reverse_cons] at behind
    obtain ⟨_, _, _, _, _, ends⟩ := Tiles.append_iff.mp behind
    exact ends
  exact ⟨behind, ahead, left, skipped, listed, node⟩

namespace Sweeping

variable {scrutiny : Scrutiny} {stats : SweepStats} {machine : Machine} {done : List Block} {before bound : Nat}

theorem pass (sweeping : slab.Sweeping done (block :: rest) cursor before) :
    slab.Sweeping (done ++ [block]) rest block.stop (lastOr slab.start (frees done)) := by
  obtain ⟨begins, large, whole, later⟩ := sweeping.ahead
  exact ⟨sweeping.behind.append ⟨begins, large, whole, rfl⟩, later, frees done, frees [block],
    (frees_append _ _).symm, rfl⟩

theorem run_end (sweeping : slab.Sweeping done [] cursor before) :
    (slab.sweepFrom shapes scrutiny cursor before stats (bound + 1)).run machine = .ok stats machine := by
  have finished : slab.stop ≤ cursor := Nat.le_of_eq sweeping.ahead.symm
  rw [Slab.sweepFrom, if_pos finished]
  rfl

section Ahead

variable (sweeping : slab.Sweeping done (block :: rest) cursor before)
  (layout : slab.Layout shapes memory (done ++ block :: rest))

include sweeping

/-- A sweep stands where a walk may stand. -/
theorem walked : ∃ free, slab.Walked done (block :: rest) cursor free :=
  ⟨_, sweeping.behind, sweeping.ahead, [], frees done, List.nil_append _, rfl⟩

include layout

theorem sought : FreeList.seek memory cursor before (FreeList.next memory before) Size.wordLimit =
    (lastOr slab.start (frees done), firstOr 0 (frees (block :: rest))) := by
  obtain ⟨behind, ahead, left, skipped, listed, rfl⟩ := sweeping
  have split : frees (done ++ block :: rest) = left ++ (skipped ++ frees (block :: rest)) := by
    rw [frees_append, ← listed, List.append_assoc]
  rw [layout.next_behind split, layout.seek_eq rfl behind ahead listed, ← lastOr_append, listed]

end Ahead

/-- A sweep clears the block ahead, and goes on behind it. -/
theorem run_cons (sweeping : slab.Sweeping done (block :: rest) cursor before)
    (layout : slab.Layout shapes machine.memory (done ++ block :: rest)) :
    (slab.sweepFrom shapes scrutiny cursor before stats (bound + 1)).run machine =
      (do
        let (next, stats) ← slab.clear shapes scrutiny stats block (lastOr slab.start (frees done))
          (firstOr 0 (frees (block :: rest)))
        slab.sweepFrom shapes scrutiny next (lastOr slab.start (frees done)) stats bound).run machine := by
  obtain ⟨free, walked⟩ := sweeping.walked
  have sum := walked.add_size layout
  have unfinished := walked.unfinished layout
  have seen := layout.seen walked.ahead
  have sought := sweeping.sought layout
  obtain rfl := walked.ahead.1
  rw [Slab.sweepFrom, if_neg unfinished,
    Action.run_bind (show Action.memory.run machine = .ok machine.memory machine from rfl), sought]
  unfold Layout.Seen at seen
  unfold clear
  cases kind : block.kind with
  | free =>
      obtain ⟨here, sized⟩ := kind ▸ seen
      simp only [here, if_true, sized, sum, Action.check_ok, pure_bind]
  | bare =>
      obtain ⟨elsewhere, unknown, passed⟩ := kind ▸ seen
      simp only [elsewhere, if_false, unknown, passed, Action.check_ok, bind_assoc, pure_bind]
  | object =>
      obtain ⟨elsewhere, sized⟩ := kind ▸ seen
      simp only [elsewhere, if_false, sized, sum, Action.check_ok, bind_assoc, pure_bind]
      rw [Action.run_bind (show Action.memory.run machine = .ok machine.memory machine from rfl)]
      split
      · simp only [bind_assoc, pure_bind]
      · simp only [bind_assoc, pure_bind]

end Sweeping

/-- What a sweep has achieved when the block ahead is cleared. It goes on from `answer.1` with the blocks
`passed` behind it and `further` ahead; what it says, frees and finalizes there makes up the rest of what it
owes. -/
structure Cleared (slab : Slab) (shapes : ShapeTable) (dead : Block → Bool) (machine : Machine)
    (behind : List Block) (block : Block) (rest : List Block) (stats : SweepStats) (before : Nat)
    (answer : Nat × SweepStats) (mid : Machine) (passed further : List Block) : Prop where
  layout : slab.Layout shapes mid.memory (passed.reverse ++ further)
  sweeping : slab.Sweeping passed.reverse further answer.1 before
  suffix : further <:+ rest
  ahead : used further = used rest
  small : answer.2.sumFreed + (slab.stop - answer.1) < Size.limit
  agrees : ∀ other ∈ further, dead other = other.isDead mid.memory
  told : Block.sweepFrom dead behind false stats (block :: rest) =
    Block.sweepFrom dead passed false answer.2 further
  swept : ∀ {final blocks}, slab.Swept shapes dead mid final passed further blocks →
    slab.Swept shapes dead machine final behind (block :: rest) blocks
  finalized : ∀ {final}, slab.Finalized shapes dead mid final further →
    slab.Finalized shapes dead machine final (block :: rest)

section Clear

variable {scrutiny : Scrutiny} {dead : Block → Bool} {before : Nat} {stats : SweepStats} {machine mid : Machine}
  (layout : slab.Layout shapes machine.memory (behind.reverse ++ block :: rest))
  (sweeping : slab.Sweeping behind.reverse (block :: rest) cursor before)
  (small : stats.sumFreed + (slab.stop - cursor) < Size.limit)
  (agrees : ∀ other ∈ block :: rest, dead other = other.isDead machine.memory)

include sweeping small agrees

/-- A block that stays is behind the sweep from then on. -/
theorem Cleared.stay (lives : dead block = false) (silent : machine.Silent mid)
    (laid : slab.Layout shapes mid.memory ((block :: behind).reverse ++ rest))
    (kept : ∀ other ∈ rest, other.Kept machine.memory mid.memory)
    (outside : ∀ address, address < slab.start ∨ slab.stop ≤ address →
      mid.memory.read address = machine.memory.read address)
    (swept : ∀ {final blocks}, slab.Swept shapes dead mid final (block :: behind) rest blocks →
      slab.Swept shapes dead machine final behind (block :: rest) blocks) :
    slab.Cleared shapes dead machine behind block rest stats (lastOr slab.start (frees behind.reverse))
      (block.stop, stats) mid (block :: behind) rest := by
  obtain ⟨begins, _, _, later⟩ := sweeping.ahead
  refine ⟨laid, ?_, List.suffix_refl _, rfl, ?_, ?_, ?_, swept, ?_⟩
  · rw [List.reverse_cons]
    exact sweeping.pass
  · simp only [Block.stop]
    omega
  · intro other inRest
    rw [agrees other (List.mem_cons_of_mem _ inRest)]
    exact (Kept.isDead_eq (fun _ => kept other inRest) (later.start_covers inRest)).symm
  · simp [Block.sweepFrom, lives]
  · intro final finalized
    refine finalized.pass silent (by simp [ends, lives]) (fun other otherUsed => ?_) outside
    have inRest := (mem_used.mp otherUsed).1
    exact ⟨later.start_covers inRest, kept other inRest⟩

include layout

/-- Free blocks and bare storage stay as they are. -/
theorem Cleared.pass (quiet : machine.Quiet mid) (silent : machine.Silent mid)
    (notObject : block.kind ≠ .object) :
    slab.Cleared shapes dead machine behind block rest stats (lastOr slab.start (frees behind.reverse))
      (block.stop, stats) mid (block :: behind) rest := by
  have lives : dead block = false := by
    rw [agrees block List.mem_cons_self]
    simp [isDead, notObject]
  refine Cleared.stay sweeping small agrees lives silent ?_ ?_ ?_
    fun swept => swept.pass layout quiet notObject
  · rw [quiet.memory]
    simpa using layout
  · exact fun _ _ _ _ => by rw [quiet.memory]
  · exact fun _ _ => by rw [quiet.memory]

/-- An object that lives stays without its mark. -/
theorem Cleared.unmark (lives : dead block = false) (steady : machine.Steady mid)
    (silent : machine.Silent mid) (isObject : block.kind = .object)
    (unmarked : mid.memory =
      machine.memory.setHeader block.start (machine.memory.header block.start).unmark) :
    slab.Cleared shapes dead machine behind block rest stats (lastOr slab.start (frees behind.reverse))
      (block.stop, stats) mid (block :: behind) rest := by
  have member : block ∈ behind.reverse ++ block :: rest := by simp
  obtain ⟨lower, inside, _, _, _, _⟩ := layout.bounds member
  refine Cleared.stay sweeping small agrees lives silent ?_ ?_ ?_
    fun swept => swept.unmark layout steady isObject unmarked
  · rw [unmarked]
    have laid : slab.Layout shapes machine.memory ((block :: behind).reverse ++ rest) := by simpa using layout
    exact laid.setHeader (List.mem_append_left _ (by simp)) (by simp [isObject]) rfl
  · intro other inRest
    rw [unmarked]
    exact layout.kept_setHeader member (List.mem_append_right _ (List.mem_cons_of_mem _ inRest))
      (layout.tiles.ne_of_mem (List.mem_append_right _ inRest)) _
  · intro address apart
    rw [unmarked]
    exact Memory.read_setHeader (by omega) (by omega)

/-- An object that dies is part of a free run behind the sweep from then on. -/
theorem Cleared.reclaim {run : Block} {others remaining : List Block} {left skipped : List (Nat × Nat)}
    {node : Nat} (onlyUsed : ∀ block, dead block = true → block.kind ≠ .free) (dies : dead block = true)
    (released : slab.Released shapes machine mid behind block rest run others remaining)
    (listed : left ++ skipped = frees (run :: others).reverse) (isNode : node = lastOr slab.start left)
    (called : mid.calls = machine.calls ++
      if block.awaits shapes machine.memory then [(block.start, machine.memory)] else []) :
    slab.Cleared shapes dead machine behind block rest stats node
      (run.stop, { maxFreed := max stats.maxFreed run.size, sumFreed := stats.sumFreed + block.size }) mid
      (run :: others) remaining := by
  have onward := released.sweeping listed isNode
  have suffix := released.suffix
  have usedAhead := (used_absorb (Block.reclaim block behind) rest).2
  rw [released.absorbed] at usedAhead
  have member : block ∈ behind.reverse ++ block :: rest := by simp
  obtain ⟨begins, _, _, _⟩ := sweeping.ahead
  obtain ⟨_, inside, _, _, _, _⟩ := layout.bounds member
  have kept (other : Block) (otherUsed : other ∈ used remaining) :
      other.Covers other.start ∧ other.Kept machine.memory mid.memory := by
    obtain ⟨inRest, inUse⟩ := mem_used.mp otherUsed
    exact ⟨onward.ahead.start_covers inRest,
      released.untouched.blocks other (List.mem_append_right _ inRest) inUse⟩
  refine ⟨released.layout, onward, suffix, usedAhead, ?_, ?_, ?_, ?_, ?_⟩
  · have grown := released.covers
    simp only [Block.stop] at grown inside ⊢
    omega
  · intro other inRest
    rw [agrees other (List.mem_cons_of_mem _ (suffix.mem inRest))]
    refine (Kept.isDead_eq (fun otherUsed => ?_) (onward.ahead.start_covers inRest)).symm
    exact (kept other (mem_used.mpr ⟨inRest, otherUsed⟩)).2
  · exact Block.sweepFrom_dead onlyUsed dies released.absorbed
  · exact fun swept => swept.reclaim layout released dies
  · intro final finalized
    exact finalized.reclaim layout member dies called usedAhead kept released.untouched.outside

/-- One step of a sweep: the cases are those of `clear`. -/
theorem Sweeping.ensures_clear (onlyUsed : ∀ block, dead block = true → block.kind ≠ .free) :
    (slab.clear shapes scrutiny stats block (lastOr slab.start (frees behind.reverse))
      (firstOr 0 (frees (block :: rest)))).Ensures machine fun answer mid => ∃ passed further,
        slab.Cleared shapes dead machine behind block rest stats (lastOr slab.start (frees behind.reverse))
          answer mid passed further := by
  have member : block ∈ behind.reverse ++ block :: rest := by simp
  obtain ⟨_, inside, _, _, _, _⟩ := layout.bounds member
  obtain ⟨begins, _, _, _⟩ := sweeping.ahead
  unfold clear
  cases kind : block.kind with
  | free =>
      exact Action.ensures_pure.mpr ⟨_, _, Cleared.pass layout sweeping small agrees (.refl _) rfl (by simp [kind])⟩
  | bare =>
      have silently : (reportBadObject block.start).Respects Machine.Silent :=
        respects_reportBadObject block.start
      refine (ensures_reportBadObject.respecting silently).bind ?_
      rintro _ mid ⟨quiet, silent⟩
      exact Action.ensures_pure.mpr
        ⟨_, _, Cleared.pass layout sweeping small agrees quiet silent (by simp [kind])⟩
  | object =>
      have decided : dead block = !(machine.memory.header block.start).isMarked := by
        rw [agrees block List.mem_cons_self]
        simp [isDead, kind]
      have inspects (free : Nat) :
          (scrutiny.inspect block.start block.size free).Respects Machine.Silent :=
        scrutiny.respects_inspect _ _ _
      refine Action.ensures_memory.mpr
        (((Scrutiny.ensures_inspect (by omega)).respecting (inspects _)).bind ?_)
      rintro _ mid ⟨quiet, silent⟩
      cases marked : (machine.memory.header block.start).isMarked with
      | true =>
          simp only [if_true, Action.ensures_onHeader, quiet.memory]
          exact Action.ensures_pure.mpr ⟨_, _, Cleared.unmark layout sweeping small agrees
            (by simp [decided, marked]) ⟨quiet.frames, quiet.identities, quiet.pages⟩ silent kind rfl⟩
      | false =>
          simp only [Bool.false_eq_true, if_false]
          -- the finalizer sees the object as the sweep found it, before its storage is free
          refine (ensures_finalize kind).bind ?_
          rintro _ after ⟨quietAfter, called⟩
          rw [quiet.memory, silent] at called
          have quiet := quiet.trans quietAfter
          have noneListed : frees (block :: rest) = frees rest := by simp [frees, kind]
          rw [Action.ensures_check (Size.add_eq_ok (by omega)), noneListed]
          have releases (before after : Nat) :
              (slab.release block.start block.size before after).Respects Machine.Silent :=
            slab.respects_release _ _ _ _
          refine (((quiet.memory ▸ layout).ensures_release (by simp [kind])).respecting
            (releases _ _)).bind ?_
          rintro _ last ⟨⟨run, others, remaining, rfl, released, left, skipped, listed, isNode⟩, silent⟩
          rw [Machine.Silent, called] at silent
          exact Action.ensures_pure.mpr ⟨_, _, Cleared.reclaim layout sweeping small agrees onlyUsed
            (by simp [decided, marked]) (released.quiet quiet) listed isNode silent⟩

end Clear

/-- A sweep from a cursor on does to the blocks ahead what `Block.sweepFrom` says. -/
theorem Layout.ensures_sweepFrom {scrutiny : Scrutiny} {dead : Block → Bool} {before bound : Nat}
    {stats : SweepStats} {machine : Machine}
    (layout : slab.Layout shapes machine.memory (behind.reverse ++ rest))
    (sweeping : slab.Sweeping behind.reverse rest cursor before) (enough : rest.length < bound)
    (small : stats.sumFreed + (slab.stop - cursor) < Size.limit)
    (onlyUsed : ∀ block, dead block = true → block.kind ≠ .free)
    (agrees : ∀ block ∈ rest, dead block = block.isDead machine.memory) :
    (slab.sweepFrom shapes scrutiny cursor before stats bound).Ensures machine
      fun result final => result = (Block.sweepFrom dead behind false stats rest).2 ∧
        slab.Swept shapes dead machine final behind rest
          (Block.sweepFrom dead behind false stats rest).1 ∧
        slab.Finalized shapes dead machine final rest := by
  -- every step leaves fewer blocks ahead than the bound counts, though reclaiming may take several at once
  induction bound generalizing cursor behind rest before stats machine with
  | zero => simp at enough
  | succ bound ih =>
      cases rest with
      | nil =>
          refine ⟨_, _, sweeping.run_end, rfl, ⟨Machine.Steady.refl _, ?_, ?_, ?_, ?_⟩, .nil machine⟩
          · simpa [Block.sweepFrom] using layout
          · exact fun _ _ _ _ => rfl
          · simp [used]
          · exact fun _ _ => rfl
      | cons block rest =>
          have fewer : rest.length < bound := by simpa using enough
          rw [Action.Ensures, sweeping.run_cons layout]
          refine (sweeping.ensures_clear layout small agrees onlyUsed).bind ?_
          rintro ⟨next, further⟩ mid ⟨passed, remaining, cleared⟩
          refine (ih cleared.layout cleared.sweeping (Nat.lt_of_le_of_lt cleared.suffix.length_le fewer) cleared.small
            cleared.agrees).weaken ?_
          rintro result final ⟨told, swept, finalized⟩
          rw [cleared.told]
          exact ⟨told, cleared.swept swept, cleared.finalized finalized⟩

/-- A sweep of a slab does to its blocks what `Block.sweep` says. -/
theorem Layout.ensures_sweep {scrutiny : Scrutiny} {dead : Block → Bool} {stats : SweepStats}
    {machine : Machine} (layout : slab.Layout shapes machine.memory blocks)
    (small : stats.sumFreed + slab.size < Size.limit)
    (onlyUsed : ∀ block, dead block = true → block.kind ≠ .free)
    (agrees : ∀ block ∈ blocks, dead block = block.isDead machine.memory) :
    (slab.sweep shapes scrutiny stats).Ensures machine fun result final =>
      result = (Block.sweep dead stats blocks).2 ∧
        slab.Swept shapes dead machine final [] blocks (Block.sweep dead stats blocks).1 ∧
        slab.Finalized shapes dead machine final blocks := by
  have room : stats.sumFreed + (slab.stop - slab.objects) < Size.limit := by
    simp only [Slab.stop, Slab.objects]
    omega
  have laid : slab.Layout shapes machine.memory (([] : List Block).reverse ++ blocks) := layout
  exact laid.ensures_sweepFrom layout.sweeping layout.length_lt room onlyUsed agrees

end Slab

namespace Heap

open Block

variable {heap : Heap} {tiling : Slab → List Block}

def sweptTiling (memory : Memory) (tiling : Slab → List Block) (slab : Slab) : List Block :=
  (Block.sweep (isDead memory) {} (tiling slab)).1

def sweptStats (memory : Memory) (tiling : Slab → List Block) (slabs : List Slab) : SweepStats :=
  slabs.foldl (fun stats slab => (Block.sweep (isDead memory) stats (tiling slab)).2) {}

/-- Where a request found no room before a sweep, the largest run counted tells whether it does after
it. -/
theorem le_maxFreed_iff {memory : Memory} {slabs : List Slab} {request : Nat} (positive : 0 < request)
    (none : ∀ slab ∈ slabs, ¬ HasRoom (tiling slab) request) :
    request ≤ (sweptStats memory tiling slabs).maxFreed ↔
      ∃ slab ∈ slabs, HasRoom (sweptTiling memory tiling slab) request := by
  have counted (start : SweepStats) :
      request ≤ (slabs.foldl (fun stats slab =>
          (Block.sweep (isDead memory) stats (tiling slab)).2) start).maxFreed ↔
        request ≤ start.maxFreed ∨ ∃ slab ∈ slabs,
          HasRoom (sweptTiling memory tiling slab) request := by
    induction slabs generalizing start with
    | nil => simp
    | cons slab rest ih =>
        obtain ⟨here, others⟩ := List.forall_mem_cons.mp none
        have same : (Block.sweep (isDead memory) start (tiling slab)).1 =
            sweptTiling memory tiling slab := sweepFrom_blocks _ _
        rw [List.foldl_cons, ih others, hasRoom_sweep_iff here, same, List.exists_mem_cons_iff,
          or_assoc]
  rw [sweptStats, counted]
  exact or_iff_right (Nat.not_le.mpr positive)

/-- A loop over the slabs has passed the slabs `done`, and words have changed in those alone. -/
structure Passing (heap : Heap) (memory after : Memory) (done rest : List Slab) : Prop where
  split : heap.slabs = done ++ rest
  kept : ∀ address, (∀ slab ∈ done, address < slab.start ∨ slab.stop ≤ address) →
    after.read address = memory.read address

namespace Passing

variable {memory after final : Memory} {slab : Slab} {done rest : List Slab}

theorem none : heap.Passing memory memory [] heap.slabs := ⟨rfl, fun _ _ => rfl⟩

section Next

variable (passing : heap.Passing memory after done (slab :: rest))

include passing

theorem inHeap : slab ∈ heap.slabs := passing.split ▸ List.mem_append_right _ List.mem_cons_self

theorem among {other : Slab} (member : other ∈ done ++ [slab]) : other ∈ heap.slabs := by
  rw [passing.split, List.append_cons]
  exact List.mem_append_left _ member

theorem apart (tiled : heap.Tiled memory tiling) : ∀ other ∈ done, other.Apart slab := fun other inDone =>
  (List.pairwise_append.mp (passing.split ▸ tiled.apart)).2.2 other inDone slab List.mem_cons_self

/-- The slabs overlap nowhere, so the next one is as it was. -/
theorem untouched (tiled : heap.Tiled memory tiling) :
    ∀ address, slab.start ≤ address → address < slab.stop → after.read address = memory.read address := by
  refine fun address lower upper => passing.kept address fun other inDone => ?_
  have apart := passing.apart tiled other inDone
  simp only [Slab.Apart] at apart
  omega

theorem layout (tiled : heap.Tiled memory tiling) : slab.Layout heap.shapes after (tiling slab) :=
  (tiled.layout slab passing.inHeap).keep (passing.untouched tiled)

theorem kept_block (tiled : heap.Tiled memory tiling) {block : Block} (inSlab : block ∈ tiling slab) :
    block.Kept memory after := fun address covers =>
  have within := tiled.slab_covers passing.inHeap inSlab covers
  passing.untouched tiled address within.1 within.2

theorem header_eq (tiled : heap.Tiled memory tiling) {block : Block} (inSlab : block ∈ tiling slab) :
    after.header block.start = memory.header block.start := by
  have covers := (tiled.layout slab passing.inHeap).tiles.start_covers inSlab
  rw [Memory.header, passing.kept_block tiled inSlab _ covers, ← Memory.header]

theorem isDead_eq (tiled : heap.Tiled memory tiling) {block : Block} (inSlab : block ∈ tiling slab) :
    block.isDead after = block.isDead memory :=
  Kept.isDead_eq (fun _ => passing.kept_block tiled inSlab)
    ((tiled.layout slab passing.inHeap).tiles.start_covers inSlab)

theorem pass (outside : ∀ address, address < slab.start ∨ slab.stop ≤ address →
    final.read address = after.read address) : heap.Passing memory final (done ++ [slab]) rest where
  split := by rw [passing.split, List.append_cons]
  kept address out := by
    rw [outside address (out slab (by simp)),
      passing.kept address fun other inDone => out other (List.mem_append_left _ inDone)]

end Next

end Passing

/-- What a sweep leaves of the slabs that it has passed. -/
structure Swept (heap : Heap) (tiling : Slab → List Block) (machine final : Machine)
    (slabs : List Slab) : Prop where
  steady : machine.Steady final
  layout : ∀ slab ∈ slabs,
    slab.Layout heap.shapes final.memory (sweptTiling machine.memory tiling slab)
  survived : ∀ slab ∈ slabs, ∀ block ∈ used (tiling slab),
    block.isDead machine.memory = false → block.Survives machine.memory final.memory
  outside : ∀ address, (∀ slab ∈ slabs, address < slab.start ∨ slab.stop ≤ address) →
    final.memory.read address = machine.memory.read address

/-- The blocks of the slabs while a sweep that has passed `done` works on a slab that shows `blocks`. -/
def midway (memory : Memory) (tiling : Slab → List Block) (done : List Slab) (slab : Slab)
    (blocks : List Block) (other : Slab) : List Block :=
  if other = slab then blocks
  else if other ∈ done then sweptTiling memory tiling other
  else tiling other

section Extend

variable {machine mid final : Machine} {slab : Slab} {done rest : List Slab} {block : Block}
  (swept : heap.Swept tiling machine mid done) (tiled : heap.Tiled machine.memory tiling)
  (passing : heap.Passing machine.memory mid.memory done (slab :: rest))

include swept tiled passing

/-- A slab that lies apart from those swept is as it was; sweeping it leaves the others alone. -/
theorem Swept.extend (last : slab.Swept heap.shapes (isDead machine.memory) mid final [] (tiling slab)
      (sweptTiling machine.memory tiling slab)) :
    heap.Swept tiling machine final (done ++ [slab]) where
  steady := swept.steady.trans last.steady
  layout other member := by
    rcases List.mem_append.mp member with earlier | isLast
    · refine (swept.layout other earlier).keep fun address lower upper => last.outside address ?_
      have := passing.apart tiled other earlier
      simp only [Slab.Apart] at this
      omega
    · obtain rfl := List.mem_singleton.mp isLast
      exact last.layout
  survived other member block inUse lives := by
    have inSlab := (mem_used.mp inUse).1
    have within : ∀ address, block.Covers address → other.start ≤ address ∧ address < other.stop :=
      fun address inside => tiled.slab_covers (passing.among member) inSlab inside
    have startCovered : block.Covers block.start :=
      tiled.start_covers (mem_blocks.mpr ⟨other, passing.among member, inSlab⟩)
    rcases List.mem_append.mp member with earlier | isLast
    · refine (swept.survived other earlier block inUse lives).keep (fun address inside => ?_)
        startCovered
      have := passing.apart tiled other earlier
      have := within address inside
      simp only [Slab.Apart] at *
      exact last.outside address (by omega)
    · obtain rfl := List.mem_singleton.mp isLast
      exact Kept.survives (passing.kept_block tiled inSlab) (last.survived block inUse lives) startCovered
  outside := (passing.pass last.outside).kept

/-- What a finalizer sees of the other slabs is what the sweep made of them or what was there. -/
theorem Swept.called {call : Nat × Memory} (inSlab : block ∈ tiling slab)
    (called : slab.Called heap.shapes mid.memory block call) : heap.Called machine.memory block call := by
  have beside {other : Slab} (apart : other.Apart slab) (address : Nat) (lower : other.start ≤ address)
      (upper : address < other.stop) : call.2.read address = mid.memory.read address := by
    simp only [Slab.Apart] at apart
    exact called.outside address (by omega)
  refine ⟨called.address, fun address covers => ?_, ?_⟩
  · rw [called.kept address covers, passing.kept_block tiled inSlab address covers]
  obtain ⟨blocks, layout, member⟩ := called.present
  have here : midway machine.memory tiling done slab blocks slab = blocks := if_pos rfl
  refine ⟨midway machine.memory tiling done slab blocks, ⟨fun other otherInHeap => ?_, tiled.apart⟩,
    mem_blocks.mpr ⟨slab, passing.inHeap, by rwa [here]⟩⟩
  by_cases same : other = slab
  · rw [same, here]
    exact layout
  have apartHere := tiled.apart.forall otherInHeap passing.inHeap same
  by_cases isDone : other ∈ done
  · rw [midway, if_neg same, if_pos isDone]
    exact (swept.layout other isDone).keep (beside apartHere)
  · rw [midway, if_neg same, if_neg isDone]
    refine (tiled.layout other otherInHeap).keep fun address lower upper => ?_
    rw [beside apartHere address lower upper]
    refine passing.kept address fun passed member => ?_
    have apart := tiled.apart.forall (passing.among (List.mem_append_left _ member)) otherInHeap
      fun equal => isDone (equal ▸ member)
    simp only [Slab.Apart] at apart
    omega

theorem Finalized.extend
    (finalized : heap.Finalized tiling (isDead machine.memory) machine.memory machine mid done)
    (last : slab.Finalized heap.shapes (isDead machine.memory) mid final (tiling slab)) :
    heap.Finalized tiling (isDead machine.memory) machine.memory machine final (done ++ [slab]) := by
  obtain ⟨made, calls, called⟩ := finalized
  obtain ⟨more, moreCalls, moreCalled⟩ := last
  have same : (tiling slab).filter (ends heap.shapes (isDead machine.memory) mid.memory) =
      (tiling slab).filter (ends heap.shapes (isDead machine.memory) machine.memory) := by
    refine List.filter_congr fun block inSlab => ?_
    rw [ends, ends, awaits_congr (passing.header_eq tiled inSlab)]
  rw [same] at moreCalled
  refine ⟨made ++ more, by rw [moreCalls, calls, List.append_assoc], ?_⟩
  rw [List.flatMap_append, List.flatMap_singleton, List.filter_append]
  exact List.rel_append called (forall₂_weaken moreCalled fun block member call seen =>
    swept.called tiled passing (List.mem_filter.mp member).1 seen)

end Extend

/-- A sweep has passed the slabs `done`. -/
structure Underway (heap : Heap) (tiling : Slab → List Block) (machine : Machine) (done : List Slab)
    (stats : SweepStats) (rest : List Slab) (mid : Machine) : Prop where
  passing : heap.Passing machine.memory mid.memory done rest
  counted : stats = sweptStats machine.memory tiling done
  swept : heap.Swept tiling machine mid done
  finalized : heap.Finalized tiling (isDead machine.memory) machine.memory machine mid done
  /-- The sum of bytes cannot overflow, since slabs fit below the limit. -/
  room : stats.sumFreed + rest.foldr (fun slab total => slab.size + total) 0 < Size.limit

section Steps

variable {machine mid : Machine} {slab : Slab} {done rest : List Slab} {stats : SweepStats}
  (tiled : heap.Tiled machine.memory tiling)

include tiled

theorem Tiled.underway : heap.Underway tiling machine [] {} heap.slabs machine where
  passing := .none
  counted := rfl
  swept := ⟨.refl machine, by simp, by simp, fun _ _ => rfl⟩
  finalized := ⟨[], (List.append_nil _).symm, .nil⟩
  room := by simpa [totalSize] using tiled.totalSize_lt

/-- The sweep passes the next slab. -/
theorem Underway.ensures_sweep (underway : heap.Underway tiling machine done stats (slab :: rest) mid) :
    (slab.sweep heap.shapes heap.scrutiny stats).Ensures mid fun stats final =>
      heap.Underway tiling machine (done ++ [slab]) stats rest final := by
  obtain ⟨passing, rfl, swept, finalized, room⟩ := underway
  have laid := tiled.layout slab passing.inHeap
  rw [List.foldr_cons] at room
  refine ((passing.layout tiled).ensures_sweep (by omega) (fun _ => isDead_used)
    fun block inSlab => (passing.isDead_eq tiled inSlab).symm).weaken ?_
  rintro _ final ⟨rfl, last, more⟩
  refine ⟨passing.pass last.outside, by simp [sweptStats], swept.extend tiled passing ?_,
    finalized.extend swept tiled passing more, ?_⟩
  · unfold sweptTiling
    rw [Block.sweep, Block.sweepFrom_blocks _ (sweptStats machine.memory tiling done)]
    exact last
  · have freed := laid.tiles.sum_filter_le fun block => isDead machine.memory block
    rw [Block.sweep, Block.sumFreed_sweepFrom]
    simp only [Slab.objects, Slab.stop] at freed
    omega

/-- A sweep of a heap does to the blocks of each slab what `Block.sweep` says. -/
theorem Tiled.ensures_sweep :
    heap.sweep.Ensures machine fun swept final =>
      swept = sweptStats machine.memory tiling heap.slabs ∧
        heap.Swept tiling machine final heap.slabs ∧
        heap.Finalized tiling (isDead machine.memory) machine.memory machine final heap.slabs := by
  refine (Action.ensures_foldlM
    (fun stats rest mid => ∃ done, heap.Underway tiling machine done stats rest mid) ?_
    ⟨[], tiled.underway⟩).weaken ?_
  · rintro stats slab rest mid ⟨done, underway⟩
    exact (underway.ensures_sweep tiled).weaken fun _ _ next => ⟨_, next⟩
  · rintro _ final ⟨done, passing, rfl, swept, finalized, _⟩
    obtain rfl : heap.slabs = done := passing.split.trans (List.append_nil done)
    exact ⟨rfl, swept, finalized⟩

end Steps

end Heap

end SlabHeap
