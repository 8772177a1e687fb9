import SlabHeap.Proofs.Grounded

namespace SlabHeap

/-! Heaps in which a collection has nothing to do.

In a heap that is `Heap.Rested` everything can be reached from the roots. `Heap.Rested.collect` says that a
collection marks it all, clears nothing, sweeps nothing, and leaves every word as it is.
-/

open FreeList Block

namespace Slab

variable {slab : Slab} {shapes : ShapeTable} {scrutiny : Scrutiny} {machine : Machine} {stats : SweepStats}
  {block : Block} {done rest blocks : List Block} {cursor before bound : Nat}

/-- A sweep passes a block that is not dead, and writes to its header at most. -/
theorem Layout.ensures_clear_living {after : Nat} (layout : slab.Layout shapes machine.memory blocks)
    (member : block ∈ blocks) (lives : block.isDead machine.memory = false) :
    (slab.clear shapes scrutiny stats block before after).Ensures machine fun answer mid =>
      answer = (block.stop, stats) ∧ slab.Layout shapes mid.memory blocks ∧
        ∀ address, (block.kind ≠ .free → ¬ block.Covers address) →
          mid.memory.read address = machine.memory.read address := by
  have bounds := layout.bounds member
  unfold clear
  cases kind : block.kind with
  | free => exact Action.ensures_pure.mpr ⟨rfl, layout, fun _ _ => rfl⟩
  | bare =>
      refine ensures_reportBadObject.bind fun _ mid quiet => Action.ensures_pure.mpr ⟨rfl, ?_⟩
      rw [quiet.memory]
      exact ⟨layout, fun _ _ => rfl⟩
  | object =>
      have marked : (machine.memory.header block.start).isMarked = true := by simpa [isDead, kind] using lives
      refine Action.ensures_memory.mpr ((Scrutiny.ensures_inspect (by omega)).bind ?_)
      intro _ mid quiet
      simp only [marked, if_true, Action.ensures_onHeader]
      rw [quiet.memory]
      refine Action.ensures_pure.mpr ⟨rfl, layout.setHeader member (by simp [kind]) rfl, fun address clear => ?_⟩
      refine Memory.read_setHeader (by omega) fun inside => clear (by simp) ⟨inside.1, ?_⟩
      simp only [Block.stop]
      omega

/-- A sweep that meets nothing dead writes to blocks in use alone. -/
theorem Layout.ensures_sweepFrom_living (layout : slab.Layout shapes machine.memory (done ++ rest))
    (sweeping : slab.Sweeping done rest cursor before) (enough : rest.length < bound)
    (living : ∀ block ∈ rest, block.isDead machine.memory = false) :
    (slab.sweepFrom shapes scrutiny cursor before stats bound).Ensures machine fun result final =>
      result = stats ∧ ∀ address, (∀ block ∈ used rest, ¬ block.Covers address) →
        final.memory.read address = machine.memory.read address := by
  induction bound generalizing done rest cursor before machine with
  | zero => simp at enough
  | succ bound ih =>
      cases rest with
      | nil => exact ⟨_, _, sweeping.run_end, rfl, fun _ _ => rfl⟩
      | cons block rest =>
          have member : block ∈ done ++ block :: rest := by simp
          obtain ⟨here, later⟩ := List.forall_mem_cons.mp living
          rw [Action.Ensures, sweeping.run_cons layout]
          refine (layout.ensures_clear_living member here).bind ?_
          rintro _ mid ⟨rfl, laid, kept⟩
          have further : slab.Layout shapes mid.memory ((done ++ [block]) ++ rest) := by simpa using laid
          refine (ih further sweeping.pass (by simpa using enough) fun other inRest => ?_).weaken ?_
          · have inBlocks := List.mem_append_right done (List.mem_cons_of_mem block inRest)
            have differs := layout.tiles.ne_of_mem (List.mem_append_right _ inRest)
            refine (Kept.isDead_eq (fun _ address covers => kept address fun _ alsoCovers => ?_)
              (layout.tiles.start_covers inBlocks)).trans (later other inRest)
            exact differs (layout.tiles.eq_of_covers inBlocks member covers alsoCovers)
          · rintro _ final ⟨rfl, others⟩
            refine ⟨rfl, fun address clear => ?_⟩
            rw [others address fun other inUse => clear other (mem_used.mpr
                ⟨List.mem_cons_of_mem _ (mem_used.mp inUse).1, (mem_used.mp inUse).2⟩),
              kept address fun inUse => clear block (mem_used.mpr ⟨List.mem_cons_self, inUse⟩)]

theorem Layout.ensures_sweep_living (layout : slab.Layout shapes machine.memory blocks)
    (living : ∀ block ∈ blocks, block.isDead machine.memory = false) :
    (slab.sweep shapes scrutiny stats).Ensures machine fun result final =>
      result = stats ∧ ∀ address, (∀ block ∈ used blocks, ¬ block.Covers address) →
        final.memory.read address = machine.memory.read address := by
  have laid : slab.Layout shapes machine.memory ([] ++ blocks) := layout
  exact laid.ensures_sweepFrom_living layout.sweeping layout.length_lt living

end Slab

namespace Heap

variable {heap other : Heap} {machine mid final : Machine} {tiling swept : Slab → List Block}
  {block : Block} {value : Value} {roots : List Value} {context : Option Context}

/-- The words outside of the blocks in use of some slabs are as they were. -/
def KeptOutsideUsed (tiling : Slab → List Block) (memory after : Memory) (slabs : List Slab) : Prop :=
  ∀ address, (∀ slab ∈ slabs, ∀ block ∈ used (tiling slab), ¬ block.Covers address) →
    after.read address = memory.read address

/-- The sweep passes the next slab of a heap in which nothing is dead. -/
theorem Passing.ensures_sweep_living {done rest : List Slab} {slab : Slab}
    (passing : heap.Passing machine.memory mid.memory done (slab :: rest))
    (kept : KeptOutsideUsed tiling machine.memory mid.memory done) (tiled : heap.Tiled machine.memory tiling)
    (living : ∀ block ∈ heap.blocks tiling, block.isDead machine.memory = false) :
    (slab.sweep heap.shapes heap.scrutiny {}).Ensures mid fun stats final => stats = {} ∧
      heap.Passing machine.memory final.memory (done ++ [slab]) rest ∧
        KeptOutsideUsed tiling machine.memory final.memory (done ++ [slab]) := by
  have alive : ∀ block ∈ tiling slab, block.isDead mid.memory = false := fun block inSlab => by
    rw [passing.isDead_eq tiled inSlab]
    exact living block (mem_blocks.mpr ⟨slab, passing.inHeap, inSlab⟩)
  refine ((passing.layout tiled).ensures_sweep_living alive).weaken ?_
  rintro _ final ⟨rfl, here⟩
  refine ⟨rfl, passing.pass fun address outside => here address fun block inUse covers => ?_,
    fun address clear => ?_⟩
  · have within := tiled.slab_covers passing.inHeap (mem_used.mp inUse).1 covers
    omega
  · rw [here address (clear slab (by simp)),
      kept address fun other inDone => clear other (List.mem_append_left _ inDone)]

/-- A sweep of a heap in which nothing is dead writes to blocks in use alone. -/
theorem Tiled.ensures_sweep_living (tiled : heap.Tiled machine.memory tiling)
    (living : ∀ block ∈ heap.blocks tiling, block.isDead machine.memory = false) :
    heap.sweep.Ensures machine fun stats final => stats = {} ∧
      ∀ address, (∀ block ∈ heap.blocks tiling, block.kind ≠ .free → ¬ block.Covers address) →
        final.memory.read address = machine.memory.read address := by
  refine (Action.ensures_foldlM (fun stats rest mid => stats = {} ∧ ∃ done,
    heap.Passing machine.memory mid.memory done rest ∧ KeptOutsideUsed tiling machine.memory mid.memory done) ?_
    ⟨rfl, [], .none, fun _ _ => rfl⟩).weaken ?_
  · rintro _ slab rest mid ⟨rfl, done, passing, kept⟩
    exact (passing.ensures_sweep_living kept tiled living).weaken fun _ _ next => ⟨next.1, _, next.2⟩
  · rintro _ final ⟨rfl, done, passing, kept⟩
    obtain rfl : heap.slabs = done := passing.split.trans (List.append_nil done)
    refine ⟨rfl, fun address clear => kept address fun slab inHeap block inUse => ?_⟩
    obtain ⟨inSlab, used⟩ := mem_used.mp inUse
    exact clear block (mem_blocks.mpr ⟨slab, inHeap, inSlab⟩) used

/-- Everything can be reached from the roots, and objects without weak slots that could be lost have lost
what depends on them. -/
structure Rested (heap : Heap) (machine : Machine) (tiling : Slab → List Block) (roots : List Value) :
    Prop where
  grounded : heap.Grounded machine tiling roots
  reached : ∀ block ∈ heap.blocks tiling, block.kind = .object →
    heap.Reach machine machine.Unmarked roots block.start
  vacant : heap.features.weakReferences = true → ∀ block ∈ heap.blocks tiling, block.kind = .object →
    ∀ shape, heap.shapes.get? (machine.memory.tag block.start) = some shape →
      (∀ offset, ¬ shape.WeakSlot machine.memory block.start offset) →
        ∀ offset, shape.DependentSlot machine.memory block.start offset →
          machine.memory.value (block.start + offset) = .no

/-- Slots that depend on weak ones keep their references. -/
def KeepsDependents (heap : Heap) (tiling : Slab → List Block) (machine final : Machine) (live : Nat → Prop) :
    Prop :=
  ∀ block ∈ heap.blocks tiling, block.kind = .object → live block.start →
    ∀ shape, heap.shapes.get? (machine.memory.tag block.start) = some shape →
      ∀ offset, shape.DependentSlot machine.memory block.start offset →
        (machine.memory.value (block.start + offset)).address?.isSome = true →
          final.memory.value (block.start + offset) = machine.memory.value (block.start + offset)

namespace Grounded

variable (grounded : heap.Grounded machine tiling roots)
  (collected : heap.Collected tiling swept machine final (heap.Reach machine machine.Unmarked roots))
  (keeps : heap.KeepsDependents tiling machine final (heap.Reach machine machine.Unmarked roots))

include grounded collected keeps

/-- What is reached keeps alive what it kept alive before, unless a slot that depended on weak ones lost its
reference. -/
theorem held_swept {owner : Nat} (reached : heap.Reach machine machine.Unmarked roots owner)
    (held : value ∈ heap.keptValues machine owner) {object : Nat}
    (refers : value.address? = some object) : value ∈ heap.keptValues final owner := by
  obtain ⟨block, member, isObject, rfl⟩ := grounded.traced.object_of_reach reached
  have alike := collected.alike grounded.tiled member isObject reached
  rcases mem_keptValues.mp held with
    ⟨isContext, frame, linked, inFrame⟩ | ⟨shape, known, offset, strong, rfl⟩
  · have saves := collected.saves_eq grounded.tiled member isObject reached isContext
    have same := Context.savedValues_congr collected.steady.frames saves
    have saved := Context.mem_savedValues.mpr ⟨frame, linked, inFrame⟩
    rw [← same] at saved
    exact mem_keptValues.mpr (.inl ⟨alike.tag.trans isContext, Context.mem_savedValues.mp saved⟩)
  · have stays : final.memory.value (block.start + offset) = machine.memory.value (block.start + offset) := by
      by_cases dropped : heap.Drops machine (heap.Reach machine machine.Unmarked roots) block offset
      · obtain ⟨_, found, foundKnown, ⟨_, lost⟩ | ⟨slot, _⟩⟩ := dropped
        · -- What the slot holds is marked through it.
          obtain ⟨referent, target, _, _, dead⟩ := lost
          obtain rfl := Option.some.inj (refers.symm.trans (address?_of_target? target))
          exact absurd (grounded.traced.reach_kept reached held refers) dead
        · exact keeps block member isObject reached found foundKnown offset slot (by rw [refers]; rfl)
      · exact collected.value_eq grounded.tiled member isObject reached known (.inl strong) dropped
    rw [← stays]
    exact slot_keptValues (alike.tag ▸ known)
      ((Shape.strongSlot_congr (alike.lengths isObject shape known)).mpr strong)

/-- What a collection kept can still be reached, unless a slot that depended on weak ones lost its
reference. -/
theorem reach_final {object : Nat} (reached : heap.Reach machine machine.Unmarked roots object) :
    heap.Reach final final.Unmarked roots object := by
  have traced := (grounded.survive collected).traced
  induction reached with
  | root listed found _ => exact traced.reach_root listed (address?_of_target? found)
  | kept reached held found _ ih =>
      have refers := address?_of_target? found
      exact traced.reach_kept ih (grounded.held_swept collected keeps reached held refers) refers

/-- After a collection all that is left can be reached, unless a slot that depended on weak ones lost its
reference. -/
theorem rested : heap.Rested final swept roots where
  grounded := grounded.survive collected
  reached block member isObject := by
    obtain ⟨_, alive⟩ := (collected.mem_swept (by simp [isObject])).mp member
    exact grounded.reach_final collected keeps (alive isObject)
  vacant weak block member isObject shape known none offset slot := by
    obtain ⟨before, alive⟩ := (collected.mem_swept (by simp [isObject])).mp member
    have alive := alive isObject
    have alike := collected.alike grounded.tiled before isObject alive
    rw [alike.tag] at known
    have lengths := alike.lengths isObject shape known
    refine (collected.objects block before isObject alive).dropped offset ⟨weak, shape, known, .inr ?_⟩
    refine ⟨(Shape.dependentSlot_congr lengths).mp slot, fun other held => ?_⟩
    exact absurd ((Shape.weakSlot_congr lengths).mpr held) (none other)

end Grounded

namespace Rested

variable (rested : heap.Rested machine tiling roots)

include rested

/-- Nothing that a value refers to is lost. -/
theorem not_lost (refers : heap.RefersToObject tiling value) :
    ¬ heap.Lost machine (heap.Reach machine machine.Unmarked roots) value := by
  rintro ⟨referent, found, _, _, dead⟩
  obtain ⟨block, member, isObject, rfl⟩ := refers referent (address?_of_target? found)
  exact dead (rested.reached block member isObject)

section Object

variable (member : block ∈ heap.blocks tiling) (isObject : block.kind = .object)

include member isObject

theorem not_breaks : ¬ heap.Breaks machine (heap.Reach machine machine.Unmarked roots) block := by
  rintro ⟨weak, shape, known, offset, slot, lost⟩
  exact rested.not_lost
    (rested.grounded.slots block member isObject shape known offset (.inr ⟨weak, slot⟩)) lost

/-- What would be dropped was dropped before. -/
theorem value_of_drops {offset : Nat}
    (drops : heap.Drops machine (heap.Reach machine machine.Unmarked roots) block offset) :
    machine.memory.value (block.start + offset) = .no := by
  obtain ⟨weak, shape, known, ⟨slot, lost⟩ | ⟨slot, lost⟩⟩ := drops
  · exact absurd lost (rested.not_lost
      (rested.grounded.slots block member isObject shape known offset (.inr ⟨weak, slot⟩)))
  · refine rested.vacant weak block member isObject shape known (fun other held => ?_) offset slot
    exact rested.not_lost
      (rested.grounded.slots block member isObject shape known other (.inr ⟨weak, held⟩)) (lost other held)

end Object

/-- A collection leaves the blocks in use as they are. -/
theorem kept (collected : heap.Collected tiling swept machine final
      (heap.Reach machine machine.Unmarked roots))
    (member : block ∈ heap.blocks tiling) (inUse : block.kind ≠ .free) :
    block.Kept machine.memory final.memory := by
  have tiled := rested.grounded.tiled
  have aligned := (tiled.bounds member).2.1
  cases kind : block.kind with
  | free => exact absurd kind inUse
  | bare =>
      refine .of_header aligned ?_ (collected.bareContents block member kind)
      refine (collected.bareHeaders block member kind).resolve_right fun both => ?_
      obtain ⟨other, otherMember, isObject, same⟩ := rested.grounded.traced.object_of_reach both.1
      obtain rfl := tiled.eq_of_start_eq otherMember member same
      simp [kind] at isObject
  | object =>
      have weakened := collected.objects block member kind (rested.reached block member kind)
      refine .of_header aligned (weakened.whole (rested.not_breaks member kind)) fun address lower upper => ?_
      by_cases touched : ∃ offset,
          heap.Drops machine (heap.Reach machine machine.Unmarked roots) block offset ∧
            block.start + offset ≤ address ∧ address < block.start + offset + 8
      · obtain ⟨offset, drops, above, below⟩ := touched
        have place : offset % 8 = 0 := by
          obtain ⟨_, shape, known, drops⟩ := drops
          exact ((tiled.describes member inUse known).2.slotInside offset drops.slot).1
        have sameWord : address / 8 = (block.start + offset) / 8 := by omega
        have vacant := (weakened.dropped offset drops).trans (rested.value_of_drops member kind drops).symm
        rw [Memory.read_congr final.memory sameWord, Memory.read_congr machine.memory sameWord]
        exact congrArg Value.bits vacant
      · exact weakened.kept address lower upper fun offset drops inside => touched ⟨offset, drops, inside⟩

/-- The end of a collection that marked everything: nothing is swept, and no word outside blocks in use is
written. -/
theorem finishCollection_run (context : Option Context) (steady : machine.Steady mid)
    (marked : machine.memory.MarkedOn mid.memory (heap.Reach machine machine.Unmarked roots)) :
    ∃ final, (heap.finishCollection context).run mid =
        (if heap.counters.Counts 1 0 then .ok (heap.counted {}, {}) final else .error .additionOverflow final) ∧
      ∀ address, (∀ block ∈ heap.blocks tiling, block.kind ≠ .free → ¬ block.Covers address) →
        final.memory.read address = mid.memory.read address := by
  have begun : heap.Marked tiling machine
      (mid.logging (.notice (.collecting context heap.identity heap.totalSize))) _ :=
    ⟨rested.grounded.clean, ⟨steady.frames, steady.identities, steady.pages⟩,
      fun _ reached => rested.grounded.traced.closed.node reached, marked⟩
  obtain ⟨_, after, weakRan, pass⟩ := begun.ensures_weakPass
  have living : ∀ block ∈ heap.blocks tiling, block.isDead after.memory = false :=
    fun block member => (begun.isDead_iff pass member).mpr (rested.reached block member)
  obtain ⟨_, last, sweepRan, rfl, still⟩ := (pass.stillTiled begun.stillTiled).ensures_sweep_living living
  refine ⟨_, finishCollection_run_eq weakRan sweepRan, fun address clear => ?_⟩
  exact (still address clear).trans (pass.outside address clear)

/-- A collection changes no word, calls no finalizer and frees nothing, and can be repeated. -/
theorem collect (fromRoots : heap.roots context = roots) :
    ∃ final, (heap.collectFrom context).run machine =
        (if heap.counters.Counts 1 0 then .ok (heap.counted {}, {}) final else .error .additionOverflow final) ∧
      (∀ address, final.memory.read address = machine.memory.read address) ∧
      final.calls = machine.calls ∧ ∃ swept, heap.Rested final swept roots := by
  subst fromRoots
  have closed := rested.grounded.traced.closed
  -- Marks lie in objects and nothing is freed, so that free storage stays as it is.
  obtain ⟨_, mid, marks, steady, marked⟩ := closed.ensures_mark
  obtain ⟨final, finishes, still⟩ := rested.finishCollection_run context steady marked
  have clear address (outside : ∀ block ∈ heap.blocks tiling, block.kind ≠ .free → ¬ block.Covers address) :
      final.memory.read address = machine.memory.read address := by
    refine (still address outside).trans (marked.same address ?_)
    intro object reached inside
    obtain ⟨block, member, inUse, rfl⟩ := closed.node reached
    have large := (rested.grounded.tiled.bounds member).2.2.1
    exact outside block member inUse ⟨inside.1, by simp only [Block.stop]; omega⟩
  have ran : (heap.collectFrom context).run machine = _ := (Action.run_bind marks).trans finishes
  obtain ⟨shown, last, dies, collected, ⟨made, calls, called⟩, again⟩ :=
    rested.grounded.clean.collectFrom_swept closed
  obtain rfl : final = last := by
    have one := ran.symm.trans again
    split at one <;> split at one <;> injection one
  have same : ∀ address, final.memory.read address = machine.memory.read address := by
    intro address
    -- What is in use is kept by any collection. The rest is what this one left alone.
    by_cases covered : ∃ block ∈ heap.blocks tiling, block.kind ≠ .free ∧ block.Covers address
    · obtain ⟨block, member, inUse, covers⟩ := covered
      exact rested.kept collected member inUse address covers
    · exact clear address fun block member inUse covers => covered ⟨block, member, inUse, covers⟩
  refine ⟨final, ran, same, ?_, _, rested.grounded.rested collected ?_⟩
  · have none : (heap.slabs.flatMap tiling).filter
        (Block.ends heap.shapes (isDead shown) machine.memory) = [] := by
      refine List.filter_eq_nil_iff.mpr fun block member => ?_
      simp [Block.ends, (dies block member).mpr (rested.reached block member)]
    rw [none] at called
    cases called
    rw [calls, List.append_nil]
  · intro block member isObject alive shape known offset slot held
    exact congrArg Value.mk (same _)

end Rested

end Heap

end SlabHeap
