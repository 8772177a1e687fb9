import SlabHeap.Heap.Snapshot
import SlabHeap.Proofs.Driver

namespace SlabHeap

/-! Collections of one heap leave other heaps alone.

`Heap.Enclosed` says what this takes: references in the objects of a heap and among its roots lead to
storage in use or out of the heap, and where marking does not look whether they do, those that it can
come to stay inside. `Heap.Enclosed.collections_isolated` says that no collection then changes a word of
another heap, however it is started.
-/

open Block

namespace Heap

variable {heap other : Heap} {machine mid final : Machine} {tiling swept : Slab → List Block}
  {block : Block} {object size : Nat} {value : Value} {roots work : List Value}
  {context : Option Context} {live : Nat → Prop}

/-- References lead to storage of the heap in use, or out of the heap. A heap that is not validating
follows them wherever they lead; from its roots they must not lead out. -/
structure Enclosed (heap : Heap) (tiling : Slab → List Block) (machine : Machine)
    (roots : List Value) : Prop where
  tiled : heap.Tiled machine.memory tiling
  slots : ∀ block ∈ heap.blocks tiling, block.kind = .object → ∀ shape,
    heap.shapes.get? (machine.memory.tag block.start) = some shape → ∀ offset,
      shape.StrongSlot machine.memory block.start offset ∨
        shape.WeakSlot machine.memory block.start offset →
      heap.DenotesWithin tiling (machine.memory.value (block.start + offset))
  frames : ∀ block ∈ heap.blocks tiling, block.kind = .object →
    machine.memory.tag block.start = Tag.context → ∀ frame,
      machine.Linked ((Context.mk block.start).saves machine.memory) frame →
        ∀ value ∈ frame.values, heap.DenotesWithin tiling value
  inward : heap.features.validating = false → ∀ object, heap.Reachable machine roots object →
    heap.Node tiling object
  roots : ∀ value ∈ roots, heap.DenotesWithin tiling value

/-- Nothing changed outside the slabs of the heap. -/
def Inside (heap : Heap) (machine final : Machine) : Prop :=
  ∀ address, (∀ slab ∈ heap.slabs, address < slab.start ∨ slab.stop ≤ address) →
    final.memory.read address = machine.memory.read address

theorem Inside.trans (first : heap.Inside machine mid) (second : heap.Inside mid final) :
    heap.Inside machine final :=
  fun address apart => (second address apart).trans (first address apart)

theorem Tiled.inside_marked (tiled : heap.Tiled machine.memory tiling)
    (nodes : ∀ object, live object → heap.Node tiling object)
    (marked : machine.memory.MarkedOn mid.memory live) : heap.Inside machine mid := by
  refine fun address apart => marked.same address fun object isLive inside => ?_
  obtain ⟨block, member, _, rfl⟩ := nodes object isLive
  obtain ⟨slab, inHeap, inSlab⟩ := mem_blocks.mp member
  have large := (tiled.bounds member).2.2.1
  have within := tiled.slab_covers inHeap inSlab
    (show block.Covers address from ⟨inside.1, by simp only [Block.stop]; omega⟩)
  have := apart slab inHeap
  omega

namespace Enclosed

variable (enclosed : heap.Enclosed tiling machine roots)

include enclosed

theorem fewer (fewer : ∀ value ∈ work, value ∈ roots) : heap.Enclosed tiling machine work where
  tiled := enclosed.tiled
  slots := enclosed.slots
  frames := enclosed.frames
  inward follows object reached := enclosed.inward follows object (reached.mono fewer)
  roots value listed := enclosed.roots value (fewer value listed)

theorem kept (node : heap.Node tiling object) (held : value ∈ heap.keptValues machine object) :
    heap.DenotesWithin tiling value := by
  obtain ⟨block, member, inUse, rfl⟩ := node
  rcases mem_keptValues.mp held with
    ⟨isContext, frame, linked, held⟩ | ⟨shape, known, offset, strong, rfl⟩
  · have known : heap.shapes.get? (machine.memory.tag block.start) = some .context := by
      rw [isContext]
      rfl
    have isObject := (enclosed.tiled.describes member inUse known).1
    exact enclosed.frames block member isObject isContext frame linked value held
  · have isObject := (enclosed.tiled.describes member inUse known).1
    exact enclosed.slots block member isObject shape known offset (.inl strong)

theorem closed : heap.Closed machine tiling roots where
  tiled := enclosed.tiled
  roots value listed object found := by
    have refers := address?_of_target? found
    cases validating : heap.features.validating with
    | false => exact enclosed.inward validating object (.root listed refers)
    | true =>
        simp only [target?, validating, if_true, Option.filter_eq_some_iff, decide_eq_true_eq] at found
        exact enclosed.roots value listed object refers found.2.2.1
  kept owner reached node value held object found := by
    have refers := address?_of_target? found
    cases validating : heap.features.validating with
    | false => exact enclosed.inward validating object (reached.reachable.kept held refers)
    | true =>
        simp only [target?, validating, if_true, Option.filter_eq_some_iff, decide_eq_true_eq] at found
        exact enclosed.kept node held object refers found.2.2.1

/-- Marks on storage in use make no difference to what refers to what. -/
theorem marked (nodes : ∀ object, live object → heap.Node tiling object)
    (marked : machine.memory.MarkedOn mid.memory live) (steady : machine.Steady mid) :
    heap.Enclosed tiling mid roots := by
  have tiled := enclosed.tiled
  have keptSame {owner : Nat} (node : heap.Node tiling owner) :
      heap.keptValues mid owner = heap.keptValues machine owner := by
    obtain ⟨block, member, inUse, rfl⟩ := node
    exact tiled.keptValues_marked nodes marked steady member inUse
  refine ⟨tiled.of_marked nodes marked, fun block member isObject shape known offset slot => ?_,
    fun block member isObject isContext frame linked value held => ?_,
    fun follows object reached => ?_, enclosed.roots⟩
  · rw [tiled.tag_marked nodes marked member] at known
    have lengths := tiled.lengths_marked nodes marked member isObject known
    rw [Shape.strongSlot_congr lengths, Shape.weakSlot_congr lengths] at slot
    rw [tiled.slot_marked nodes marked member isObject known (slot.imp_right .inl)]
    exact enclosed.slots block member isObject shape known offset slot
  · have node : heap.Node tiling block.start := ⟨block, member, by simp [isObject], rfl⟩
    exact enclosed.kept node (keptSame node ▸ saved_keptValues isContext linked held)
  · suffices both : heap.Reachable machine roots object ∧ heap.Node tiling object from both.2
    have step {owner target : Nat} {value : Value}
        (ih : heap.Reachable machine roots owner ∧ heap.Node tiling owner)
        (held : value ∈ heap.keptValues mid owner) (refers : value.address? = some target) :
        heap.Reachable machine roots target ∧ heap.Node tiling target := by
      have reached := ih.1.kept (keptSame ih.2 ▸ held) refers
      exact ⟨reached, enclosed.inward follows target reached⟩
    induction reached with
    | root listed refers =>
        exact ⟨.root listed refers, enclosed.inward follows _ (.root listed refers)⟩
    | slot _ known strong refers ih => exact step ih (slot_keptValues known strong) refers
    | saved _ isContext linked held refers ih =>
        exact step ih (saved_keptValues isContext linked held) refers

end Enclosed

/-- Marks were set on storage of the heap in use, and nothing else happened. -/
structure MarkedInside (heap : Heap) (tiling : Slab → List Block) (machine mid : Machine)
    (roots : List Value) : Prop where
  enclosed : heap.Enclosed tiling mid roots
  steady : machine.Steady mid
  tags : ∀ block ∈ heap.blocks tiling,
    mid.memory.tag block.start = machine.memory.tag block.start
  inside : heap.Inside machine mid

theorem MarkedInside.trans (first : heap.MarkedInside tiling machine mid roots)
    (second : heap.MarkedInside tiling mid final roots) :
    heap.MarkedInside tiling machine final roots where
  enclosed := second.enclosed
  steady := first.steady.trans second.steady
  tags block member := (second.tags block member).trans (first.tags block member)
  inside := first.inside.trans second.inside

theorem MarkedInside.quiet (marked : heap.MarkedInside tiling machine mid roots)
    (quiet : mid.Quiet final) : heap.MarkedInside tiling machine final roots := by
  refine marked.trans ⟨?_, quiet.toSteady, fun block _ => by rw [quiet.memory],
    fun address _ => by rw [quiet.memory]⟩
  exact marked.enclosed.marked (fun _ => False.elim) ⟨fun _ => False.elim,
    fun address _ => by rw [quiet.memory]⟩ quiet.toSteady

/-- Marking from some of the roots stays inside the heap. -/
theorem Enclosed.ensures_mark (enclosed : heap.Enclosed tiling machine roots)
    (fewer : ∀ value ∈ work, value ∈ roots) :
    (heap.mark work).Ensures machine fun _ mid => heap.MarkedInside tiling machine mid roots := by
  have closed := (enclosed.fewer fewer).closed
  refine closed.ensures_mark.weaken ?_
  rintro _ mid ⟨steady, marked⟩
  have nodes : ∀ object, _ → heap.Node tiling object := fun _ => closed.node
  exact ⟨enclosed.marked nodes marked steady, steady,
    fun block member => enclosed.tiled.tag_marked nodes marked member,
    enclosed.tiled.inside_marked nodes marked⟩

/-- What a snapshot adds to the roots of a collection. -/
def namedRoots (heap : Heap) (tiling : Slab → List Block) (memory : Memory) (snapshot : Snapshot) :
    List Value :=
  ((heap.blocks tiling).filter fun block =>
    snapshot.names block.start && heap.preserves (memory.tag block.start)).map
      fun block => .reference block.start

/-- Marking what a snapshot names stays inside the heap. -/
theorem Enclosed.ensures_markNamed (enclosed : heap.Enclosed tiling machine roots)
    (snapshot : Snapshot)
    (named : ∀ value ∈ heap.namedRoots tiling machine.memory snapshot, value ∈ roots) :
    (heap.markNamed snapshot).Ensures machine
      fun _ mid => heap.MarkedInside tiling machine mid roots := by
  have start : heap.MarkedInside tiling machine machine roots :=
    ⟨enclosed, .refl machine, fun _ _ => rfl, fun _ _ => rfl⟩
  unfold markNamed
  split
  · exact Action.ensures_pure.mpr start
  refine ensures_foldAll (fun _ _ mid => heap.MarkedInside tiling machine mid roots)
    (fun _ _ _ marked => marked.enclosed.tiled) (fun _ _ _ _ marked quiet => marked.quiet quiet)
    (fun _ _ _ _ marked _ _ => marked) ?_ start
  intro _ block rest mid marked suffix isObject
  have member : block ∈ heap.blocks tiling := suffix.mem List.mem_cons_self
  rw [Action.ensures_memory]
  dsimp only
  split
  · next chosen =>
    rw [Action.ensures_note]
    have tag : (mid.memory.header block.start).tag = machine.memory.tag block.start :=
      marked.tags block member
    simp only [tag, Bool.and_eq_true] at chosen
    have noted := marked.quiet (mid.quiet_logging
      (.notice (.conservativeRoot block.start (mid.memory.header block.start).tag)))
    refine (noted.enclosed.ensures_mark fun value listed => ?_).weaken fun _ _ later =>
      noted.trans later
    obtain rfl := List.mem_singleton.mp listed
    refine named _ (List.mem_map.mpr ⟨block, List.mem_filter.mpr ⟨member, ?_⟩, rfl⟩)
    rw [chosen.1.2, chosen.2, Bool.and_self]
  · exact Action.ensures_pure.mpr marked

/-- What follows the mark phase stays inside the heap. -/
theorem Enclosed.finishCollection_meets (enclosed : heap.Enclosed tiling mid roots) :
    (heap.finishCollection context).Meets mid
      (fun answer final => answer.1 = heap.counted answer.2 ∧ mid.Steady final ∧
        heap.Inside mid final ∧ ∃ swept, heap.Tiled final.memory swept)
      (heap.Inside mid) := by
  let begun := mid.logging (.notice (.collecting context heap.identity heap.totalSize))
  have tiled : heap.Tiled begun.memory tiling := enclosed.tiled
  obtain ⟨_, after, weakRan, afterSteady, afterTiled, afterInside⟩ :
      Action.Ensures (if heap.features.weakReferences then heap.breakWeakReferences else pure ())
        begun fun _ after => mid.Steady after ∧ heap.Tiled after.memory tiling ∧
          heap.Inside mid after := by
    split
    · refine (tiled.ensures_breakWeakReferences fun block member isObject _ shape known offset slot =>
        enclosed.slots block member isObject shape known offset (.inr slot)).weaken ?_
      intro _ after pass
      refine ⟨⟨pass.steady.frames, pass.steady.identities, pass.steady.pages⟩,
        pass.stillTiled tiled, fun address apart => pass.outside address fun block member _ covers => ?_⟩
      obtain ⟨slab, inHeap, inSlab⟩ := mem_blocks.mp member
      have within := tiled.slab_covers inHeap inSlab covers
      have := apart slab inHeap
      omega
    · exact Action.ensures_pure.mpr ⟨⟨rfl, rfl, rfl⟩, tiled, fun _ _ => rfl⟩
  obtain ⟨stats, final, sweepRan, _, swept, _⟩ := afterTiled.ensures_sweep
  have ran := finishCollection_run_eq weakRan sweepRan
  have inside : heap.Inside mid final := afterInside.trans swept.outside
  split at ran
  · refine .inl ⟨_, _, ran, rfl, (afterSteady.trans swept.steady).trans ?_, inside, _,
      ⟨swept.layout, afterTiled.apart⟩⟩
    exact (final.quiet_logging _).toSteady
  · exact .inr ⟨_, ran, inside⟩

/-- A collection from roots that a heap encloses stays inside the heap. -/
theorem Enclosed.collectFrom_meets (enclosed : heap.Enclosed tiling machine (heap.roots context)) :
    (heap.collectFrom context).Meets machine
      (fun answer final => answer.1 = heap.counted answer.2 ∧ machine.Steady final ∧
        heap.Inside machine final ∧ ∃ swept, heap.Tiled final.memory swept)
      (heap.Inside machine) := by
  refine (Action.Ensures.meets (enclosed.ensures_mark fun _ => id)).bind fun _ mid marked => ?_
  refine marked.enclosed.finishCollection_meets.weaken ?_ fun _ => marked.inside.trans
  rintro answer final ⟨counted, steady, inside, tiled⟩
  exact ⟨counted, marked.steady.trans steady, marked.inside.trans inside, tiled⟩

theorem Enclosed.collectWithSnapshot_meets {context : Context} {snapshot : Snapshot}
    (enclosed : heap.Enclosed tiling machine
      (heap.roots (some context) ++ heap.namedRoots tiling machine.memory snapshot)) :
    (heap.collectWithSnapshot context snapshot).Meets machine
      (fun _ final => heap.Inside machine final) (heap.Inside machine) := by
  refine (Action.Ensures.meets (enclosed.ensures_mark fun _ => List.mem_append_left _)).bind
    fun _ first marked => ?_
  have named : heap.namedRoots tiling first.memory snapshot =
      heap.namedRoots tiling machine.memory snapshot := by
    unfold namedRoots
    refine congrArg (List.map _) (List.filter_congr fun block member => ?_)
    rw [marked.tags block member]
  refine (Action.Ensures.meets (marked.enclosed.ensures_markNamed snapshot fun value listed =>
    List.mem_append_right _ (named ▸ listed))).bind fun _ second again => ?_
  have inside := marked.inside.trans again.inside
  exact again.enclosed.finishCollection_meets.weaken (fun _ _ post => inside.trans post.2.2.1)
    fun _ => inside.trans

/-- Nothing changed in the slabs of a heap. -/
def Untouched (heap : Heap) (machine final : Machine) : Prop :=
  ∀ slab ∈ heap.slabs, ∀ address, slab.start ≤ address → address < slab.stop →
    final.memory.read address = machine.memory.read address

theorem Untouched.trans (first : heap.Untouched machine mid) (second : heap.Untouched mid final) :
    heap.Untouched machine final := fun slab inHeap address lower upper =>
  (second slab inHeap address lower upper).trans (first slab inHeap address lower upper)

section Apart

variable (apart : ∀ slab ∈ heap.slabs, ∀ stranger ∈ other.slabs, slab.Apart stranger)

include apart

theorem Inside.untouched (inside : heap.Inside machine final) : other.Untouched machine final := by
  refine fun stranger inOther address lower upper => inside address fun slab inHeap => ?_
  have := apart slab inHeap stranger inOther
  simp only [Slab.Apart] at this
  omega

variable (reserved : ∀ stranger ∈ other.slabs, machine.Hosts stranger)
  (whole : size % blockUnit = 0) (positive : 0 < size)

include whole positive

theorem Tiled.ensures_takeFrom_untouched (tiled : heap.Tiled machine.memory tiling) :
    (takeFrom size heap.slabs).Ensures machine fun _ final => other.Untouched machine final := by
  refine (tiled.ensures_takeFrom whole positive fun _ inHeap => inHeap).weaken ?_
  rintro _ final ⟨_, ⟨_, rfl, _⟩ | ⟨_, _, _, obtained, _⟩⟩
  · exact fun _ _ _ _ _ => rfl
  · exact Inside.untouched apart obtained.outside

include reserved

/-- Growing and taking a block leave slabs alone that were reserved before. -/
theorem Tiled.retry_untouched {stats : SweepStats} (tiled : heap.Tiled machine.memory tiling)
    (hosted : ∀ slab ∈ heap.slabs, machine.Hosts slab) :
    (heap.retry stats size).Meets machine (fun _ final => other.Untouched machine final)
      (other.Untouched machine) := by
  have fresh {slab : Slab} {later : Machine} (created : slab.Created heap.shapes machine later) :
      other.Untouched machine later := fun stranger inOther address above below =>
    created.outside address ((reserved stranger inOther).reserved above below)
  refine ((tiled.growFor_meets hosted).weaken (fun _ _ grew => grew) fun _ spent => fresh spent.2.choose_spec).bind ?_
  rintro prepared later grew
  obtain ⟨divided, laid, beside, same⟩ : ∃ divided, prepared.Tiled later.memory divided ∧
      (∀ slab ∈ prepared.slabs, ∀ stranger ∈ other.slabs, slab.Apart stranger) ∧
        other.Untouched machine later := by
    rcases grew with ⟨same, quiet, _⟩ | ⟨slab, rfl, _, _, _, created⟩
    · subst prepared
      exact ⟨tiling, quiet.memory ▸ tiled, apart, fun _ _ _ _ _ => by rw [quiet.memory]⟩
    · refine ⟨_, tiled.grown hosted created, fun slab member stranger inOther => ?_, fresh created⟩
      rcases List.mem_append.mp member with inHeap | isNew
      · exact apart slab inHeap stranger inOther
      · obtain rfl := List.mem_singleton.mp isNew
        exact created.vacant.apart (reserved stranger inOther)
  refine (Action.Ensures.meets (Tiled.ensures_takeFrom_untouched beside whole positive laid)).bind ?_
  intro answer final untouched
  cases answer with
  | some block => exact .inl (Action.ensures_pure.mpr (same.trans untouched))
  | none =>
      refine Action.meets_count prepared.countRefusal_eq (fun _ => .inl ?_) fun _ => same.trans untouched
      rw [Action.ensures_note]
      exact Action.ensures_pure.mpr (same.trans untouched)

end Apart

namespace Enclosed

variable {context : Context} (enclosed : heap.Enclosed tiling machine (heap.roots (some context)))
  (hosted : ∀ slab ∈ heap.slabs, machine.Hosts slab)

include enclosed hosted

/-- No collection of a heap changes a word of another one, be it started as such, with a snapshot, or
inside an allocation; so it leaves no marks there. With a snapshot, what this names counts as a root. -/
theorem collections_isolated (other : Heap)
    (apart : ∀ slab ∈ heap.slabs, ∀ stranger ∈ other.slabs, slab.Apart stranger)
    (reserved : ∀ stranger ∈ other.slabs, machine.Hosts stranger) :
    (heap.collect context).Meets machine (fun _ final => other.Untouched machine final)
        (other.Untouched machine) ∧
      (∀ snapshot, heap.Enclosed tiling machine
          (heap.roots (some context) ++ heap.namedRoots tiling machine.memory snapshot) →
        (heap.collectWithSnapshot context snapshot).Meets machine
          (fun _ final => other.Untouched machine final) (other.Untouched machine)) ∧
      ∀ size, (heap.allocateBlock (some context) size).Meets machine
        (fun _ final => other.Untouched machine final) (other.Untouched machine) := by
  refine ⟨?_, fun snapshot encloses => ?_, fun size => ?_⟩
  · exact enclosed.collectFrom_meets.weaken (fun _ _ post => post.2.2.1.untouched apart)
      fun _ inside => inside.untouched apart
  · exact encloses.collectWithSnapshot_meets.weaken (fun _ _ inside => inside.untouched apart)
      fun _ inside => inside.untouched apart
  · unfold allocateBlock
    cases rounds : Size.alignUp? (max size blockUnit) blockUnit with
    | none =>
        refine Action.meets_count heap.countRefusal_eq (fun _ => .inl ?_) fun _ _ _ _ _ _ => rfl
        rw [Action.ensures_note]
        exact Action.ensures_pure.mpr fun _ _ _ _ _ => rfl
    | some request =>
        obtain ⟨atLeast, _, whole, _⟩ := Size.alignUp?_eq_some
          (show Size.alignUp? (max size blockUnit) (1 <<< 4) = some request from rounds)
        have positive : 0 < request := by
          have : 0 < blockUnit := by decide
          omega
        -- The search changes words of the heap alone. Where it fails, a collection and a retry
        -- follow.
        refine (Action.Ensures.meets (enclosed.tiled.ensures_takeFrom whole positive
          fun _ inHeap => inHeap)).bind ?_
        rintro _ first ⟨_, ⟨rfl, rfl, _⟩ | ⟨start, _, rfl, obtained, _⟩⟩
        · refine (enclosed.collectFrom_meets.weaken (fun _ _ post => post)
            fun _ inside => inside.untouched apart).bind ?_
          rintro ⟨_, stats⟩ mid ⟨(rfl : _ = heap.counted stats), steady, inside, swept, tiled⟩
          have counted : (heap.counted stats).Tiled mid.memory swept := ⟨tiled.layout, tiled.apart⟩
          have beside : ∀ slab ∈ (heap.counted stats).slabs, ∀ stranger ∈ other.slabs,
              slab.Apart stranger := apart
          have inside := inside.untouched apart
          exact (Tiled.retry_untouched beside
            (fun stranger inOther => (reserved stranger inOther).keep steady.taken_subset) whole positive
            counted fun slab inHeap => (hosted slab inHeap).keep steady.taken_subset).weaken
              (fun _ _ => inside.trans) fun _ => inside.trans
        · exact Action.Ensures.meets (Action.ensures_pure.mpr
            (Inside.untouched apart obtained.outside))

end Enclosed

section Stray

/-- A context, the only object of its slab, whose environment is the pair of `ringHeap`. -/
def strayBlocks : List Block := [⟨0x3fffffffe010, 48, .object⟩]

def strayWords : List (Nat × UInt64) :=
  [(0x3fffffffe010, (Header.fresh Tag.context).toWord), (0x3fffffffe018, 0x520000000010),
    (0x3fffffffe028, Value.no.bits), (0x3fffffffe030, (Value.reference 0x3ffffffff040).bits)]

def strayMachine : Machine :=
  { memory := strayWords.foldl (fun memory entry => memory.write entry.1 entry.2) ringMachine.memory
    identities := 2
    pages.taken := [⟨0x3fffffffe, 1⟩, ⟨0x3ffffffff, 1⟩] }

def straySlab : Slab := { start := 0x3fffffffe000, size := 64, maxSize := 0 }

def strayHeap (validating : Bool) : Heap :=
  { identity := 0x520000000010, settings := {}, shapes := .standard, features := { validating }
    slabs := [straySlab], slabs_nonempty := by simp }

theorem header_stray : strayMachine.memory.header 0x3fffffffe010 = .fresh Tag.context := by
  simp [strayMachine, strayWords, Memory.header, Memory.read_write, Header.ofWord_toWord]

theorem layout_stray : straySlab.Layout .standard strayMachine.memory strayBlocks where
  placed := ⟨by decide, by decide, by decide, by decide, by decide⟩
  tiles := by simp [Tiles, strayBlocks, straySlab, Slab.objects, Slab.stop, Block.stop, blockUnit]
  sentinel := by
    simp [FreeList.size, strayMachine, strayWords, straySlab, ringMachine, ringWords,
      Memory.read_write]
  listed := by
    simp [FreeList.Path, Slab.firstFree, FreeList.next, strayMachine, strayWords, straySlab,
      ringMachine, ringWords, Memory.read_write, strayBlocks, frees]
  fits := by
    simp only [strayBlocks, List.forall_mem_cons, Block.Fits, Memory.tag, header_stray]
    exact ⟨⟨.context, rfl, Shape.describes_context _ _⟩, by simp⟩

theorem blocks_stray (validating : Bool) :
    (strayHeap validating).blocks (fun _ => strayBlocks) = strayBlocks := by
  simp [Heap.blocks, strayHeap]

theorem apart_stray (validating : Bool) : ∀ slab ∈ (strayHeap validating).slabs,
    ∀ stranger ∈ ringHeap.slabs, slab.Apart stranger := by
  intro slab inHeap stranger inRing
  obtain rfl : slab = straySlab := by simpa [strayHeap] using inHeap
  obtain rfl : stranger = ringSlab := by simpa [ringHeap] using inRing
  exact .inl (by decide)

/-- Where marking does not look whose a reference is, it marks the pair of the other heap. -/
theorem collect_marks_stranger :
    (strayHeap false).Tiled strayMachine.memory (fun _ => strayBlocks) ∧
    (∀ slab ∈ (strayHeap false).slabs, ∀ stranger ∈ ringHeap.slabs, slab.Apart stranger) ∧
    (strayMachine.memory.header 0x3ffffffff040).isMarked = false ∧
    ∃ answer final, ((strayHeap false).collect ⟨0x3fffffffe010⟩).run strayMachine =
        .ok answer final ∧
      (final.memory.header 0x3ffffffff040).isMarked = true ∧
      ¬ ringHeap.Untouched strayMachine final := by
  have tiled : (strayHeap false).Tiled strayMachine.memory (fun _ => strayBlocks) := by
    refine ⟨fun slab inHeap => ?_, by simp [strayHeap]⟩
    obtain rfl : slab = straySlab := by simpa [strayHeap] using inHeap
    exact layout_stray
  have unmarked : (strayMachine.memory.header 0x3ffffffff040).isMarked = false := by
    decide +kernel
  have outcome : ((strayHeap false).collect ⟨0x3fffffffe010⟩).leaves strayMachine
      (fun final => (final.memory.header 0x3ffffffff040).isMarked) = true := by
    decide +kernel
  obtain ⟨answer, final, ran, marked⟩ := Action.ensures_of_leaves outcome
  refine ⟨tiled, apart_stray false, unmarked, answer, final, ran, marked, fun untouched => ?_⟩
  have same : final.memory.header 0x3ffffffff040 = strayMachine.memory.header 0x3ffffffff040 :=
    congrArg Header.ofWord (untouched ringSlab (by simp [ringHeap]) _ (by decide) (by decide))
  rw [same, unmarked] at marked
  contradiction

/-- Where marking looks, it does not. -/
theorem collections_isolated_stray :
    ((strayHeap true).collect ⟨0x3fffffffe010⟩).Meets strayMachine
      (fun _ final => (final.memory.header 0x3ffffffff040).isMarked = false)
      fun final => (final.memory.header 0x3ffffffff040).isMarked = false := by
  have context : strayMachine.memory.tag 0x3fffffffe010 = Tag.context :=
    congrArg Header.tag header_stray
  have parent : strayMachine.memory.value 0x3fffffffe028 = .no := by
    simp [strayMachine, strayWords, Memory.value, Memory.read_write]
  have environment : strayMachine.memory.value 0x3fffffffe030 = .reference 0x3ffffffff040 := by
    simp [strayMachine, strayWords, Memory.value, Memory.read_write]
  have member : ⟨0x3fffffffe010, 48, .object⟩ ∈ (strayHeap true).blocks fun _ => strayBlocks := by
    rw [blocks_stray]
    exact List.mem_singleton.mpr rfl
  have unmarked : (strayMachine.memory.header 0x3ffffffff040).isMarked = false := by
    decide +kernel
  have enclosed : (strayHeap true).Enclosed (fun _ => strayBlocks) strayMachine
      ((strayHeap true).roots (some ⟨0x3fffffffe010⟩)) := by
    refine ⟨⟨fun slab inHeap => ?_, by simp [strayHeap]⟩,
      fun block inBlocks _ shape known offset slot => ?_, fun block _ _ _ frame linked => ?_,
      fun follows => by simp [strayHeap] at follows, fun value listed => ?_⟩
    · obtain rfl : slab = straySlab := by simpa [strayHeap] using inHeap
      exact layout_stray
    · rw [blocks_stray] at inBlocks
      obtain rfl := List.mem_singleton.mp inBlocks
      simp only [context] at known
      obtain rfl : Shape.context = shape := Option.some.inj known
      rcases Shape.slot_context.mp (slot.imp_right .inl) with rfl | rfl
      · intro address found
        cases (congrArg Value.address? parent).symm.trans found
      · intro address found inHeap
        cases (congrArg Value.address? environment).symm.trans found
        have outside : (strayHeap true).contains 0x3ffffffff040 = false := by decide
        cases outside.symm.trans inHeap
    · cases linked with
      | here found => simp [Machine.frameAt?, Machine.frameIndex?, strayMachine] at found
      | outer found _ => simp [Machine.frameAt?, Machine.frameIndex?, strayMachine] at found
    · obtain rfl := List.mem_singleton.mp listed
      intro address found _
      cases found
      exact ⟨_, member, by simp, rfl⟩
  have hosted : ∀ slab ∈ (strayHeap true).slabs, strayMachine.Hosts slab := by
    intro slab inHeap
    obtain rfl : slab = straySlab := by simpa [strayHeap] using inHeap
    decide
  have reserved : ∀ stranger ∈ ringHeap.slabs, strayMachine.Hosts stranger := by
    intro stranger inRing
    obtain rfl : stranger = ringSlab := by simpa [ringHeap] using inRing
    decide
  have same {final : Machine} (untouched : ringHeap.Untouched strayMachine final) :
      (final.memory.header 0x3ffffffff040).isMarked = false := by
    rw [← unmarked]
    exact congrArg (fun word => (Header.ofWord word).isMarked)
      (untouched ringSlab (by simp [ringHeap]) _ (by decide) (by decide))
  exact (enclosed.collections_isolated hosted ringHeap (apart_stray true) reserved).1.weaken
    (fun _ _ untouched => same untouched) fun _ untouched => same untouched

end Stray

end Heap

end SlabHeap
