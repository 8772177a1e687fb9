import SlabHeap.Heap.Objects
import SlabHeap.Proofs.Isolation
import SlabHeap.Proofs.SavedFrames
import SlabHeap.Proofs.Successive

namespace SlabHeap

/-! Overwriting a heap with a copy of another one.

The slots of the copy are moved by the shapes of the source, but later collections of the target follow
the shapes of the target. `Heap.WellFormed.copyInto_usable` says what comes of it as long as both have
the same shapes under the tags that the source uses: the target holds the graph of the source, and goes
on to hold what collections of the source would leave. Where the target does not know a tag, its
collections let go of what is held under it, `Heap.copyInto_forgets`.
-/

open Block

namespace Slab

variable {slab : Slab} {shapes : ShapeTable} {memory : Memory}
  {blocks : List Block}

theorem Layout.used_le (layout : slab.Layout shapes memory blocks) :
    ((used blocks).map Block.size).sum ≤ slab.size := by
  have fits := layout.tiles.sum_filter_le fun block => block.kind ≠ .free
  have same : (used blocks).map Block.size =
      (blocks.filter fun block => block.kind ≠ .free).map Block.size := rfl
  rw [same]
  simp only [Slab.objects, Slab.stop] at fits
  omega

end Slab

namespace Heap

variable {heap copy source target : Heap} {fromSlab toSlab : Slab} {context : Context}
  {inTarget : Value} {place : Nat → Nat} {machine image mid final : Machine}
  {tiling copied divided copyDivided : Slab → List Block} {blocks : List Block}
  {keepOwnership : Bool} {copyIdentity : Nat}

theorem contains_of_single (single : heap.slabs = [fromSlab]) (address : Nat) :
    heap.contains address = fromSlab.contains address := by
  simp [Heap.contains, single]

theorem Tiled.usedBytes_le {memory : Memory} (tiled : heap.Tiled memory tiling)
    (single : heap.slabs = [fromSlab]) : heap.usedBytes tiling ≤ fromSlab.size := by
  have layout := tiled.layout fromSlab (by simp [single])
  simpa [usedBytes, Heap.blocks, single] using layout.used_le

/-- A slab has room for the places of the addresses of another one. -/
theorem places_counterpart (single : heap.slabs = [fromSlab]) (copySingle : copy.slabs = [toSlab])
    (beside : fromSlab.Beside toSlab) : heap.Places copy (fromSlab.counterpart toSlab) := by
  have aligned := beside.sourcePlaced.startAligned
  have copyAligned := beside.targetPlaced.startAligned
  have bounded := beside.targetPlaced.bounded
  have large := beside.large
  simp only [blockUnit, Slab.stop] at aligned copyAligned bounded
  constructor
  all_goals simp only [contains_of_single single, contains_of_single copySingle, Slab.contains_iff,
    Slab.stop, Slab.counterpart]
  all_goals intros
  all_goals omega

theorem moveValue_counterpart (single : heap.slabs = [fromSlab]) :
    heap.moveValue (fromSlab.counterpart toSlab) = fromSlab.moveValue toSlab := by
  funext value
  cases found : value.address? with
  | none => simp only [moveValue, Slab.moveValue, found]
  | some address => simp only [moveValue, Slab.moveValue, found, contains_of_single single]

theorem Duplicated.mirrors (duplicated : heap.Duplicated fromSlab toSlab (tiling fromSlab)
      keepOwnership copyIdentity machine final)
    (layout : fromSlab.Layout heap.shapes machine.memory (tiling fromSlab))
    (beside : fromSlab.Beside toSlab) (single : heap.slabs = [fromSlab])
    (copySingle : copy.slabs = [toSlab]) (features : copy.features = heap.features)
    (agree : ∀ block ∈ heap.blocks tiling, block.kind = .object →
      copy.shapes.get? (machine.memory.tag block.start) =
        heap.shapes.get? (machine.memory.tag block.start)) :
    heap.Mirrors copy (fromSlab.counterpart toSlab) tiling
      (fun _ => Block.extend ((tiling fromSlab).map (fromSlab.moveBlock toSlab))
        (fromSlab.filled toSlab).stop (toSlab.size - fromSlab.size))
      machine.memory final.memory where
  places := places_counterpart single copySingle beside
  features := features
  shapes := agree
  objects block isObject := by
    have inUse : block.kind ≠ .free := by simp [isObject]
    simp only [Heap.blocks, single, copySingle, List.flatMap_cons, List.flatMap_nil, List.append_nil,
      Block.mem_extend inUse, List.mem_map]
    constructor
    · rintro ⟨original, member, rfl⟩
      exact ⟨original, member, isObject, rfl⟩
    · rintro ⟨original, member, _, rfl⟩
      exact ⟨original, member, rfl⟩
  imaged block member isObject := by
    have member : block ∈ tiling fromSlab := by simpa [Heap.blocks, single] using member
    have adapted := duplicated.adapted block member isObject
    have lower := (layout.bounds member).1
    have moved (offset : Nat) : fromSlab.counterpart toSlab (block.start + offset) =
        fromSlab.counterpart toSlab block.start + offset := Slab.counterpart_add (by omega)
    rw [moveValue_counterpart single]
    refine ⟨?_, fun shape known offset slot => ?_, fun shape known offset above below beyond clear => ?_⟩
    · rw [Memory.tag, adapted.header]
      split
      · rfl
      · rfl
    · rw [← moved]
      exact adapted.slots shape known offset slot
    · rw [← moved]
      refine adapted.same _ (by omega) (by simp only [Block.stop]; omega) ?_ fun isContext => ?_
      · intro found foundKnown slot isSlot inside
        obtain rfl := Option.some.inj (known.symm.trans foundKnown)
        exact clear slot isSlot (by omega)
      · have := beyond isContext
        omega

theorem Duplicated.intact (duplicated : heap.Duplicated fromSlab toSlab (tiling fromSlab)
      keepOwnership copyIdentity machine final) (intact : heap.Intact tiling machine)
    (beside : fromSlab.Beside toSlab) (single : heap.slabs = [fromSlab])
    (copySingle : copy.slabs = [toSlab]) (features : copy.features = heap.features)
    (agree : ∀ block ∈ heap.blocks tiling, block.kind = .object →
      copy.shapes.get? (machine.memory.tag block.start) =
        heap.shapes.get? (machine.memory.tag block.start)) :
    copy.Intact (fun _ => Block.extend ((tiling fromSlab).map (fromSlab.moveBlock toSlab))
        (fromSlab.filled toSlab).stop (toSlab.size - fromSlab.size)) final := by
  have layout := intact.tiled.layout fromSlab (by simp [single])
  have inHeap {block : Block} : block ∈ heap.blocks tiling ↔ block ∈ tiling fromSlab := by
    simp [Heap.blocks, single]
  have mirrors := duplicated.mirrors layout beside single copySingle features agree
  have header {block : Block} (member : block ∈ heap.blocks tiling) (isObject : block.kind = .object) :=
    (duplicated.adapted block (inHeap.mp member) isObject).header
  refine mirrors.intact intact ⟨?_, by simp [copySingle]⟩ (fun block member isObject => ?_)
    fun block member isObject => ?_
  · intro slab member
    obtain rfl : slab = toSlab := by simpa [copySingle] using member
    refine duplicated.layout.refit fun block member isObject => ?_
    have inUse : block.kind ≠ .free := by simp [isObject]
    obtain ⟨original, before, rfl⟩ := List.mem_map.mp ((Block.mem_extend inUse).mp member)
    have imaged := mirrors.imaged original (inHeap.mpr before) isObject
    rw [Slab.moveBlock, imaged.tag]
    exact agree original (inHeap.mpr before) isObject
  · rw [header member isObject]
    have valid := intact.valid block member isObject
    split
    · exact valid
    · exact valid
  · rw [Machine.Unmarked, header member isObject]
    have unmarked : (machine.memory.header block.start).isMarked = false :=
      intact.unmarked block member isObject
    split
    · exact unmarked
    · rw [Header.isMarked_remove_owned]
      exact unmarked

theorem Duplicated.savedValues_eq (duplicated : heap.Duplicated fromSlab toSlab blocks keepOwnership
      copyIdentity machine final) {block : Block} (member : block ∈ blocks)
    (isObject : block.kind = .object) (isContext : machine.memory.tag block.start = Tag.context)
    (lower : fromSlab.start ≤ block.start) :
    (Context.mk (fromSlab.counterpart toSlab block.start)).savedValues final = [] := by
  have saves := (duplicated.adapted block member isObject).saves isContext
  rw [Slab.counterpart_add lower] at saves
  have none : (Context.mk (fromSlab.counterpart toSlab block.start)).saves final.memory = 0 := by
    rw [Context.saves, saves]
    rfl
  refine List.eq_nil_iff_forall_not_mem.mpr fun value held => ?_
  obtain ⟨frame, linked, _⟩ := Context.mem_savedValues.mp held
  rw [none] at linked
  exact final.not_linked_zero frame linked

/-- The heap without roots of its own, before anything was counted. -/
def alone (heap : Heap) : Heap := { heap with globals := none, scratch := [], counters := {} }

/-- No frame is linked to a context that can be reached from this one. -/
def Frameless (heap : Heap) (machine : Machine) (context : Context) : Prop :=
  ∀ object, heap.Reachable machine [context.toValue] object →
    machine.memory.tag object = Tag.context → ∀ frame,
      ¬ machine.Linked ((Context.mk object).saves machine.memory) frame

/-- What can be reached from a context of the copy is what can be reached from its original in a heap
that was collected since it was in the state `machine`, object by object: all is allocated, and the
objects are images of what is left of their originals. -/
structure Depicts (heap copy : Heap) (place : Nat → Nat) (context : Context)
    (tiling : Slab → List Block) (machine mid final : Machine) : Prop where
  reached : ∀ address, copy.Reachable final [(Context.mk (place context.address)).toValue] address ↔
    ∃ object, heap.Reachable mid [context.toValue] object ∧ place object = address
  injective : ∀ first second, heap.Reachable mid [context.toValue] first →
    heap.Reachable mid [context.toValue] second → place first = place second → first = second
  allocated : ∀ object, heap.Reachable mid [context.toValue] object →
    copy.Allocated final.memory (place object)
  objects : ∀ object, heap.Reachable mid [context.toValue] object →
    heap.Reachable machine [context.toValue] object ∧
      ∃ block ∈ heap.blocks tiling, block.kind = .object ∧ block.start = object ∧
        block.Worn heap.shapes machine.memory mid.memory ∧
        block.Imaged heap.shapes place (heap.moveValue place) mid.memory final.memory

theorem Paired.depicts (paired : heap.Paired copy place context divided copyDivided mid final)
    (outlasts : heap.Outlasts context tiling divided machine mid) :
    heap.Depicts copy place context tiling machine mid final where
  reached address := by
    rw [← paired.groundedCopy.traced.reach_iff, paired.reach_iff]
    simp only [paired.grounded.traced.reach_iff]
  injective first second reached alsoReached same := by
    obtain ⟨block, member, _, rfl⟩ := paired.grounded.object_of_reachable reached
    obtain ⟨other, otherMember, _, rfl⟩ := paired.grounded.object_of_reachable alsoReached
    exact paired.mirrors.places.injective _ _ (paired.grounded.tiled.contains member)
      (paired.grounded.tiled.contains otherMember) same
  allocated object reached := paired.intact.tiled.allocated_iff.mpr
    (paired.mirrors.object (paired.grounded.object_of_reachable reached))
  objects object reached := by
    refine ⟨outlasts.reached object reached, ?_⟩
    obtain ⟨block, member, isObject, rfl⟩ := paired.grounded.object_of_reachable reached
    obtain ⟨before, worn⟩ := outlasts.objects block member isObject
    exact ⟨block, before, isObject, rfl, worn, paired.mirrors.imaged block member isObject⟩

/-- A heap of one slab. -/
theorem singleSlab?_eq_ok (only : heap.singleSlab? = .ok fromSlab) : heap.slabs = [fromSlab] := by
  unfold singleSlab? at only
  split at only
  · next slab single => rw [single, Except.ok.inj only]
  · contradiction

theorem singleSlab?_of_single (single : heap.slabs = [fromSlab]) : heap.singleSlab? = .ok fromSlab := by
  simp only [singleSlab?, single]

/-- What a source and a target are accepted for. -/
theorem checkDestination_eq_ok_iff {memory : Memory} :
    source.checkDestination context target inTarget memory = .ok (fromSlab, toSlab) ↔
      (source.slabs = [fromSlab] ∧ target.slabs = [toSlab] ∧ fromSlab.size ≤ toSlab.size) ∧
      (fromSlab.contains context.address = true ∧ context.isIn source memory = true) ∧
      inTarget.address?.any source.contains = false ∧
      (Context.ofValue? target memory inTarget).any (·.isIn target memory) = true := by
  constructor
  · intro accepted
    unfold checkDestination checkSource at accepted
    simp only [bind, Except.bind, pure, Except.pure, throw, throwThe, MonadExceptOf.throw] at accepted
    -- The checks one after the other; whatever is not passed is an error.
    cases first : source.singleSlab? with
    | error refusal => simp [first] at accepted
    | ok slab =>
        cases second : target.singleSlab? with
        | error refusal =>
            simp only [first, second] at accepted
            repeat (split at accepted <;> try contradiction)
        | ok other =>
            simp only [first, second] at accepted
            split at accepted
            · contradiction
            next checked =>
            split at checked
            · next belongs =>
              cases checked
              repeat (split at accepted <;> try contradiction)
              next elsewhere known fits =>
              cases accepted
              have single := singleSlab?_eq_ok first
              obtain ⟨inside, isIn⟩ := (Bool.and_eq_true _ _ ▸ belongs :
                source.contains context.address = true ∧ context.isIn source memory = true)
              rw [contains_of_single single] at inside
              exact ⟨⟨single, singleSlab?_eq_ok second, Nat.le_of_not_lt fits⟩, ⟨inside, isIn⟩,
                Bool.eq_false_iff.mpr elsewhere, by simpa using known⟩
            · contradiction
  · rintro ⟨⟨single, targetSingle, fits⟩, ⟨inside, isIn⟩, elsewhere, known⟩
    have checked : source.checkSource context memory = .ok fromSlab := by
      rw [← contains_of_single single] at inside
      simp only [checkSource, singleSlab?_of_single single, inside, isIn]
      rfl
    unfold checkDestination
    simp only [checked, elsewhere, known, singleSlab?_of_single targetSingle]
    simp only [bind, Except.bind, pure, Except.pure]
    rw [if_neg (by simp), if_neg (by simp), if_neg (Nat.not_lt.mpr fits)]

/-- What a target is accepted for. -/
theorem of_checkDestination {memory : Memory}
    (accepted : source.checkDestination context target inTarget memory = .ok (fromSlab, toSlab)) :
    source.slabs = [fromSlab] ∧ target.slabs = [toSlab] ∧ fromSlab.size ≤ toSlab.size :=
  (checkDestination_eq_ok_iff.mp accepted).1

/-- An accepted target takes a copy of the source, whatever it held. -/
theorem ensures_copyInto {block : Block}
    (accepted : source.checkDestination context target inTarget machine.memory = .ok (fromSlab, toSlab))
    (beside : fromSlab.Beside toSlab)
    (layout : fromSlab.Layout source.shapes machine.memory blocks) (member : block ∈ blocks)
    (isObject : block.kind = .object) (starts : block.start = context.address)
    (isContext : machine.memory.tag context.address = Tag.context) (keepOwnership : Bool) :
    (source.copyInto context target inTarget keepOwnership).Ensures machine fun answer final =>
      answer = ({ target with globals := none, scratch := [] },
        .ok ⟨fromSlab.counterpart toSlab context.address⟩) ∧
      source.Duplicated fromSlab toSlab blocks keepOwnership target.identity machine final := by
  have copies {begun : Machine} (quiet : machine.Quiet begun) :
      Action.Ensures (do
        let copy ← source.copySlab context target.identity fromSlab toSlab keepOwnership
        return (({ target with globals := none, scratch := [] } : Heap),
          (.ok copy : Except HeapError Context))) begun fun answer final =>
        answer = ({ target with globals := none, scratch := [] },
          .ok ⟨fromSlab.counterpart toSlab context.address⟩) ∧
        source.Duplicated fromSlab toSlab blocks keepOwnership target.identity machine final := by
    refine (ensures_copySlab beside (quiet.memory.symm ▸ layout) member isObject starts
      (quiet.memory.symm ▸ isContext)).bind ?_
    rintro _ final ⟨rfl, duplicated⟩
    refine Action.ensures_pure.mpr ⟨rfl, quiet.toSteady.trans duplicated.steady, duplicated.layout,
      ?_, ?_, ?_, ?_⟩
    all_goals rw [← quiet.memory]
    · exact duplicated.adapted
    · exact duplicated.bare
    · exact duplicated.free
    · exact duplicated.outside
  unfold copyInto
  rw [Action.ensures_memory]
  simp only [accepted]
  by_cases rooted : target.globals.isSome = true
  · rw [if_pos rooted, Action.ensures_note]
    exact copies (machine.quiet_logging _)
  · rw [if_neg rooted]
    exact copies (.refl machine)

/-- A heap behind whose context no frame is linked is paired with its copy. -/
theorem WellFormed.paired_copy (wellFormed : source.WellFormed machine tiling)
    (isObject : source.Object tiling context.address) (frameless : source.Frameless machine context)
    (single : source.slabs = [fromSlab]) (copySingle : copy.slabs = [toSlab]) (beside : fromSlab.Beside toSlab)
    (features : copy.features = source.features)
    (agree : ∀ block ∈ source.blocks tiling, block.kind = .object →
      copy.shapes.get? (machine.memory.tag block.start) = source.shapes.get? (machine.memory.tag block.start))
    (duplicated : source.Duplicated fromSlab toSlab (tiling fromSlab) keepOwnership copyIdentity machine final) :
    source.Paired copy (fromSlab.counterpart toSlab) context tiling
      (fun _ => Block.extend ((tiling fromSlab).map (fromSlab.moveBlock toSlab))
        (fromSlab.filled toSlab).stop (toSlab.size - fromSlab.size)) machine final := by
  have layout := wellFormed.tiled.layout fromSlab (by simp [single])
  have inSlab {block : Block} (member : block ∈ source.blocks tiling) : block ∈ tiling fromSlab := by
    simpa [Heap.blocks, single] using member
  have intact := wellFormed.intact
  have rooted := wellFormed.tiled.refersToObject isObject
  have grounded : source.Grounded machine tiling [context.toValue] := by
    refine intact.grounded (by simpa [Context.toValue] using rooted) fun block _ _ reached isContext frame linked => ?_
    exact absurd linked (frameless _ reached.reachable isContext frame)
  obtain ⟨block, inHeap, kind, starts⟩ := isObject
  exact
    { mirrors := duplicated.mirrors layout beside single copySingle features agree
      grounded := grounded
      intact := duplicated.intact intact beside single copySingle features agree
      named := by
        have bounded := layout.placed.bounded
        obtain ⟨lower, upper, _, _, aligned, _⟩ := layout.bounds (inSlab inHeap)
        exact Value.address?_reference (by omega) (by omega)
      saved := fun object reached isContext => by
        obtain ⟨owner, member, kind, rfl⟩ := grounded.traced.object_of_reach reached
        have lower := (layout.bounds (inSlab member)).1
        rw [duplicated.savedValues_eq (inSlab member) kind isContext (by omega)]
        refine (List.map_eq_nil_iff.mpr (List.eq_nil_iff_forall_not_mem.mpr ?_)).symm
        intro value held
        obtain ⟨frame, linked, _⟩ := Context.mem_savedValues.mp held
        exact frameless _ reached.reachable isContext frame linked }

/-- Where the target has the shapes of the source under the tags that the source uses, it holds the
graph of the source from then on: any number of collections leave of it what the same collections of
the source would leave, apart from all free blocks, unless the target cannot count them any more, or the
bytes that they free. -/
theorem WellFormed.copyInto_usable (wellFormed : source.WellFormed machine tiling)
    (accepted : source.checkDestination context target inTarget machine.memory = .ok (fromSlab, toSlab))
    (isObject : source.Object tiling context.address)
    (isContext : machine.memory.tag context.address = Tag.context)
    (frameless : source.Frameless machine context) (placed : toSlab.Placed)
    (apart : fromSlab.Apart toSlab) (features : target.features = source.features)
    (agree : ∀ block ∈ source.blocks tiling, block.kind = .object →
      target.shapes.get? (machine.memory.tag block.start) =
        source.shapes.get? (machine.memory.tag block.start))
    (keepOwnership : Bool) :
    ∃ copy after, (source.copyInto context target inTarget keepOwnership).run machine =
        .ok (copy, .ok ⟨fromSlab.counterpart toSlab context.address⟩) after ∧
      ∀ count, (copy.collections ⟨fromSlab.counterpart toSlab context.address⟩ count).Meets after
        (fun answer final => answer.slabs = [toSlab] ∧ (∃ divided, answer.Tiled final.memory divided) ∧
          ∃ lone mid, (source.alone.collections context count).run machine = .ok lone mid ∧
            source.Depicts answer (fromSlab.counterpart toSlab) context tiling machine mid final)
        fun _ => ¬ target.counters.Counts count toSlab.size := by
  obtain ⟨single, copySingle, large⟩ := of_checkDestination accepted
  have layout := wellFormed.tiled.layout fromSlab (by simp [single])
  have beside : fromSlab.Beside toSlab := ⟨layout.placed, placed, large, apart⟩
  obtain ⟨block, inHeap, kind, starts⟩ := isObject
  obtain ⟨_, after, ran, rfl, duplicated⟩ := ensures_copyInto accepted beside layout
    (show block ∈ tiling fromSlab by simpa [Heap.blocks, single] using inHeap) kind starts isContext keepOwnership
  refine ⟨_, after, ran, fun count => ?_⟩
  have paired : source.Paired { target with globals := none, scratch := [] } _ context tiling _ machine after :=
    wellFormed.paired_copy ⟨block, inHeap, kind, starts⟩ frameless single copySingle beside features agree duplicated
  have room := wellFormed.tiled.usedBytes_le single
  have copyRoom := paired.intact.tiled.usedBytes_le copySingle
  -- The collections are compared from one state of the counters on.
  have alone : source.alone.Paired { target with globals := none, scratch := [] }
      (fromSlab.counterpart toSlab) context tiling _ machine after :=
    paired.reroot rfl rfl rfl rfl rfl rfl
  have meets := alone.collections_meets count ⟨rfl, rfl⟩ ⟨rfl, rfl⟩ (Nat.zero_le _) (by
    have none : source.alone.counters.bytesFreed = 0 := rfl
    have same : source.alone.usedBytes tiling = source.usedBytes tiling := rfl
    have bounded := layout.placed.bounded
    simp only [Slab.stop] at bounded
    omega)
  refine meets.weaken ?_ fun _ uncounted counts => uncounted (counts.mono (Nat.le_refl count) copyRoom)
  rintro _ final ⟨copyCounters, counters, mid, copyDivided, divided, rfl, aloneRan, outlasts, ends⟩
  have ends : source.Paired { target with globals := none, scratch := [], counters := copyCounters }
      (fromSlab.counterpart toSlab) context divided copyDivided mid final :=
    ends.reroot rfl rfl rfl rfl rfl rfl
  have outlasts : source.Outlasts context tiling divided machine mid := outlasts.reroot rfl rfl
  exact ⟨copySingle, ⟨copyDivided, ends.intact.tiled⟩, _, mid, aloneRan, ends.depicts outlasts⟩

section Ring

/-- The slab of the context of `strayHeap`, with room for a copy of the ring. -/
def spareSlab : Slab := { start := 0x3fffffffe000, size := 160, maxSize := 0 }

def spareHeap : Heap :=
  { identity := 0x520000000010, settings := {}, shapes := .standard, features := {}
    slabs := [spareSlab], slabs_nonempty := by simp }

/-- What lies in the slab of the ring. -/
theorem stray_read {address : Nat} (lower : 0x3ffffffff000 ≤ address) :
    strayMachine.memory.read address = ringMachine.memory.read address := by
  simp only [strayMachine, strayWords, List.foldl_cons, List.foldl_nil, Memory.read_write]
  rw [if_neg (by omega), if_neg (by omega), if_neg (by omega), if_neg (by omega)]

/-- The pair of the ring is still there after any number of collections of the heap that took the
copy, as far as they can be counted. -/
theorem copyInto_usable_ring :
    ∃ copy after, (ringHeap.copyInto ⟨0x3ffffffff010⟩ spareHeap (.reference 0x3fffffffe010) false).run
        strayMachine = .ok (copy, .ok ⟨0x3fffffffe010⟩) after ∧
      ∀ count < Size.limit, (copy.collections ⟨0x3fffffffe010⟩ count).Ensures after fun answer final =>
        answer.Allocated final.memory 0x3fffffffe040 := by
  have wellFormed : ringHeap.WellFormed strayMachine fun _ => ringBlocks := by
    refine wellFormed_ring.keep (fun slab inHeap address lower _ => stray_read ?_) rfl
    obtain rfl : slab = ringSlab := by simpa [ringHeap] using inHeap
    exact lower
  have isContext : strayMachine.memory.tag 0x3ffffffff010 = Tag.context := by
    rw [Memory.tag, Memory.header, stray_read (by omega)]
    exact congrArg Header.tag header_ring.1
  have environment : strayMachine.memory.value 0x3ffffffff030 = .reference 0x3ffffffff040 := by
    rw [Memory.value, stray_read (by omega)]
    exact value_ring.2.1
  have inHeap : ⟨0x3ffffffff010, 48, .object⟩ ∈ ringHeap.blocks fun _ => ringBlocks := by
    rw [blocks_ring]
    simp [ringBlocks]
  have frameless : ringHeap.Frameless strayMachine ⟨0x3ffffffff010⟩ := by
    intro object _ _ frame linked
    cases linked with
    | here found => simp [Machine.frameAt?, Machine.frameIndex?, strayMachine] at found
    | outer found _ => simp [Machine.frameAt?, Machine.frameIndex?, strayMachine] at found
  have accepted : ringHeap.checkDestination ⟨0x3ffffffff010⟩ spareHeap (.reference 0x3fffffffe010)
      strayMachine.memory = .ok (ringSlab, spareSlab) := rfl
  obtain ⟨copy, after, ran, usable⟩ := wellFormed.copyInto_usable accepted ⟨_, inHeap, rfl, rfl⟩
    isContext frameless ⟨by decide, by decide, by decide, by decide, by decide⟩
    (.inr (by decide)) rfl (fun _ _ _ => rfl) false
  refine ⟨copy, after, ran, fun count few => ?_⟩
  have counts : spareHeap.counters.Counts count spareSlab.size :=
    ⟨(Nat.zero_add count).trans_lt few, by decide⟩
  refine ((usable count).ensures fun _ uncounted => uncounted counts).weaken ?_
  rintro answer final ⟨_, _, lone, mid, _, depicts⟩
  refine depicts.allocated 0x3ffffffff040 ?_
  have root : ringHeap.Reachable mid [(Context.mk 0x3ffffffff010).toValue] 0x3ffffffff010 :=
    .root (List.mem_singleton.mpr rfl) rfl
  obtain ⟨_, block, member, _, starts, worn, _⟩ := depicts.objects _ root
  obtain rfl := wellFormed.tiled.eq_of_start_eq member inHeap starts
  have known : ringHeap.shapes.get? (strayMachine.memory.tag 0x3ffffffff010) = some .context := by
    rw [isContext]
    rfl
  have same : mid.memory.read 0x3ffffffff030 = strayMachine.memory.read 0x3ffffffff030 := by
    refine worn.words .context known _ (by decide) (by decide) ?_
    rintro offset (⟨run, weak, _⟩ | ⟨run, weak, _⟩)
    · cases weak
    · cases weak
  have stays : ringHeap.shapes.get? (mid.memory.tag 0x3ffffffff010) = some .context := by
    rw [worn.tag]
    exact known
  have held : mid.memory.value 0x3ffffffff030 = .reference 0x3ffffffff040 := by
    rw [Memory.value, same]
    exact environment
  exact .slot root stays ⟨1, (by decide : 1 < 2), rfl⟩ (congrArg Value.address? held)

/-- What a copy finds in the pair that an object of a further type holds, after its first collection.
The heap that took the copy has the given shapes. -/
def carOfCopy (shapes : ShapeTable) : ExceptT HeapError Action (Option Value) := do
  let source ← ExceptT.mk (Heap.new { initialSize := 256 } (ShapeTable.standard.register .pair).1 {})
  let target ← ExceptT.mk (Heap.new { initialSize := 256 } shapes {})
  let (source, answer) ← source.makeContext none
  let context ← ExceptT.mk (pure answer)
  let (target, answer) ← target.makeContext none
  let inTarget ← ExceptT.mk (pure answer)
  let (source, answer) ← source.allocPair context (.fixnum 1) .nil
  let pair ← ExceptT.mk (pure answer)
  let (source, answer) ←
    source.allocateObject context (.ofNat ShapeTable.standard.size) Layout.Pair.size
  let holder ← ExceptT.mk (pure answer)
  Action.storeValue (holder + Layout.Pair.car) pair
  Action.storeValue (holder + Layout.Pair.cdr) .nil
  Action.onMemory (context.setEnvironment · (.reference holder))
  let (copy, answer) ← source.copyInto context target inTarget.toValue false
  let copied ← ExceptT.mk (pure answer)
  let (copy, _) ← copy.collect copied
  let memory ← Action.memory
  return copy.car? memory
    (memory.value ((copied.environment memory).untagged + Layout.Pair.car))

/-- A target that does not know the further type reclaims the pair, although it was accepted. One that
knows the type keeps it. -/
theorem copyInto_forgets :
    (carOfCopy .standard).run.Ensures {} (fun answer _ => answer = .ok none) ∧
      (carOfCopy (ShapeTable.standard.register .pair).1).run.Ensures {} fun answer _ =>
        answer = .ok (some (.fixnum 1)) := by
  constructor
  · exact Action.ensures_ok_of_passes (by decide +kernel)
  · exact Action.ensures_ok_of_passes (by decide +kernel)

end Ring

end Heap

end SlabHeap
