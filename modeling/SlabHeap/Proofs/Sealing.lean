import SlabHeap.Proofs.Founding

namespace SlabHeap

/-! Heaps whose references lead to objects of their own.

A heap is `Heap.Sealed` if its objects are valid and unmarked, and if all that a collection follows refers to
them. Free blocks may touch. Operations that use a heap as it is meant to be used keep it sealed,
`Operation.seals`, and a fork of a sealed heap is sealed as well, `Heap.Sealed.ensures_fork`.
-/

open Block

namespace Heap

variable {heap other after prepared : Heap} {machine mid final : Machine}
  {tiling taken swept divided : Slab → List Block} {block : Block} {object : Nat} {value : Value}
  {roots held : List Value} {context : Context} {from? : Option Context} {shape : Shape}

theorem Object.mono (more : ∀ block ∈ heap.blocks tiling, block.kind ≠ .free → block ∈ other.blocks taken)
    (isObject : heap.Object tiling object) : other.Object taken object := by
  obtain ⟨block, member, kind, starts⟩ := isObject
  exact ⟨block, more block member (by simp [kind]), kind, starts⟩

theorem RefersToObject.mono
    (more : ∀ block ∈ heap.blocks tiling, block.kind ≠ .free → block ∈ other.blocks taken)
    (refers : heap.RefersToObject tiling value) : other.RefersToObject taken value :=
  fun address found => (refers address found).mono more

/-- What refers to nothing refers to no storage but objects. -/
theorem RefersToObject.of_none (unknown : value.address? = none) : heap.RefersToObject tiling value := by
  intro address found
  simp [unknown] at found

namespace Upheld

variable (upheld : heap.Upheld (heap.RefersToObject tiling) tiling machine)

include upheld

theorem intact : heap.Intact tiling machine where
  tiled := upheld.tiled
  valid block member isObject := (upheld.objects block member isObject).valid
  unmarked block member isObject := (upheld.objects block member isObject).unmarked
  slots block member isObject := (upheld.objects block member isObject).slots

theorem grounded (rooted : ∀ value ∈ roots, heap.RefersToObject tiling value) :
    heap.Grounded machine tiling roots := by
  apply upheld.intact.grounded rooted
  intro block member isObject _ isContext frame linked value held
  obtain ⟨numbers, chained, values⟩ := (upheld.objects block member isObject).chain isContext
  obtain ⟨number, listed, found⟩ := chained.linked_iff.mp linked
  exact values number listed frame found value held

theorem survive (rooted : ∀ value ∈ roots, heap.RefersToObject tiling value)
    (collected : heap.Collected tiling swept machine final
      (heap.Reach machine machine.Unmarked roots)) :
    heap.Upheld (heap.RefersToObject swept) swept final := by
  have grounded := upheld.grounded rooted
  have survivors := (grounded.survive collected).toIntact
  refine ⟨collected.tiled, ?_, upheld.upper, fun block member isObject =>
    ⟨survivors.valid block member isObject, survivors.unmarked block member isObject,
      survivors.slots block member isObject, fun isContext => ?_⟩⟩
  · exact fun slab inHeap => (upheld.hosted slab inHeap).congr collected.steady.pages
  · obtain ⟨before, alive⟩ := (collected.mem_swept (by simp [isObject])).mp member
    have reached := alive isObject
    rw [(collected.alike upheld.tiled before isObject reached).tag] at isContext
    have saves := collected.saves_eq upheld.tiled before isObject reached isContext
    obtain ⟨numbers, chained, values⟩ := (upheld.objects block before isObject).chain isContext
    refine ⟨numbers, ?_, fun number listed frame found value held => ?_⟩
    · rw [saves]
      exact chained.congr fun number _ => Machine.frame?_congr collected.steady.frames number
    · rw [Machine.frame?_congr collected.steady.frames] at found
      apply Intact.refers_swept collected (values number listed frame found value held)
      intro object refers
      have saved : value ∈ heap.keptValues machine block.start :=
        mem_keptValues.mpr (.inl ⟨isContext, frame, chained.linked_iff.mpr ⟨number, listed, found⟩, held⟩)
      exact grounded.traced.reach_kept reached saved refers

end Upheld

/-- Slabs are tiled, objects are valid and unmarked, fit their types, and all references that a collection
follows lead to objects of the heap. -/
structure Sealed (heap : Heap) (tiling : Slab → List Block) (machine : Machine) : Prop
    extends heap.Upheld (heap.RefersToObject tiling) tiling machine where
  confined : ∀ tag shape, heap.shapes.get? tag = some shape → shape.Confined
  counted : ∀ block ∈ heap.blocks tiling, block.kind = .object → block.Counted heap.shapes machine.memory
  globals : ∀ value ∈ heap.globals.getD [], heap.RefersToObject tiling value
  scratch : ∀ value ∈ heap.scratch, heap.RefersToObject tiling value

namespace Sealed

variable (isSealed : heap.Sealed tiling machine)

include isSealed

/-- A heap stays sealed where its objects are upheld. -/
theorem renew (upholds : heap.Upholds (heap.RefersToObject tiling) tiling machine final) :
    heap.Sealed tiling final where
  toUpheld := upholds.upheld
  confined := isSealed.confined
  counted block member isObject :=
    (isSealed.counted block member isObject).congr isObject (upholds.alike block member isObject)
  globals := isSealed.globals
  scratch := isSealed.scratch

theorem quiet (quiet : machine.Quiet final) : heap.Sealed tiling final :=
  isSealed.renew <| isSealed.toUpheld.keep (fun _ _ _ _ _ => by rw [quiet.memory])
    (fun number _ found _ => (Machine.frame?_congr quiet.frames number).trans found)
    quiet.taken_subset

theorem extended (reserved : machine.Extended final) : heap.Sealed tiling final :=
  isSealed.renew (isSealed.toUpheld.extended reserved)

theorem reroot (slabs : other.slabs = heap.slabs) (shapes : other.shapes = heap.shapes)
    (features : other.features = heap.features)
    (globals : ∀ value ∈ other.globals.getD [], heap.RefersToObject tiling value)
    (scratch : ∀ value ∈ other.scratch, heap.RefersToObject tiling value) :
    other.Sealed tiling machine := by
  have objects : other.blocks tiling = heap.blocks tiling := by simp only [Heap.blocks, slabs]
  have refers : other.RefersToObject tiling = heap.RefersToObject tiling := by
    funext value
    simp only [RefersToObject, Object, objects]
  obtain ⟨⟨tiled, hosted, upper, sound⟩, confined, counted, _, _⟩ := isSealed
  refine ⟨⟨⟨?_, ?_⟩, ?_, ?_, ?_⟩, ?_, ?_, ?_, ?_⟩
  · rw [slabs, shapes]
    exact tiled.layout
  · rw [slabs]
    exact tiled.apart
  · rwa [slabs]
  · rwa [slabs]
  · rwa [objects, shapes, features, refers]
  · rwa [shapes]
  · rwa [objects, shapes]
  · rwa [refers]
  · rwa [refers]

theorem recount (counters : Counters) : { heap with counters }.Sealed tiling machine :=
  isSealed.reroot rfl rfl rfl isSealed.globals isSealed.scratch

theorem holding (refers : ∀ value ∈ held, heap.RefersToObject tiling value) :
    (heap.holding held).Sealed tiling machine :=
  isSealed.reroot rfl rfl rfl isSealed.globals (List.forall_mem_append.mpr ⟨isSealed.scratch, refers⟩)

theorem elsewhere {stranger next : Heap} (within : stranger.Within next machine final)
    (apart : stranger.Apart heap) : heap.Sealed tiling final := by
  apply isSealed.renew
  apply isSealed.toUpheld.keep (within.untouched apart isSealed.hosted) _ within.pages
  intro number frame found owned
  obtain ⟨slab, inHeap, covers⟩ := List.any_eq_true.mp owned
  have reserved := (isSealed.hosted slab inHeap).reserved_of_contains covers
  exact within.frames number frame found reserved (apart.not_contains owned)

theorem rooted (objects : ∀ handle ∈ from?, heap.Object tiling handle.address) :
    ∀ value ∈ heap.roots from?, heap.RefersToObject tiling value := by
  intro value listed
  simp only [Heap.roots, List.mem_append] at listed
  rcases listed with (inScratch | inGlobals) | isContext
  · exact isSealed.scratch value inScratch
  · exact isSealed.globals value inGlobals
  · cases from? with
    | none => simp at isContext
    | some handle =>
        obtain rfl : value = handle.toValue := by simpa using isContext
        exact isSealed.tiled.refersToObject (objects handle rfl)

/-- A collection can run to its end. -/
theorem collectable (objects : ∀ handle ∈ from?, heap.Object tiling handle.address) :
    heap.Collectable from? tiling machine where
  toClean := isSealed.intact.clean
  closed := (isSealed.grounded (isSealed.rooted objects)).traced.closed
  hosted := isSealed.hosted
  upper := isSealed.upper

theorem ready : heap.Ready tiling machine := isSealed.intact.ready

theorem survive (rooted : ∀ value ∈ roots, heap.RefersToObject tiling value)
    (own : ∀ value ∈ heap.scratch ++ heap.globals.getD [], value ∈ roots)
    (collected : heap.Collected tiling swept machine final
      (heap.Reach machine machine.Unmarked roots)) : heap.Sealed swept final := by
  have grounded := isSealed.grounded rooted
  have root {value : Value} (listed : value ∈ heap.scratch ++ heap.globals.getD [])
      (refers : heap.RefersToObject tiling value) : heap.RefersToObject swept value :=
    Intact.refers_swept collected refers fun _ found => grounded.traced.reach_root (own value listed) found
  refine ⟨isSealed.toUpheld.survive rooted collected, isSealed.confined, ?_, ?_, ?_⟩
  · intro block member isObject
    obtain ⟨before, alive⟩ := (collected.mem_swept (by simp [isObject])).mp member
    exact (isSealed.counted block before isObject).congr isObject
      (collected.alike isSealed.tiled before isObject (alive isObject))
  · intro value listed
    exact root (List.mem_append_right _ listed) (isSealed.globals value listed)
  · intro value listed
    exact root (List.mem_append_left _ listed) (isSealed.scratch value listed)

theorem grown {slab : Slab} (created : slab.Created heap.shapes machine final) :
    (heap.grown slab).Sealed
      (Function.update tiling slab [⟨slab.objects, slab.size - blockUnit, .free⟩]) final := by
  have upheld := isSealed.toUpheld
  have more {value : Value} (refers : heap.RefersToObject tiling value) :
      (heap.grown slab).RefersToObject
        (Function.update tiling slab [⟨slab.objects, slab.size - blockUnit, .free⟩]) value :=
    refers.mono fun _ member inUse => (upheld.mem_blocks_grown created inUse).mpr member
  exact ⟨upheld.grown created fun _ => more, isSealed.confined,
    fun block => upheld.counted_grown created isSealed.counted,
    fun value listed => more (isSealed.globals value listed),
    fun value listed => more (isSealed.scratch value listed)⟩

/-- A heap stays sealed when a block comes into use, be it with a sound object. -/
theorem obtain (obtained : heap.Obtained tiling taken machine.memory final.memory block)
    (steady : machine.Steady final) (fresh : block.kind = .object →
      block.Sound heap.shapes heap.features.weakReferences (heap.RefersToObject taken) final)
    (counted : block.kind = .object → block.Counted heap.shapes final.memory) :
    heap.Sealed taken final := by
  have upheld := isSealed.toUpheld
  have more {value : Value} (refers : heap.RefersToObject tiling value) : heap.RefersToObject taken value :=
    refers.mono fun _ member inUse => (obtained.mem_iff inUse).mpr (.inl member)
  exact ⟨upheld.obtain obtained steady (fun _ => more) fresh, isSealed.confined,
    fun other => upheld.counted_obtain obtained isSealed.counted counted,
    fun value listed => more (isSealed.globals value listed),
    fun value listed => more (isSealed.scratch value listed)⟩

theorem register (confined : shape.Confined) : (heap.register shape).1.Sealed tiling machine where
  toUpheld := isSealed.toUpheld.register shape
  confined := ShapeTable.confined_register isSealed.confined confined
  counted _ := isSealed.toUpheld.counted_register isSealed.counted
  globals := isSealed.globals
  scratch := isSealed.scratch

section Prepared

variable (objects : ∀ handle ∈ from?, heap.Object tiling handle.address)
  (prepares : heap.Prepared from? tiling machine prepared divided mid)

include objects prepares

theorem prepare : prepared.Sealed divided mid := by
  have survives {swept : Slab → List Block} {mid : Machine}
      (collected : heap.Collected tiling swept machine mid
        (heap.Reach machine machine.Unmarked (heap.roots from?))) : heap.Sealed swept mid :=
    isSealed.survive (isSealed.rooted objects) (fun _ => List.mem_append_left _) collected
  cases prepares with
  | ready quiet => exact isSealed.quiet quiet
  | collected collected quiet => exact ((survives collected).recount _).quiet quiet
  | grown collected created => exact Sealed.grown ((survives collected).recount _) created

/-- What a root refers to stays an object. -/
theorem refers_prepared (listed : value ∈ heap.roots from?) : prepared.RefersToObject divided value := by
  have rooted := isSealed.rooted objects
  have survives {swept : Slab → List Block} {mid : Machine}
      (collected : heap.Collected tiling swept machine mid
        (heap.Reach machine machine.Unmarked (heap.roots from?))) : heap.RefersToObject swept value :=
    Intact.refers_swept collected (rooted value listed) fun _ found =>
      (isSealed.grounded rooted).traced.reach_root listed found
  cases prepares with
  | ready => exact rooted value listed
  | collected collected => exact survives collected
  | grown collected created =>
      have upheld := (isSealed.survive rooted (fun _ => List.mem_append_left _) collected).toUpheld
      exact (survives collected).mono fun block member inUse =>
        (upheld.mem_blocks_grown created inUse).mpr member

end Prepared

end Sealed

/-- A sealed heap became another one, which is sealed, while nothing outside changed. -/
structure Seals (heap after : Heap) (machine final : Machine) : Prop where
  still : ∃ taken, after.Sealed taken final
  orderly : final.Orderly
  within : heap.Within after machine final
  features : after.features = heap.features

end Heap

namespace Order

open Heap

variable {order : Order} {heap prepared after : Heap} {machine mid final : Machine} {before : Memory}
  {tiling divided taken : Slab → List Block} {start request : Nat}

variable (isSealed : heap.Sealed tiling machine)
  (roots : ∀ root ∈ order.root, heap.Object tiling root.address)
  (held : ∀ value ∈ order.held, heap.RefersToObject tiling value)

include isSealed roots held

/-- The heap is sealed when an order is met. -/
theorem Supplied.seals (apt : order.Apt heap.shapes)
    (supplied : order.Supplied heap tiling machine prepared divided taken mid before start request final) :
    { prepared with scratch := heap.scratch }.Sealed taken final := by
  have holds := isSealed.holding held
  have ready := holds.prepare roots supplied.prepares
  have values : ∀ value ∈ order.values, prepared.RefersToObject taken value := by
    intro value listed
    rcases root_of_mem_values heap listed with isRoot | unknown
    · exact (holds.refers_prepared roots supplied.prepares isRoot).mono fun _ member inUse =>
        (supplied.obtained.mem_iff inUse).mpr (.inl member)
    · exact .of_none unknown
  have obtained := ready.obtain supplied.obtained supplied.steady
    (supplied.sound_of (fun tag _ => isSealed.confined tag) apt values)
    (supplied.counted_of (fun tag _ => isSealed.confined tag) apt)
  refine obtained.reroot rfl rfl rfl obtained.globals fun value listed => obtained.scratch value ?_
  rw [supplied.prepares.scratch_eq]
  exact List.mem_append_left _ listed

theorem Refused.seals (refused : order.Refused heap tiling machine prepared divided final) :
    { prepared.refused with scratch := heap.scratch }.Sealed divided final := by
  have ready := (isSealed.holding held).prepare roots refused.prepares
  refine ready.reroot rfl rfl rfl ready.globals fun value listed => ready.scratch value ?_
  rw [refused.prepares.scratch_eq]
  exact List.mem_append_left _ listed

/-- A heap is sealed after an order, be it met or refused. -/
theorem seals (orderly : machine.Orderly) (apt : order.Apt heap.shapes) {answer : Except HeapError Value}
    (ran : (order.perform heap).run machine = .ok (after, answer) final) :
    heap.Seals after machine final := by
  have collectable := (isSealed.holding held).collectable roots
  cases performed_of_run collectable (fun tag _ => isSealed.confined tag) apt ran with
  | supplied supplied =>
      exact ⟨⟨_, supplied.seals isSealed roots held apt⟩,
        orderly.congr (supplied.steady.frames.trans supplied.prepares.frames_eq), supplied.within,
        supplied.prepares.features_eq⟩
  | refused _ refused =>
      exact ⟨⟨_, refused.seals isSealed roots held⟩, orderly.congr refused.prepares.frames_eq,
        refused.within, refused.prepares.features_eq⟩

end Order

namespace Heap

variable {heap after : Heap} {machine final : Machine} {tiling swept : Slab → List Block}
  {roots : List Value} {context : Context}

namespace Sealed

variable (isSealed : heap.Sealed tiling machine) (orderly : machine.Orderly)

include isSealed orderly

theorem collects {stats : SweepStats} (rooted : ∀ value ∈ roots, heap.RefersToObject tiling value)
    (own : ∀ value ∈ heap.scratch ++ heap.globals.getD [], value ∈ roots)
    (collected : heap.Collected tiling swept machine final
      (heap.Reach machine machine.Unmarked roots)) :
    heap.Seals (heap.counted stats) machine final :=
  ⟨⟨swept, (isSealed.survive rooted own collected).recount _⟩, orderly.congr collected.steady.frames,
    collected.within rfl, rfl⟩

theorem appends {request : Nat} {grown : Bool}
    (ran : (heap.appendSlab request).run machine = .ok (after, grown) final) :
    heap.Seals after machine final := by
  rcases (isSealed.tiled.appendSlab_meets isSealed.hosted).of_run ran with
    ⟨same, quiet, _⟩ | ⟨slab, same, _, _, created⟩
  · cases same
    exact ⟨⟨tiling, isSealed.quiet quiet⟩, orderly.congr quiet.frames, .of_quiet quiet rfl, rfl⟩
  · cases same
    exact ⟨⟨_, isSealed.grown created⟩, orderly.congr created.frames, .grown created, rfl⟩

end Sealed

end Heap

namespace Operation

open Heap

variable {op : Operation} {heap after : Heap} {machine final : Machine} {tiling : Slab → List Block}
  {answer : Answer}

/-- An operation that is used as it is meant to be keeps its heap sealed, and does not touch what belongs to
others. -/
theorem seals (isSealed : heap.Sealed tiling machine) (orderly : machine.Orderly)
    (apt : op.Apt heap machine (heap.Object tiling))
    (ran : (op.perform heap).run machine = .ok (after, answer) final) :
    heap.Seals after machine final := by
  by_cases only : op.Edits
  · obtain ⟨rfl, alters⟩ := op.alters only isSealed.toUpheld orderly isSealed.counted
      (fun _ isObject => isObject.node) (fun _ refers => refers) apt ran
    exact ⟨⟨tiling, isSealed.renew alters.toUpholds⟩, alters.orderly, alters.within, rfl⟩
  cases op with
  | make order =>
      obtain ⟨⟨_, _⟩, same, acts⟩ := Action.of_run_map ran
      cases same
      exact Order.seals isSealed apt.2.1 apt.2.2 orderly apt.1 acts
  | collect context =>
      obtain ⟨⟨later, stats⟩, same, acts⟩ := Action.of_run_map ran
      cases same
      have objects : ∀ handle ∈ some context, heap.Object tiling handle.address := by
        rintro _ ⟨⟩
        exact apt
      obtain ⟨counted, swept, collected⟩ := (isSealed.collectable objects).collectFrom_meets.of_run acts
      obtain rfl : later = heap.counted stats := counted
      exact isSealed.collects orderly (isSealed.rooted objects) (fun _ => List.mem_append_left _) collected
  | scan context snapshot =>
      obtain ⟨⟨later, stats⟩, same, acts⟩ := Action.of_run_map ran
      cases same
      have objects : ∀ handle ∈ some context, heap.Object tiling handle.address := by
        rintro _ ⟨⟩
        exact apt
      have rooted := List.forall_mem_append.mpr ⟨isSealed.rooted objects,
        fun value (listed : value ∈ heap.named machine.memory snapshot (heap.blocks tiling)) =>
          isSealed.tiled.named_denotes listed⟩
      obtain ⟨counted, swept, collected⟩ := (isSealed.ready.collectWithSnapshot_meets
        (isSealed.grounded rooted).traced.closed isSealed.intact.clean).of_run acts
      obtain rfl : later = heap.counted stats := counted
      exact isSealed.collects orderly rooted
        (fun _ own => List.mem_append_left _ (List.mem_append_left _ own)) collected
  | append request =>
      obtain ⟨⟨_, _⟩, same, acts⟩ := Action.of_run_map ran
      cases same
      exact isSealed.appends orderly acts
  | register shape =>
      cases ran
      exact ⟨⟨tiling, isSealed.register apt⟩, orderly, .of_quiet (.refl machine) rfl, rfl⟩
  | _ => exact absurd trivial only

end Operation

namespace Heap

variable {heap : Heap} {machine final made : Machine} {tiling : Slab → List Block} {context : Context}
  {keepOwnership : Bool} {source target : Slab}

/-- A copy of a sealed heap is sealed. -/
theorem Forks.seals (forks : heap.Forks tiling keepOwnership machine made final source target)
    (isSealed : heap.Sealed tiling machine) (identity : Nat) :
    (heap.forkOf identity target).Sealed (copiedTiling source target tiling) final := by
  have single := forks.single
  have copySingle : (heap.forkOf identity target).slabs = [target] := rfl
  have before := isSealed.extended forks.reserved
  have moved (value : Value) (refers : heap.RefersToObject tiling value) :
      (heap.forkOf identity target).RefersToObject (copiedTiling source target tiling)
        (source.moveValue target value) := by
    intro address found
    obtain ⟨original, holds, rfl⟩ := Duplicated.address?_moved single copySingle forks.beside
      (isSealed.tiled.contains_of_refers refers) found
    obtain ⟨block, member, isObject, rfl⟩ := refers original holds
    exact ⟨source.moveBlock target block, (Duplicated.mem_blocks_copy single copySingle
      (by simp [Slab.moveBlock, isObject])).mpr ⟨block, member, rfl⟩, isObject, rfl⟩
  refine ⟨forks.duplicated.upheld_copy single copySingle forks.beside before.toUpheld (fun _ _ _ => rfl) rfl
    moved forks.hosted forks.created.upper, isSealed.confined, fun block => ?_,
    by simp [forkOf], by simp [forkOf]⟩
  exact forks.duplicated.counted_copy single copySingle forks.beside before.toUpheld (fun _ _ _ => rfl) rfl
    before.counted

end Heap

end SlabHeap
