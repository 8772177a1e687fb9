import SlabHeap.Proofs.Collection

namespace SlabHeap

/-! Heaps in which references lead to objects.

`Heap.Reachable` says what a program can reach from given values, in terms of slots and save frames
alone. `Heap.Traced` collects what marking from some roots relies on: objects are ready to be marked,
and whatever marking meets refers to an object. It then reaches what a program can reach. In a heap
that is `Heap.Grounded` weak slots refer to objects as well: a collection leaves such a heap behind, so
that collections may follow each other.
-/

open Block

namespace Heap

variable {heap other : Heap} {machine final : Machine} {tiling swept : Slab → List Block}
  {block : Block} {object address : Nat} {value : Value} {roots : List Value} {live : Nat → Prop}

/-- What can be reached from some roots, through strong slots and through the values in the linked
frames of contexts. -/
inductive Reachable (heap : Heap) (machine : Machine) (roots : List Value) : Nat → Prop
  | root {value : Value} {object : Nat} (listed : value ∈ roots)
      (refers : value.address? = some object) : Reachable heap machine roots object
  | slot {owner object offset : Nat} {shape : Shape} (reached : Reachable heap machine roots owner)
      (known : heap.shapes.get? (machine.memory.tag owner) = some shape)
      (strong : shape.StrongSlot machine.memory owner offset)
      (refers : (machine.memory.value (owner + offset)).address? = some object) :
      Reachable heap machine roots object
  | saved {owner object : Nat} {frame : Frame} {value : Value}
      (reached : Reachable heap machine roots owner)
      (isContext : machine.memory.tag owner = Tag.context)
      (linked : machine.Linked ((Context.mk owner).saves machine.memory) frame)
      (held : value ∈ frame.values) (refers : value.address? = some object) :
      Reachable heap machine roots object

/-- Marking looks at slabs, shapes and features alone. -/
theorem Reach.reroot {passable : Nat → Prop} (slabs : other.slabs = heap.slabs)
    (shapes : other.shapes = heap.shapes) (features : other.features = heap.features)
    (reached : heap.Reach machine passable roots object) :
    other.Reach machine passable roots object := by
  have target (value : Value) :
      other.target? machine.memory value = heap.target? machine.memory value := by
    unfold target? Heap.contains
    rw [slabs, features]
  have kept (owner : Nat) : other.keptValues machine owner = heap.keptValues machine owner := by
    simp only [keptValues, shapes]
  induction reached with
  | root listed found passes => exact .root listed ((target _).trans found) passes
  | kept _ held found passes ih =>
      exact .kept ih (kept _ ▸ held) ((target _).trans found) passes

theorem Reachable.reroot (shapes : other.shapes = heap.shapes)
    (reached : heap.Reachable machine roots object) : other.Reachable machine roots object := by
  induction reached with
  | root listed refers => exact .root listed refers
  | slot _ known strong refers ih => exact .slot ih (shapes ▸ known) strong refers
  | saved _ isContext linked held refers ih => exact .saved ih isContext linked held refers

theorem Reachable.mono {more : List Value} (reached : heap.Reachable machine roots object)
    (fewer : ∀ value ∈ roots, value ∈ more) : heap.Reachable machine more object := by
  induction reached with
  | root listed refers => exact .root (fewer _ listed) refers
  | slot _ known strong refers ih => exact .slot ih known strong refers
  | saved _ isContext linked held refers ih => exact .saved ih isContext linked held refers

/-- What can be reached from a value can be reached from where the value's object can. -/
theorem Reachable.through (reached : heap.Reachable machine [value] object)
    (source : ∀ start, value.address? = some start → heap.Reachable machine roots start) :
    heap.Reachable machine roots object := by
  induction reached with
  | root listed refers =>
      obtain rfl := List.mem_singleton.mp listed
      exact source _ refers
  | slot _ known strong refers ih => exact .slot ih known strong refers
  | saved _ isContext linked held refers ih => exact .saved ih isContext linked held refers

/-- The value refers to an object, if it is a reference. -/
def RefersToObject (heap : Heap) (tiling : Slab → List Block) (value : Value) : Prop :=
  ∀ address, value.address? = some address → heap.Object tiling address

theorem RefersToObject.denotes (refers : heap.RefersToObject tiling value) :
    heap.Denotes tiling value :=
  fun address found => (refers address found).node

theorem Reachable.kept {owner : Nat} (reached : heap.Reachable machine roots owner)
    (held : value ∈ heap.keptValues machine owner) (refers : value.address? = some object) :
    heap.Reachable machine roots object := by
  rcases mem_keptValues.mp held with
    ⟨isContext, frame, linked, held⟩ | ⟨shape, known, offset, strong, rfl⟩
  · exact .saved reached isContext linked held refers
  · exact .slot reached known strong refers

/-- Marking goes nowhere that a program cannot go. -/
theorem Reach.reachable {passable : Nat → Prop} (reached : heap.Reach machine passable roots object) :
    heap.Reachable machine roots object := by
  induction reached with
  | root listed found => exact .root listed (address?_of_target? found)
  | kept _ held found _ ih => exact ih.kept held (address?_of_target? found)

/-- Objects are unmarked, and valid where marking checks that they are. -/
structure Ready (heap : Heap) (tiling : Slab → List Block) (machine : Machine) : Prop where
  tiled : heap.Tiled machine.memory tiling
  valid : heap.features.validating = true → ∀ block ∈ heap.blocks tiling, block.kind = .object →
    (machine.memory.header block.start).isValid = true
  unmarked : ∀ block ∈ heap.blocks tiling, block.kind = .object → machine.Unmarked block.start

/-- Objects are ready to be marked, and what marking meets from some roots on refers to objects. -/
structure Traced (heap : Heap) (machine : Machine) (tiling : Slab → List Block)
    (roots : List Value) : Prop extends heap.Ready tiling machine where
  kept : ∀ owner, heap.Reach machine machine.Unmarked roots owner →
    ∀ value ∈ heap.keptValues machine owner, heap.RefersToObject tiling value
  roots : ∀ value ∈ roots, heap.RefersToObject tiling value

/-- Objects are valid and unmarked, and what a collection follows in their slots refers to objects. -/
structure Intact (heap : Heap) (tiling : Slab → List Block) (machine : Machine) : Prop where
  tiled : heap.Tiled machine.memory tiling
  valid : ∀ block ∈ heap.blocks tiling, block.kind = .object →
    (machine.memory.header block.start).isValid = true
  unmarked : ∀ block ∈ heap.blocks tiling, block.kind = .object → machine.Unmarked block.start
  slots : ∀ block ∈ heap.blocks tiling, block.kind = .object → ∀ shape,
    heap.shapes.get? (machine.memory.tag block.start) = some shape → ∀ offset,
      shape.Followed heap.features.weakReferences machine.memory block.start offset →
        heap.RefersToObject tiling (machine.memory.value (block.start + offset))

/-- The heap is intact, and what marking meets from some roots on refers to objects. -/
structure Grounded (heap : Heap) (machine : Machine) (tiling : Slab → List Block)
    (roots : List Value) : Prop extends heap.Intact tiling machine where
  kept : ∀ owner, heap.Reach machine machine.Unmarked roots owner →
    ∀ value ∈ heap.keptValues machine owner, heap.RefersToObject tiling value
  roots : ∀ value ∈ roots, heap.RefersToObject tiling value

theorem refersToObject_no : heap.RefersToObject tiling .no := fun _ found => by cases found

theorem Tiled.contains_of_refers {memory : Memory} (tiled : heap.Tiled memory tiling)
    (refers : heap.RefersToObject tiling value) (address : Nat)
    (found : value.address? = some address) : heap.contains address = true := by
  obtain ⟨block, member, _, rfl⟩ := refers address found
  exact tiled.contains member

theorem Tiled.refersToObject {memory : Memory} (tiled : heap.Tiled memory tiling)
    (isObject : heap.Object tiling address) : heap.RefersToObject tiling (.reference address) := by
  intro found refers
  obtain ⟨block, member, kind, rfl⟩ := isObject
  obtain ⟨_, aligned, _, _, bounded⟩ := tiled.bounds member
  rw [Value.address?_reference (by omega)
    (by simp only [Block.stop] at bounded; omega)] at refers
  exact ⟨block, member, kind, Option.some.inj refers⟩

/-- A reference to an object is one to an object of its tag. -/
theorem Tiled.objectOf?_reference {memory : Memory} (tiled : heap.Tiled memory tiling) (tag : UInt8)
    (member : block ∈ heap.blocks tiling) (isObject : block.kind = .object) :
    heap.objectOf? memory tag (.reference block.start) =
      if memory.tag block.start = tag then some block.start else none := by
  obtain ⟨_, aligned, _, _, bounded⟩ := tiled.bounds member
  have refers : (Value.reference block.start).address? = some block.start :=
    Value.address?_reference (by omega) (by simp only [Block.stop] at bounded; omega)
  simp only [objectOf?, object?, refers, Option.bind_eq_bind, Option.bind_some,
    show block.start % blockUnit = 0 from aligned, tiled.contains member,
    tiled.registered member isObject, ne_eq,
    not_true_eq_false, or_self, if_false, if_true, Option.filter_some, decide_eq_true_eq]

namespace Ready

variable (ready : heap.Ready tiling machine)

include ready

/-- Marking takes references to objects for what they are. -/
theorem target?_eq (refers : heap.RefersToObject tiling value) :
    heap.target? machine.memory value = value.address? := by
  cases found : value.address? with
  | none => simp [target?, found]
  | some address =>
      obtain ⟨block, member, isObject, rfl⟩ := refers address found
      exact ready.tiled.target?_eq_some member
        (fun validating => ready.valid validating block member isObject) found

theorem unmarked_object (isObject : heap.Object tiling object) : machine.Unmarked object := by
  obtain ⟨block, member, kind, rfl⟩ := isObject
  exact ready.unmarked block member kind

/-- Marking meets what the frames of contexts hold, and what strong slots do. -/
theorem traced (rooted : ∀ value ∈ roots, heap.RefersToObject tiling value)
    (saved : ∀ block ∈ heap.blocks tiling, block.kind = .object →
      heap.Reach machine machine.Unmarked roots block.start →
        machine.memory.tag block.start = Tag.context → ∀ frame,
          machine.Linked ((Context.mk block.start).saves machine.memory) frame →
            ∀ value ∈ frame.values, heap.RefersToObject tiling value)
    (strong : ∀ block ∈ heap.blocks tiling, block.kind = .object →
      heap.Reach machine machine.Unmarked roots block.start → ∀ shape,
        heap.shapes.get? (machine.memory.tag block.start) = some shape → ∀ offset,
          shape.StrongSlot machine.memory block.start offset →
            heap.RefersToObject tiling (machine.memory.value (block.start + offset))) :
    heap.Traced machine tiling roots := by
  have kept {owner : Nat} {value : Value} (isObject : heap.Object tiling owner)
      (reached : heap.Reach machine machine.Unmarked roots owner)
      (held : value ∈ heap.keptValues machine owner) : heap.RefersToObject tiling value := by
    obtain ⟨block, member, kind, rfl⟩ := isObject
    rcases mem_keptValues.mp held with
      ⟨isContext, frame, linked, held⟩ | ⟨shape, known, offset, slot, rfl⟩
    · exact saved block member kind reached isContext frame linked value held
    · exact strong block member kind reached shape known offset slot
  refine ⟨ready, fun owner reached value held => ?_, rooted⟩
  have isObject : heap.Object tiling owner := by
    induction reached generalizing value with
    | root listed found _ => exact rooted _ listed _ (address?_of_target? found)
    | kept reached inner found _ ih =>
        exact kept (ih _ inner) reached inner _ (address?_of_target? found)
  exact kept isObject reached held

end Ready

namespace Traced

variable (traced : heap.Traced machine tiling roots)

include traced

theorem object_of_reach (reached : heap.Reach machine machine.Unmarked roots object) :
    heap.Object tiling object := by
  cases reached with
  | root listed found _ => exact traced.roots _ listed _ (address?_of_target? found)
  | kept reached held found _ =>
      exact traced.kept _ reached _ held _ (address?_of_target? found)

theorem closed : heap.Closed machine tiling roots where
  tiled := traced.tiled
  roots value listed object found :=
    (traced.roots value listed object (address?_of_target? found)).node
  kept owner reached _ value held object found :=
    (traced.kept owner reached value held object (address?_of_target? found)).node

theorem reach_root (listed : value ∈ roots) (refers : value.address? = some object) :
    heap.Reach machine machine.Unmarked roots object := by
  have toObject := traced.roots value listed
  exact .root listed ((traced.toReady.target?_eq toObject).trans refers)
    (traced.toReady.unmarked_object (toObject object refers))

theorem reach_kept {owner : Nat} (reached : heap.Reach machine machine.Unmarked roots owner)
    (held : value ∈ heap.keptValues machine owner) (refers : value.address? = some object) :
    heap.Reach machine machine.Unmarked roots object := by
  have toObject := traced.kept owner reached value held
  exact .kept reached held ((traced.toReady.target?_eq toObject).trans refers)
    (traced.toReady.unmarked_object (toObject object refers))

/-- Marking goes where a program can go. -/
theorem reach_iff : heap.Reach machine machine.Unmarked roots object ↔
    heap.Reachable machine roots object := by
  refine ⟨Reach.reachable, fun reached => ?_⟩
  induction reached with
  | root listed refers => exact traced.reach_root listed refers
  | slot _ known strong refers ih =>
      exact traced.reach_kept ih (slot_keptValues known strong) refers
  | saved _ isContext linked held refers ih =>
      exact traced.reach_kept ih (saved_keptValues isContext linked held) refers

theorem object_of_reachable (reached : heap.Reachable machine roots object) :
    heap.Object tiling object := traced.object_of_reach (traced.reach_iff.mpr reached)

end Traced

namespace Intact

variable (intact : heap.Intact tiling machine)

include intact

theorem clean : heap.Clean tiling machine where
  tiled := intact.tiled
  unmarked := intact.unmarked
  weak weak block member isObject shape known offset slot :=
    (intact.slots block member isObject shape known offset (.inr ⟨weak, slot⟩)).denotes.within

theorem ready : heap.Ready tiling machine where
  tiled := intact.tiled
  valid _ := intact.valid
  unmarked := intact.unmarked

/-- Besides slots, marking meets what the frames of contexts hold. -/
theorem grounded (rooted : ∀ value ∈ roots, heap.RefersToObject tiling value)
    (saved : ∀ block ∈ heap.blocks tiling, block.kind = .object →
      heap.Reach machine machine.Unmarked roots block.start →
        machine.memory.tag block.start = Tag.context → ∀ frame,
          machine.Linked ((Context.mk block.start).saves machine.memory) frame →
            ∀ value ∈ frame.values, heap.RefersToObject tiling value) :
    heap.Grounded machine tiling roots := by
  have traced : heap.Traced machine tiling roots :=
    intact.ready.traced rooted saved fun block member kind _ shape known offset strong =>
      intact.slots block member kind shape known offset (.inl strong)
  exact ⟨intact, traced.kept, rooted⟩

theorem reroot (slabs : other.slabs = heap.slabs) (shapes : other.shapes = heap.shapes)
    (features : other.features = heap.features) : other.Intact tiling machine := by
  obtain ⟨_, _, _, _, _, _, _, _, _⟩ := heap
  obtain ⟨_, _, _, _, _, _, _, _, _⟩ := other
  cases slabs
  cases shapes
  cases features
  exact ⟨⟨intact.tiled.layout, intact.tiled.apart⟩, intact.valid, intact.unmarked, intact.slots⟩

variable (collected : heap.Collected tiling swept machine final live)

include collected

omit intact in
theorem refers_swept (refers : heap.RefersToObject tiling value)
    (lives : ∀ object, value.address? = some object → live object) :
    heap.RefersToObject swept value := by
  intro address found
  obtain ⟨block, member, isObject, rfl⟩ := refers address found
  exact ⟨block, (collected.mem_swept (by simp [isObject])).mpr ⟨member, fun _ => lives _ found⟩,
    isObject, rfl⟩

/-- A collection that keeps what its survivors hold leaves the heap intact. -/
theorem survive (kept : ∀ owner, live owner → ∀ value ∈ heap.keptValues machine owner, ∀ object,
      value.address? = some object → live object) : heap.Intact swept final where
  tiled := collected.tiled
  valid block member isObject := by
    obtain ⟨before, alive⟩ := (collected.mem_swept (by simp [isObject])).mp member
    exact (collected.objects block before isObject (alive isObject)).isValid.trans
      (intact.valid block before isObject)
  unmarked block member isObject := by
    obtain ⟨before, alive⟩ := (collected.mem_swept (by simp [isObject])).mp member
    exact (collected.objects block before isObject (alive isObject)).isMarked.trans
      (intact.unmarked block before isObject)
  slots block member isObject shape known offset followed := by
    obtain ⟨before, alive⟩ := (collected.mem_swept (by simp [isObject])).mp member
    have alive := alive isObject
    have alike := collected.alike intact.tiled before isObject alive
    rw [alike.tag] at known
    rw [Shape.followed_congr (alike.lengths isObject shape known)] at followed
    have refers := intact.slots block before isObject shape known offset followed
    by_cases dropped : heap.Drops machine live block offset
    · rw [(collected.objects block before isObject alive).dropped offset dropped]
      exact refersToObject_no
    · rw [collected.value_eq intact.tiled before isObject alive known followed.slot dropped]
      refine refers_swept collected refers fun object found => ?_
      rcases followed with strong | ⟨weak, slot⟩
      · exact kept block.start alive _ (slot_keptValues known strong) object found
      · by_contra dead
        obtain ⟨referent, inHeap, kind, rfl⟩ := refers object found
        exact dropped ⟨weak, shape, known, .inl ⟨slot, referent.start,
          (intact.ready.target?_eq refers).trans found, intact.tiled.contains inHeap,
          intact.unmarked referent inHeap kind, dead⟩⟩

end Intact

namespace Grounded

variable (grounded : heap.Grounded machine tiling roots)

include grounded

theorem traced : heap.Traced machine tiling roots where
  toReady := grounded.toIntact.ready
  kept := grounded.kept
  roots := grounded.roots

theorem object_of_reachable (reached : heap.Reachable machine roots object) :
    heap.Object tiling object := grounded.traced.object_of_reachable reached

theorem reroot (slabs : other.slabs = heap.slabs) (shapes : other.shapes = heap.shapes)
    (features : other.features = heap.features) : other.Grounded machine tiling roots where
  toIntact := grounded.toIntact.reroot slabs shapes features
  kept owner reached value held := by
    have before := reached.reroot slabs.symm shapes.symm features.symm
    have heldBefore : value ∈ heap.keptValues machine owner := by
      simpa only [keptValues, shapes] using held
    have refers := grounded.kept owner before value heldBefore
    simpa only [RefersToObject, Heap.Object, Heap.blocks, slabs] using refers
  roots value listed := by
    simpa only [RefersToObject, Heap.Object, Heap.blocks, slabs] using grounded.roots value listed

variable (collected : heap.Collected tiling swept machine final
  (heap.Reach machine machine.Unmarked roots))

include collected

/-- What can be reached after a collection was reached before. -/
theorem reach_swept (reached : heap.Reach final final.Unmarked roots object) :
    heap.Reach machine machine.Unmarked roots object := by
  induction reached with
  | root listed found _ => exact grounded.traced.reach_root listed (address?_of_target? found)
  | kept _ held found _ ih =>
      obtain ⟨block, member, isObject, rfl⟩ := grounded.traced.object_of_reach ih
      have refers := address?_of_target? found
      rcases collected.keptValues_swept grounded.tiled member isObject ih held with rfl | held
      · cases refers
      · exact grounded.traced.reach_kept ih held refers

/-- A collection leaves a grounded heap. -/
theorem survive : heap.Grounded final swept roots where
  toIntact := grounded.toIntact.survive collected fun _ reached _ held _ refers =>
    grounded.traced.reach_kept reached held refers
  roots value listed := Intact.refers_swept collected (grounded.roots value listed)
    fun _ refers => grounded.traced.reach_root listed refers
  kept owner reached value held := by
    have before := grounded.reach_swept collected reached
    obtain ⟨block, member, isObject, rfl⟩ := grounded.traced.object_of_reach before
    rcases collected.keptValues_swept grounded.tiled member isObject before held with rfl | held
    · exact refersToObject_no
    · exact Intact.refers_swept collected (grounded.kept _ before value held)
        fun _ refers => grounded.traced.reach_kept before held refers

end Grounded

end Heap

end SlabHeap
