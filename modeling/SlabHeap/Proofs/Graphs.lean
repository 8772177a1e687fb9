import SlabHeap.Memory.Bytes
import SlabHeap.Proofs.Snapshots

namespace SlabHeap

/-! Marking over graphs of objects.

A `Heap.Graph` is a set of objects that lie apart, each of the shape of its tag, whose strong slots and
linked frames refer to objects of the set only. Any of them may be marked. `Heap.Graph.mark_spreads` says
that marking from a root ends, and marks what can be reached along objects that carry no mark; where there
is no mark yet, roots and slots may be taken in any order.
-/

open Block

namespace Memory

variable {memory after : Memory} {fresh : Nat → Prop} {word other : UInt64} {index address : Nat}

theorem byteOf_congr (low : word.toNat % 256 = other.toNat % 256)
    (high : word.toNat / 65536 = other.toNat / 65536) (another : index ≠ 1) :
    byteOf word index = byteOf other index := by
  rw [← UInt8.toNat_inj, toNat_byteOf, toNat_byteOf]
  rcases index with _ | _ | index
  · simpa using low
  · exact absurd rfl another
  · have whole (word : UInt64) :
        word.toNat >>> (8 * (index + 2)) = (word.toNat / 65536) >>> (8 * index) := by
      rw [Nat.mul_add, Nat.add_comm, Nat.shiftRight_add, Nat.shiftRight_eq_div_pow _ (8 * 2)]
    rw [whole, whole, high]

/-- Marking changes the byte that holds the flags, the second one of the header. -/
theorem MarkedOn.bytes (marked : memory.MarkedOn after fresh)
    (aligned : ∀ object, fresh object → object % 8 = 0)
    (elsewhere : ∀ object, fresh object → address ≠ object + 1) :
    after.readByte address = memory.readByte address := by
  by_cases first : ∃ object, fresh object ∧ object ≤ address ∧ address < object + 8
  · obtain ⟨object, isFresh, lower, upper⟩ := first
    have whole := aligned object isFresh
    have elsewhere := elsewhere object isFresh
    have header (memory : Memory) : memory.read address = (memory.header object).toWord := by
      rw [header, Header.toWord_ofWord]
      exact memory.read_congr (by omega)
    have word := (memory.header object).toNat_toWord
    have changed := (memory.header object).mark.toNat_toWord
    have tag := (memory.header object).tag.toNat_lt
    have flags := (memory.header object).flags.bits.toNat_lt
    have flagsAfter := (memory.header object).mark.flags.bits.toNat_lt
    rw [readByte, readByte, header, header, marked.marked object isFresh]
    simp only [Header.mark, Header.add] at changed flagsAfter
    refine byteOf_congr ?_ ?_ (by omega)
    · simp only [Header.mark, Header.add]
      omega
    · simp only [Header.mark, Header.add]
      omega
  · rw [readByte, readByte, marked.same address fun object isFresh inside =>
      first ⟨object, isFresh, inside⟩]

end Memory

namespace Heap

variable {heap : Heap} {machine after : Machine} {objects : List Block} {roots : List Value}
  {passable : Nat → Prop} {object : Nat} {value root : Value} {block : Block}
  {arrange : Nat → List Value → List Value → List Value}

/-- The value refers to one of the objects, if it is a reference. -/
def LeadsInto (objects : List Block) (value : Value) : Prop :=
  ∀ address, value.address? = some address → StartsIn objects address

/-- Objects that lie apart, each of the shape of its tag. Their strong slots and the linked frames of
contexts refer to objects of the graph; a validating heap takes them for its own. Nothing is said of
marks. -/
structure Graph (heap : Heap) (machine : Machine) (objects : List Block) : Prop where
  scattered : Scattered objects
  shaped : ∀ block ∈ objects, ∃ shape, heap.shapes.get? (machine.memory.tag block.start) = some shape ∧
    shape.Describes machine.memory block.start block.size
  valid : heap.features.validating = true → ∀ block ∈ objects,
    heap.contains block.start = true ∧ (machine.memory.header block.start).isValid = true
  strong : ∀ block ∈ objects, ∀ shape,
    heap.shapes.get? (machine.memory.tag block.start) = some shape → ∀ offset,
      shape.StrongSlot machine.memory block.start offset →
        LeadsInto objects (machine.memory.value (block.start + offset))
  saved : ∀ block ∈ objects, machine.memory.tag block.start = Tag.context → ∀ frame,
    machine.Linked ((Context.mk block.start).saves machine.memory) frame →
      ∀ value ∈ frame.values, LeadsInto objects value

/-- What can be reached from some roots by ways all of whose objects are of a kind, through strong slots
and through the values in the linked frames of contexts. -/
inductive ReachableThrough (heap : Heap) (machine : Machine) (passable : Nat → Prop)
    (roots : List Value) : Nat → Prop
  | root {value : Value} {object : Nat} (listed : value ∈ roots)
      (refers : value.address? = some object) (passes : passable object) :
      ReachableThrough heap machine passable roots object
  | slot {owner object offset : Nat} {shape : Shape}
      (reached : ReachableThrough heap machine passable roots owner)
      (known : heap.shapes.get? (machine.memory.tag owner) = some shape)
      (strong : shape.StrongSlot machine.memory owner offset)
      (refers : (machine.memory.value (owner + offset)).address? = some object)
      (passes : passable object) : ReachableThrough heap machine passable roots object
  | saved {owner object : Nat} {frame : Frame} {value : Value}
      (reached : ReachableThrough heap machine passable roots owner)
      (isContext : machine.memory.tag owner = Tag.context)
      (linked : machine.Linked ((Context.mk owner).saves machine.memory) frame)
      (held : value ∈ frame.values) (refers : value.address? = some object)
      (passes : passable object) : ReachableThrough heap machine passable roots object

theorem ReachableThrough.reachable (reached : heap.ReachableThrough machine passable roots object) :
    heap.Reachable machine roots object := by
  induction reached with
  | root listed refers _ => exact .root listed refers
  | slot _ known strong refers _ ih => exact .slot ih known strong refers
  | saved _ isContext linked held refers _ ih => exact .saved ih isContext linked held refers

/-- Where no object is barred, all ways are open. -/
theorem Reachable.through_all (reached : heap.Reachable machine roots object)
    (passes : ∀ object, heap.Reachable machine roots object → passable object) :
    heap.ReachableThrough machine passable roots object := by
  induction reached with
  | root listed refers => exact .root listed refers (passes _ (.root listed refers))
  | slot reached known strong refers ih =>
      exact .slot ih known strong refers (passes _ (.slot reached known strong refers))
  | saved reached isContext linked held refers ih =>
      exact .saved ih isContext linked held refers
        (passes _ (.saved reached isContext linked held refers))

theorem Reach.through (reached : heap.Reach machine passable roots object) :
    heap.ReachableThrough machine passable roots object := by
  induction reached with
  | root listed found passes => exact .root listed (address?_of_target? found) passes
  | kept _ held found passes ih =>
      have refers := address?_of_target? found
      rcases mem_keptValues.mp held with
        ⟨isContext, frame, linked, held⟩ | ⟨shape, known, offset, strong, rfl⟩
      · exact .saved ih isContext linked held refers passes
      · exact .slot ih known strong refers passes

namespace Graph

variable (graph : heap.Graph machine objects)

include graph

theorem fits (member : block ∈ objects) : heap.Fits machine.memory block := by
  intro shape known
  obtain ⟨found, same, describes⟩ := graph.shaped block member
  exact Option.some.inj (same.symm.trans known) ▸ describes

theorem target?_eq (leads : LeadsInto objects value) :
    heap.target? machine.memory value = value.address? := by
  cases found : value.address? with
  | none => simp [target?, found]
  | some address =>
      obtain ⟨block, member, rfl⟩ := leads address found
      obtain ⟨positive, aligned, _⟩ := graph.scattered.bounds block member
      have present : block.start ≠ 0 := by omega
      have unit : block.start % blockUnit = 0 := aligned
      cases validating : heap.features.validating with
      | false => simp [target?, found, Option.filter_some, validating, present]
      | true =>
          obtain ⟨inside, valid⟩ := graph.valid validating block member
          simp [target?, found, Option.filter_some, validating, inside, valid, unit]

theorem leads (member : block ∈ objects) (held : value ∈ heap.keptValues machine block.start) :
    LeadsInto objects value := by
  rcases mem_keptValues.mp held with
    ⟨isContext, frame, linked, held⟩ | ⟨shape, known, offset, strong, rfl⟩
  · exact graph.saved block member isContext frame linked value held
  · exact graph.strong block member shape known offset strong

variable (rooted : ∀ value ∈ roots, LeadsInto objects value)

include rooted

theorem confined : heap.Confined machine objects roots where
  scattered := graph.scattered
  fits _ member := graph.fits member
  kept _ _ node value held object found := by
    obtain ⟨block, member, rfl⟩ := node
    exact graph.leads member held object (address?_of_target? found)
  roots value listed object found := rooted value listed object (address?_of_target? found)

theorem node (reached : heap.Reachable machine roots object) : StartsIn objects object := by
  induction reached with
  | root listed refers => exact rooted _ listed _ refers
  | slot _ known strong refers ih =>
      obtain ⟨block, member, rfl⟩ := ih
      exact graph.strong block member _ known _ strong _ refers
  | saved _ isContext linked held refers ih =>
      obtain ⟨block, member, rfl⟩ := ih
      exact graph.saved block member isContext _ linked _ held _ refers

/-- Marking goes along the references of the graph. -/
theorem reach_iff : heap.Reach machine passable roots object ↔
    heap.ReachableThrough machine passable roots object := by
  refine ⟨Reach.through, fun reached => ?_⟩
  induction reached with
  | root listed refers passes =>
      exact .root listed ((graph.target?_eq (rooted _ listed)).trans refers) passes
  | slot reached known strong refers passes ih =>
      obtain ⟨block, member, rfl⟩ := graph.node rooted reached.reachable
      have held := slot_keptValues known strong
      exact .kept ih held ((graph.target?_eq (graph.leads member held)).trans refers) passes
  | saved reached isContext linked held refers passes ih =>
      obtain ⟨block, member, rfl⟩ := graph.node rooted reached.reachable
      have held : _ ∈ heap.keptValues machine block.start := saved_keptValues isContext linked held
      exact .kept ih held ((graph.target?_eq (graph.leads member held)).trans refers) passes

end Graph

/-- All that happened is that objects of a graph were marked: no byte changed but those with their flags. -/
structure Coloured (machine final : Machine) (objects : List Block) (reached : Nat → Prop) : Prop where
  steady : machine.Steady final
  marked : machine.memory.MarkedOn final.memory reached
  isMarked_iff : ∀ block ∈ objects, (final.memory.header block.start).isMarked = true ↔
    (machine.memory.header block.start).isMarked = true ∨ reached block.start
  bytes : ∀ address, (∀ object, reached object → address ≠ object + 1) →
    final.memory.readByte address = machine.memory.readByte address

theorem Graph.coloured {reached : Nat → Prop} (graph : heap.Graph machine objects)
    (nodes : ∀ object, reached object → StartsIn objects object) (steady : machine.Steady after)
    (marked : machine.memory.MarkedOn after.memory reached) : Coloured machine after objects reached where
  steady := steady
  marked := marked
  isMarked_iff block member := (graph.scattered.isMarked_iff nodes marked member).trans or_comm
  bytes address elsewhere := by
    refine marked.bytes (fun object isReached => ?_) elsewhere
    obtain ⟨block, member, rfl⟩ := nodes object isReached
    have := (graph.scattered.bounds block member).2.1
    omega

/-- Marking from a root ends, and marks what can be reached from it along objects without a mark. Where no
object carries one, marking from some roots in turn marks what can be reached from any of them, in whatever
order roots and slots are taken. -/
theorem Graph.mark_spreads (graph : heap.Graph machine objects) :
    (∀ root, LeadsInto objects root → ∃ final, (heap.mark [root]).run machine = .ok () final ∧
      (∀ bound, Size.wordLimit ≤ bound → (heap.markWork [root] bound).run machine = .ok () final) ∧
      Coloured machine final objects (heap.ReachableThrough machine machine.Unmarked [root])) ∧
    ((∀ block ∈ objects, machine.Unmarked block.start) →
      ∀ roots : List Value, (∀ root ∈ roots, LeadsInto objects root) →
        ∀ arrange, Arranges arrange → ∃ final,
        (roots.forM fun root => heap.markInOrder arrange [root] Size.wordLimit).run machine =
          .ok () final ∧
        Coloured machine final objects fun object => ∃ root ∈ roots, heap.Reachable machine [root] object) ∧
    ∀ work bound, heap.markInOrder (fun _ => List.reverseAux) work bound = heap.markWork work bound := by
  refine ⟨fun root leads => ?_, fun unmarked roots rooted arrange arranges => ?_,
    heap.markInOrder_reverseAux⟩
  · have rooted : ∀ value ∈ [root], LeadsInto objects value := List.forall_mem_singleton.mpr leads
    obtain ⟨final, ran, steady, marked⟩ :=
      (graph.confined rooted).run_markInOrder arranges_reverseAux
    simp only [markInOrder_reverseAux] at ran
    have same : heap.Reach machine machine.Unmarked [root] =
        heap.ReachableThrough machine machine.Unmarked [root] :=
      funext fun object => propext (graph.reach_iff rooted)
    rw [same] at marked
    exact ⟨final, ran _ (Nat.le_refl _), ran, graph.coloured
      (fun object reached => graph.node rooted reached.reachable) steady marked⟩
  · obtain ⟨final, ran, steady, marked⟩ := (graph.confined rooted).run_forM arranges
    have same : heap.Reach machine machine.Unmarked roots =
        fun object => ∃ root ∈ roots, heap.Reachable machine [root] object := by
      refine funext fun object => propext ?_
      rw [graph.reach_iff rooted, ← reachable_iff_exists]
      refine ⟨ReachableThrough.reachable, fun reached => reached.through_all fun object reached => ?_⟩
      obtain ⟨block, member, rfl⟩ := graph.node rooted reached
      exact unmarked block member
    rw [same] at marked
    refine ⟨final, ran, graph.coloured (fun object found => ?_) steady marked⟩
    exact graph.node rooted (reachable_iff_exists.mpr found)

/-- Marked or not, the graph is the same. -/
theorem Graph.of_coloured {reached : Nat → Prop} (graph : heap.Graph machine objects)
    (nodes : ∀ object, reached object → StartsIn objects object)
    (coloured : Coloured machine after objects reached) : heap.Graph after objects := by
  have marked := coloured.marked
  have fits (block : Block) (member : block ∈ objects) : heap.Fits after.memory block :=
    (graph.fits member).of_marked graph.scattered nodes marked member
  have tag (block : Block) (member : block ∈ objects) :=
    graph.scattered.tag_marked nodes marked member
  have kept (block : Block) (member : block ∈ objects) (value : Value)
      (held : value ∈ heap.keptValues after block.start) : LeadsInto objects value := by
    rw [(graph.fits member).keptValues_marked graph.scattered nodes marked member coloured.steady] at held
    exact graph.leads member held
  refine ⟨graph.scattered, fun block member => ?_, fun validating block member => ?_,
    fun block member shape known offset strong => kept block member _ (slot_keptValues known strong),
    fun block member isContext frame linked value held =>
      kept block member value (saved_keptValues isContext linked held)⟩
  · obtain ⟨shape, known, _⟩ := graph.shaped block member
    rw [← tag block member] at known
    exact ⟨shape, known, fits block member shape known⟩
  · obtain ⟨inside, valid⟩ := graph.valid validating block member
    refine ⟨inside, ?_⟩
    by_cases isReached : reached block.start
    · rw [marked.marked _ isReached]
      exact valid
    · rwa [graph.scattered.header_unmarked nodes marked member isReached]

/-- The objects of a well-formed heap are such a graph. -/
theorem WellFormed.graph {tiling : Slab → List Block} (wellFormed : heap.WellFormed machine tiling) :
    heap.Graph machine ((heap.blocks tiling).filter fun block => block.kind = .object) := by
  have tiled := wellFormed.tiled
  have isObject {block : Block}
      (member : block ∈ (heap.blocks tiling).filter fun block => block.kind = .object) :
      block ∈ heap.blocks tiling ∧ block.kind = .object := by
    simpa using member
  have leads {value : Value} (refers : heap.RefersToObject tiling value) :
      LeadsInto ((heap.blocks tiling).filter fun block => block.kind = .object) value := by
    intro address found
    obtain ⟨block, member, kind, starts⟩ := refers address found
    exact ⟨block, List.mem_filter.mpr ⟨member, by simpa using kind⟩, starts⟩
  refine ⟨⟨fun block member => ?_, fun block member other otherMember => ?_⟩, fun block member => ?_,
    fun _ block member => ?_, fun block member shape known offset strong => leads ?_,
    fun block member isContext frame linked value held => leads ?_⟩
  · exact tiled.scattered.bounds block (isObject member).1
  · exact tiled.scattered.unique block (isObject member).1 other (isObject otherMember).1
  · obtain ⟨inHeap, kind⟩ := isObject member
    obtain ⟨shape, known⟩ := Option.isSome_iff_exists.mp (tiled.registered inHeap kind)
    exact ⟨shape, known, (tiled.describes inHeap (by simp [kind]) known).2⟩
  · exact ⟨tiled.contains (isObject member).1, wellFormed.valid block (isObject member).1 (isObject member).2⟩
  · exact wellFormed.slots block (isObject member).1 (isObject member).2 shape known offset (.inl strong)
  · exact wellFormed.frames block (isObject member).1 (isObject member).2 isContext frame linked value held

section Colours

/-- `sampleMachine` with a mark on the pair that refers to itself. -/
def colouredMachine : Machine :=
  sampleMachine.withMemory
    (sampleMachine.memory.setHeader 4160 (sampleMachine.memory.header 4160).mark)

theorem graph_coloured : sampleHeap.Graph colouredMachine
    (sampleBlocks.filter fun block => block.kind = .object) := by
  have graph := wellFormed_sample.graph
  rw [blocks_sample] at graph
  have nodes : ∀ object, object = 4160 →
      StartsIn (sampleBlocks.filter fun block => block.kind = .object) object := by
    rintro _ rfl
    exact ⟨⟨4160, 32, .object⟩, by decide, rfl⟩
  refine graph.of_coloured nodes (graph.coloured nodes (sampleMachine.steady_withMemory _)
    ⟨?_, fun address outside => ?_⟩)
  · rintro _ rfl
    exact Memory.header_setHeader _ _ _
  · exact Memory.read_setHeader (by decide) (outside 4160 rfl)

theorem reachable_coloured {object : Nat} (reached : sampleHeap.ReachableThrough colouredMachine
    colouredMachine.Unmarked [.reference 4112] object) : object = 4112 := by
  have context : colouredMachine.memory.tag 4112 = Tag.context := by decide +kernel
  have parent : colouredMachine.memory.value 4136 = .no := by decide +kernel
  have environment : colouredMachine.memory.value 4144 = .reference 4160 := by decide +kernel
  have marked : (colouredMachine.memory.header 4160).isMarked = true := by decide +kernel
  induction reached with
  | root listed refers _ =>
      obtain rfl := List.mem_singleton.mp listed
      cases refers
      rfl
  | @slot owner object offset shape _ known strong refers passes ih =>
      subst ih
      rw [context] at known
      obtain rfl : Shape.context = shape := Option.some.inj known
      rcases Shape.slot_context.mp (.inl strong) with rfl | rfl
      · cases (congrArg Value.address? parent).symm.trans refers
      · cases (congrArg Value.address? environment).symm.trans refers
        cases marked.symm.trans passes
  | saved _ _ linked =>
      cases linked with
      | here found => simp [colouredMachine, Machine.withMemory, Machine.frameAt?,
          Machine.frameIndex?, sampleMachine] at found
      | outer found _ => simp [colouredMachine, Machine.withMemory, Machine.frameAt?,
          Machine.frameIndex?, sampleMachine] at found

/-- The mark on the pair bars the way to it; the garbage stays as it is. -/
theorem mark_spreads_coloured : ∃ final,
    (sampleHeap.mark [.reference 4112]).run colouredMachine = .ok () final ∧
    (final.memory.header 4112).isMarked = true ∧ (final.memory.header 4192).isMarked = false ∧
    final.memory.readByte 4161 = colouredMachine.memory.readByte 4161 := by
  have root : LeadsInto (sampleBlocks.filter fun block => block.kind = .object) (.reference 4112) := by
    intro address found
    cases found
    exact ⟨⟨4112, 48, .object⟩, by decide, rfl⟩
  obtain ⟨final, ran, _, coloured⟩ := graph_coloured.mark_spreads.1 (.reference 4112) root
  have unmarked : (colouredMachine.memory.header 4112).isMarked = false := by decide +kernel
  refine ⟨final, ran, ?_, ?_, coloured.bytes 4161 fun object reached => ?_⟩
  · refine (coloured.isMarked_iff ⟨4112, 48, .object⟩ (by decide)).mpr (.inr ?_)
    exact .root (List.mem_singleton_self _) rfl unmarked
  · rw [← Bool.not_eq_true, coloured.isMarked_iff ⟨4192, 32, .object⟩ (by decide), not_or]
    exact ⟨by decide +kernel, fun reached => by cases reachable_coloured reached⟩
  · obtain rfl := reachable_coloured reached
    decide

end Colours

end Heap

end SlabHeap
