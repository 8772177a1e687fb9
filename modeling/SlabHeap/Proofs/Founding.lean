import SlabHeap.Proofs.Canonical
import SlabHeap.Proofs.Copies

namespace SlabHeap

/-! Heaps that are founded.

New heaps, and forks, take storage that was not reserved before. `Machine.Extended` says that
nothing else changed, so that other heaps stay as they are. A new heap has no block in use, and a
heap that was forked, or copied into, has the copies of those of its source.
-/

/-- Storage was reserved, and everything that was there stays. -/
structure Machine.Extended (machine final : Machine) : Prop where
  pages : machine.pages.taken ⊆ final.pages.taken
  outside : ∀ address, machine.Reserved address →
    final.memory.read address = machine.memory.read address
  frames : final.frames = machine.frames

namespace Heap

variable {heap other copy : Heap} {machine final made : Machine} {tiling : Slab → List Block}
  {entries : List Block} {context moved : Context} {keepOwnership : Bool} {slab : Slab}

def founded (identity : Nat) (settings : Settings) (shapes : ShapeTable) (features : Features)
    (slab : Slab) : Heap :=
  { identity, settings, shapes, features, slabs := [slab]
    slabs_nonempty := Slab.single_nonempty slab }

/-- A heap is founded in a place of its own, or nothing happens. -/
theorem ensures_new {settings : Settings} {shapes : ShapeTable} {features : Features} :
    (new settings shapes features).Ensures machine fun answer final =>
      (∃ refusal, answer = .error refusal ∧ final = machine) ∨
      ∃ slab made, answer = .ok (founded (Machine.heapIdentity machine.identities) settings shapes
          features slab) ∧ slab.Created shapes machine made ∧
        final = { made with identities := machine.identities + 1 } := by
  unfold new
  split
  · exact Action.ensures_pure.mpr (.inl ⟨_, rfl, rfl⟩)
  · split
    · exact Action.ensures_pure.mpr (.inl ⟨_, rfl, rfl⟩)
    · refine (Slab.ensures_create shapes).bind ?_
      rintro _ made (⟨rfl, rfl, _⟩ | ⟨slab, rfl, _, _, _, created⟩)
      · exact Action.ensures_pure.mpr (.inl ⟨_, rfl, rfl⟩)
      · refine ⟨_, _, rfl, .inr ⟨slab, made, ?_, created, ?_⟩⟩
        · rw [← created.identities]
          rfl
        · rw [← created.identities]

namespace Consistent

theorem extended (consistent : heap.Consistent tiling machine) (reserved : machine.Extended final) :
    heap.Consistent tiling final :=
  consistent.keep
    (fun slab inHeap address above below =>
      reserved.outside address ((consistent.hosted slab inHeap).reserved above below))
    (fun number _ found _ => (Machine.frame?_congr reserved.frames number).trans found) reserved.pages

theorem untouched (consistent : heap.Consistent tiling machine) (reserved : machine.Extended final) :
    heap.Untouched machine final := fun slab inHeap address above below =>
  reserved.outside address ((consistent.hosted slab inHeap).reserved above below)

theorem apart_created (consistent : heap.Consistent tiling machine) {shapes : ShapeTable}
    (created : slab.Created shapes machine made) (only : other.slabs = [slab]) : heap.Apart other := by
  intro own inHeap stranger inOther
  obtain rfl : stranger = slab := by simpa [only] using inOther
  exact (created.vacant.apart (consistent.hosted own inHeap)).symm

end Consistent

/-- A heap came about in storage of its own, with the blocks of the ledger in use. -/
structure Arises (heap : Heap) (machine final : Machine) (entries : List Block) : Prop where
  accounted : ∃ tiling, heap.Accounted tiling final entries
  reserved : machine.Extended final
  apart : ∀ other tiling, Consistent other tiling machine → other.Apart heap

theorem arises_founded {shapes : ShapeTable} (created : slab.Created shapes machine made)
    (confined : ∀ tag shape, shapes.get? tag = some shape → shape.Confined) (settings : Settings)
    (features : Features) (identity number : Nat) :
    (founded identity settings shapes features slab).Arises machine
      { made with identities := number } [] where
  accounted := by
    have free {block : Block} (member : block ∈ (founded identity settings shapes features slab).blocks
        fun _ => [⟨slab.objects, slab.size - blockUnit, .free⟩]) : block.kind = .free := by
      simp only [blocks, founded, List.flatMap_cons, List.flatMap_nil, List.append_nil,
        List.mem_singleton] at member
      rw [member]
    refine ⟨fun _ => [⟨slab.objects, slab.size - blockUnit, .free⟩],
      ⟨⟨?_, by simp [founded]⟩, ?_, ?_, ?_, confined, fun block member isObject => ?_,
      fun block member isObject => ?_, by simp [founded], by simp [founded]⟩, ⟨by simp, by simp,
      by simp, by simp [blocks, founded, Block.used]⟩⟩
    · simpa [founded] using created.layout
    · simp [founded, Block.Coalesced]
    · intro other inHeap
      obtain rfl : other = slab := by simpa [founded] using inHeap
      exact created.hosted
    · simpa [founded] using created.upper
    · simp [free member] at isObject
    · simp [free member] at isObject
  reserved := ⟨created.pages, created.outside, created.frames⟩
  apart _ _ consistent := consistent.apart_created created rfl

/-- A heap is founded with nothing in use. -/
theorem new_arises {settings : Settings} {shapes : ShapeTable} {features : Features}
    (confined : ∀ tag shape, shapes.get? tag = some shape → shape.Confined) :
    (new settings shapes features).Ensures machine fun answer final =>
      (∃ refusal, answer = .error refusal ∧ final = machine) ∨
      ∃ heap, answer = .ok heap ∧ heap.features = features ∧ heap.Arises machine final [] := by
  refine ensures_new.weaken ?_
  rintro _ final (refused | ⟨slab, made, rfl, created, rfl⟩)
  · exact .inl refused
  · exact .inr ⟨_, rfl, rfl, arises_founded created confined settings features _ _⟩

theorem lastSlab_of_single (single : heap.slabs = [slab]) : heap.lastSlab = slab := by
  simp [lastSlab, single]

/-- What a source is accepted for. -/
theorem of_checkSource {memory : Memory} (accepted : heap.checkSource context memory = .ok slab) :
    heap.slabs = [slab] ∧ context.isIn heap memory = true := by
  unfold checkSource at accepted
  simp only [bind, Except.bind, pure, Except.pure, throw, throwThe, MonadExceptOf.throw] at accepted
  cases only : heap.singleSlab? with
  | error refusal => simp [only] at accepted
  | ok found =>
      simp only [only] at accepted
      split at accepted
      · next belongs =>
        obtain rfl := Except.ok.inj accepted
        exact ⟨singleSlab?_eq_ok only, (Bool.and_eq_true _ _ ▸ belongs).2⟩
      · contradiction

/-- Objects stay sound where only new storage is taken. -/
theorem Upheld.extended {denotes : Value → Prop} (upheld : heap.Upheld denotes tiling machine)
    (reserved : machine.Extended final) : heap.Upholds denotes tiling machine final :=
  upheld.keep (fun slab inHeap address above below =>
      reserved.outside address ((upheld.hosted slab inHeap).reserved above below))
    (fun number _ found _ => (Machine.frame?_congr reserved.frames number).trans found) reserved.pages

/-- A heap was forked: there is a copy of its slab in a place of its own. -/
structure Forks (heap : Heap) (tiling : Slab → List Block) (keepOwnership : Bool) (machine made final : Machine)
    (source target : Slab) : Prop where
  single : heap.slabs = [source]
  created : target.Created heap.shapes machine made
  beside : source.Beside target
  duplicated : heap.Duplicated source target (tiling source) keepOwnership
    (Machine.heapIdentity machine.identities) { made with identities := machine.identities + 1 } final

namespace Forks

variable {made : Machine} {source target : Slab}
  (forks : heap.Forks tiling keepOwnership machine made final source target)

include forks

/-- The copying starts when there is storage for it. -/
theorem reserved : machine.Extended { made with identities := machine.identities + 1 } :=
  ⟨forks.created.pages, forks.created.outside, forks.created.frames⟩

theorem hosted : final.Hosts target := forks.created.hosted.congr forks.duplicated.steady.pages

theorem extended : machine.Extended final where
  pages := List.Subset.trans forks.created.pages forks.duplicated.steady.taken_subset
  outside address reserved := by
    rw [forks.duplicated.outside address (forks.created.vacant.outside reserved)]
    exact forks.created.outside address reserved
  frames := forks.duplicated.steady.frames.trans forks.created.frames

end Forks

/-- A fork of a heap from one of its contexts is made, or nothing happens. -/
theorem Upheld.ensures_fork {denotes : Value → Prop} (upheld : heap.Upheld denotes tiling machine)
    (isContext : heap.IsContext tiling machine.memory context) :
    (heap.fork context keepOwnership).Ensures machine fun answer final =>
      (∃ refusal, answer = .error refusal ∧ final = machine) ∨
      ∃ source target made, heap.Forks tiling keepOwnership machine made final source target ∧
        answer = .ok (heap.forkOf (Machine.heapIdentity machine.identities) target,
          ⟨source.counterpart target context.address⟩) := by
  cases checked : heap.checkSource context machine.memory with
  | error refusal =>
      unfold fork
      rw [Action.ensures_memory]
      simp only [checked]
      exact Action.ensures_pure.mpr (.inl ⟨_, rfl, rfl⟩)
  | ok source =>
      obtain ⟨single, isIn⟩ := of_checkSource checked
      obtain ⟨⟨block, member, isObject, starts⟩, tagged⟩ := isContext
      have inHeap : source ∈ heap.slabs := by simp [single]
      have inSlab : block ∈ tiling source := by simpa [blocks, single] using member
      have hosted := upheld.hosted source inHeap
      have layout := upheld.tiled.layout source inHeap
      refine (Heap.ensures_fork single layout hosted inSlab isObject starts tagged isIn
        keepOwnership).weaken ?_
      rintro _ final (⟨rfl, rfl, _⟩ | ⟨target, made, rfl, sized, created, duplicated⟩)
      · exact .inl ⟨_, rfl, rfl⟩
      · have beside : source.Beside target := ⟨layout.placed, created.layout.placed, Nat.le_of_eq sized.symm,
          (created.vacant.apart hosted).symm⟩
        exact .inr ⟨source, target, made, ⟨single, created, beside, duplicated⟩, rfl⟩

namespace Accounted

variable (accounted : heap.Accounted tiling machine entries) (listed : Block.Listed entries context.address)
  (tagged : machine.memory.tag context.address = Tag.context)

include accounted listed tagged

/-- A fork gives out the copies of what its source gave out, and knows the same types. -/
theorem fork_arises : (heap.fork context keepOwnership).Ensures machine fun answer final =>
    (∃ refusal, answer = .error refusal ∧ final = machine) ∨
    ∃ copy moved, answer = .ok (copy, moved) ∧ copy.features = heap.features ∧
      copy.shapes = heap.shapes ∧
      copy.Arises machine final (entries.map (heap.lastSlab.moveBlock copy.lastSlab)) ∧
      Headed heap.lastSlab copy.lastSlab keepOwnership machine.memory final.memory entries := by
  have consistent := accounted.consistent
  refine (consistent.upheld.ensures_fork (accounted.isContext listed tagged)).weaken ?_
  rintro _ final (refused | ⟨source, target, made, forks, rfl⟩)
  · exact .inl refused
  have single := forks.single
  have beside := forks.beside
  have copySingle : (heap.forkOf (Machine.heapIdentity machine.identities) target).slabs = [target] := rfl
  refine .inr ⟨_, _, rfl, rfl, rfl, ⟨⟨copiedTiling source target tiling, ?_, ?_⟩, forks.extended,
    fun other taken still => still.apart_created forks.created rfl⟩, ?_⟩
  · exact forks.duplicated.consistent_copy single copySingle beside (fun _ _ _ => rfl) rfl
      (consistent.extended forks.reserved) consistent.confined rfl rfl forks.hosted
      forks.created.upper
  · rw [lastSlab_of_single single, lastSlab_of_single copySingle]
    exact Duplicated.records single copySingle accounted.records beside
  · rw [lastSlab_of_single single, lastSlab_of_single copySingle]
    intro entry isListed isObject
    have unchanged : made.memory.header entry.start = machine.memory.header entry.start := by
      have member := (accounted.records.mem_iff_of_object isObject).mp isListed
      obtain ⟨slab, inHeap, covers⟩ := List.any_eq_true.mp (consistent.tiled.contains member)
      exact congrArg Header.ofWord
        (forks.created.outside entry.start ((consistent.hosted slab inHeap).reserved_of_contains covers))
    rw [← unchanged]
    exact forks.duplicated.headed single accounted.records entry isListed isObject

/-- A heap that is copied into gives out the copies of what the source gave out, and nothing else
changes. Both heaps know the same types under the tags of the source. -/
theorem copyInto_takes {target : Heap} {owned : List Block} {inTarget : Value}
    {divided : Slab → List Block} (into : target.Accounted divided machine owned)
    (apart : heap.Apart target) (agree : ∀ entry ∈ entries, entry.kind = .object →
      target.shapes.get? (machine.memory.tag entry.start) = heap.shapes.get? (machine.memory.tag entry.start))
    (features : target.features = heap.features) :
    (heap.copyInto context target inTarget keepOwnership).Ensures machine fun answer final =>
    (∃ refusal, answer = (target, .error refusal) ∧ final = machine) ∨
    ∃ copy moved, answer = (copy, .ok moved) ∧ copy.features = target.features ∧
      (∃ taken, copy.Accounted taken final (entries.map (heap.lastSlab.moveBlock copy.lastSlab))) ∧
      target.Within copy machine final ∧ final.frames = machine.frames ∧
      Headed heap.lastSlab copy.lastSlab keepOwnership machine.memory final.memory entries := by
  cases checked : heap.checkDestination context target inTarget machine.memory with
  | error refusal =>
      unfold copyInto
      rw [Action.ensures_memory]
      simp only [checked]
      exact Action.ensures_pure.mpr (.inl ⟨_, rfl, rfl⟩)
  | ok places =>
      obtain ⟨source, place⟩ := places
      obtain ⟨single, targetSingle, fits⟩ := of_checkDestination checked
      obtain ⟨⟨block, member, isObject, starts⟩, _⟩ := accounted.isContext listed tagged
      have consistent := accounted.consistent
      have inHeap : source ∈ heap.slabs := by simp [single]
      have inTarget : place ∈ target.slabs := by simp [targetSingle]
      have inSlab : block ∈ tiling source := by simpa [blocks, single] using member
      have layout := consistent.tiled.layout source inHeap
      have beside : source.Beside place := ⟨layout.placed,
        (into.consistent.tiled.layout place inTarget).placed, fits, apart source inHeap place inTarget⟩
      refine (ensures_copyInto checked beside layout inSlab isObject starts tagged
        keepOwnership).weaken ?_
      rintro _ final ⟨rfl, duplicated⟩
      have copySingle : ({ target with globals := none, scratch := [] } : Heap).slabs = [place] :=
        targetSingle
      refine .inr ⟨_, _, rfl, rfl, ⟨copiedTiling source place tiling, ?_, ?_⟩, ?_,
        duplicated.steady.frames, ?_⟩
      -- What the target held is gone: the copy is the image of the source and nothing more.
      · refine duplicated.consistent_copy single copySingle beside (fun block member isObject =>
          agree block ((accounted.records.mem_iff_of_object isObject).mpr member) isObject) features
          consistent into.consistent.confined rfl rfl ?_ (into.consistent.upper place inTarget)
        exact (into.consistent.hosted place inTarget).congr duplicated.steady.pages
      · rw [lastSlab_of_single single, lastSlab_of_single copySingle]
        exact Duplicated.records single copySingle accounted.records beside
      · exact .of_inside (fun address clear => duplicated.outside address (clear place inTarget))
          duplicated.steady rfl
      · rw [lastSlab_of_single single, lastSlab_of_single copySingle]
        exact duplicated.headed single accounted.records

end Accounted

end Heap

end SlabHeap
