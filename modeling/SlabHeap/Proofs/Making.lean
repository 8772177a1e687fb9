import SlabHeap.Heap.Objects
import SlabHeap.Proofs.Allocation

namespace SlabHeap

/-! The making of objects.

All of it is one allocation: the values that the object will hold count as roots meanwhile, the block
given is filled, and the heap forgets these values. `Heap.Allotted` says so, whatever the object is.
-/

open Block

namespace Heap

variable {heap prepared : Heap} {machine mid final : Machine} {memory after : Memory}
  {tiling taken divided : Slab → List Block} {context : Context} {parent : Option Context}
  {held : List Value} {value : Value} {tag : UInt8} {size start request : Nat}
  {fill : Nat → Memory → Memory}

/-- The heap while more values count as roots. -/
def holding (heap : Heap) (held : List Value) : Heap := { heap with scratch := heap.scratch ++ held }

theorem holding_nil (heap : Heap) : heap.holding [] = heap := by
  simp only [holding, List.append_nil]

theorem Consistent.holding (consistent : heap.Consistent tiling machine)
    (denotes : ∀ value ∈ held, heap.Denotes tiling value) :
    (heap.holding held).Consistent tiling machine := by
  refine consistent.reroot rfl rfl rfl consistent.globals fun value listed => ?_
  rcases List.mem_append.mp listed with before | added
  · exact consistent.scratch value before
  · exact denotes value added

def Allotted (heap : Heap) (parent : Option Context) (held : List Value)
    (tiling : Slab → List Block) (machine : Machine) (size : Nat) (fill : Nat → Memory → Memory)
    (after : Heap) (answer : Except HeapError Nat) (final : Machine) : Prop :=
  ∃ prepared divided mid answering,
    (heap.holding held).Prepared parent tiling machine prepared divided mid ∧
      prepared.Answered divided mid size fill (answering, answer) final ∧
        after = { answering with scratch := heap.scratch }

theorem Prepared.scratch_eq (prepares : heap.Prepared parent tiling machine prepared divided mid) :
    prepared.scratch = heap.scratch := by
  cases prepares <;> rfl

/-- What is allotted lies in a slab, at a whole unit. -/
theorem Given.bounds (given : heap.Given tiling taken memory after size start request)
    (upper : ∀ slab ∈ heap.slabs, slab.stop ≤ Memory.pageLimit * Memory.pageBytes) :
    start % 16 = 0 ∧ blockUnit < start ∧ max size blockUnit ≤ request ∧ request % 16 = 0 ∧
      start + request ≤ Memory.pageLimit * Memory.pageBytes := by
  obtain ⟨slab, inHeap, lower, inside, aligned⟩ := given.obtained.inside
  obtain ⟨atLeast, _, whole, _⟩ := Size.alignUp?_eq_some
    (show Size.alignUp? (max size blockUnit) (1 <<< 4) = some request from given.rounded)
  have positive := (given.obtained.tiled.layout slab inHeap).placed.startPositive
  simp only [Slab.objects, Block.stop] at lower inside
  exact ⟨aligned, by omega, atLeast, whole, Nat.le_trans inside (upper slab inHeap)⟩

theorem Collectable.allocateTagged_meets (collectable : heap.Collectable parent tiling machine)
    (registered : heap.shapes.isRegistered tag = true) :
    (heap.allocateTagged parent tag size).Meets machine
      (fun answer final => ∃ prepared divided mid,
        heap.Prepared parent tiling machine prepared divided mid ∧
          prepared.Answered divided mid size
            (fun start memory => memory.setHeader start (.fresh tag)) answer final)
      fun _ => heap.Overflows parent tiling machine := by
  unfold allocateTagged
  rw [if_pos registered]
  refine collectable.allocateBlock_meets.bind ?_
  rintro ⟨_, _⟩ final ⟨prepared, divided, mid, prepares, answered⟩
  refine Action.Ensures.meets ?_
  rcases answered with ⟨start, request, taken, after, same, given, steady, memory⟩ |
    ⟨refusal, same, quiet⟩
  · cases same
    simp only
    rw [Action.ensures_onMemory]
    refine Action.ensures_pure.mpr ⟨_, divided, mid, prepares,
      .inl ⟨start, request, taken, after, rfl, given, ?_, ?_⟩⟩
    · exact steady.trans (final.steady_withMemory _)
    · rw [Machine.memory_withMemory, memory]
  · cases same
    exact Action.ensures_pure.mpr ⟨prepared, divided, mid, prepares, .inr ⟨refusal, rfl, quiet⟩⟩

/-- An object is made by a header and by what `write` puts behind it. -/
theorem Collectable.allocateHolding_meets
    (collectable : (heap.holding held).Collectable (some context) tiling machine)
    (registered : heap.shapes.isRegistered tag = true) {write : Nat → Action Unit}
    (writes : ∀ start mid, start + size ≤ Memory.pageLimit * Memory.pageBytes →
      (write start).Ensures mid fun _ final =>
        mid.Steady final ∧ final.memory = fill start mid.memory) :
    (heap.allocateHolding context tag size held write).Meets machine
      (fun answer final => ∃ given, answer.2 = given.map Value.reference ∧
        heap.Allotted context held tiling machine size
          (fun start memory => fill start (memory.setHeader start (.fresh tag)))
          answer.1 given final)
      fun _ => (heap.holding held).Overflows (some context) tiling machine := by
  unfold allocateHolding withScratch allocateObject
  rw [bind_assoc]
  refine (collectable.allocateTagged_meets registered).bind ?_
  rintro ⟨answering, answer⟩ final ⟨prepared, divided, mid, prepares, answered⟩
  refine Action.Ensures.meets ?_
  simp only [pure_bind]
  have kept : prepared.scratch.take heap.scratch.length = heap.scratch := by
    rw [prepares.scratch_eq]
    exact List.take_left
  rcases answered with ⟨start, request, taken, after, same, given, steady, memory⟩ |
    ⟨refusal, same, quiet⟩
  · cases same
    obtain ⟨aligned, _, atLeast, _, inside⟩ := given.bounds (prepares.upper collectable)
    refine (writes start final (by omega)).bind fun _ last done => ?_
    obtain ⟨steadily, written⟩ := done
    have whole : start % 8 = 0 := by omega
    rw [Action.ensures_check (show Value.ofAddress start = .ok (.reference start) from if_pos whole)]
    refine Action.ensures_pure.mpr ⟨.ok start, rfl, _, divided, mid, _, prepares,
      .inl ⟨start, request, taken, after, rfl, given, steady.trans steadily, ?_⟩, by rw [kept]⟩
    rw [written, memory]
  · cases same
    refine Action.ensures_pure.mpr ⟨.error refusal, rfl, prepared, divided, mid, _, prepares,
      .inr ⟨refusal, rfl, quiet⟩, ?_⟩
    simp only [refused, kept]

theorem Collectable.allocateSequence_meets
    (collectable : (heap.holding held).Collectable (some context) tiling machine)
    (registered : heap.shapes.isRegistered tag = true) {write : Nat → Action Unit}
    (writes : ∀ start mid, start + size ≤ Memory.pageLimit * Memory.pageBytes →
      (write start).Ensures mid fun _ final =>
        mid.Steady final ∧ final.memory = fill start mid.memory) :
    (heap.allocateSequence context tag size held write).Meets machine
      (fun answer final => ∃ given, answer.2 = given.map Value.reference ∧
        heap.Allotted context held tiling machine size
          (fun start memory => fill start (memory.setHeader start (.fresh tag)))
          answer.1 given final)
      fun _ => (heap.holding held).Overflows (some context) tiling machine := by
  unfold allocateSequence
  split
  · refine Action.meets_count heap.countRefusal_eq (fun _ => .inl ?_) fun spent => .inl (.inr (Nat.not_lt.mp spent))
    exact Action.ensures_pure.mpr ⟨.error _, rfl, heap.holding held, tiling,
      machine, _, .ready (.refl machine), .inr ⟨_, rfl, .refl machine⟩, by simp [refused, holding]⟩
  · exact collectable.allocateHolding_meets registered writes

/-- Storage without a header is a block as it was given. -/
theorem Collectable.allocate_meets (collectable : heap.Collectable (some context) tiling machine) :
    (heap.allocate context size).Meets machine
      (fun answer final => ∃ given, answer.2 = given.map Value.reference ∧
        heap.Allotted context [] tiling machine size (fun _ memory => memory) answer.1 given final)
      fun _ => heap.Overflows (some context) tiling machine := by
  simp only [Allotted, holding_nil]
  unfold allocate
  refine collectable.allocateBlock_meets.bind ?_
  rintro ⟨answering, answer⟩ final ⟨prepared, divided, mid, prepares, answered⟩
  refine Action.Ensures.meets ?_
  have whole := prepares.scratch_eq
  rcases answered with ⟨start, request, taken, after, same, given, steady, memory⟩ |
    ⟨refusal, same, quiet⟩
  · cases same
    have aligned : start % 8 = 0 := by
      have := (given.bounds (prepares.upper collectable)).1
      omega
    simp only
    rw [Action.ensures_check (show Value.ofAddress start = .ok (.reference start) from if_pos aligned)]
    refine Action.ensures_pure.mpr ⟨.ok start, rfl, _, divided, mid, _, prepares,
      .inl ⟨start, request, taken, after, rfl, given, steady, memory⟩, ?_⟩
    rw [← whole]
  · cases same
    refine Action.ensures_pure.mpr ⟨.error refusal, rfl, prepared, divided, mid, _, prepares,
      .inr ⟨refusal, rfl, quiet⟩, ?_⟩
    simp only [refused, ← whole]

/-- The words of a new context. -/
def contextFill (identity : Nat) (parent : Option Context) (start : Nat) (memory : Memory) :
    Memory :=
  (((memory.write (start + Layout.Context.heap) (.ofNat identity)).write
    (start + Layout.Context.saves) 0).write
    (start + Layout.Context.parent) ((parent.map Context.toValue).getD .no).bits).write
    (start + Layout.Context.environment) Value.nil.bits

theorem Prepared.identity_eq (prepares : heap.Prepared parent tiling machine prepared divided mid) :
    prepared.identity = heap.identity := by
  cases prepares <;> rfl

theorem Collectable.makeContext_meets (collectable : heap.Collectable parent tiling machine) :
    (heap.makeContext parent).Meets machine
      (fun answer final => ∃ given, answer.2 = given.map Context.mk ∧
        heap.Allotted parent [] tiling machine Layout.Context.size
          (fun start memory => contextFill heap.identity parent start
            (memory.setHeader start (.fresh Tag.context)))
          answer.1 given final)
      fun _ => heap.Overflows parent tiling machine := by
  simp only [Allotted, holding_nil]
  unfold makeContext
  have known : heap.shapes.isRegistered Tag.context = true := rfl
  refine (collectable.allocateTagged_meets known).bind ?_
  rintro ⟨answering, answer⟩ final ⟨prepared, divided, mid, prepares, answered⟩
  refine Action.Ensures.meets ?_
  have whole := prepares.scratch_eq
  have named := prepares.identity_eq
  rcases answered with ⟨start, request, taken, after, same, given, steady, memory⟩ |
    ⟨refusal, same, quiet⟩
  · cases same
    simp only [Action.ensures_store, Action.ensures_storeValue, Action.ensures_pure]
    refine ⟨.ok start, rfl, _, divided, mid, _, prepares,
      .inl ⟨start, request, taken, after, rfl, given, ⟨steady.frames, steady.identities,
        steady.pages⟩, ?_⟩, ?_⟩
    · simp only [Machine.memory_withMemory, memory, named, contextFill]
    · rw [← whole]
  · cases same
    refine Action.ensures_pure.mpr ⟨.error refusal, rfl, prepared, divided, mid, _, prepares,
      .inr ⟨refusal, rfl, quiet⟩, ?_⟩
    simp only [refused, ← whole]

end Heap

end SlabHeap
