import SlabHeap.Heap.Snapshot
import SlabHeap.Proofs.Allocation
import SlabHeap.Proofs.Grounded

namespace SlabHeap

/-! Collections with a snapshot.

Marking may go on from further roots: what is marked in the end is what can be reached from all of them,
`Heap.Marked.ensures_mark`. Hence with a snapshot it is what can be reached from the roots and from the
objects that the snapshot names, `Heap.Ready.ensures_markAll`.
-/

open Block

namespace Heap

variable {heap : Heap} {machine mid final : Machine} {tiling : Slab → List Block} {block : Block}
  {object : Nat} {value : Value} {roots more work : List Value} {context : Context}
  {snapshot : Snapshot}

theorem Reach.mono {passable : Nat → Prop} (reached : heap.Reach machine passable roots object)
    (fewer : ∀ value ∈ roots, value ∈ more) : heap.Reach machine passable more object := by
  induction reached with
  | root listed found passes => exact .root (fewer _ listed) found passes
  | kept _ held found passes ih => exact .kept ih held found passes

theorem Reach.passes {passable : Nat → Prop} (reached : heap.Reach machine passable roots object) :
    passable object := by
  cases reached with
  | root _ _ passes => exact passes
  | kept _ _ _ passes => exact passes

/-- The references of a snapshot to objects that it may keep alive. -/
def named (heap : Heap) (memory : Memory) (snapshot : Snapshot) (blocks : List Block) : List Value :=
  (blocks.filter fun block => block.kind = .object && snapshot.names block.start &&
    heap.preserves (memory.tag block.start)).map fun block => .reference block.start

namespace Marked

variable (marked : heap.Marked tiling machine mid (heap.Reach machine machine.Unmarked roots))

include marked

theorem target?_eq : heap.target? mid.memory value = heap.target? machine.memory value :=
  marked.tiled.target?_marked marked.nodes marked.marked value

theorem keptValues_eq (node : heap.Node tiling object) :
    heap.keptValues mid object = heap.keptValues machine object := by
  obtain ⟨block, member, inUse, rfl⟩ := node
  exact marked.tiled.keptValues_marked marked.nodes marked.marked marked.steady member inUse

theorem unmarked_iff (node : heap.Node tiling object) : mid.Unmarked object ↔
    machine.Unmarked object ∧ ¬ heap.Reach machine machine.Unmarked roots object := by
  obtain ⟨block, member, _, rfl⟩ := node
  have iff := marked.tiled.isMarked_iff marked.nodes marked.marked member
  rw [Machine.Unmarked, ← Bool.not_eq_true, iff, not_or, Bool.not_eq_true, and_comm]
  rfl

variable (closed : heap.Closed machine tiling (roots ++ work))

include closed

/-- What marking reaches from further roots could be reached from the start. -/
theorem reach_further (reached : heap.Reach mid mid.Unmarked work object) :
    heap.Reach machine machine.Unmarked (roots ++ work) object := by
  induction reached with
  | root listed found passes =>
      rw [marked.target?_eq] at found
      have node := closed.roots _ (List.mem_append_right _ listed) _ found
      exact .root (List.mem_append_right _ listed) found ((marked.unmarked_iff node).mp passes).1
  | kept _ held found passes ih =>
      rw [marked.target?_eq] at found
      rw [marked.keptValues_eq (closed.node ih)] at held
      have node := closed.kept _ ih (closed.node ih) _ held _ found
      exact .kept ih held found ((marked.unmarked_iff node).mp passes).1

/-- What can be reached from all roots was marked before, or is reached from the further ones. -/
theorem reach_iff : heap.Reach machine machine.Unmarked (roots ++ work) object ↔
    heap.Reach machine machine.Unmarked roots object ∨ heap.Reach mid mid.Unmarked work object := by
  constructor
  · intro reached
    have late {object : Nat} (node : heap.Node tiling object)
        (passes : machine.Unmarked object)
        (reaches : mid.Unmarked object → heap.Reach mid mid.Unmarked work object) :
        heap.Reach machine machine.Unmarked roots object ∨ heap.Reach mid mid.Unmarked work object := by
      by_cases early : heap.Reach machine machine.Unmarked roots object
      · exact .inl early
      · exact .inr (reaches ((marked.unmarked_iff node).mpr ⟨passes, early⟩))
    induction reached with
    | root listed found passes =>
        rcases List.mem_append.mp listed with first | later
        · exact .inl (.root first found passes)
        · exact late (closed.roots _ listed _ found) passes fun unmarked =>
            .root later (marked.target?_eq.trans found) unmarked
    | kept reached held found passes ih =>
        have node := closed.kept _ reached (closed.node reached) _ held _ found
        rcases ih with early | reaches
        · exact .inl (.kept early held found passes)
        · refine late node passes fun unmarked => .kept reaches ?_
            (marked.target?_eq.trans found) unmarked
          rwa [marked.keptValues_eq (closed.node reached)]
  · rintro (early | later)
    · exact early.mono fun _ => List.mem_append_left _
    · exact marked.reach_further closed later

theorem ensures_mark : (heap.mark work).Ensures mid fun _ final =>
    heap.Marked tiling machine final (heap.Reach machine machine.Unmarked (roots ++ work)) := by
  have still : heap.Closed mid tiling work := by
    refine ⟨marked.stillTiled, fun owner reached node value held object found => ?_,
      fun value listed object found => ?_⟩
    · rw [marked.target?_eq] at found
      rw [marked.keptValues_eq node] at held
      exact closed.kept owner (marked.reach_further closed reached) node value held object found
    · rw [marked.target?_eq] at found
      exact closed.roots value (List.mem_append_right _ listed) object found
  refine still.ensures_mark.weaken ?_
  rintro _ final ⟨steady, again⟩
  refine ⟨marked.toClean, marked.steady.trans steady, fun _ => closed.node, fun object reached => ?_,
    fun address outside => ?_⟩
  · rcases (marked.reach_iff closed).mp reached with early | later
    · have node := marked.nodes object early
      obtain ⟨block, member, _, rfl⟩ := node
      have settled : ¬ heap.Reach mid mid.Unmarked work block.start := fun again =>
        ((marked.unmarked_iff (marked.nodes _ early)).mp again.passes).2 early
      rw [marked.stillTiled.header_unmarked (fun _ => still.node) again member settled]
      exact marked.marked.marked _ early
    · obtain ⟨block, member, _, rfl⟩ := still.node later
      have fresh := ((marked.unmarked_iff (still.node later)).mp later.passes).2
      rw [again.marked _ later, marked.tiled.header_unmarked marked.nodes marked.marked member fresh]
  · rw [again.same address fun object later => outside object ((marked.reach_iff closed).mpr (.inr later)),
      marked.marked.same address fun object early =>
        outside object ((marked.reach_iff closed).mpr (.inl early))]

omit closed in
theorem quiet (quiet : mid.Quiet final) :
    heap.Marked tiling machine final (heap.Reach machine machine.Unmarked roots) where
  toClean := marked.toClean
  steady := marked.steady.trans quiet.toSteady
  nodes := marked.nodes
  marked := quiet.memory ▸ marked.marked

end Marked

/-- Marking from some roots went on from what a snapshot names, in all blocks but the `rest`. -/
structure Naming (heap : Heap) (tiling : Slab → List Block) (machine mid : Machine)
    (snapshot : Snapshot) (roots work : List Value) (rest : List Block) : Prop where
  marked : heap.Marked tiling machine mid (heap.Reach machine machine.Unmarked (roots ++ work))
  fewer : ∀ value ∈ work, value ∈ heap.named machine.memory snapshot (heap.blocks tiling)
  reached : ∀ block ∈ heap.blocks tiling, block ∉ rest →
    .reference block.start ∈ heap.named machine.memory snapshot [block] →
      heap.Reach machine machine.Unmarked (roots ++ work) block.start

theorem mem_named {memory : Memory} {blocks : List Block} :
    value ∈ heap.named memory snapshot blocks ↔ ∃ block ∈ blocks,
      (block.kind = .object ∧ snapshot.names block.start = true ∧
        heap.preserves (memory.tag block.start) = true) ∧ .reference block.start = value := by
  simp [named, and_assoc]

theorem Naming.all (naming : heap.Naming tiling machine mid snapshot roots work []) :
    heap.Marked tiling machine mid (heap.Reach machine machine.Unmarked
      (roots ++ heap.named machine.memory snapshot (heap.blocks tiling))) := by
  have same : heap.Reach machine machine.Unmarked (roots ++ work) = heap.Reach machine machine.Unmarked
      (roots ++ heap.named machine.memory snapshot (heap.blocks tiling)) := by
    refine funext fun object => propext ⟨fun reached => ?_, fun reached => ?_⟩
    · refine reached.mono fun value listed => ?_
      rw [List.mem_append] at listed ⊢
      exact listed.imp_right (naming.fewer value)
    · induction reached with
      | @root value object listed found passes =>
          rcases List.mem_append.mp listed with isRoot | isNamed
          · exact .root (List.mem_append_left _ isRoot) found passes
          · obtain ⟨block, member, chosen, rfl⟩ := mem_named.mp isNamed
            have reached := naming.reached block member (by simp)
              (mem_named.mpr ⟨block, List.mem_singleton.mpr rfl, chosen, rfl⟩)
            have bounds := naming.marked.tiled.bounds member
            simp only [Block.stop] at bounds
            have refers := address?_of_target? found
            rw [Value.address?_reference (by omega) (by omega)] at refers
            exact Option.some.inj refers ▸ reached
      | kept _ held found passes ih => exact .kept ih held found passes
  exact same ▸ naming.marked

theorem Tiled.named_denotes (tiled : heap.Tiled machine.memory tiling)
    (listed : value ∈ heap.named machine.memory snapshot (heap.blocks tiling)) :
    heap.RefersToObject tiling value := by
  obtain ⟨block, member, ⟨isObject, _⟩, rfl⟩ := mem_named.mp listed
  exact tiled.refersToObject ⟨block, member, isObject, rfl⟩

theorem Closed.fewer (closed : heap.Closed machine tiling more)
    (fewer : ∀ value ∈ roots, value ∈ more) : heap.Closed machine tiling roots where
  tiled := closed.tiled
  kept owner reached := closed.kept owner (reached.mono fewer)
  roots value listed := closed.roots value (fewer value listed)

namespace Ready

variable (ready : heap.Ready tiling machine)
  (closed : heap.Closed machine tiling
    (roots ++ heap.named machine.memory snapshot (heap.blocks tiling)))

include ready closed

/-- An object that the snapshot names is marked, with what it keeps alive, unless it was before. -/
theorem name {rest : List Block} (naming : heap.Naming tiling machine mid snapshot roots work (block :: rest))
    (member : block ∈ heap.blocks tiling) (isObject : block.kind = .object) :
    Action.Ensures (do
      let header := (← Action.memory).header block.start
      if !header.isMarked && snapshot.names block.start && heap.preserves header.tag then
        Action.note (.conservativeRoot block.start header.tag)
        heap.mark [.reference block.start]) mid
      fun _ after => ∃ work, heap.Naming tiling machine after snapshot roots work rest := by
  have marked := naming.marked
  have tag : (mid.memory.header block.start).tag = machine.memory.tag block.start :=
    marked.tiled.tag_marked marked.nodes marked.marked member
  have isMarked := marked.isMarked_iff member isObject
  rw [Action.ensures_memory]
  dsimp only
  rw [tag]
  split
  -- The object is a root now, whatever was marked before it.
  · next chosen =>
    simp only [Bool.and_eq_true, Bool.not_eq_true'] at chosen
    obtain ⟨⟨unmarked, isNamed⟩, preserved⟩ := chosen
    have listed : .reference block.start ∈ heap.named machine.memory snapshot (heap.blocks tiling) :=
      mem_named.mpr ⟨block, member, ⟨isObject, isNamed, preserved⟩, rfl⟩
    have fewer : ∀ value ∈ work ++ [.reference block.start],
        value ∈ heap.named machine.memory snapshot (heap.blocks tiling) :=
      List.forall_mem_append.mpr ⟨naming.fewer, List.forall_mem_singleton.mpr listed⟩
    have closed : heap.Closed machine tiling ((roots ++ work) ++ [.reference block.start]) := by
      refine closed.fewer fun value inWork => ?_
      rw [List.append_assoc, List.mem_append] at inWork
      exact List.mem_append.mpr (inWork.imp_right (fewer value))
    have bounds := ready.tiled.bounds member
    simp only [Block.stop] at bounds
    rw [Action.ensures_note]
    refine ((marked.quiet (mid.quiet_logging _)).ensures_mark closed).weaken fun _ after more => ?_
    rw [List.append_assoc] at more
    refine ⟨_, more, fewer, fun other otherMember outside otherNamed => ?_⟩
    by_cases here : other = block
    · subst here
      exact .root (by simp) (ready.tiled.target?_eq_some member
        (fun validating => ready.valid validating other member isObject)
        (Value.address?_reference (by omega) (by omega))) (ready.unmarked other member isObject)
    · refine (naming.reached other otherMember (by simp [here, outside]) otherNamed).mono fun _ early => ?_
      rw [← List.append_assoc]
      exact List.mem_append_left _ early
  -- An object that is named and preserved is passed over only because it has a mark.
  · next rejected =>
    refine Action.ensures_pure.mpr ⟨work, marked, naming.fewer, fun other otherMember outside otherNamed => ?_⟩
    by_cases here : other = block
    · subst here
      obtain ⟨_, only, ⟨_, isNamed, preserved⟩, _⟩ := mem_named.mp otherNamed
      obtain rfl := List.mem_singleton.mp only
      refine isMarked.mp (Bool.not_eq_false _ ▸ fun unmarked => rejected ?_)
      simp [unmarked, isNamed, preserved]
    · exact naming.reached other otherMember (by simp [here, outside]) otherNamed

/-- Marking goes on from the objects that a snapshot names. -/
theorem ensures_markNamed
    (marked : heap.Marked tiling machine mid (heap.Reach machine machine.Unmarked roots)) :
    (heap.markNamed snapshot).Ensures mid fun _ final => heap.Marked tiling machine final
      (heap.Reach machine machine.Unmarked
        (roots ++ heap.named machine.memory snapshot (heap.blocks tiling))) := by
  unfold markNamed
  split
  · next empty =>
    have none : heap.named machine.memory snapshot (heap.blocks tiling) = [] := by
      rw [List.isEmpty_iff] at empty
      simp [named, Snapshot.names, empty]
    rw [none, List.append_nil]
    exact Action.ensures_pure.mpr marked
  · have start : heap.Naming tiling machine mid snapshot roots [] (heap.blocks tiling) :=
      ⟨by rwa [List.append_nil], by simp, fun block member outside => absurd member outside⟩
    refine (ensures_foldAll (fun _ rest mid => ∃ work,
      heap.Naming tiling machine mid snapshot roots work rest) ?_ ?_ ?_ ?_ ⟨[], start⟩).weaken ?_
    · rintro _ _ _ ⟨_, naming⟩
      exact naming.marked.stillTiled
    · rintro _ _ _ _ ⟨work, naming⟩ quiet
      exact ⟨work, naming.marked.quiet quiet, naming.fewer, naming.reached⟩
    · rintro _ block rest _ ⟨work, naming⟩ _ other
      refine ⟨work, naming.marked, naming.fewer, fun object member outside isNamed => ?_⟩
      refine naming.reached object member (fun present => ?_) isNamed
      rcases List.mem_cons.mp present with rfl | later
      · obtain ⟨_, only, ⟨isObject, _⟩, _⟩ := mem_named.mp isNamed
        exact other (List.mem_singleton.mp only ▸ isObject)
      · exact outside later
    · rintro _ block rest _ ⟨work, naming⟩ suffix isObject
      exact ready.name closed naming (suffix.mem List.mem_cons_self) isObject
    · rintro _ final ⟨work, naming⟩
      exact naming.all

/-- The mark phase of a collection with a snapshot marks what can be reached from the roots or from what
the snapshot names. -/
theorem ensures_markAll (clean : heap.Clean tiling machine) :
    Action.Ensures (do heap.mark roots; heap.markNamed snapshot) machine fun _ final =>
      heap.Marked tiling machine final (heap.Reach machine machine.Unmarked
        (roots ++ heap.named machine.memory snapshot (heap.blocks tiling))) := by
  have rooted : heap.Closed machine tiling roots := closed.fewer fun _ => List.mem_append_left _
  refine rooted.ensures_mark.bind fun _ first ran => ?_
  obtain ⟨steady, markedOn⟩ := ran
  exact ready.ensures_markNamed closed
    ⟨clean, steady, fun _ reached => rooted.node reached, markedOn⟩

omit closed in
/-- A collection with a snapshot keeps what can be reached from the roots or from what it names. -/
theorem collectWithSnapshot_meets
    (closed : heap.Closed machine tiling
      (heap.roots (some context) ++ heap.named machine.memory snapshot (heap.blocks tiling)))
    (clean : heap.Clean tiling machine) :
    (heap.collectWithSnapshot context snapshot).Meets machine
      (fun answer final => answer.1 = heap.counted answer.2 ∧
        ∃ swept, heap.Collected tiling swept machine final (heap.Reach machine machine.Unmarked
          (heap.roots (some context) ++ heap.named machine.memory snapshot (heap.blocks tiling))))
      fun final => ∃ swept, heap.Collected tiling swept machine final
        (heap.Reach machine machine.Unmarked
          (heap.roots (some context) ++ heap.named machine.memory snapshot (heap.blocks tiling))) := by
  unfold collectWithSnapshot
  rw [← bind_assoc]
  refine (ready.ensures_markAll closed clean).meets.bind fun _ second more => ?_
  obtain ⟨shown, final, _, collected, _, ran⟩ := more.finishCollection_swept (some context)
  split at ran
  · exact .inl ⟨_, final, ran, rfl, _, collected⟩
  · exact .inr ⟨final, ran, _, collected⟩

end Ready

namespace Consistent

variable (consistent : heap.Consistent tiling machine)

include consistent

theorem ready : heap.Ready tiling machine where
  tiled := consistent.tiled
  valid _ block member isObject := (consistent.objects block member isObject).valid
  unmarked block member isObject := (consistent.objects block member isObject).unmarked

theorem collectWithSnapshot_meets (denotes : heap.Denotes tiling context.toValue) :
    (heap.collectWithSnapshot context snapshot).Meets machine
      (fun answer final => answer.1 = heap.counted answer.2 ∧
        ∃ swept, heap.Collected tiling swept machine final (heap.Reach machine machine.Unmarked
          (heap.roots (some context) ++ heap.named machine.memory snapshot (heap.blocks tiling))))
      fun final => ∃ swept, heap.Collected tiling swept machine final
        (heap.Reach machine machine.Unmarked
          (heap.roots (some context) ++ heap.named machine.memory snapshot (heap.blocks tiling))) := by
  apply consistent.ready.collectWithSnapshot_meets _ consistent.clean
  exact consistent.closed (List.forall_mem_append.mpr ⟨consistent.rooted (by simpa using denotes),
    fun _ listed => (consistent.tiled.named_denotes listed).denotes⟩)

end Consistent

end Heap

end SlabHeap
