import SlabHeap.Proofs.Alterations
import SlabHeap.Proofs.Conservative

namespace SlabHeap

/-! Operations keep the books.

`Heap.Accounted` says that a heap is consistent and that its ledger lists what is in use.
`Operation.ledger` says what an operation makes of the ledger, and `Operation.keeps` that the heap is
accounted for by it then, while nothing outside of the heap changed.
-/

open Block

/-- An entry of the ledger starts at the address. -/
def Block.Listed (entries : List Block) (address : Nat) : Prop := ∃ entry ∈ entries, entry.start = address

/-- The bytes that the block for an order takes. -/
def Order.footprint (order : Order) : Nat := (Size.alignUp? (max order.size blockUnit) blockUnit).getD 0

/-- What an operation makes of the ledger of a heap. -/
noncomputable def Operation.ledger (heap after : Heap) (machine : Machine) (entries : List Block) :
    Operation → Answer → List Block
  | make order, .made (.ok value) =>
      heap.remaining after machine (order.roots heap) entries ++
        [⟨value.untagged, order.footprint, order.kind⟩]
  | make order, _ => heap.remaining after machine (order.roots heap) entries
  | collect context, _ => heap.survivors machine (heap.roots (some context)) entries
  | scan context snapshot, _ => heap.survivors machine
      (heap.roots (some context) ++ heap.named machine.memory snapshot entries) entries
  | _, _ => entries

namespace Heap

variable {heap after : Heap} {machine final : Machine} {tiling : Slab → List Block}
  {entries later : List Block} {block : Block} {frame : Frame} {context : Context} {value : Value}
  {offset number index : Nat} {shape : Shape}

/-- The heap is consistent, and its ledger lists what is in use. -/
structure Accounted (heap : Heap) (tiling : Slab → List Block) (machine : Machine)
    (entries : List Block) : Prop where
  consistent : heap.Consistent tiling machine
  records : heap.Records tiling entries

/-- A heap became another one, which is accounted for by its ledger, while nothing outside changed. -/
structure Proceeds (heap after : Heap) (machine final : Machine) (entries : List Block) : Prop where
  accounted : ∃ taken, after.Accounted taken final entries
  orderly : final.Orderly
  within : heap.Within after machine final
  features : after.features = heap.features

/-- A heap stayed as it is, but for words of its objects behind their headers. -/
structure Edits (heap : Heap) (tiling : Slab → List Block) (machine final : Machine)
    (entries : List Block) : Prop extends heap.Proceeds heap machine final entries where
  words : ∀ address, final.memory.read address = machine.memory.read address ∨
    ∃ block ∈ heap.blocks tiling, block.kind = .object ∧ block.start + 8 ≤ address ∧ address < block.stop

/-- A heap stayed as it is, but for slots of its objects. -/
structure Fills (heap : Heap) (tiling : Slab → List Block) (machine final : Machine)
    (entries : List Block) : Prop extends heap.Edits tiling machine final entries where
  frames : final.frames = machine.frames
  lasts : ∀ block ∈ heap.blocks tiling, block.kind = .object →
    block.Lasts heap.shapes machine.memory final.memory

theorem Edits.read_start (edits : heap.Edits tiling machine final entries)
    (tiled : heap.Tiled machine.memory tiling) (member : block ∈ heap.blocks tiling) :
    final.memory.read block.start = machine.memory.read block.start := by
  obtain same | ⟨other, otherMember, _, lower, upper⟩ := edits.words block.start
  · exact same
  · have equal := tiled.eq_of_covers member otherMember (tiled.start_covers member) ⟨by omega, upper⟩
    subst equal
    omega

/-- What a snapshot names is in use, as the roots of a collection are. -/
theorem Consistent.rooted_named (consistent : heap.Consistent tiling machine) (snapshot : Snapshot)
    (denotes : heap.Denotes tiling context.toValue) : ∀ value ∈ heap.roots (some context) ++
      heap.named machine.memory snapshot (heap.blocks tiling), heap.Denotes tiling value :=
  List.forall_mem_append.mpr ⟨consistent.rooted (by simpa using denotes),
    fun _ listed => (consistent.tiled.named_denotes listed).denotes⟩

namespace Accounted

variable (accounted : heap.Accounted tiling machine entries)

include accounted

theorem node {address : Nat} (listed : Listed entries address) : heap.Node tiling address := by
  obtain ⟨entry, member, rfl⟩ := listed
  exact accounted.records.node member

theorem denotes (refers : value.Refers (Listed entries)) : heap.Denotes tiling value :=
  fun address found => accounted.node (refers address found)

theorem denotes_handle (listed : Listed entries context.address) :
    heap.Denotes tiling context.toValue := by
  have node := accounted.node listed
  obtain ⟨block, member, _, starts⟩ := node
  have bounds := accounted.consistent.tiled.bounds member
  simp only [Block.stop] at bounds
  intro address found
  rw [Context.toValue, Value.address?_reference (by omega) (by omega)] at found
  exact Option.some.inj found ▸ accounted.node listed

theorem isContext (listed : Listed entries context.address)
    (tagged : machine.memory.tag context.address = Tag.context) :
    heap.IsContext tiling machine.memory context :=
  accounted.consistent.tiled.isContext (accounted.node listed) tagged

variable (orderly : machine.Orderly)

include orderly

theorem makes {order : Order} {answer : Except HeapError Value}
    (apt : (Operation.make order).Apt heap machine (Listed entries))
    (ran : (order.perform heap).run machine = .ok (after, answer) final) :
    heap.Proceeds after machine final
      ((Operation.make order).ledger heap after machine entries (.made answer)) := by
  obtain ⟨fits, roots, held⟩ := apt
  have consistent := accounted.consistent
  have rooted : order.Rooted heap tiling :=
    ⟨fun root isRoot => accounted.denotes_handle (roots root isRoot),
      fun value listed => accounted.denotes (held value listed)⟩
  cases rooted.performed consistent fits ran with
  | supplied supplied =>
      have ledger := supplied.records consistent rooted accounted.records
      simp only [Operation.ledger, supplied.address_reference, Order.footprint, supplied.rounded, Option.getD]
      exact ⟨⟨_, supplied.consistent_after consistent rooted fits, ledger⟩,
        orderly.congr (supplied.steady.frames.trans supplied.prepares.frames_eq), supplied.within,
        supplied.prepares.features_eq⟩
  | refused _ refused =>
      exact ⟨⟨_, refused.consistent_after consistent rooted,
        refused.records accounted.records consistent rooted⟩,
        orderly.congr refused.prepares.frames_eq, refused.within, refused.prepares.features_eq⟩

/-- A collection takes what it does not keep off the ledger. -/
theorem collects {roots : List Value} {stats : SweepStats} {swept : Slab → List Block}
    (rooted : ∀ value ∈ roots, heap.Denotes tiling value)
    (own : ∀ value ∈ heap.scratch ++ heap.globals.getD [], value ∈ roots)
    (collected : heap.Collected tiling swept machine final
      (heap.Reach machine machine.Unmarked roots)) :
    heap.Proceeds (heap.counted stats) machine final (heap.survivors machine roots entries) := by
  have consistent := accounted.consistent
  have still : heap.Consistent swept final :=
    consistent.survive collected (fun _ alive _ held _ found unmarked => .kept alive held found unmarked)
      fun value listed object found unmarked => .root (own value (by
        rw [List.mem_append] at listed ⊢
        exact listed.symm)) found unmarked
  have ledger := accounted.records.survive consistent.tiled collected
    fun block member isObject => consistent.reach_iff rooted member isObject
  exact ⟨⟨swept, still.recount _, ⟨ledger.inUse, ledger.whole, ledger.inside, ledger.perm⟩⟩,
    orderly.congr collected.steady.frames, collected.within rfl, rfl⟩

theorem collectsFrom {stats : SweepStats} (listed : Listed entries context.address)
    (ran : (heap.collectFrom (some context)).run machine = .ok (after, stats) final) :
    heap.Proceeds after machine final (heap.survivors machine (heap.roots (some context)) entries) := by
  have consistent := accounted.consistent
  have denotes : ∀ handle ∈ some context, heap.Denotes tiling handle.toValue := by
    simpa using accounted.denotes_handle listed
  obtain ⟨same, swept, collected⟩ := (consistent.collectable denotes).collectFrom_meets.of_run ran
  obtain rfl : after = heap.counted stats := same
  exact accounted.collects orderly (consistent.rooted denotes)
    (fun value own => List.mem_append_left _ own) collected

omit orderly in
theorem reachable_named {snapshot : Snapshot} {roots : List Value} : heap.Reachable machine
      (roots ++ heap.named machine.memory snapshot (heap.blocks tiling)) =
    heap.Reachable machine (roots ++ heap.named machine.memory snapshot entries) := by
  have same (value : Value) : value ∈ heap.named machine.memory snapshot (heap.blocks tiling) ↔
      value ∈ heap.named machine.memory snapshot entries := by
    simp only [mem_named]
    refine exists_congr fun block => ?_
    constructor
    · rintro ⟨member, chosen, rfl⟩
      exact ⟨(accounted.records.mem_iff_of_object chosen.1).mpr member, chosen, rfl⟩
    · rintro ⟨member, chosen, rfl⟩
      exact ⟨(accounted.records.mem_iff_of_object chosen.1).mp member, chosen, rfl⟩
  refine funext fun object => propext ⟨fun reached => reached.mono fun value listed => ?_,
    fun reached => reached.mono fun value listed => ?_⟩
  · rwa [List.mem_append, ← same, ← List.mem_append]
  · rwa [List.mem_append, same, ← List.mem_append]

/-- A collection with a snapshot keeps what the snapshot names as well. -/
theorem scans {snapshot : Snapshot} {stats : SweepStats} (listed : Listed entries context.address)
    (ran : (heap.collectWithSnapshot context snapshot).run machine = .ok (after, stats) final) :
    heap.Proceeds after machine final
      ((Operation.scan context snapshot).ledger heap after machine entries (.stats stats)) := by
  have consistent := accounted.consistent
  have denotes := accounted.denotes_handle listed
  obtain ⟨same, swept, collected⟩ :=
    (consistent.collectWithSnapshot_meets denotes).of_run ran
  have proceeds : heap.Proceeds (heap.counted stats) machine final _ :=
    accounted.collects orderly (consistent.rooted_named snapshot denotes)
      (fun value own => List.mem_append_left _ (List.mem_append_left _ own)) collected
  rw [survivors, accounted.reachable_named, ← survivors] at proceeds
  obtain rfl : after = heap.counted stats := same
  exact proceeds

theorem appends {request : Nat} {grown : Bool}
    (ran : (heap.appendSlab request).run machine = .ok (after, grown) final) :
    heap.Proceeds after machine final entries := by
  have consistent := accounted.consistent
  rcases (consistent.tiled.appendSlab_meets consistent.hosted).of_run ran with
    ⟨same, quiet, _⟩ | ⟨slab, same, _, _, created⟩
  all_goals cases same
  · exact ⟨⟨tiling, consistent.quiet quiet, accounted.records⟩,
      orderly.congr quiet.frames, .of_quiet quiet rfl, rfl⟩
  · exact ⟨⟨_, consistent.grown created,
      accounted.records.grown (new_of_created consistent.hosted created) _⟩,
      orderly.congr created.frames, .grown created, rfl⟩

theorem registers (confined : shape.Confined) :
    heap.Proceeds (heap.register shape).1 machine machine entries := by
  obtain ⟨consistent, records⟩ := accounted
  have upheld := consistent.upheld.register shape
  refine ⟨⟨tiling, ⟨upheld.tiled, consistent.coalesced, upheld.hosted, upheld.upper,
    ShapeTable.confined_register consistent.confined confined, upheld.objects,
    fun block => consistent.upheld.counted_register consistent.counted, consistent.globals,
    consistent.scratch⟩, ⟨records.inUse, records.whole, records.inside, records.perm⟩⟩, orderly,
    .of_quiet (.refl machine) rfl, rfl⟩

omit orderly in
theorem edits (alters : heap.Alters (heap.Denotes tiling) tiling machine final) :
    heap.Edits tiling machine final entries :=
  ⟨⟨⟨tiling, accounted.consistent.renew alters.toUpholds, accounted.records⟩, alters.orderly, alters.within,
    rfl⟩, alters.words⟩

omit orderly in
theorem fills (rewrites : heap.Rewrites (heap.Denotes tiling) tiling machine final) :
    heap.Fills tiling machine final entries :=
  ⟨accounted.edits rewrites.toAlters, rewrites.frames, rewrites.lasts⟩

end Accounted

end Heap

namespace Operation

variable {op : Operation} {heap after : Heap} {machine final : Machine}
  {tiling : Slab → List Block} {entries : List Block} {answer : Answer}

section Alterations

variable (only : op.Edits) (accounted : heap.Accounted tiling machine entries) (orderly : machine.Orderly)
  (apt : op.Apt heap machine (Listed entries))
  (ran : (op.perform heap).run machine = .ok (after, answer) final)

include only accounted orderly apt ran

/-- What neither takes nor gives storage and has nothing to do with frames changes slots at most. -/
theorem fills (other : ¬ op.Frames) : after = heap ∧ heap.Fills tiling machine final entries := by
  obtain ⟨same, rewrites⟩ := op.rewrites only accounted.consistent.upheld orderly
    accounted.consistent.counted (fun _ => accounted.node) (fun _ => accounted.denotes) apt ran other
  exact ⟨same, accounted.fills rewrites⟩

/-- What neither takes nor gives storage changes words of objects and frames. -/
theorem edits : after = heap ∧ heap.Edits tiling machine final entries := by
  obtain ⟨same, alters⟩ := op.alters only accounted.consistent.upheld orderly
    accounted.consistent.counted (fun _ => accounted.node) (fun _ => accounted.denotes) apt ran
  exact ⟨same, accounted.edits alters⟩

end Alterations

theorem ledger_of_edits (only : op.Edits) : op.ledger heap after machine entries answer = entries := by
  cases op with
  | make | collect | scan | append | register => exact only.elim
  | _ => rfl

/-- An operation that is used as it is meant to be keeps the books of its heap, and does not touch what
belongs to others. -/
theorem keeps (accounted : heap.Accounted tiling machine entries) (orderly : machine.Orderly)
    (apt : op.Apt heap machine (Listed entries))
    (ran : (op.perform heap).run machine = .ok (after, answer) final) :
    heap.Proceeds after machine final (op.ledger heap after machine entries answer) := by
  by_cases only : op.Edits
  · obtain ⟨rfl, edited⟩ := edits only accounted orderly apt ran
    exact ledger_of_edits only ▸ edited.toProceeds
  cases op with
  | make order =>
      obtain ⟨⟨_, _⟩, same, acts⟩ := Action.of_run_map ran
      cases same
      exact accounted.makes orderly apt acts
  | collect context =>
      obtain ⟨⟨_, _⟩, same, acts⟩ := Action.of_run_map ran
      cases same
      exact accounted.collectsFrom orderly apt acts
  | scan context snapshot =>
      obtain ⟨⟨_, _⟩, same, acts⟩ := Action.of_run_map ran
      cases same
      exact accounted.scans orderly apt acts
  | append request =>
      obtain ⟨⟨_, _⟩, same, acts⟩ := Action.of_run_map ran
      cases same
      exact accounted.appends orderly acts
  | register shape =>
      cases ran
      exact accounted.registers orderly apt
  | _ => exact absurd trivial only

end Operation

end SlabHeap
