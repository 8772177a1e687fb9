import SlabHeap.Proofs.Departures

namespace SlabHeap

/-! Objects that stay.

An operation lets all objects last that it keeps, and does not touch frames unless it is about them:
`Operation.lasts`. What an order makes is furnished as the order says, `Order.furnishes`.
-/

open Block Heap

namespace Heap

variable {heap after : Heap} {machine : Machine} {tiling : Slab → List Block} {entries : List Block}
  {block : Block} {roots : List Value} {context : Context} {snapshot : Snapshot}

theorem mem_remaining : block ∈ heap.remaining after machine roots entries ↔ block ∈ entries ∧
    (after.counters.collections = heap.counters.collections ∨ heap.Spares machine roots block) := by
  unfold remaining
  split
  · next same => exact ⟨fun listed => ⟨listed, .inl same⟩, And.left⟩
  · next differs => rw [mem_survivors, or_iff_right differs, Spares]

/-- An object that is left does not change where nothing in use does. -/
theorem Records.kept_of_spared {prepared : Heap} {divided : Slab → List Block} {memory later : Memory}
    (records : prepared.Records divided (heap.remaining after machine roots entries))
    (kept : ∀ block ∈ prepared.blocks divided, block.kind ≠ .free → block.Kept memory later)
    (listed : block ∈ entries) (isObject : block.kind = .object)
    (spared : after.counters.collections = heap.counters.collections ∨ heap.Spares machine roots block) :
    block.Kept memory later := by
  have left := mem_remaining.mpr ⟨listed, spared⟩
  exact kept block ((records.mem_iff_of_object isObject).mp left) (by simp [isObject])

end Heap

namespace Order

variable {order : Order} {heap after : Heap} {machine final : Machine} {tiling : Slab → List Block}
  {entries : List Block} {answer : Except HeapError Value}
  (accounted : heap.Accounted tiling machine entries)
  (apt : (Operation.make order).Apt heap machine (Listed entries))
  (ran : (order.perform heap).run machine = .ok (after, answer) final)

include accounted apt

theorem rooted_of_apt : order.Rooted heap tiling where
  root root isRoot := accounted.denotes_handle (apt.2.1 root isRoot)
  held value listed := accounted.denotes (apt.2.2 value listed)

/-- What a heap keeps while it is prepared for an order lasts. -/
theorem lasts_prepared {prepared : Heap} {divided : Slab → List Block} {mid : Machine} {block : Block}
    (prepares : (heap.holding order.held).Prepared order.root tiling machine prepared divided mid)
    (listed : block ∈ entries) (isObject : block.kind = .object)
    (keeps : prepared.counters.collections = heap.counters.collections ∨
      heap.Spares machine (order.roots heap) block) :
    block.Lasts heap.shapes machine.memory mid.memory := by
  have rooted := rooted_of_apt accounted apt
  have holds := accounted.consistent.holding rooted.held
  have member := (accounted.records.mem_iff_of_object isObject).mp listed
  refine prepares.lasts holds member isObject (keeps.imp_right fun spared => ?_)
  have reachable := (spared isObject).reroot (show (heap.holding order.held).shapes = heap.shapes from rfl)
  exact (holds.reach_iff (holds.rooted rooted.root) member isObject).mpr reachable

include ran

/-- A heap that is prepared for an order does not change any more what it kept. -/
theorem prepares : ∃ prepared divided mid,
    (heap.holding order.held).Prepared order.root tiling machine prepared divided mid ∧
      after.counters.collections = prepared.counters.collections ∧ after.shapes = heap.shapes ∧
        after.globals = heap.globals ∧ after.scratch = heap.scratch ∧ after.identity = heap.identity ∧
          final.frames = mid.frames ∧
            prepared.Records divided (heap.remaining after machine (order.roots heap) entries) ∧
              ∀ block ∈ prepared.blocks divided, block.kind ≠ .free → block.Kept mid.memory final.memory := by
  have consistent := accounted.consistent
  have rooted := rooted_of_apt accounted apt
  cases rooted.performed consistent apt.1 ran with
  | supplied supplied =>
      exact ⟨_, _, _, supplied.prepares, rfl, supplied.prepares.shapes_eq,
        supplied.prepares.globals_eq, rfl, supplied.prepares.identity_eq, supplied.steady.frames,
        rooted.records_prepared consistent accounted.records supplied.prepares, supplied.obtained.kept⟩
  | refused _ refused =>
      exact ⟨_, _, final, refused.prepares, rfl, refused.prepares.shapes_eq,
        refused.prepares.globals_eq, rfl, refused.prepares.identity_eq, rfl,
        rooted.records_prepared consistent accounted.records refused.prepares, fun _ _ _ _ _ => rfl⟩

theorem lasts : final.frames = machine.frames ∧ ∀ block ∈ entries, block.kind = .object →
    (Operation.make order).Keeps heap after machine entries block →
    block.Lasts heap.shapes machine.memory final.memory := by
  obtain ⟨prepared, divided, mid, ready, collections, _, _, _, _, frames, records, kept⟩ :=
    prepares accounted apt ran
  refine ⟨frames.trans ready.frames_eq, fun block listed isObject keeps => ?_⟩
  have large := (accounted.records.whole block listed).1
  have covers : block.Covers block.start := by
    simp only [Block.Covers, Block.stop, blockUnit] at *
    omega
  exact (lasts_prepared accounted apt ready listed isObject (keeps.imp_left collections.symm.trans)).keep
    (records.kept_of_spared kept listed isObject keeps) covers

/-- An order leaves as they are what the heap keeps of the objects without weak slots. -/
theorem keeps_strong {block : Block} (listed : block ∈ entries) (isObject : block.kind = .object)
    (keeps : (Operation.make order).Keeps heap after machine entries block)
    (strong : ∀ shape, heap.shapes.get? (machine.memory.tag block.start) = some shape → shape.weak = none) :
    block.Kept machine.memory final.memory := by
  obtain ⟨prepared, divided, mid, ready, collections, _, _, _, _, _, records, kept⟩ :=
    prepares accounted apt ran
  have rooted := rooted_of_apt accounted apt
  have holds := accounted.consistent.holding rooted.held
  have member := (accounted.records.mem_iff_of_object isObject).mp listed
  have first : block.Kept machine.memory mid.memory := by
    refine ready.keeps holds member isObject strong (keeps.imp collections.symm.trans fun spared => ?_)
    have reachable := (spared isObject).reroot (show (heap.holding order.held).shapes = heap.shapes from rfl)
    exact (holds.reach_iff (holds.rooted rooted.root) member isObject).mpr reachable
  exact fun address covers =>
    (records.kept_of_spared kept listed isObject keeps address covers).trans (first address covers)

/-- What an order gives holds what it was asked for. -/
theorem gives {value : Value} (made : answer = .ok value) : ∃ start, value = .reference start ∧
    value.untagged = start ∧ order.Stored final.memory start ∧ ∀ tag ∈ order.tag?, final.memory.tag start = tag := by
  have consistent := accounted.consistent
  have rooted := rooted_of_apt accounted apt
  cases rooted.performed consistent apt.1 ran with
  | supplied supplied =>
      cases made
      refine ⟨_, rfl, supplied.address_reference, supplied.filled ▸ order.stored_fill supplied.bounds.1, ?_⟩
      intro tag tagged
      exact congrArg Header.tag (supplied.furnished (fun tag _ => consistent.confined tag) apt.1 tagged).header
  | refused => cases made

/-- What an order makes is an object with a fresh header. -/
theorem furnishes {value : Value} (made : answer = .ok value) {tag : UInt8} (tagged : order.tag? = some tag) :
    ∃ size before, Furnished heap.shapes tag order.values value.untagged size before final.memory := by
  have consistent := accounted.consistent
  have rooted := rooted_of_apt accounted apt
  cases rooted.performed consistent apt.1 ran with
  | supplied supplied =>
      cases made
      rw [supplied.address_reference]
      exact ⟨_, _, supplied.furnished (fun tag _ => consistent.confined tag) apt.1 tagged⟩
  | refused => cases made

end Order

namespace Operation

variable {heap after : Heap} {machine final : Machine} {tiling : Slab → List Block}
  {entries : List Block} {op : Operation} {answer : Answer} {block : Block}

open Classical in
/-- The ledger lists what stays, and what is new. -/
theorem ledger_eq : op.ledger heap after machine entries answer =
    entries.filter (op.Keeps heap after machine entries ·) ++ (op.made answer).toList := by
  have all {keeps : Block → Prop} (holds : ∀ block, keeps block) : entries = entries.filter (keeps ·) :=
    (List.filter_eq_self.mpr fun block _ => decide_eq_true (holds block)).symm
  have spared (roots : List Value) : heap.survivors machine roots entries =
      entries.filter (heap.Spares machine roots ·) := List.filter_congr fun _ _ => decide_eq_decide.mpr .rfl
  have kept (order : Order) : heap.remaining after machine (order.roots heap) entries =
      entries.filter ((Operation.make order).Keeps heap after machine entries ·) := by
    rw [Heap.remaining]
    split
    · next same => exact all fun _ => .inl same
    · next differs =>
      rw [spared]
      refine List.filter_congr fun _ _ => decide_eq_decide.mpr ?_
      exact ⟨.inr, fun either => either.resolve_left differs⟩
  cases op with
  | make order =>
      cases answer with
      | made given =>
          cases given with
          | error refusal => exact (kept order).trans (List.append_nil _).symm
          | ok value => exact congrArg (· ++ _) (kept order)
      | _ => exact (kept order).trans (List.append_nil _).symm
  | collect context => exact (spared _).trans (List.append_nil _).symm
  | scan context snapshot => exact (spared _).trans (List.append_nil _).symm
  | _ => exact (all fun _ => trivial).trans (List.append_nil _).symm

theorem mem_ledger : block ∈ op.ledger heap after machine entries answer ↔
    block ∈ entries ∧ op.Keeps heap after machine entries block ∨ op.made answer = some block := by
  simp [ledger_eq]

variable (accounted : heap.Accounted tiling machine entries) (orderly : machine.Orderly)
  (apt : op.Apt heap machine (Listed entries))
  (ran : (op.perform heap).run machine = .ok (after, answer) final)

include accounted apt ran

/-- A new object is furnished. -/
theorem furnished_made (isNew : op.made answer = some block) (isObject : block.kind = .object) :
    ∃ tag values size before, Furnished heap.shapes tag values block.start size before final.memory := by
  unfold made at isNew
  split at isNew
  · next order value =>
    cases isNew
    obtain ⟨⟨_, _⟩, same, acts⟩ := Action.of_run_map ran
    cases same
    obtain ⟨tag, tagged⟩ := Order.tag_of_kind isObject
    obtain ⟨size, before, furnished⟩ := Order.furnishes accounted apt acts rfl tagged
    exact ⟨tag, _, size, before, furnished⟩
  · cases isNew

include orderly

/-- Whatever is not about frames leaves them, and lets all objects last that it keeps. -/
theorem lasts (other : ¬ op.Frames) : final.frames = machine.frames ∧ ∀ block ∈ entries,
    block.kind = .object → op.Keeps heap after machine entries block →
    block.Lasts heap.shapes machine.memory final.memory := by
  have consistent := accounted.consistent
  have present {block : Block} (listed : block ∈ entries) (isObject : block.kind = .object) :
      block ∈ heap.blocks tiling := (accounted.records.mem_iff_of_object isObject).mp listed
  -- The two collections differ in their roots alone.
  have collects {roots : List Value} {swept : Slab → List Block} {block : Block}
      (rooted : ∀ value ∈ roots, heap.Denotes tiling value)
      (collected : heap.Collected tiling swept machine final (heap.Reach machine machine.Unmarked roots))
      (listed : block ∈ entries) (isObject : block.kind = .object) (spared : heap.Spares machine roots block) :
      block.Lasts heap.shapes machine.memory final.memory := by
    have member := present listed isObject
    exact collected.lasts member isObject
      ((consistent.reach_iff rooted member isObject).mpr (spared isObject))
  by_cases only : op.Edits
  · obtain ⟨_, filled⟩ := fills only accounted orderly apt ran other
    exact ⟨filled.frames, fun block listed isObject _ => filled.lasts block (present listed isObject) isObject⟩
  cases op with
  | make order =>
      obtain ⟨⟨_, _⟩, same, acts⟩ := Action.of_run_map ran
      cases same
      exact Order.lasts accounted apt acts
  | collect context =>
      obtain ⟨⟨_, _⟩, same, acts⟩ := Action.of_run_map ran
      cases same
      have denotes : ∀ handle ∈ some context, heap.Denotes tiling handle.toValue := by
        simpa using accounted.denotes_handle apt
      obtain ⟨_, swept, collected⟩ := (consistent.collectable denotes).collectFrom_meets.of_run acts
      exact ⟨collected.steady.frames, fun _ => collects (consistent.rooted denotes) collected⟩
  | scan context snapshot =>
      obtain ⟨⟨_, _⟩, same, acts⟩ := Action.of_run_map ran
      cases same
      have denotes := accounted.denotes_handle apt
      obtain ⟨_, swept, collected⟩ := (consistent.collectWithSnapshot_meets denotes).of_run acts
      refine ⟨collected.steady.frames, fun block listed isObject spared =>
        collects (consistent.rooted_named snapshot denotes) collected listed isObject ?_⟩
      rw [Keeps, Heap.Spares, ← accounted.reachable_named] at spared
      exact spared
  | append request =>
      obtain ⟨⟨_, _⟩, same, acts⟩ := Action.of_run_map ran
      cases same
      have covers {block : Block} (listed : block ∈ entries) (isObject : block.kind = .object) :=
        consistent.tiled.start_covers (present listed isObject)
      rcases (consistent.tiled.appendSlab_meets consistent.hosted).of_run acts with
        ⟨same, quiet, _⟩ | ⟨slab, same, _, _, created⟩
      all_goals
        cases same
      · exact ⟨quiet.frames, fun block listed isObject _ =>
          .of_kept (fun _ _ => by rw [quiet.memory]) (covers listed isObject)⟩
      · exact ⟨created.frames, fun block listed isObject _ => .of_kept
          (consistent.upheld.kept_created created (present listed isObject)) (covers listed isObject)⟩
  | register shape =>
      cases ran
      exact ⟨rfl, fun block listed isObject _ => .of_kept (fun _ _ => rfl)
        (consistent.tiled.start_covers (present listed isObject))⟩
  | _ => exact absurd trivial only

end Operation

end SlabHeap
