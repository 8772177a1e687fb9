import SlabHeap.Proofs.Accounts
import SlabHeap.Proofs.Deliveries

namespace SlabHeap

/-! Objects that leave a heap.

An operation collects a heap at most once, and then all calls of finalizers on the way are those of the
collection, `Heap.CollectsOnce`. `Operation.finalizes` says of every operation which objects leave, and that
exactly those that await it are finalized.
-/

open SlabHeap.Action Block Machine

namespace Heap

variable {heap after prepared : Heap} {machine mid final : Machine} {context : Option Context}
  {size request : Nat}

/-- One heap has counted the collections and the freed bytes that another one has. -/
structure Tallies (heap after : Heap) : Prop where
  collections : after.counters.collections = heap.counters.collections
  bytesFreed : after.counters.bytesFreed = heap.counters.bytesFreed

theorem Tallies.refl (heap : Heap) : heap.Tallies heap := ⟨rfl, rfl⟩

theorem Tallies.trans (first : heap.Tallies prepared) (second : prepared.Tallies after) :
    heap.Tallies after :=
  ⟨second.collections.trans first.collections, second.bytesFreed.trans first.bytesFreed⟩

theorem Tallies.of_counters (same : after.counters = heap.counters) : heap.Tallies after :=
  ⟨congrArg Counters.collections same, congrArg Counters.bytesFreed same⟩

/-- The heap became another one without a collection and without a call of a finalizer, or one collection
from the start did all the counting and made all the calls. -/
inductive CollectsOnce (heap : Heap) (context : Option Context) (machine : Machine) :
    Heap → Machine → Prop
  | never {after : Heap} {final : Machine} (same : heap.Tallies after)
      (silent : machine.Silent final) : CollectsOnce heap context machine after final
  | once {swept : Heap × SweepStats} {after : Heap} {mid final : Machine}
      (ran : (heap.collectFrom context).run machine = .ok swept mid)
      (counted : swept.1.Tallies after) (silent : mid.Silent final) :
      CollectsOnce heap context machine after final

theorem CollectsOnce.then (collects : heap.CollectsOnce context machine prepared mid)
    (same : prepared.Tallies after) (silent : mid.Silent final) :
    heap.CollectsOnce context machine after final := by
  cases collects with
  | never sameBefore silentBefore =>
      exact .never (sameBefore.trans same) (Tolerant.trans silentBefore silent)
  | once ran counted silentBefore =>
      exact .once ran (counted.trans same) (Tolerant.trans silentBefore silent)

theorem of_takeFrom_none {slabs : List Slab}
    (ran : (takeFrom request slabs).run machine = .ok none final) : final = machine := by
  induction slabs generalizing machine with
  | nil =>
      cases ran
      rfl
  | cons slab rest ih =>
      obtain ⟨memory, first, read, ran⟩ := of_run_bind ran
      cases read
      obtain ⟨found, second, checked, ran⟩ := of_run_bind ran
      obtain rfl := of_run_check checked
      cases found with
      | none => exact ih ran
      | some fit => cases ran

theorem answers_appendSlab_tallies (heap : Heap) (request : Nat) :
    (heap.appendSlab request).Answers fun answer => heap.Tallies answer.1 := by
  unfold appendSlab
  dsimp only
  split
  · exact answers_after fun _ => answers_pure (.refl heap)
  · refine answers_after fun created => ?_
    cases created with
    | none => exact answers_after fun _ => answers_pure (.refl heap)
    | some slab =>
        refine answers_after fun _ => answers_after fun _ => ?_
        exact answers_count heap.counters.grow_eq fun _ => answers_pure ⟨rfl, rfl⟩

theorem answers_growFor_tallies (heap : Heap) (swept : SweepStats) (request : Nat) :
    (heap.growFor swept request).Answers heap.Tallies := by
  unfold growFor
  refine answers_after fun _ => answers_after fun _ => answers_after fun live => ?_
  dsimp only
  split
  · split
    · exact answers_after fun _ => answers_pure (.refl heap)
    · exact (answers_appendSlab_tallies heap request).bind fun _ same => answers_pure same
  · exact answers_pure (.refl heap)

/-- A block is given without a collection, or after one. -/
theorem of_allocateBlock {given : Except HeapError Nat}
    (ran : (heap.allocateBlock context size).run machine = .ok (after, given) final) :
    heap.CollectsOnce context machine after final := by
  unfold allocateBlock at ran
  split at ran
  · obtain ⟨_, mid, noted, ends⟩ := of_run_bind (of_run_count heap.countRefusal_eq ran).2
    cases ends
    have silent : Respects Silent (note (.unroundable size)) := respects_note _
    exact .never ⟨rfl, rfl⟩ (silent.of_run noted)
  · next request rounds =>
    obtain ⟨found, mid, tried, goesOn⟩ := of_run_bind ran
    have takes (slabs : List Slab) : Respects Silent (takeFrom request slabs) :=
      respects_takeFrom request slabs
    cases found with
    | some block =>
        cases goesOn
        exact .never (.refl heap) ((takes _).of_run tried)
    | none =>
        obtain rfl := of_takeFrom_none tried
        obtain ⟨⟨smaller, swept⟩, second, collected, goesOn⟩ := of_run_bind goesOn
        obtain ⟨grown, third, grew, goesOn⟩ := of_run_bind goesOn
        obtain ⟨again, fourth, retried, goesOn⟩ := of_run_bind goesOn
        have grows : Respects Silent (smaller.growFor swept request) := smaller.respects_growFor _ _
        have same : smaller.Tallies grown := answers_growFor_tallies smaller swept request _ _ _ grew
        have silent : second.Silent fourth := Tolerant.trans (grows.of_run grew) ((takes _).of_run retried)
        cases again with
        | some block =>
            cases goesOn
            exact .once collected same silent
        | none =>
            obtain ⟨_, fifth, noted, ends⟩ := of_run_bind (of_run_count grown.countRefusal_eq goesOn).2
            cases ends
            have notes : Respects Silent (note (.outOfMemory request grown.totalSize)) := respects_note _
            exact .once collected (same.trans ⟨rfl, rfl⟩) (Tolerant.trans silent (notes.of_run noted))

end Heap

namespace Order

variable {heap after : Heap} {machine final : Machine} {order : Order}

theorem settle_counters (heap prepared : Heap) (order : Order) :
    (order.settle heap prepared).counters = prepared.counters := by
  cases order <;> rfl

theorem respects_write (related : Machine → Machine → Prop) [Tolerant related] (identity : Nat)
    (order : Order) (start : Nat) : (order.write identity start).Respects related := by
  have two (first second : Action Unit) (one : first.Respects related) (other : second.Respects related) :
      Respects related (first >>= fun _ => second) := one.bind fun _ => other
  cases order with
  | context parent =>
      refine two _ _ (respects_store _ _) (two _ _ (respects_store _ _) (two _ _ ?_ ?_))
      · exact respects_storeValue _ _
      · exact respects_storeValue _ _
  | pair root car cdr => exact two _ _ (respects_storeValue _ _) (respects_storeValue _ _)
  | vector root length value =>
      exact Respects.bind (respects_check _) fun _ => two _ _ (respects_storeValue _ _) (respects_onMemory _)
  | bytes root contents =>
      exact Respects.bind (respects_check _) fun _ => two _ _ (respects_storeValue _ _) (respects_onMemory _)
  | weakBox root target => exact respects_storeValue _ _
  | ephemeron root key value => exact two _ _ (respects_storeValue _ _) (respects_storeValue _ _)
  | object root tag size => exact respects_pure ()
  | storage root size => exact respects_pure ()

theorem respects_deliver (related : Machine → Machine → Prop) [Tolerant related] (order : Order)
    (heap : Heap) (answer : Heap × Except HeapError Nat) :
    (order.deliver heap answer).Respects related := by
  obtain ⟨prepared, given⟩ := answer
  cases given with
  | error refusal => exact respects_pure _
  | ok start =>
      have rest : Respects related (do
          order.write prepared.identity start
          return (order.settle heap prepared, .ok (← order.refer start)) :
            Action (Heap × Except HeapError Value)) := by
        refine Respects.bind (respects_write related _ _ _) fun _ => ?_
        exact Respects.bind (respects_check _) fun _ => respects_pure _
      unfold deliver
      dsimp only
      split
      · exact Respects.bind (respects_onMemory _) fun _ => rest
      · exact rest

theorem answers_deliver (order : Order) (heap prepared : Heap) (given : Except HeapError Nat) :
    (order.deliver heap (prepared, given)).Answers fun answer =>
      answer.1.counters = prepared.counters := by
  cases given with
  | error refusal => exact answers_pure (settle_counters heap prepared order)
  | ok start =>
      unfold deliver
      dsimp only
      split
      · refine answers_after fun _ => answers_after fun _ => answers_after fun _ => ?_
        exact answers_pure (settle_counters heap prepared order)
      · refine answers_after fun _ => answers_after fun _ => ?_
        exact answers_pure (settle_counters heap prepared order)

theorem of_perform (registered : ∀ tag ∈ order.tag?, heap.shapes.isRegistered tag = true)
    {answer : Except HeapError Value} (ran : (order.perform heap).run machine = .ok (after, answer) final) :
    (heap.holding order.held).CollectsOnce order.root machine after final := by
  rw [perform_eq registered] at ran
  split at ran
  · cases (of_run_count heap.countRefusal_eq ran).2
    exact .never ⟨rfl, rfl⟩ (Tolerant.refl machine)
  · obtain ⟨⟨prepared, given⟩, mid, allocated, ran⟩ := of_run_bind ran
    have silent : mid.Silent final := (respects_deliver Silent order heap _).of_run ran
    have same := answers_deliver order heap prepared given _ _ _ ran
    exact (Heap.of_allocateBlock allocated).then (.of_counters same) silent

end Order

namespace Heap

variable {heap after : Heap} {machine mid final : Machine} {tiling : Slab → List Block}
  {context : Option Context} {roots : List Value} {block : Block} {entries : List Block}

open Classical in
/-- The objects among some blocks that await their finalizers and are not kept, in the same order. -/
noncomputable def leaving (heap : Heap) (machine : Machine) (keeps : Block → Prop) (blocks : List Block) :
    List Block :=
  blocks.filter fun block => !decide (keeps block) && block.awaits heap.shapes machine.memory

/-- The finalizers called in between are those of the objects that are not kept. -/
def Departs (heap : Heap) (tiling : Slab → List Block) (machine final : Machine)
    (keeps : Block → Prop) : Prop :=
  ∃ made, final.calls = machine.calls ++ made ∧
    List.Forall₂ (heap.Called machine.memory) (heap.leaving machine keeps (heap.blocks tiling)) made

/-- A collection from some roots keeps the block. -/
def Spares (heap : Heap) (machine : Machine) (roots : List Value) (block : Block) : Prop :=
  block.kind = .object → heap.Reachable machine roots block.start

theorem Departs.silent {keeps : Block → Prop} (silent : machine.Silent final)
    (stays : ∀ block ∈ heap.blocks tiling, block.kind = .object → keeps block) :
    heap.Departs tiling machine final keeps := by
  have none : heap.leaving machine keeps (heap.blocks tiling) = [] := by
    refine List.filter_eq_nil_iff.mpr fun block member leaves => ?_
    rw [Bool.and_eq_true, Bool.not_eq_true', decide_eq_false_iff_not] at leaves
    exact leaves.1 (stays block member (kind_of_awaits leaves.2))
  exact ⟨[], silent.trans (List.append_nil _).symm, none ▸ .nil⟩

theorem Departs.then {keeps : Block → Prop} (departs : heap.Departs tiling machine mid keeps)
    (silent : mid.Silent final) : heap.Departs tiling machine final keeps := by
  obtain ⟨made, calls, called⟩ := departs
  exact ⟨made, silent.trans calls, called⟩

/-- Values that are held make no difference to what is finalized. -/
theorem Departs.of_holding {keeps : Block → Prop} {held : List Value}
    (departs : (heap.holding held).Departs tiling machine final keeps) :
    heap.Departs tiling machine final keeps := by
  obtain ⟨made, calls, called⟩ := departs
  refine ⟨made, calls, forall₂_weaken called fun block _ call seen => ⟨seen.address, seen.kept, ?_⟩⟩
  obtain ⟨shown, tiled, member⟩ := seen.present
  exact ⟨shown, ⟨tiled.layout, tiled.apart⟩, member⟩

/-- What a sweep finalizes are the objects that cannot be reached. -/
theorem Consistent.departs (consistent : heap.Consistent tiling machine) {shown : Memory}
    (rooted : ∀ value ∈ roots, heap.Denotes tiling value)
    (dies : ∀ block ∈ heap.blocks tiling, block.isDead shown = false ↔
      (block.kind = .object → heap.Reach machine machine.Unmarked roots block.start))
    (finalized : heap.Finalized tiling (isDead shown) machine.memory machine final heap.slabs) :
    heap.Departs tiling machine final (heap.Spares machine roots) := by
  obtain ⟨made, calls, called⟩ := finalized
  refine ⟨made, calls, ?_⟩
  have same : (heap.blocks tiling).filter (Block.ends heap.shapes (isDead shown) machine.memory) =
      heap.leaving machine (heap.Spares machine roots) (heap.blocks tiling) := by
    refine List.filter_congr fun block member => ?_
    have spared : heap.Spares machine roots block ↔ block.isDead shown = false := by
      rw [dies block member]
      exact forall_congr' fun isObject => (consistent.reach_iff rooted member isObject).symm
    rw [Block.ends]
    congr 1
    cases dead : block.isDead shown with
    | false => simp [spared.mpr dead]
    | true => simp [spared, dead]
  rwa [← same]

variable (consistent : heap.Consistent tiling machine)

include consistent

/-- A collection finalizes what it does not keep, whichever way it ends. -/
theorem Consistent.collectFrom_departs (denotes : ∀ handle ∈ context, heap.Denotes tiling handle.toValue) :
    heap.Departs tiling machine ((heap.collectFrom context).ending machine)
      (heap.Spares machine (heap.roots context)) := by
  have rooted := consistent.rooted denotes
  obtain ⟨shown, final, dies, _, finalized, ran⟩ :=
    consistent.clean.collectFrom_swept (consistent.closed rooted)
  rw [ending_of_ite ran]
  exact consistent.departs rooted dies finalized

/-- So does a collection with a snapshot. -/
theorem Consistent.collectWithSnapshot_departs {context : Context} (snapshot : Snapshot)
    (denotes : heap.Denotes tiling context.toValue) :
    heap.Departs tiling machine ((heap.collectWithSnapshot context snapshot).ending machine)
      (heap.Spares machine
        (heap.roots (some context) ++ heap.named machine.memory snapshot (heap.blocks tiling))) := by
  have rooted := consistent.rooted_named snapshot denotes
  have silently : Respects Silent (do heap.mark (heap.roots (some context)); heap.markNamed snapshot) :=
    Respects.bind (heap.respects_mark _) fun _ => heap.respects_markNamed snapshot
  obtain ⟨_, mid, marks, more, silent⟩ :=
    (consistent.ready.ensures_markAll (consistent.closed rooted) consistent.clean).respecting silently
  obtain ⟨shown, final, dies, _, finalized, ran⟩ := more.finishCollection_swept (some context)
  have goesOn : (heap.collectWithSnapshot context snapshot).run machine =
      (heap.finishCollection (some context)).run mid := by
    unfold collectWithSnapshot
    rw [← bind_assoc, run_bind marks]
  rw [ending_of_ite (goesOn.trans ran)]
  obtain ⟨made, calls, called⟩ := finalized
  exact consistent.departs rooted dies ⟨made, calls.trans (by rw [silent]), called⟩

end Heap

namespace Operation

variable {heap after : Heap} {machine final : Machine} {tiling : Slab → List Block}
  {entries : List Block} {op : Operation} {answer : Answer}

/-- The operation may collect the heap. -/
def Collects : Operation → Prop
  | make _ | collect _ | scan _ _ => True
  | _ => False

/-- What an operation leaves of the blocks that were in use. -/
def Keeps (heap after : Heap) (machine : Machine) (entries : List Block) : Operation → Block → Prop
  | make order, block => after.counters.collections = heap.counters.collections ∨
      heap.Spares machine (order.roots heap) block
  | collect context, block => heap.Spares machine (heap.roots (some context)) block
  | scan context snapshot, block => heap.Spares machine
      (heap.roots (some context) ++ heap.named machine.memory snapshot entries) block
  | _, _ => True

/-- The block that an operation brings into use. -/
def made : Operation → Answer → Option Block
  | make order, .made (.ok value) => some ⟨value.untagged, order.footprint, order.kind⟩
  | _, _ => none

theorem respects_onFrame {related : Machine → Machine → Prop} [Tolerant related] {number : Nat}
    {action : Frame → Action Answer} (acts : ∀ frame, (action frame).Respects related) :
    (onFrame heap number action).Respects related := by
  refine Respects.bind (Respects.bind respects_get fun _ => respects_pure _) fun found => ?_
  cases found with
  | none => exact respects_pure _
  | some frame => exact Respects.bind (acts frame) fun _ => respects_pure _

/-- What does not collect calls no finalizer. -/
theorem respects_perform {related : Machine → Machine → Prop} [Tolerant related]
    (other : ¬ op.Collects) : (op.perform heap).Respects related := by
  cases op with
  | make order => exact absurd trivial other
  | collect context => exact absurd trivial other
  | scan context snapshot => exact absurd trivial other
  | append request => exact Respects.bind (heap.respects_appendSlab request) fun _ => respects_pure _
  | register shape => exact respects_pure _
  | slot object offset => exact Respects.bind respects_memory fun _ => respects_pure _
  | setSlot object offset value => exact Respects.bind (respects_storeValue _ _) fun _ => respects_pure _
  | field tag offset object => exact Respects.bind respects_memory fun _ => respects_pure _
  | setField tag offset object value =>
      exact Respects.bind (heap.respects_setFieldOf _ _ _ _) fun _ => respects_pure _
  | vectorLength vector => exact Respects.bind respects_memory fun _ => respects_pure _
  | element vector index =>
      exact Respects.bind respects_memory fun _ => Respects.bind (respects_check _) fun _ => respects_pure _
  | setElement vector index value =>
      exact Respects.bind (heap.respects_vectorSet _ _ _) fun _ => respects_pure _
  | contents bytes => exact Respects.bind respects_memory fun _ => respects_pure _
  | environment context => exact Respects.bind respects_memory fun _ => respects_pure _
  | parent context => exact Respects.bind respects_memory fun _ => respects_pure _
  | setEnvironment context value => exact Respects.bind (respects_onMemory _) fun _ => respects_pure _
  | openFrame context => exact Respects.bind (respects_openFrame context) fun _ => respects_pure _
  | save number value =>
      exact respects_onFrame fun frame => Respects.bind (respects_saveValue _ _ _) fun _ => respects_pure _
  | saved number index =>
      exact respects_onFrame fun frame => Respects.bind (respects_check _) fun _ => respects_pure _
  | replace number index value =>
      exact Respects.bind (respects_replaceValue _ _ _) fun _ => respects_pure _
  | dropFrame number =>
      exact respects_onFrame fun frame => Respects.bind (respects_dropFrame _ _) fun _ => respects_pure _

variable (accounted : heap.Accounted tiling machine entries) (apt : op.Apt heap machine (Listed entries))
  (ran : (op.perform heap).run machine = .ok (after, answer) final)

include accounted apt ran

/-- An operation finalizes the objects that it does not keep. -/
theorem departs : heap.Departs tiling machine final (op.Keeps heap after machine entries) := by
  have consistent := accounted.consistent
  by_cases collects : op.Collects
  swap
  · have silent : machine.Silent final := (respects_perform collects).of_run ran
    refine .silent silent fun block _ _ => ?_
    cases op with
    | make order => exact absurd trivial collects
    | collect context => exact absurd trivial collects
    | scan context snapshot => exact absurd trivial collects
    | _ => trivial
  cases op with
  | collect context =>
      obtain ⟨⟨_, stats⟩, mid, collected, goesOn⟩ := of_run_bind ran
      cases goesOn
      rw [← ending_eq collected]
      refine consistent.collectFrom_departs fun handle isRoot => ?_
      obtain rfl := Option.some.inj isRoot
      exact accounted.denotes_handle apt
  | scan context snapshot =>
      obtain ⟨⟨_, stats⟩, mid, collected, goesOn⟩ := of_run_bind ran
      cases goesOn
      rw [← ending_eq collected]
      have departs := consistent.collectWithSnapshot_departs snapshot (accounted.denotes_handle apt)
      have same : Keeps heap after machine entries (.scan context snapshot) = heap.Spares machine
          (heap.roots (some context) ++ heap.named machine.memory snapshot (heap.blocks tiling)) := by
        refine funext fun block => ?_
        rw [Keeps, Heap.Spares, Heap.Spares, accounted.reachable_named]
      rw [same]
      exact departs
  | make order =>
      obtain ⟨fits, roots, held⟩ := apt
      obtain ⟨⟨_, given⟩, mid, made, goesOn⟩ := of_run_bind ran
      cases goesOn
      cases Order.of_perform fits.registered made with
      | never same silent => exact .silent silent fun _ _ _ => .inl same.collections
      | once collected counted silent =>
          have holds := consistent.holding fun value listed => accounted.denotes (held value listed)
          have departs := holds.collectFrom_departs fun handle isRoot =>
            accounted.denotes_handle (roots handle isRoot)
          rw [ending_eq collected] at departs
          have same : Keeps heap after machine entries (.make order) =
              (heap.holding order.held).Spares machine (order.roots heap) := by
            refine funext fun block => propext ?_
            have grew : ¬ after.counters.collections = heap.counters.collections := by
              rw [counted.collections, Heap.answers_collectFrom_counted _ _ _ _ _ collected]
              exact Nat.succ_ne_self _
            rw [Keeps, or_iff_right grew]
            exact forall_congr' fun _ => ⟨.reroot rfl, .reroot rfl⟩
          rw [same]
          exact departs.of_holding.then silent
  | _ => exact absurd collects id

end Operation

end SlabHeap
