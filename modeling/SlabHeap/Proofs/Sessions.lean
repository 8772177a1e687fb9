import SlabHeap.Proofs.Histories
import SlabHeap.Proofs.Renewal

namespace SlabHeap

/-! Sessions of a program with one heap.

`Session` holds of what comes about when a program founds a heap and makes requests, with a store beside
the heap that never reclaims anything. The program uses an object only while every collection since it was
made could reach it. `Session.unobservable` says that the program cannot tell the heap from the store.
-/

open Block

namespace Store

variable {store : Store} {known : Nat → Prop} {names : Nat → Nat} {heap after : Heap}
  {request : Request} {answer : Answer}

/-- Only a request for an object adds one. -/
theorem after_eq (names : Nat → Nat) (other : request.record? = none) (answer : Answer) :
    store.after request answer = store.update request ∧ store.naming names request answer = names := by
  have none : request.made? answer = none := by
    unfold Request.made?
    split
    · rw [other]
      rfl
    · rfl
  simp only [after, naming, none, and_self]

theorem known_eq (other : request.record? = none)
    (same : after.counters.collections = heap.counters.collections) :
    store.Known known request answer heap after = known := by
  have none : request.made? answer = none := by
    unfold Request.made?
    split
    · rw [other]
      rfl
    · rfl
  funext number
  simp only [Known, none, same, Option.isSome_none, Bool.false_eq_true, false_and, false_or, true_or,
    and_true]

namespace Depicts

variable {machine final : Machine} {entries later : List Block} {record : Record}

theorem founded {settings : Settings} {features : Features} (orderly : machine.Orderly)
    (ran : (Heap.new settings .standard features).run machine = .ok (.ok heap) final) :
    Store.Depicts { opened := final.frames.size } (fun _ => False) names heap final [] := by
  obtain ⟨refusal, same, _⟩ | ⟨slab, made, same, created, rfl⟩ := Heap.ensures_new.of_run ran
  · cases same
  · obtain rfl := Except.ok.inj same
    have arises := Heap.arises_founded created (fun _ _ known => ShapeTable.confined_standard known)
      settings features (Machine.heapIdentity machine.identities) (machine.identities + 1)
    exact ⟨arises.accounted, orderly.congr arises.reserved.frames, fun _ _ known => known, rfl, rfl, rfl,
      by simp, by simp, by simp, by simp, by simp, by simp, by simp, by simp⟩

/-- Other values become roots beside those of the contexts. -/
theorem rooted_anew (depicts : store.Depicts known names heap machine entries) {roots : Option (List Datum)}
    (among : ∀ datum ∈ roots.getD [], datum.Among known) :
    Store.Depicts { store with globals := roots.getD [] } known names
      { heap with globals := roots.map (List.map (Datum.value names)) } machine entries where
  accounted := by
    obtain ⟨tiling, consistent, records⟩ := depicts.accounted
    refine ⟨tiling, consistent.reroot rfl rfl rfl (fun value listed => ?_) consistent.scratch,
      ⟨records.inUse, records.whole, records.inside, records.perm⟩⟩
    cases roots with
    | none => cases listed
    | some data =>
        obtain ⟨datum, inData, rfl⟩ := List.mem_map.mp listed
        have accounted : heap.Accounted tiling machine entries := ⟨consistent, records⟩
        exact accounted.denotes (depicts.refers (among datum inData))
  orderly := depicts.orderly
  standard := depicts.standard
  scratch := depicts.scratch
  globals := by cases roots <;> rfl
  opened := depicts.opened
  objects := depicts.objects
  injective := depicts.injective
  closed := depicts.closed
  rooted := among
  parents := depicts.parents
  linked := depicts.linked
  frames := depicts.frames
  numbered := depicts.numbered

section Apt

variable (apt : request.Apt store known)

include apt

/-- A collection on the way of a request starts from objects that the program may use. -/
theorem among_roots : ∀ datum ∈ request.roots, datum.Among known := by
  intro datum listed
  cases request with
  | context origin =>
      cases origin with
      | none => cases listed
      | some handle =>
          obtain rfl := List.mem_singleton.mp listed
          exact (apt handle rfl).1
  | pair root car cdr =>
      simp only [Request.roots, List.mem_cons, List.not_mem_nil, or_false] at listed
      obtain rfl | rfl | rfl := listed
      · exact apt.2.1
      · exact apt.2.2
      · exact apt.1.1
  | vector root count value =>
      simp only [Request.roots, List.mem_cons, List.not_mem_nil, or_false] at listed
      obtain rfl | rfl := listed
      · exact apt.2
      · exact apt.1.1
  | bytes root _ | collect root =>
      obtain rfl := List.mem_singleton.mp listed
      exact apt.1
  | _ => cases listed

/-- The parent of a new context is a context. -/
theorem parent_isContext {origin : Nat} (made : request.record? = some record)
    (isParent : record.parent? = some (.object origin)) : store.IsContext origin := by
  cases request with
  | context parent =>
      cases parent with
      | none =>
          cases made
          cases isParent
      | some handle =>
          cases made
          cases isParent
          exact (apt origin rfl).2
  | pair | vector | bytes =>
      cases made
      cases isParent
  | _ => cases made

end Apt

/-- A request that makes nothing and leaves the heap as it is. -/
theorem settles (other : request.record? = none)
    (settled : after = heap ∧ (store.update request).Depicts known names heap final entries ∧
      (store.reply request).Shown names answer) :
    (∃ later, (store.after request answer).Depicts (store.Known known request answer heap after)
      (store.naming names request answer) after final later) ∧
        (store.reply request).Shown (store.naming names request answer) answer := by
  obtain ⟨rfl, depicted, shown⟩ := settled
  obtain ⟨same, sameNames⟩ := store.after_eq names other answer
  rw [same, sameNames, Store.known_eq other rfl]
  exact ⟨⟨entries, depicted⟩, shown⟩

variable (depicts : store.Depicts known names heap machine entries)

include depicts

theorem collects {root : Nat} (isKnown : known root)
    (ran : (((Request.collect root).operation names).perform heap).run machine = .ok (after, answer) final) :
    (∃ later, store.Depicts (store.Known known (.collect root) answer heap after) names after final
      later) ∧ ∃ stats, answer = .stats stats := by
  obtain ⟨⟨result, stats⟩, same, acts⟩ := Action.of_run_map ran
  cases same
  refine ⟨?_, stats, rfl⟩
  obtain ⟨tiling, accounted⟩ := depicts.accounted
  have consistent := accounted.consistent
  have inLedger : Listed entries (Context.mk (names root)).address := depicts.listed isKnown
  have denotes : ∀ handle ∈ some (Context.mk (names root)), heap.Denotes tiling handle.toValue := by
    simpa using accounted.denotes_handle inLedger
  obtain ⟨same, swept, collected⟩ := (consistent.collectable denotes).collectFrom_meets.of_run acts
  obtain rfl : result = heap.counted stats := same
  have proceeds := accounted.collectsFrom depicts.orderly inLedger acts
  have collects : (heap.counted stats).counters.collections ≠ heap.counters.collections := by
    simp [Heap.counted]
  unfold Store.Known
  simp only [Request.made?, Option.isSome_none, Bool.false_eq_true, false_and, false_or]
  have holds : (heap.holding []).Consistent tiling machine := heap.holding_nil.symm ▸ consistent
  have prepares : (heap.holding []).Prepared (some ⟨names root⟩) tiling machine (heap.counted stats) swept
      final := by
    rw [heap.holding_nil]
    exact .collected collected (.refl final)
  refine ⟨_, depicts.survive accounted holds denotes prepares ?_ ?_ ?_ proceeds.accounted rfl rfl rfl⟩
  · intro datum listed
    obtain rfl := List.mem_singleton.mp listed
    exact isKnown
  · intro datum listed
    obtain rfl := List.mem_singleton.mp listed
    exact List.mem_append_right _ (List.mem_singleton_self _)
  · rw [Heap.remaining, if_neg collects, heap.holding_nil]

theorem grows {size : Nat}
    (ran : (((Request.append size).operation names).perform heap).run machine = .ok (after, answer) final) :
    store.Depicts known names after final entries ∧
      after.counters.collections = heap.counters.collections ∧ ∃ grown, answer = .done grown := by
  obtain ⟨⟨result, grown⟩, same, acts⟩ := Action.of_run_map ran
  cases same
  obtain ⟨tiling, accounted⟩ := depicts.accounted
  have consistent := accounted.consistent
  have proceeds := accounted.appends depicts.orderly acts
  have keeps (shapes : result.shapes = heap.shapes) (scratch : result.scratch = heap.scratch)
      (globals : result.globals = heap.globals) (frames : final.frames = machine.frames)
      (memory : ∀ block ∈ heap.blocks tiling, block.Kept machine.memory final.memory) :
      store.Depicts known names result final entries := by
    refine depicts.proceed proceeds.accounted shapes scratch globals frames (fun _ => id)
      (fun number size isKnown listed => ⟨listed, ?_⟩) depicts.closed depicts.rooted
    have member := accounted.records.mem_blocks_of_object listed rfl
    have large : 16 ≤ size := (consistent.tiled.bounds member).2.2.1
    exact .of_kept (by simp only; omega) (memory _ member)
  rcases (consistent.tiled.appendSlab_meets consistent.hosted).of_run acts with
    ⟨same, quiet, _⟩ | ⟨slab, same, _, _, created⟩
  · cases same
    refine ⟨keeps rfl rfl rfl quiet.frames fun block member address covers => ?_, rfl, _, rfl⟩
    rw [quiet.memory]
  · cases same
    exact ⟨keeps rfl rfl rfl created.frames fun block member => consistent.upheld.kept_created created member,
      rfl, _, rfl⟩

section Requests

variable (apt : request.Apt store known)
  (ran : ((request.operation names).perform heap).run machine = .ok (after, answer) final)

include apt ran

theorem looks (reads : request.Reads) (same : store.update request = store) :
    after = heap ∧ (store.update request).Depicts known names heap final entries ∧
      (store.reply request).Shown names answer := by
  obtain ⟨told, again, shown⟩ := depicts.reads apt reads
  rw [ran] at again
  cases again
  rw [same]
  exact ⟨rfl, depicts, shown⟩

/-- A request that makes something, if it is granted. -/
theorem grants (made : request.record? = some record)
    (reply : store.reply request = .made store.records.length) :
    (∃ later, (store.after request answer).Depicts (store.Known known request answer heap after)
      (store.naming names request answer) after final later) ∧
        (store.reply request).Shown (store.naming names request answer) answer := by
  obtain ⟨depicted, result, rfl, granted⟩ :=
    depicts.makes made (among_roots apt) (fun _ => parent_isContext apt made) ran
  rw [reply]
  exact ⟨depicted, granted⟩

/-- Every request is answered as the store replies, and the heap depicts the store again. -/
theorem step :
    (∃ later, (store.after request answer).Depicts (store.Known known request answer heap after)
      (store.naming names request answer) after final later) ∧
        (store.reply request).Shown (store.naming names request answer) answer := by
  cases request with
  | context | pair | vector | bytes => exact depicts.grants apt ran rfl rfl
  | collect root =>
      obtain ⟨depicted, stats, rfl⟩ := depicts.collects apt.1 ran
      exact ⟨depicted, trivial⟩
  | append size =>
      obtain ⟨depicted, collections, grown, rfl⟩ := depicts.grows ran
      rw [Store.known_eq rfl collections]
      exact ⟨⟨entries, depicted⟩, trivial⟩
  | part | length | element | contents | environment | parent =>
      exact settles rfl (depicts.looks apt ran trivial rfl)
  | setPart part cell value => exact settles rfl (depicts.setsPart apt.1 apt.2 ran)
  | setElement vector index value => exact settles rfl (depicts.setsElement apt.1 apt.2 ran)
  | setEnvironment handle value =>
      cases ran
      exact settles rfl ⟨rfl, depicts.setsEnvironment apt.1.1 apt.1.2 apt.2, trivial⟩
  | openFrame handle => exact settles rfl (depicts.opens apt ran)
  | save frame value => exact settles rfl (depicts.saves apt ran)
  | saved frame index =>
      obtain ⟨same, rfl, shown⟩ := depicts.recalls apt ran
      exact settles rfl ⟨same, depicts, shown⟩
  | replace frame index value => exact settles rfl (depicts.replaces apt ran)
  | dropFrame frame => exact settles rfl (depicts.drops apt ran)

end Requests

end Depicts

end Store

/-- What comes about when a program founds a heap and makes requests: the store, the objects that every
collection since they were made could reach, their addresses, the heap and the machine. -/
inductive Session : Store → (Nat → Prop) → (Nat → Nat) → Heap → Machine → Prop
  | founded {settings : Settings} {features : Features} {names : Nat → Nat} {heap : Heap}
      {machine final : Machine} (orderly : machine.Orderly)
      (ran : (Heap.new settings .standard features).run machine = .ok (.ok heap) final) :
      Session { opened := final.frames.size } (fun _ => False) names heap final
  | asked {store : Store} {known : Nat → Prop} {names : Nat → Nat} {heap after : Heap}
      {machine final : Machine} {request : Request} {answer : Answer}
      (session : Session store known names heap machine) (apt : request.Apt store known)
      (ran : ((request.operation names).perform heap).run machine = .ok (after, answer) final) :
      Session (store.after request answer) (store.Known known request answer heap after)
        (store.naming names request answer) after final
  | rooted {store : Store} {known : Nat → Prop} {names : Nat → Nat} {heap : Heap} {machine : Machine}
      {roots : Option (List Datum)} (session : Session store known names heap machine)
      (among : ∀ datum ∈ roots.getD [], datum.Among known) :
      Session { store with globals := roots.getD [] } known names
        { heap with globals := roots.map (List.map (Datum.value names)) } machine

namespace Session

variable {store : Store} {known : Nat → Prop} {names : Nat → Nat} {heap : Heap} {machine : Machine}

theorem depicts (session : Session store known names heap machine) :
    ∃ entries, store.Depicts known names heap machine entries := by
  induction session with
  | founded orderly ran => exact ⟨[], .founded orderly ran⟩
  | asked _ apt ran ih =>
      obtain ⟨entries, depicts⟩ := ih
      exact (depicts.step apt ran).1
  | rooted _ among ih =>
      obtain ⟨entries, depicts⟩ := ih
      exact ⟨entries, depicts.rooted_anew among⟩

/-- No collection can be observed: objects that are known are allocated at addresses of their own, what
the program reads is what a store holds that never reclaims anything, and every answer is as its reply. -/
theorem unobservable (session : Session store known names heap machine) :
    (∀ number, known number → heap.Allocated machine.memory (names number)) ∧
    (∀ number other, known number → known other → names number = names other → number = other) ∧
    (∀ request : Request, request.Apt store known → request.Reads → ∃ answer,
      ((request.operation names).perform heap).run machine = .ok (heap, answer) machine ∧
        (store.reply request).Shown names answer ∧
          ∀ datum ∈ (store.reply request).data, datum.Among known) ∧
    ∀ (request : Request) (answer : Answer) (after : Heap) (final : Machine),
      request.Apt store known →
        ((request.operation names).perform heap).run machine = .ok (after, answer) final →
          (store.reply request).Shown (store.naming names request answer) answer := by
  obtain ⟨entries, depicts⟩ := session.depicts
  refine ⟨fun number isKnown => ?_, depicts.injective, fun request apt reads => ?_,
    fun request answer after final apt ran => (depicts.step apt ran).2⟩
  · obtain ⟨record, size, _, listed, _⟩ := depicts.objects number isKnown
    obtain ⟨tiling, accounted⟩ := depicts.accounted
    exact ⟨tiling, accounted.consistent.tiled, _, accounted.records.mem_blocks_of_object listed rfl,
      rfl, rfl⟩
  · obtain ⟨answer, ran, shown⟩ := depicts.reads apt reads
    exact ⟨answer, ran, shown, depicts.reads_among apt reads⟩

/-- Makes a context whose environment is a pair, and collects. -/
def rehearse : Action (Except HeapError (Answer × Answer × Heap)) := do
  match ← Heap.new { initialSize := 256 } .standard {} with
  | .error refusal => return .error refusal
  | .ok heap =>
      let first ← ((Request.context none).operation id).perform heap
      let store := Store.after { opened := 0 } (.context none) first.2
      let names := Store.naming { opened := 0 } id (.context none) first.2
      let second ← ((Request.pair 0 (.atom (.fixnum 7)) (.atom .nil)).operation names).perform first.1
      let names := store.naming names (.pair 0 (.atom (.fixnum 7)) (.atom .nil)) second.2
      let third ← ((Request.setEnvironment 0 (.object 1)).operation names).perform second.1
      let last ← ((Request.collect 0).operation names).perform third.1
      return .ok (first.2, second.2, last.1)

def rehearsed : Except HeapError (Answer × Answer × Heap) → Bool
  | .ok (.made (.ok _), .made (.ok _), heap) => heap.counters.collections = 1
  | _ => false

/-- What is read from the pair after the collection. -/
theorem unobservable_rehearsed : ∃ store known names heap machine,
    Session store known names heap machine ∧ heap.counters.collections = 1 ∧
      (((Request.part .car (.object 1)).operation names).perform heap).run machine =
        .ok (heap, .found (some (.fixnum 7))) machine := by
  have made : rehearse.passes {} rehearsed = true := by decide +kernel
  obtain ⟨answer, final, ran, outcome⟩ := Action.ensures_of_passes made
  unfold rehearsed at outcome
  split at outcome
  · next contextMade pairMade heap =>
    unfold rehearse at ran
    obtain ⟨founded, machine, founds, ran⟩ := Action.of_run_bind ran
    cases founded with
    | error refusal => cases ran
    | ok empty =>
        obtain ⟨⟨heap1, first⟩, machine1, makesContext, ran⟩ := Action.of_run_bind ran
        obtain ⟨⟨heap2, second⟩, machine2, makesPair, ran⟩ := Action.of_run_bind ran
        obtain ⟨⟨heap3, third⟩, machine3, sets, ran⟩ := Action.of_run_bind ran
        obtain ⟨⟨heap4, last⟩, machine4, collects, ran⟩ := Action.of_run_bind ran
        cases ran
        have born : Session { opened := machine.frames.size } (fun _ => False) id empty machine :=
          .founded Account.orderly_fresh founds
        have context := born.asked (by intro handle isHandle; cases isHandle) makesContext
        have pair := context.asked (by exact ⟨⟨.inl ⟨rfl, rfl⟩, _, rfl, rfl⟩, rfl, rfl⟩) makesPair
        have linked := @Session.asked _ _ _ _ _ _ _ (.setEnvironment 0 (.object 1)) _ pair
          ⟨⟨.inr ⟨.inl ⟨rfl, rfl⟩, .inr (.root (by simp [Request.roots]))⟩, _, rfl, rfl⟩,
            .inl ⟨rfl, rfl⟩⟩ sets
        cases sets
        have kept := @Session.asked _ _ _ _ _ _ _ (.collect 0) _ linked
          ⟨.inr ⟨.inr ⟨.inl ⟨rfl, rfl⟩, .inr (.root (by simp [Request.roots]))⟩, .inl rfl⟩, _, rfl, rfl⟩
          collects
        obtain ⟨_, same, _⟩ := Action.of_run_map collects
        cases same
        -- The pair can be reached through the environment of the context.
        obtain ⟨answer, read, shown, _⟩ := kept.unobservable.2.2.1 (.part .car (.object 1))
          (by exact .inr ⟨.inr ⟨.inl ⟨rfl, rfl⟩, .inl rfl⟩,
            .inr (.held (.root List.mem_cons_self) rfl (List.mem_cons_of_mem _ List.mem_cons_self))⟩) trivial
        have told : answer = .found (some (.fixnum 7)) := by
          cases answer with
          | found value => exact congrArg Answer.found shown
          | _ => cases shown
        exact ⟨_, _, _, _, _, kept, by simpa using outcome, told ▸ read⟩
  · cases outcome

end Session

end SlabHeap
