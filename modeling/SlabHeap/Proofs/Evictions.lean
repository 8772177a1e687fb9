import SlabHeap.Proofs.Replacement
import SlabHeap.Proofs.Tenants

namespace SlabHeap

/-! Who is finalized where a heap is overwritten.

Finalizers are called by sweeps alone. Whoever lives in a heap when another one is copied over it is gone
without a call: `Tenancy.Overwrites` gives new names to all who arrive, and `Tenancy.Forgotten` is what holds
of the old ones from then on, whatever `Tenancy.Onward` brings.
-/

open Block

namespace Tenant

variable {first : Nat} {blocks : List Block}

/-- Tenants of the blocks, with names counted from the first one. -/
def numbered (first : Nat) (blocks : List Block) : List (Tenant Nat) :=
  (blocks.zipIdx first).map fun entry => ⟨entry.2, entry.1⟩

@[simp]
theorem blocks_numbered : Tenant.blocks (numbered first blocks) = blocks := by
  rw [numbered, Tenant.blocks, List.map_map]
  exact List.zipIdx_map_fst ..

theorem names_numbered : (numbered first blocks).map Tenant.name = List.range' first blocks.length := by
  rw [numbered, List.map_map]
  exact List.zipIdx_map_snd ..

theorem name_numbered {tenant : Tenant Nat} (member : tenant ∈ numbered first blocks) :
    first ≤ tenant.name ∧ tenant.name < first + blocks.length := by
  have named := List.mem_map_of_mem (f := Tenant.name) member
  rw [names_numbered, List.mem_range'_1] at named
  exact named

end Tenant

namespace Tenancy

open Tenant

variable {machine final : Machine} {house later : Tenancy} {name : Nat}

/-- The house after all its tenants had to go, with the copies that arrived under new names. -/
def evicted (house : Tenancy) (copy : Heap) (copies : List Block) : Tenancy where
  heap := copy
  tenants := numbered house.next copies
  next := house.next + copies.length
  finalized := house.finalized

/-- Another heap was copied into this one, which knows the types of what it takes by the same tags. -/
inductive Overwrites (machine : Machine) (house : Tenancy) : Machine → Tenancy → Prop
  | copyInto {source copy : Heap} {tiling : Slab → List Block} {entries : List Block}
      {context moved : Context} {inTarget : Value} {keepOwnership : Bool} {final : Machine}
      (accounted : source.Accounted tiling machine entries) (listed : Listed entries context.address)
      (tagged : machine.memory.tag context.address = Tag.context) (apart : source.Apart house.heap)
      (agree : ∀ entry ∈ entries, entry.kind = .object →
        house.heap.shapes.get? (machine.memory.tag entry.start) =
          source.shapes.get? (machine.memory.tag entry.start))
      (alike : house.heap.features = source.features)
      (ran : (source.copyInto context house.heap inTarget keepOwnership).run machine =
        .ok (copy, .ok moved) final) :
      Overwrites machine house final
        (house.evicted copy (entries.map (source.lastSlab.moveBlock copy.lastSlab)))

/-- What may become of a house: it goes on as before, and it may be overwritten again. -/
inductive Onward (machine : Machine) (house : Tenancy) : Machine → Tenancy → Prop
  | here : Onward machine house machine house
  | step {mid final : Machine} {between later : Tenancy} (onward : Onward machine house mid between)
      (step : Step mid between final later) : Onward machine house final later
  | overwritten {mid final : Machine} {between later : Tenancy} (onward : Onward machine house mid between)
      (overwrites : Overwrites mid between final later) : Onward machine house final later

/-- The name is that of somebody who is gone, and for whom no finalizer was called. -/
structure Forgotten (house : Tenancy) (name : Nat) : Prop where
  below : name < house.next
  absent : ∀ tenant ∈ house.tenants, tenant.name ≠ name
  uncalled : name ∉ house.finalized

section Step

variable (kept : Kept machine house)

include kept

theorem Kept.step (step : Step machine house final later) : Kept final later := by
  cases step with
  | operate apt ran => exact kept.operate apt ran
  | meanwhile goesOn => exact kept.meanwhile goesOn

theorem Kept.overwritten (overwrites : Overwrites machine house final later) : Kept final later := by
  obtain @⟨source, copy, tiling, entries, context, moved, inTarget, keepOwnership, _, accounted, listed, tagged,
    apart, agree, alike, ran⟩ := overwrites
  obtain ⟨divided, into⟩ := kept.accounted
  obtain ⟨_, refused, _⟩ | ⟨_, _, answered, _, taken, _, frames, _⟩ :=
    (accounted.copyInto_takes listed tagged into apart agree alike).of_run ran
  · cases refused
  · cases answered
    refine ⟨?_, kept.orderly.congr frames, ?_, kept.once, fun tenant member => ?_, fun name called => ?_⟩
    · rw [evicted, blocks_numbered]
      exact taken
    · rw [evicted, names_numbered]
      exact List.nodup_range'
    · obtain ⟨above, below⟩ := name_numbered member
      exact ⟨below, fun called => absurd (kept.below tenant.name called) (Nat.not_lt.mpr above)⟩
    · exact Nat.lt_add_right _ (kept.below name called)

/-- Nobody comes back, and calls are for those who are there. -/
theorem Forgotten.step (forgotten : house.Forgotten name) (step : Step machine house final later) :
    later.Forgotten name := by
  obtain ⟨tiling, accounted⟩ := kept.accounted
  cases step with
  | @operate _ _ op after answer apt ran =>
      have attended := attends accounted (op.departs accounted apt ran)
      refine ⟨Nat.lt_succ_of_lt forgotten.below, fun tenant member => ?_, fun called => ?_⟩
      · rcases mem_lodged.mp member with ⟨inHouse, _⟩ | ⟨named, _⟩
        · exact forgotten.absent tenant inHouse
        · exact named ▸ Nat.ne_of_gt forgotten.below
      · rcases List.mem_append.mp called with before | since
        · exact forgotten.uncalled before
        · obtain ⟨tenant, inHouse, same, _⟩ := exists_tenant attended since
          exact forgotten.absent tenant inHouse same
  | meanwhile goesOn =>
      refine ⟨goesOn.next ▸ forgotten.below, fun tenant member same => ?_, goesOn.finalized ▸ forgotten.uncalled⟩
      have named := List.mem_map_of_mem (f := Tenant.name) member
      rw [goesOn.names] at named
      obtain ⟨before, inHouse, alsoSame⟩ := List.mem_map.mp named
      exact forgotten.absent before inHouse (alsoSame.trans same)

omit kept in
theorem Forgotten.overwritten (forgotten : house.Forgotten name)
    (overwrites : Overwrites machine house final later) : later.Forgotten name := by
  obtain ⟨⟩ := overwrites
  refine ⟨Nat.lt_add_right _ forgotten.below, fun tenant member => ?_, forgotten.uncalled⟩
  exact Nat.ne_of_gt (Nat.lt_of_lt_of_le forgotten.below (name_numbered member).1)

/-- Who is evicted is forgotten. -/
theorem Kept.forgets {tenant : Tenant Nat} (member : tenant ∈ house.tenants)
    (overwrites : Overwrites machine house final later) : later.Forgotten tenant.name := by
  obtain ⟨below, uncalled⟩ := kept.present tenant member
  obtain ⟨⟩ := overwrites
  refine ⟨Nat.lt_add_right _ below, fun other arrived => ?_, uncalled⟩
  exact Nat.ne_of_gt (Nat.lt_of_lt_of_le below (name_numbered arrived).1)

/-- Who is forgotten stays so. -/
theorem Forgotten.onward (forgotten : house.Forgotten name) (onward : Onward machine house final later) :
    Kept final later ∧ later.Forgotten name := by
  induction onward with
  | here => exact ⟨kept, forgotten⟩
  | step _ step ih => exact ⟨ih.1.step step, ih.2.step ih.1 step⟩
  | overwritten _ overwrites ih => exact ⟨ih.1.overwritten overwrites, ih.2.overwritten overwrites⟩

end Step

/-- Copying calls no finalizers. Whoever lives in a heap that is overwritten had no call before, and has none
afterwards, although the heap is the same and the storage is used again. -/
theorem copyInto_evicts :
    (∀ (source target : Heap) (context : Context) (inTarget : Value) (keepOwnership : Bool) (machine : Machine),
      machine.Silent ((source.copyInto context target inTarget keepOwnership).ending machine)) ∧
    ∀ (machine final : Machine) (house later : Tenancy), Reached machine house →
      Overwrites machine house final later →
      final.calls = machine.calls ∧ later.finalized = house.finalized ∧ later.heap.slabs = house.heap.slabs ∧
      (∃ tiling, later.heap.Accounted tiling final (blocks later.tenants)) ∧
      ∀ (ended : Machine) (last : Tenancy), Onward final later ended last →
        ∀ tenant ∈ house.tenants, tenant.name ∉ last.finalized ∧
          ∀ other ∈ last.tenants, other.name ≠ tenant.name := by
  have silent (source target : Heap) (context : Context) (inTarget : Value) (keepOwnership : Bool) :
      (source.copyInto context target inTarget keepOwnership).Respects Machine.Silent :=
    source.respects_copyInto context target inTarget keepOwnership
  refine ⟨fun source target context inTarget keepOwnership machine => ?_,
    fun machine final house later reached overwrites => ?_⟩
  · exact silent source target context inTarget keepOwnership machine
  · have kept := reached.kept
    have still := kept.overwritten overwrites
    refine ⟨?_, ?_, ?_, still.accounted, fun ended last onward tenant member => ?_⟩
    · obtain @⟨source, copy, _, _, context, _, inTarget, keepOwnership, _, _, _, _, _, _, _, ran⟩ := overwrites
      exact (silent source house.heap context inTarget keepOwnership).of_run ran
    · obtain ⟨⟩ := overwrites
      rfl
    · obtain @⟨source, copy, _, _, context, _, inTarget, keepOwnership, _, _, _, _, _, _, _, ran⟩ := overwrites
      rw [Heap.run_copyInto] at ran
      split at ran
      · cases ran
      · obtain ⟨_, _, _, answers⟩ := Action.of_run_bind ran
        cases answers
        rfl
    · have gone := ((kept.forgets member overwrites).onward still onward).2
      exact ⟨gone.uncalled, gone.absent⟩

/-- Founds two heaps that know a type with a finalizer, makes an object of it in the second one, copies the first
one over it, and collects what is there then. -/
def evict : Action (Option (Heap × Heap × Heap × Value × Answer × Machine × Heap × Heap)) := do
  let shapes := (ShapeTable.standard.register handle).1
  match ← Heap.new { initialSize := 256 } shapes {} with
  | .error _ => return none
  | .ok source =>
      match ← Heap.new { initialSize := 256 } shapes {} with
      | .error _ => return none
      | .ok target =>
          let first ← (Operation.make (.context none)).perform source
          let second ← (Operation.make (.context none)).perform target
          match first.2, second.2 with
          | .made (.ok context), .made (.ok inTarget) =>
              let third ← (Operation.make (.object ⟨inTarget.untagged⟩ 7 16)).perform second.1
              let before ← get
              match ← first.1.copyInto ⟨context.untagged⟩ third.1 inTarget false with
              | (_, .error _) => return none
              | (copy, .ok _) =>
                  let fourth ← (Operation.make (.context none)).perform copy
                  match fourth.2 with
                  | .made (.ok own) =>
                      let fifth ← (Operation.collect ⟨own.untagged⟩).perform fourth.1
                      return some (first.1, second.1, third.1, context, third.2, before, copy, fifth.1)
                  | _ => return none
          | _, _ => return none

/-- Whether the object was there when its heap was overwritten, and would have had a call when that was
collected. -/
def evicts : Option (Heap × Heap × Heap × Value × Answer × Machine × Heap × Heap) → Bool
  | some (first, second, third, context, .made (.ok object), before, copy, swept) =>
      second.shapes.get? 7 = some handle && third.shapes = first.shapes &&
        before.memory.tag context.untagged = Tag.context &&
        (⟨object.untagged, 16, .object⟩ : Block).awaits third.shapes before.memory &&
        copy.counters.collections < swept.counters.collections
  | _ => false

/-- What the evicted object goes through: its heap is overwritten, and collected from a context of its own. -/
theorem overwrites_of_evict {first second third copy swept : Heap} {context object : Value} {before final : Machine}
    (ran : evict.run {} = .ok (some (first, second, third, context, .made (.ok object), before, copy, swept)) final)
    (known : second.shapes.get? 7 = some handle) (alike : third.shapes = first.shapes)
    (tagged : before.memory.tag context.untagged = Tag.context) :
    ∃ machine house later ended last tenant, Reached before house ∧ Overwrites before house machine later ∧
      Onward machine later ended last ∧ house.heap = third ∧ later.heap = copy ∧ last.heap = swept ∧
      tenant ∈ house.tenants ∧ tenant.block = ⟨object.untagged, 16, .object⟩ := by
  unfold evict at ran
  obtain ⟨founded, machine, founds, ran⟩ := Action.of_run_bind ran
  obtain refusal | source := founded
  · cases ran
  obtain ⟨alsoFounded, machine1, alsoFounds, ran⟩ := Action.of_run_bind ran
  obtain refusal | target := alsoFounded
  · cases ran
  obtain ⟨⟨heap2, made2⟩, machine2, makes, ran⟩ := Action.of_run_bind ran
  obtain ⟨⟨heap3, made3⟩, machine3, alsoMakes, ran⟩ := Action.of_run_bind ran
  dsimp only at ran
  split at ran
  swap
  · cases ran
  next inTarget _ =>
  obtain ⟨⟨heap4, made4⟩, machine4, asks, ran⟩ := Action.of_run_bind ran
  obtain ⟨_, _, reads, ran⟩ := Action.of_run_bind ran
  cases reads
  obtain ⟨copied, machine5, copies, ran⟩ := Action.of_run_bind ran
  obtain ⟨taken, refusal | moved⟩ := copied
  · cases ran
  obtain ⟨⟨heap6, made6⟩, machine6, makesOwn, ran⟩ := Action.of_run_bind ran
  dsimp only at ran
  split at ran
  swap
  · cases ran
  next own =>
  obtain ⟨⟨heap7, stats⟩, machine7, collects, ends⟩ := Action.of_run_bind ran
  cases ends
  have confined := ShapeTable.confined_register (fun _ _ => ShapeTable.confined_standard) confined_handle
  have start : Account.Reached {} {} [] := .start Account.orderly_fresh
  have withBoth := (start.step (.found confined founds)).step (.found confined alsoFounds)
  have withContext := withBoth.step (.operate 0 rfl apt_context makes)
  have withContexts := withContext.step (.operate 1 rfl apt_context alsoMakes)
  have last {entries : List Block} {block : Block} : block ∈ entries ++ [block] :=
    List.mem_append_right _ (List.mem_singleton_self _)
  obtain ⟨mine, yours, kept, isContext, isObject⟩ : ∃ mine yours,
      Account.Kept {} before [⟨first, mine⟩, ⟨third, yours⟩] ∧ Listed mine context.untagged ∧
        ⟨object.untagged, (Order.object ⟨inTarget.untagged⟩ 7 16).footprint, .object⟩ ∈ yours :=
    ⟨_, _, (withContexts.step (.operate 1 rfl (apt_handle known ⟨_, last, rfl⟩) asks)).kept, ⟨_, last, rfl⟩, last⟩
  have rounded : (Order.object ⟨inTarget.untagged⟩ 7 16).footprint = 16 := by
    rw [Order.footprint, Order.size]
    decide
  obtain ⟨tiling, accounted⟩ := kept.accounted 0 _ rfl
  obtain ⟨divided, into⟩ := kept.accounted 1 _ rfl
  have reached : Reached before ⟨third, numbered 0 yours, yours.length, []⟩ := by
    refine .start ⟨divided, by rwa [blocks_numbered]⟩ kept.orderly ?_ fun tenant member => ?_
    · rw [names_numbered]
      exact List.nodup_range'
    · exact Nat.zero_add yours.length ▸ (name_numbered member).2
  obtain ⟨later, overwrites, rfl⟩ : ∃ later,
      Overwrites before ⟨third, numbered 0 yours, yours.length, []⟩ machine5 later ∧ later.heap = copy :=
    ⟨_, .copyInto accounted isContext tagged (kept.apart 0 1 _ _ rfl rfl (by decide))
      (fun _ _ _ => by rw [alike]) ((kept.features 1 _ rfl).trans (kept.features 0 _ rfl).symm) copies, rfl⟩
  obtain ⟨between, withOwn, rfl, inhabited⟩ : ∃ between, Onward machine5 later machine6 between ∧
      between.heap = heap6 ∧ Listed (blocks between.tenants) own.untagged :=
    ⟨_, Onward.here.step (.operate apt_context makesOwn), rfl, listed_made⟩
  have onward := withOwn.step (.operate (by exact inhabited) collects)
  rw [rounded, ← @blocks_numbered 0 yours] at isObject
  obtain ⟨tenant, member, lives⟩ := List.mem_map.mp isObject
  exact ⟨machine5, _, _, _, _, tenant, reached, overwrites, onward, rfl, rfl, rfl, member, lives⟩

/-- The object is gone without a call, although its heap was collected. -/
theorem copyInto_evicts_handle : ∃ machine final house later ended last tenant,
    Reached machine house ∧ Overwrites machine house final later ∧ Onward final later ended last ∧
    later.heap.counters.collections < last.heap.counters.collections ∧ tenant ∈ house.tenants ∧
    tenant.block.awaits house.heap.shapes machine.memory = true ∧ final.calls = machine.calls ∧
    tenant.name ∉ last.finalized := by
  have made : evict.passes {} evicts = true := by decide +kernel
  obtain ⟨answer, final, ran, outcome⟩ := Action.ensures_of_passes made
  unfold evicts at outcome
  split at outcome
  swap
  · exact absurd outcome Bool.false_ne_true
  next first second third context object before copy swept =>
  simp only [Bool.and_eq_true, decide_eq_true_eq] at outcome
  obtain ⟨⟨⟨⟨known, alike⟩, tagged⟩, awaits⟩, collected⟩ := outcome
  obtain ⟨machine, house, later, ended, last, tenant, reached, overwrites, onward, rfl, rfl, rfl, member, lives⟩ :=
    overwrites_of_evict ran known alike tagged
  obtain ⟨silent, _, _, _, forgets⟩ := copyInto_evicts.2 _ _ _ _ reached overwrites
  exact ⟨before, machine, house, later, ended, last, tenant, reached, overwrites, onward, collected, member,
    lives ▸ awaits, silent, (forgets _ _ onward tenant member).1⟩

/-- Copies a heap with a context over one with an object that has a finalizer and that the heap owns. The answer
is whether the object awaited its finalizer before, whether its storage is free afterwards, and how many
finalizers were called. -/
def givesUp : ExceptT HeapError Action (Bool × Bool × Nat) := do
  let source ← ExceptT.mk (Heap.new { initialSize := 256 } .standard {})
  let target ← ExceptT.mk (Heap.new { initialSize := 256 } (ShapeTable.standard.register handle).1 {})
  let (source, answer) ← source.makeContext none
  let context ← ExceptT.mk (pure answer)
  let (target, answer) ← target.makeContext none
  let inTarget ← ExceptT.mk (pure answer)
  let (target, answer) ← target.allocateObject inTarget 7 16
  let object ← ExceptT.mk (pure answer)
  let before ← get
  let (copy, answer) ← source.copyInto context target inTarget.toValue false
  let _ ← ExceptT.mk (pure answer)
  let after ← get
  let free := copy.lastSlab.freeBlocks after.memory
  return ((⟨object, 16, .object⟩ : Block).awaits target.shapes before.memory,
    free.any fun (start, size) => start ≤ object ∧ object + 16 ≤ start + size, after.calls.length)

/-- The storage of an object that awaits its finalizer is given up without a call. -/
theorem copyInto_gives_up :
    givesUp.run.Ensures {} fun answer _ => answer = .ok (true, true, 0) :=
  Action.ensures_ok_of_passes (by decide +kernel)

end Tenancy

end SlabHeap
