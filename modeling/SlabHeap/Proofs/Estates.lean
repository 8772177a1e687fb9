import SlabHeap.Proofs.Ownership
import SlabHeap.Proofs.Tenants

namespace SlabHeap

/-! Who is finalized where there are views.

An object has a serial, which its copies share, and every copy is known for one: a `Deed` says both. The
heaps that a program founds, forks and copies into each other make an `Estate`, whose history of finalizers
`Estate.Reached` tells. `Estate.Reached.finalizes_makers` says that no serial is finalized twice, and none by a
heap other than the one that made the object.
-/

open Block

/-- What an object is known by: its serial, and whether it is a copy. -/
structure Deed where
  serial : Nat
  copied : Bool

/-- A heap, and those who live in it. -/
structure House where
  heap : Heap
  tenants : List (Tenant Deed)

structure Estate where
  houses : List House
  /-- The indices of the heaps that made the objects, by serial. -/
  homes : List Nat
  /-- Whose finalizers were called, oldest first, and by the collections of which heaps. -/
  finalized : List (Nat × Deed)

namespace House

open Tenant

variable {house other : House} {machine mid final : Machine} {homes moreHomes : List Nat}
  {finalized moreFinalized : List (Nat × Deed)} {index : Nat} {op : Operation} {after : Heap}
  {answer : Answer} {context : Context}

def account (house : House) : Account := ⟨house.heap, blocks house.tenants⟩

/-- A tenant of a copy of the heap: the same object, and not its own. -/
def copyTenant (house : House) (copy : Heap) (tenant : Tenant Deed) : Tenant Deed :=
  ⟨{ tenant.name with copied := true }, house.heap.lastSlab.moveBlock copy.lastSlab tenant.block⟩

theorem blocks_copied (house : House) (copy : Heap) : blocks (house.tenants.map (house.copyTenant copy)) =
    (blocks house.tenants).map (house.heap.lastSlab.moveBlock copy.lastSlab) := by
  rw [blocks, blocks, List.map_map, List.map_map]
  rfl

/-- The house of a copy. -/
def copied (house : House) : Except HeapError (Heap × Context) → Option House
  | .ok (copy, _) => some ⟨copy, house.tenants.map (house.copyTenant copy)⟩
  | .error _ => none

/-- Another house whose heap was to take a copy: the copies replace its tenants, unless it refused. -/
def overwritten (house other : House) : Heap × Except HeapError Context → House
  | (copy, .ok _) => ⟨copy, house.tenants.map (house.copyTenant copy)⟩
  | (heap, .error _) => ⟨heap, other.tenants⟩

/-- The house after an operation, which may make an object with the next serial. -/
noncomputable def operated (house : House) (machine : Machine) (op : Operation) (after : Heap)
    (answer : Answer) (serial : Nat) : House :=
  ⟨after, lodged op house.heap after machine answer ⟨serial, false⟩ house.tenants⟩

/-- A program wrote into the objects of the heap, but for their flags of ownership. -/
structure Writes (house : House) (machine final : Machine) : Prop where
  accounted : ∃ tiling, house.heap.Accounted tiling final (blocks house.tenants)
  orderly : final.Orderly
  within : house.heap.Within house.heap machine final
  owns : ∀ tenant ∈ house.tenants, tenant.block.kind = .object →
    final.memory.owns tenant.block.start = machine.memory.owns tenant.block.start
  silent : machine.Silent final

/-- Tenants are told apart by their serials, and the heap at the index owns those that it made, none of
which was finalized. -/
structure Settled (house : House) (machine : Machine) (homes : List Nat) (finalized : List (Nat × Deed))
    (index : Nat) : Prop where
  owns : ∀ tenant ∈ house.tenants, tenant.block.kind = .object →
    machine.memory.owns tenant.block.start = !tenant.name.copied
  distinct : (house.tenants.map (·.name.serial)).Nodup
  known : ∀ tenant ∈ house.tenants, tenant.name.serial < homes.length
  own : ∀ tenant ∈ house.tenants, tenant.name.copied = false →
    homes[tenant.name.serial]? = some index ∧ ∀ entry ∈ finalized, entry.2.serial ≠ tenant.name.serial

namespace Settled

variable (settled : house.Settled machine homes finalized index)

include settled

/-- What other heaps finalize is none of theirs. -/
theorem keep (owns : ∀ tenant ∈ house.tenants, tenant.block.kind = .object →
      final.memory.owns tenant.block.start = machine.memory.owns tenant.block.start)
    (more : List (Nat × Deed)) (elsewhere : ∀ entry ∈ more, ∃ other ≠ index,
      homes[entry.2.serial]? = some other) (made : List Nat) :
    house.Settled final (homes ++ made) (finalized ++ more) index where
  owns tenant member isObject := (owns tenant member isObject).trans (settled.owns tenant member isObject)
  distinct := settled.distinct
  known tenant member := by
    rw [List.length_append]
    exact Nat.lt_add_right _ (settled.known tenant member)
  own tenant member native := by
    obtain ⟨home, alive⟩ := settled.own tenant member native
    refine ⟨?_, fun entry listed => ?_⟩
    · rw [List.getElem?_append_left (settled.known tenant member), home]
    · rcases List.mem_append.mp listed with before | since
      · exact alive entry before
      · intro same
        obtain ⟨other, differs, made⟩ := elsewhere entry since
        rw [same, home] at made
        exact differs (Option.some.inj made).symm

theorem eq_of_serial_eq {tenant other : Tenant Deed} (member : tenant ∈ house.tenants)
    (otherMember : other ∈ house.tenants) (same : tenant.name.serial = other.name.serial) : tenant = other :=
  List.inj_on_of_nodup_map settled.distinct member otherMember same

theorem distinct_names : (house.tenants.map Tenant.name).Nodup := by
  have distinct := settled.distinct
  rw [show house.tenants.map (·.name.serial) = (house.tenants.map Tenant.name).map Deed.serial from
    (List.map_map ..).symm] at distinct
  exact distinct.of_map

/-- Those who await a finalizer are objects that the heap made, of types with finalizers. -/
theorem awaits_iff {tenant : Tenant Deed} (member : tenant ∈ house.tenants) :
    tenant.block.awaits house.heap.shapes machine.memory = true ↔
      tenant.name.copied = false ∧ tenant.block.kind = .object ∧
        ∃ shape, house.heap.shapes.get? (machine.memory.tag tenant.block.start) = some shape ∧
          shape.finalized = true := by
  rw [awaits, Bool.and_eq_true, Bool.and_eq_true, decide_eq_true_eq, Option.any_eq_true]
  constructor
  · intro awaits
    obtain ⟨⟨isObject, typed⟩, owned⟩ := awaits
    have owns := settled.owns tenant member isObject
    rw [Memory.owns, owned] at owns
    exact ⟨by simpa using owns.symm, isObject, typed⟩
  · intro makers
    obtain ⟨native, isObject, typed⟩ := makers
    have owns := settled.owns tenant member isObject
    rw [native] at owns
    exact ⟨⟨isObject, typed⟩, owns⟩

section Operated

variable {tiling : Slab → List Block} (accounted : house.heap.Accounted tiling machine (blocks house.tenants))
  (orderly : machine.Orderly) (apt : op.Apt house.heap machine (Listed (blocks house.tenants)))
  (ran : (op.perform house.heap).run machine = .ok (after, answer) final)

include accounted apt ran

/-- Only tenants that the heap made are finalized, as they leave. -/
theorem native_of_finalized {deed : Deed} (isGone : deed ∈ finalizedBetween house.tenants machine final) :
    ∃ tenant ∈ house.tenants, tenant.name = deed ∧ tenant.name.copied = false ∧
      ¬ op.Keeps house.heap after machine (blocks house.tenants) tenant.block := by
  have attended := attends accounted (op.departs accounted apt ran)
  obtain ⟨tenant, member, rfl, leaves⟩ := exists_tenant attended isGone
  have awaits := ((mem_names_iff attended settled.distinct_names accounted member).mp isGone).2
  exact ⟨tenant, member, rfl, ((settled.awaits_iff member).mp awaits).1, leaves⟩

theorem nodup_finalized :
    (((finalizedBetween house.tenants machine final).map (Prod.mk index)).map (·.2.serial)).Nodup := by
  have attended := attends accounted (op.departs accounted apt ran)
  rw [List.map_map]
  refine List.Nodup.map_on (fun deed isGone other alsoGone same => ?_)
    (nodup_names attended settled.distinct_names)
  obtain ⟨tenant, member, rfl, _⟩ := exists_tenant attended isGone
  obtain ⟨another, alsoMember, rfl, _⟩ := exists_tenant attended alsoGone
  rw [settled.eq_of_serial_eq member alsoMember same]

include orderly

/-- The tenants that an operation leaves are settled, and so is one that it makes. -/
theorem operate (home : ∀ entry ∈ finalized, entry.2.serial < homes.length) :
    (house.operated machine op after answer homes.length).Settled final (homes ++ [index])
      (finalized ++ (finalizedBetween house.tenants machine final).map (Prod.mk index)) index := by
  refine ⟨fun tenant member isObject => ?_, ?_, fun tenant member => ?_, fun tenant member native => ?_⟩
  · rcases mem_lodged.mp member with ⟨inHouse, keeps⟩ | ⟨named, isNew⟩
    · rw [op.owns_kept accounted orderly apt ran (List.mem_map_of_mem inHouse) isObject keeps]
      exact settled.owns tenant inHouse isObject
    · rw [op.owns_made accounted apt ran isNew isObject, named]
      rfl
  · exact nodup_lodged settled.distinct fun tenant inHouse _ => Nat.ne_of_lt (settled.known tenant inHouse)
  · rw [List.length_append]
    rcases mem_lodged.mp member with ⟨inHouse, _⟩ | ⟨named, _⟩
    · exact Nat.lt_add_right _ (settled.known tenant inHouse)
    · rw [named]
      exact Nat.lt_succ_self _
  · have split {entry : Nat × Deed} (listed : entry ∈
          finalized ++ (finalizedBetween house.tenants machine final).map (Prod.mk index)) :
        entry ∈ finalized ∨ ∃ other ∈ house.tenants, entry.2 = other.name ∧
          ¬ op.Keeps house.heap after machine (blocks house.tenants) other.block := by
      rcases List.mem_append.mp listed with before | since
      · exact .inl before
      · obtain ⟨deed, isGone, rfl⟩ := List.mem_map.mp since
        obtain ⟨other, inHouse, rfl, _, leaves⟩ := settled.native_of_finalized accounted apt ran isGone
        exact .inr ⟨other, inHouse, rfl, leaves⟩
    rcases mem_lodged.mp member with ⟨inHouse, keeps⟩ | ⟨named, _⟩
    · obtain ⟨place, alive⟩ := settled.own tenant inHouse native
      refine ⟨?_, fun entry listed same => ?_⟩
      · rw [List.getElem?_append_left (settled.known tenant inHouse), place]
      · obtain before | ⟨other, otherHouse, named, leaves⟩ := split listed
        · exact alive entry before same
        · rw [named] at same
          exact leaves (settled.eq_of_serial_eq otherHouse inHouse same ▸ keeps)
    · rw [named]
      refine ⟨List.getElem?_concat_length, fun entry listed => ?_⟩
      obtain before | ⟨other, otherHouse, same, _⟩ := split listed
      · exact Nat.ne_of_lt (home entry before)
      · rw [same]
        exact Nat.ne_of_lt (settled.known other otherHouse)

end Operated

/-- The tenants of a copy are copies. -/
theorem copies {copy : Heap} (headed : Heap.Headed house.heap.lastSlab copy.lastSlab false machine.memory
      final.memory (blocks house.tenants)) (place : Nat) :
    House.Settled ⟨copy, house.tenants.map (house.copyTenant copy)⟩ final homes finalized place where
  owns tenant member isObject := by
    obtain ⟨original, listed, rfl⟩ := List.mem_map.mp member
    exact headed.owns (List.mem_map_of_mem listed) isObject rfl
  distinct := by
    rw [List.map_map]
    exact settled.distinct
  known tenant member := by
    obtain ⟨original, listed, rfl⟩ := List.mem_map.mp member
    exact settled.known original listed
  own tenant member native := by
    obtain ⟨original, listed, rfl⟩ := List.mem_map.mp member
    cases native

end Settled

end House

namespace Estate

open Tenant House

variable {features : Features} {machine final : Machine} {estate later : Estate} {house other : House}
  {index : Nat} {op : Operation} {after : Heap} {answer : Answer}

/-- The estate after an operation of one heap. -/
noncomputable def operated (estate : Estate) (machine final : Machine) (index : Nat) (house : House)
    (op : Operation) (after : Heap) (answer : Answer) : Estate where
  houses := estate.houses.set index (house.operated machine op after answer estate.homes.length)
  homes := estate.homes ++ [index]
  finalized := estate.finalized ++ (finalizedBetween house.tenants machine final).map (Prod.mk index)

def opened : Except HeapError Heap → Option House
  | .ok heap => some ⟨heap, []⟩
  | .error _ => none

/-- One thing that a program does with heaps that are views of each other. A heap that is copied into knows
the types of what it takes by the same tags. -/
inductive Step (features : Features) : Machine → Estate → Machine → Estate → Prop
  | found {machine final : Machine} {estate : Estate} {settings : Settings} {shapes : ShapeTable}
      {answer : Except HeapError Heap}
      (confined : ∀ tag shape, shapes.get? tag = some shape → shape.Confined)
      (ran : (Heap.new settings shapes features).run machine = .ok answer final) :
      Step features machine estate final { estate with houses := estate.houses ++ (opened answer).toList }
  | operate {machine final : Machine} {estate : Estate} {house : House} {after : Heap} {op : Operation}
      {answer : Answer} (index : Nat) (listed : estate.houses[index]? = some house)
      (apt : op.Apt house.heap machine (Listed (blocks house.tenants)))
      (ran : (op.perform house.heap).run machine = .ok (after, answer) final) :
      Step features machine estate final (estate.operated machine final index house op after answer)
  | write {machine final : Machine} {estate : Estate} {house : House} (index : Nat)
      (listed : estate.houses[index]? = some house) (writes : house.Writes machine final) :
      Step features machine estate final estate
  | fork {machine final : Machine} {estate : Estate} {house : House} {context : Context}
      {answer : Except HeapError (Heap × Context)} (index : Nat)
      (listed : estate.houses[index]? = some house) (handles : house.account.Handles machine context)
      (ran : (house.heap.fork context false).run machine = .ok answer final) :
      Step features machine estate final
        { estate with houses := estate.houses ++ (house.copied answer).toList }
  | copyInto {machine final : Machine} {estate : Estate} {house other : House} {context : Context}
      {inTarget : Value} {answer : Heap × Except HeapError Context} (source target : Nat)
      (distinct : source ≠ target) (listed : estate.houses[source]? = some house)
      (alsoListed : estate.houses[target]? = some other) (handles : house.account.Handles machine context)
      (agree : ∀ tenant ∈ house.tenants, tenant.block.kind = .object →
        other.heap.shapes.get? (machine.memory.tag tenant.block.start) =
          house.heap.shapes.get? (machine.memory.tag tenant.block.start))
      (ran : (house.heap.copyInto context other.heap inTarget false).run machine = .ok answer final) :
      Step features machine estate final
        { estate with houses := estate.houses.set target (house.overwritten other answer) }

/-- What comes about when a program starts without heaps. -/
inductive Reached (features : Features) : Machine → Estate → Prop
  | start {machine : Machine} (orderly : machine.Orderly) (silent : machine.calls = []) :
      Reached features machine ⟨[], [], []⟩
  | step {machine final : Machine} {estate later : Estate} (reached : Reached features machine estate)
      (step : Step features machine estate final later) : Reached features final later

/-- All heaps are accounted for, their tenants are settled, and whoever was finalized was so once, at
home. -/
structure Kept (features : Features) (machine : Machine) (estate : Estate) : Prop where
  accounts : Account.Kept features machine (estate.houses.map House.account)
  settled : ∀ (index : Nat) (house : House), estate.houses[index]? = some house →
    house.Settled machine estate.homes estate.finalized index
  once : (estate.finalized.map (·.2.serial)).Nodup
  home : ∀ entry ∈ estate.finalized, entry.2.copied = false ∧
    estate.homes[entry.2.serial]? = some entry.1
  counted : machine.calls.length = estate.finalized.length

namespace Kept

variable (kept : Kept features machine estate)

include kept

omit kept in
theorem account_of_listed (listed : estate.houses[index]? = some house) :
    (estate.houses.map House.account)[index]? = some house.account := by
  rw [List.getElem?_map, listed]
  rfl

theorem accounted (listed : estate.houses[index]? = some house) :
    ∃ tiling, house.heap.Accounted tiling machine (blocks house.tenants) :=
  kept.accounts.accounted index house.account (account_of_listed listed)

theorem apart {place : Nat} (listed : estate.houses[index]? = some house)
    (alsoListed : estate.houses[place]? = some other) (distinct : index ≠ place) :
    house.heap.Apart other.heap :=
  kept.accounts.apart index place house.account other.account (account_of_listed listed)
    (account_of_listed alsoListed) distinct

theorem features_eq (listed : estate.houses[index]? = some house) : house.heap.features = features :=
  kept.accounts.features index house.account (account_of_listed listed)

theorem add (house : House) (arises : house.heap.Arises machine final (blocks house.tenants))
    (same : house.heap.features = features) (silent : machine.Silent final)
    (settled : house.Settled final estate.homes estate.finalized estate.houses.length) :
    Kept features final { estate with houses := estate.houses ++ [house] } where
  accounts := by
    have joined := kept.accounts.add arises same
    rw [List.map_append]
    exact joined
  settled place found there := by
    rcases getElem?_concat_cases there with before | ⟨rfl, rfl⟩
    · obtain ⟨tiling, accounted⟩ := kept.accounted before
      have untouched := accounted.consistent.untouched arises.reserved
      have still := (kept.settled place found before).keep (fun tenant member _ =>
        accounted.records.owns untouched (List.mem_map_of_mem member)) [] (by simp) []
      simpa using still
    · exact settled
  once := kept.once
  home := kept.home
  counted := by rw [silent, kept.counted]

theorem change (listed : estate.houses[index]? = some house) (orderly : final.Orderly)
    (accounted : ∃ tiling, other.heap.Accounted tiling final (blocks other.tenants))
    (within : house.heap.Within other.heap machine final) (same : other.heap.features = features)
    {made : List Nat} {more : List (Nat × Deed)}
    (settled : other.Settled final (estate.homes ++ made) (estate.finalized ++ more) index)
    (calls : final.calls.length = machine.calls.length + more.length)
    (once : (more.map (·.2.serial)).Nodup)
    (home : ∀ entry ∈ more, ∃ tenant ∈ house.tenants, entry = (index, tenant.name) ∧
      tenant.name.copied = false) :
    Kept features final ⟨estate.houses.set index other, estate.homes ++ made, estate.finalized ++ more⟩ where
  accounts := by
    have changed := kept.accounts.change (account_of_listed listed) orderly accounted within same
    rw [List.map_set]
    exact changed
  settled place found there := by
    rcases getElem?_set_cases listed there with ⟨rfl, rfl⟩ | ⟨elsewhere, old⟩
    · exact settled
    · obtain ⟨tiling, before⟩ := kept.accounted old
      have untouched := within.untouched (kept.apart listed old (Ne.symm elsewhere)) before.consistent.hosted
      refine (kept.settled place found old).keep (fun tenant member _ =>
        before.records.owns untouched (List.mem_map_of_mem member)) more (fun entry isMore => ?_) made
      obtain ⟨tenant, member, rfl, native⟩ := home entry isMore
      exact ⟨index, Ne.symm elsewhere, ((kept.settled index house listed).own tenant member native).1⟩
  once := by
    rw [List.map_append]
    refine List.nodup_append.mpr ⟨kept.once, once, fun serial before again since same => ?_⟩
    obtain ⟨entry, old, rfl⟩ := List.mem_map.mp before
    obtain ⟨new, isMore, rfl⟩ := List.mem_map.mp since
    obtain ⟨tenant, member, rfl, native⟩ := home new isMore
    exact ((kept.settled index house listed).own tenant member native).2 entry old same
  home entry isListed := by
    have inHomes {serial place : Nat} (made? : estate.homes[serial]? = some place) :
        (estate.homes ++ made)[serial]? = some place := by
      rw [List.getElem?_append_left (List.getElem?_eq_some_iff.mp made?).1, made?]
    rcases List.mem_append.mp isListed with old | isMore
    · exact ⟨(kept.home entry old).1, inHomes (kept.home entry old).2⟩
    · obtain ⟨tenant, member, rfl, native⟩ := home entry isMore
      exact ⟨native, inHomes ((kept.settled index house listed).own tenant member native).1⟩
  counted := by rw [calls, kept.counted, List.length_append]

theorem operate (listed : estate.houses[index]? = some house)
    (apt : op.Apt house.heap machine (Listed (blocks house.tenants)))
    (ran : (op.perform house.heap).run machine = .ok (after, answer) final) :
    Kept features final (estate.operated machine final index house op after answer) := by
  obtain ⟨tiling, accounted⟩ := kept.accounted listed
  have settled := kept.settled index house listed
  have orderly := kept.accounts.orderly
  have proceeds := op.keeps accounted orderly apt ran
  refine kept.change listed proceeds.orderly ?_ proceeds.within
    (proceeds.features.trans (kept.features_eq listed)) (settled.operate accounted orderly apt ran ?_) ?_
    (settled.nodup_finalized accounted apt ran) fun entry isMore => ?_
  · obtain ⟨taken, still⟩ := proceeds.accounted
    refine ⟨taken, ?_⟩
    rw [House.operated, blocks_lodged]
    exact still
  · intro entry isListed
    exact (List.getElem?_eq_some_iff.mp (kept.home entry isListed).2).1
  · obtain ⟨_, made, _, calls, called, named⟩ := attends accounted (op.departs accounted apt ran)
    rw [calls, List.length_append, List.length_map, ← named.length_eq, called.length_eq]
  · obtain ⟨deed, isGone, rfl⟩ := List.mem_map.mp isMore
    obtain ⟨tenant, member, rfl, native, _⟩ := settled.native_of_finalized accounted apt ran isGone
    exact ⟨tenant, member, rfl, native⟩

theorem replace (other : House) (listed : estate.houses[index]? = some house) (orderly : final.Orderly)
    (accounted : ∃ tiling, other.heap.Accounted tiling final (blocks other.tenants))
    (within : house.heap.Within other.heap machine final) (same : other.heap.features = features)
    (settled : other.Settled final estate.homes estate.finalized index) (silent : machine.Silent final) :
    Kept features final { estate with houses := estate.houses.set index other } := by
  have still : other.Settled final (estate.homes ++ []) (estate.finalized ++ []) index := by
    simpa using settled
  have changed := kept.change listed orderly accounted within same still (by rw [silent]; rfl) .nil (by simp)
  simpa using changed

theorem step (step : Step features machine estate final later) : Kept features final later := by
  cases step with
  | found confined ran =>
      have silent : machine.Silent final := (Heap.respects_new _ _ _).of_run ran
      rcases (Heap.new_arises confined).of_run ran with ⟨_, rfl, rfl⟩ | ⟨heap, rfl, same, arises⟩
      · simpa [opened] using kept
      · exact kept.add ⟨heap, []⟩ arises same silent ⟨by simp, .nil, by simp, by simp⟩
  | @operate _ _ house after op answer index listed apt ran => exact kept.operate listed apt ran
  | @write _ _ house index listed writes =>
      -- The program wrote to memory. The heap and its tenants are the same.
      have settled := (kept.settled index house listed).keep writes.owns [] (by simp) []
      have written := kept.replace house listed writes.orderly writes.accounted writes.within
        (kept.features_eq listed) (by simpa using settled) writes.silent
      have unchanged : estate.houses.set index house = estate.houses := by
        obtain ⟨inside, rfl⟩ := List.getElem?_eq_some_iff.mp listed
        exact List.set_getElem_self inside
      rwa [unchanged] at written
  | @fork _ _ house context answer index listed handles ran =>
      obtain ⟨tiling, accounted⟩ := kept.accounted listed
      have silent : machine.Silent final := (house.heap.respects_fork _ _).of_run ran
      rcases (accounted.fork_arises handles.1 handles.2).of_run ran with
        ⟨_, rfl, rfl⟩ | ⟨copy, moved, rfl, same, _, arises, headed⟩
      · simpa [House.copied] using kept
      · exact kept.add ⟨copy, house.tenants.map (house.copyTenant copy)⟩
          (by rwa [blocks_copied])
          (same.trans (kept.features_eq listed)) silent
          ((kept.settled index house listed).copies headed _)
  | @copyInto _ _ house other context inTarget answer source target distinct listed alsoListed handles
      agree ran =>
      obtain ⟨tiling, accounted⟩ := kept.accounted listed
      obtain ⟨divided, into⟩ := kept.accounted alsoListed
      have build := kept.features_eq alsoListed
      have silent : machine.Silent final := (house.heap.respects_copyInto _ _ _ _).of_run ran
      have known : ∀ entry ∈ blocks house.tenants, entry.kind = .object →
          other.heap.shapes.get? (machine.memory.tag entry.start) =
            house.heap.shapes.get? (machine.memory.tag entry.start) := by
        intro entry inHouse isObject
        obtain ⟨tenant, member, rfl⟩ := List.mem_map.mp inHouse
        exact agree tenant member isObject
      rcases (accounted.copyInto_takes handles.1 handles.2 into (kept.apart listed alsoListed distinct)
        known (build.trans (kept.features_eq listed).symm)).of_run ran with
        ⟨_, rfl, rfl⟩ | ⟨copy, moved, rfl, same, taken, within, frames, headed⟩
      · have unchanged : estate.houses.set target other = estate.houses := by
          obtain ⟨inside, rfl⟩ := List.getElem?_eq_some_iff.mp alsoListed
          exact List.set_getElem_self inside
        simpa [House.overwritten, unchanged] using kept
      · exact kept.replace ⟨copy, house.tenants.map (house.copyTenant copy)⟩ alsoListed
          (kept.accounts.orderly.congr frames) (by rwa [blocks_copied]) within
          (same.trans build) ((kept.settled source house listed).copies headed _) silent

end Kept

theorem Reached.kept (reached : Reached features machine estate) : Kept features machine estate := by
  induction reached with
  | start orderly silent =>
      exact ⟨⟨orderly, by simp, by simp, by simp⟩, by simp, .nil, by simp, by rw [silent]; rfl⟩
  | step _ step ih => exact ih.step step

/-- What an operation of one heap does about finalizers: it calls for those tenants of the heap that leave and
that the heap made, if their types have finalizers. -/
structure Dismisses (machine : Machine) (estate : Estate) (index : Nat) (house : House) (op : Operation)
    (after : Heap) (answer : Answer) (final : Machine) : Prop where
  attends : ∃ names, (estate.operated machine final index house op after answer).finalized =
      estate.finalized ++ names.map (Prod.mk index) ∧
    house.heap.Attends machine final (op.Keeps house.heap after machine (blocks house.tenants))
      house.tenants names
  leavers : ∀ tenant ∈ house.tenants,
    tenant ∉ (house.operated machine op after answer estate.homes.length).tenants →
      ((index, tenant.name) ∈ (estate.operated machine final index house op after answer).finalized ↔
        tenant.name.copied = false ∧ tenant.block.kind = .object ∧
          ∃ shape, house.heap.shapes.get? (machine.memory.tag tenant.block.start) = some shape ∧
            shape.finalized = true)

theorem Kept.dismisses (kept : Kept features machine estate) (listed : estate.houses[index]? = some house)
    (apt : op.Apt house.heap machine (Listed (blocks house.tenants)))
    (ran : (op.perform house.heap).run machine = .ok (after, answer) final) :
    estate.Dismisses machine index house op after answer final := by
  obtain ⟨tiling, accounted⟩ := kept.accounted listed
  have settled := kept.settled index house listed
  have attended := attends accounted (op.departs accounted apt ran)
  refine ⟨⟨_, rfl, attended⟩, fun tenant member leaves => ?_⟩
  have lost : ¬ op.Keeps house.heap after machine (blocks house.tenants) tenant.block := fun keeps =>
    leaves (mem_lodged.mpr (.inl ⟨member, keeps⟩))
  rw [← settled.awaits_iff member]
  have called := mem_names_iff attended settled.distinct_names accounted member
  rw [and_iff_right lost] at called
  rw [← called, operated, List.mem_append]
  constructor
  · intro isListed
    rcases isListed with before | since
    · cases copied : tenant.name.copied with
      | true =>
          have native := (kept.home _ before).1
          rw [copied] at native
          cases native
      | false => exact absurd rfl ((settled.own tenant member copied).2 _ before)
    · obtain ⟨name, isGone, same⟩ := List.mem_map.mp since
      cases same
      exact isGone
  · intro isGone
    exact .inr (List.mem_map_of_mem isGone)

/-- In every tree of views, nobody is finalized twice, copies never are, and each object only by a collection
of the heap that made it, when that takes its storage. -/
theorem Reached.finalizes_makers (reached : Reached features machine estate) :
    (estate.finalized.map (·.2.serial)).Nodup ∧
    (∀ entry ∈ estate.finalized, entry.2.copied = false ∧ estate.homes[entry.2.serial]? = some entry.1) ∧
    machine.calls.length = estate.finalized.length ∧
    (∀ (index : Nat) (house : House), estate.houses[index]? = some house → ∀ tenant ∈ house.tenants,
      tenant.name.copied = false → estate.homes[tenant.name.serial]? = some index ∧
        ∀ entry ∈ estate.finalized, entry.2.serial ≠ tenant.name.serial) ∧
    ∀ (index : Nat) (house : House) (op : Operation) (after : Heap) (answer : Answer) (final : Machine),
      estate.houses[index]? = some house → op.Apt house.heap machine (Listed (blocks house.tenants)) →
      (op.perform house.heap).run machine = .ok (after, answer) final →
      estate.Dismisses machine index house op after answer final := by
  have kept := reached.kept
  refine ⟨kept.once, kept.home, kept.counted, fun index house listed tenant member native => ?_, ?_⟩
  · exact (kept.settled index house listed).own tenant member native
  · exact fun index house op after answer final listed apt ran => kept.dismisses listed apt ran

section Views

/-- Makes an object with a finalizer in a heap and another one in a view of it, and collects the view before
the heap. -/
def bequeath : Action (Option (Heap × Heap × Heap × Heap × Value × Machine × Machine × Machine)) := do
  match ← Heap.new { initialSize := 256 } .standard {} with
  | .error _ => return none
  | .ok heap =>
      let first ← (Operation.register Tenancy.handle).perform heap
      let second ← (Operation.make (.context none)).perform first.1
      match second.2 with
      | .made (.ok context) =>
          let third ← (Operation.make (.object ⟨context.untagged⟩ 7 16)).perform second.1
          let before ← get
          match ← third.1.fork ⟨context.untagged⟩ false with
          | .error _ => return none
          | .ok (copy, _) =>
              let fourth ← (Operation.make (.context none)).perform copy
              match fourth.2 with
              | .made (.ok own) =>
                  let fifth ← (Operation.make (.object ⟨own.untagged⟩ 7 16)).perform fourth.1
                  let ahead ← get
                  let _ ← (Operation.collect ⟨own.untagged⟩).perform fifth.1
                  let middle ← get
                  let _ ← (Operation.collect ⟨context.untagged⟩).perform third.1
                  return some (second.1, third.1, fourth.1, fifth.1, context, before, ahead, middle)
              | _ => return none
      | _ => return none

/-- What the collections find. -/
def bequeaths : Option (Heap × Heap × Heap × Heap × Value × Machine × Machine × Machine) → Bool
  | some (second, third, fourth, fifth, context, before, ahead, middle) =>
      second.shapes.get? 7 = some Tenancy.handle && fourth.shapes.get? 7 = some Tenancy.handle &&
        third.counters.collections = second.counters.collections &&
        fifth.counters.collections = fourth.counters.collections &&
        before.memory.tag context.untagged = Tag.context && ahead.calls.length = 0 &&
        middle.calls.length = 1
  | none => false

/-- Before the collections there are the heap and its view, and each of them may be collected. -/
theorem reached_of_bequeath {second third fourth fifth : Heap} {context : Value} {before ahead middle final : Machine}
    (ran : bequeath.run {} = .ok (some (second, third, fourth, fifth, context, before, ahead, middle)) final)
    (known : second.shapes.get? 7 = some Tenancy.handle) (alsoKnown : fourth.shapes.get? 7 = some Tenancy.handle)
    (same : third.counters.collections = second.counters.collections)
    (alsoSame : fifth.counters.collections = fourth.counters.collections)
    (tagged : before.memory.tag context.untagged = Tag.context) :
    ∃ estate mine yours own swept stats last more, Reached {} ahead estate ∧ estate.houses = [mine, yours] ∧
      (Operation.collect ⟨context.untagged⟩).Apt mine.heap middle (Listed (blocks mine.tenants)) ∧
      (Operation.collect own).Apt yours.heap ahead (Listed (blocks yours.tenants)) ∧
      ((Operation.collect own).perform yours.heap).run ahead = .ok (swept, stats) middle ∧
      ((Operation.collect ⟨context.untagged⟩).perform mine.heap).run middle = .ok (last, more) final := by
  unfold bequeath at ran
  obtain ⟨founded, machine, founds, ran⟩ := Action.of_run_bind ran
  cases founded with
  | error refusal => cases ran
  | ok heap =>
      obtain ⟨⟨typed, tag⟩, machine1, registers, ran⟩ := Action.of_run_bind ran
      obtain ⟨⟨heap2, made2⟩, machine2, makes, ran⟩ := Action.of_run_bind ran
      dsimp only at ran
      split at ran
      swap
      · cases ran
      next told =>
      obtain ⟨⟨heap3, made3⟩, machine3, asks, ran⟩ := Action.of_run_bind ran
      obtain ⟨_, _, reads, ran⟩ := Action.of_run_bind ran
      cases reads
      obtain ⟨forked, machine4, forks, ran⟩ := Action.of_run_bind ran
      cases forked with
      | error refusal => cases ran
      | ok duplicate =>
          obtain ⟨⟨heap5, made5⟩, machine5, makesOwn, ran⟩ := Action.of_run_bind ran
          dsimp only at ran
          split at ran
          swap
          · cases ran
          next own =>
          obtain ⟨⟨heap6, made6⟩, machine6, asksOwn, ran⟩ := Action.of_run_bind ran
          obtain ⟨_, _, reads, ran⟩ := Action.of_run_bind ran
          cases reads
          obtain ⟨⟨heap7, stats⟩, machine7, collectsView, ran⟩ := Action.of_run_bind ran
          obtain ⟨_, _, reads, ran⟩ := Action.of_run_bind ran
          cases reads
          obtain ⟨⟨heap8, more⟩, machine8, collects, ends⟩ := Action.of_run_bind ran
          cases ends
          have confined (tag : UInt8) (shape : Shape) (isStandard : ShapeTable.standard.get? tag = some shape) :
              shape.Confined := ShapeTable.confined_standard isStandard
          have start : Reached {} {} ⟨[], [], []⟩ := .start Account.orderly_fresh rfl
          have withHeap := start.step (.found confined founds)
          have withType := withHeap.step (.operate 0 rfl (by exact Tenancy.confined_handle) registers)
          obtain ⟨estate2, house2, withContext, only2, named2, inhabited⟩ : ∃ estate house,
              Reached {} machine2 estate ∧ estate.houses = [house] ∧ house.heap = second ∧
                Listed (blocks house.tenants) context.untagged :=
            ⟨_, _, withType.step (.operate 0 rfl Tenancy.apt_context makes), rfl, rfl, listed_made⟩
          subst named2
          obtain ⟨estate3, house3, withObject, only3, named3, stays⟩ : ∃ estate house,
              Reached {} before estate ∧ estate.houses = [house] ∧ house.heap = third ∧
                Listed (blocks house.tenants) context.untagged :=
            ⟨_, house2.operated machine2 (.make (.object ⟨context.untagged⟩ 7 16)) third made3 _,
              withContext.step (.operate 0 (by rw [only2]; rfl) (Tenancy.apt_handle known inhabited) asks),
              by rw [operated, only2]; rfl, rfl, listed_stays inhabited fun _ => Or.inl same⟩
          subst named3
          obtain ⟨estate4, house4, withView, both4, named4⟩ : ∃ estate house, Reached {} machine4 estate ∧
              estate.houses = [house3, house] ∧ house.heap = duplicate.1 :=
            ⟨_, _, withObject.step (.fork 0 (by rw [only3]; rfl) ⟨stays, tagged⟩ forks), by rw [only3]; rfl, rfl⟩
          obtain ⟨estate5, house5, withOwn, both5, named5, ownInhabited⟩ : ∃ estate house,
              Reached {} machine5 estate ∧ estate.houses = [house3, house] ∧ house.heap = fourth ∧
                Listed (blocks house.tenants) own.untagged :=
            ⟨_, _, withView.step (.operate 1 (by rw [both4]; rfl) Tenancy.apt_context (named4 ▸ makesOwn)),
              by rw [operated, both4]; rfl, rfl, listed_made⟩
          subst named5
          obtain ⟨estate6, house6, withBoth, both6, named6, ownStays⟩ : ∃ estate house,
              Reached {} ahead estate ∧ estate.houses = [house3, house] ∧ house.heap = heap6 ∧
                Listed (blocks house.tenants) own.untagged :=
            ⟨_, house5.operated machine5 (.make (.object ⟨own.untagged⟩ 7 16)) heap6 made6 _,
              withOwn.step (.operate 1 (by rw [both5]; rfl) (Tenancy.apt_handle alsoKnown ownInhabited) asksOwn),
              by rw [operated, both5]; rfl, rfl,
              listed_stays ownInhabited fun _ => Or.inl alsoSame⟩
          subst named6
          exact ⟨estate6, house3, house6, ⟨own.untagged⟩, heap7, stats, heap8, more, withBoth, both6, stays, ownStays,
            collectsView, collects⟩

theorem finalizes_makers_bequeathed : ∃ machine estate mine yours, Reached {} machine estate ∧
    machine.calls.length = 2 ∧ estate.finalized = [(1, yours), (0, mine)] ∧ yours.copied = false ∧
    mine.copied = false ∧ mine.serial ≠ yours.serial := by
  have made : bequeath.passes {} bequeaths = true := by decide +kernel
  have called : bequeath.leaves {} (fun final => final.calls.length = 2) = true := by decide +kernel
  obtain ⟨answer, final, ran, outcome⟩ := Action.ensures_of_passes made
  rw [Action.leaves_eq ran, decide_eq_true_eq] at called
  unfold bequeaths at outcome
  split at outcome
  swap
  · exact absurd outcome Bool.false_ne_true
  next second third fourth fifth context before ahead middle =>
  simp only [Bool.and_eq_true, decide_eq_true_eq] at outcome
  obtain ⟨⟨⟨⟨⟨⟨known, alsoKnown⟩, same⟩, alsoSame⟩, tagged⟩, silent⟩, once⟩ := outcome
  obtain ⟨estate, mine, yours, own, swept, stats, last, more, withBoth, houses, apt, viewApt, collectsView,
    collects⟩ := reached_of_bequeath ran known alsoKnown same alsoSame tagged
  have viewListed : estate.houses[1]? = some yours := by rw [houses]; rfl
  have heapListed : (estate.operated ahead middle 1 yours (.collect own) swept stats).houses[0]? = some mine := by
    rw [operated, houses]
    rfl
  have viewSwept := withBoth.step (.operate 1 viewListed viewApt collectsView)
  have heapSwept := viewSwept.step (.operate 0 heapListed apt collects)
  -- The view is collected first, which finalizes its own object, and then the heap its own.
  obtain ⟨_, _, nobody, _, dismisses⟩ := withBoth.finalizes_makers
  obtain ⟨yourNames, gone, _⟩ := (dismisses 1 yours _ _ _ _ viewListed viewApt collectsView).attends
  obtain ⟨_, _, one, _, dismissesMore⟩ := viewSwept.finalizes_makers
  obtain ⟨myNames, goneMore, _⟩ := (dismissesMore 0 mine _ _ _ _ heapListed apt collects).attends
  obtain ⟨distinct, native, both, _⟩ := heapSwept.finalizes_makers
  have nothing : estate.finalized = [] := List.eq_nil_of_length_eq_zero (nobody ▸ silent)
  rw [gone, nothing, List.nil_append, List.length_map] at one
  obtain ⟨your, rfl⟩ := List.length_eq_one_iff.mp (one ▸ once)
  rw [nothing, List.nil_append] at gone
  rw [goneMore, gone, List.length_append] at both
  have single : myNames.length = 1 := by
    rw [called, List.length_map, List.length_map, List.length_singleton] at both
    omega
  obtain ⟨my, rfl⟩ := List.length_eq_one_iff.mp single
  have finalized := goneMore.trans (congrArg (· ++ _) gone)
  rw [finalized] at distinct native
  refine ⟨final, _, my, your, heapSwept, called, finalized, (native (1, your) (by simp)).1,
    (native (0, my) (by simp)).1, fun equal => ?_⟩
  simp [equal] at distinct

/-- Makes an object behind the copy of another one, in a heap that knows the given types, and collects that
heap. The answer is whether the storage of the object is free then, and how many finalizers were called. -/
def callsBehindCopy (shapes : ShapeTable) : ExceptT HeapError Action (Bool × Nat) := do
  let small : Shape := { name := "small", size := { base := 16 }, strong := .none }
  let source ← ExceptT.mk (Heap.new { initialSize := 256 } (ShapeTable.standard.register small).1 {})
  let target ← ExceptT.mk (Heap.new { initialSize := 256 } (shapes.register Tenancy.handle).1 {})
  let (source, answer) ← source.makeContext none
  let context ← ExceptT.mk (pure answer)
  let (target, answer) ← target.makeContext none
  let inTarget ← ExceptT.mk (pure answer)
  let (source, answer) ← source.allocateObject context 7 16
  let _ ← ExceptT.mk (pure answer)
  let (copy, answer) ← source.copyInto context target inTarget.toValue false
  let copied ← ExceptT.mk (pure answer)
  let (copy, answer) ← copy.allocateObject copied 8 16
  let object ← ExceptT.mk (pure answer)
  let (copy, _) ← copy.collect copied
  let machine ← get
  let free := copy.lastSlab.freeBlocks machine.memory
  return (free.any fun (start, size) => start ≤ object ∧ object < start + size, machine.calls.length)

/-- Behind the copy of an object that the target takes to be larger, an object with a finalizer goes without
a call. It does not where the target knows the type as the source does. -/
theorem copyInto_hides :
    (callsBehindCopy (ShapeTable.standard.register
        { name := "large", size := { base := 48 }, strong := .none }).1).run.Ensures {}
      (fun answer _ => answer = .ok (true, 0)) ∧
    (callsBehindCopy (ShapeTable.standard.register
        { name := "small", size := { base := 16 }, strong := .none }).1).run.Ensures {}
      fun answer _ => answer = .ok (true, 1) := by
  constructor
  · exact Action.ensures_ok_of_passes (by decide +kernel)
  · exact Action.ensures_ok_of_passes (by decide +kernel)

end Views

end Estate

end SlabHeap
