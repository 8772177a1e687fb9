import SlabHeap.Proofs.Histories
import SlabHeap.Proofs.Staying

namespace SlabHeap

/-! Who lives in a heap, and who was finalized.

Storage is used again, so that addresses do not tell objects apart. A `Tenant` is a block in use under a
name that no other block ever has. `Tenancy.Step` is what happens to one heap: an operation, or anything
else that leaves the blocks in use as they are. `Tenancy.Reached.finalizes_once` follows the tenants through
every run: each finalizer is called at most once, for a tenant that leaves and awaits the call.
-/

open Block

/-- A block in use, under a name of its own. -/
structure Tenant (ι : Type) where
  name : ι
  block : Block

namespace Tenant

variable {ι : Type} {tenants : List (Tenant ι)} {tenant other : Tenant ι} {heap after : Heap}
  {machine final : Machine} {tiling : Slab → List Block} {op : Operation} {answer : Answer}
  {keeps : Block → Prop}

def blocks (tenants : List (Tenant ι)) : List Block := tenants.map Tenant.block

def called? (tenants : List (Tenant ι)) (call : Nat × Memory) : Option ι :=
  (tenants.find? fun tenant => tenant.block.start = call.1).map Tenant.name

open Classical in
/-- The tenants whose blocks are kept. -/
noncomputable def staying (keeps : Block → Prop) (tenants : List (Tenant ι)) : List (Tenant ι) :=
  tenants.filter fun tenant => keeps tenant.block

theorem mem_staying : tenant ∈ staying keeps tenants ↔ tenant ∈ tenants ∧ keeps tenant.block := by
  simp [staying]

/-- The tenants of a heap after an operation: those that stay, and perhaps one with a new name. -/
noncomputable def lodged (op : Operation) (heap after : Heap) (machine : Machine) (answer : Answer)
    (name : ι) (tenants : List (Tenant ι)) : List (Tenant ι) :=
  staying (op.Keeps heap after machine (blocks tenants)) tenants ++
    ((op.made answer).map (Tenant.mk name)).toList

theorem blocks_lodged {name : ι} : blocks (lodged op heap after machine answer name tenants) =
    op.ledger heap after machine (blocks tenants) answer := by
  classical
  rw [Operation.ledger_eq, lodged, blocks, List.map_append, staying, blocks, List.filter_map]
  refine congrArg₂ _ (congrArg _ (List.filter_congr fun tenant _ => ?_)) ?_
  · exact decide_eq_decide.mpr .rfl
  · cases op.made answer with
    | none => rfl
    | some block => rfl

section Lodged

variable {name : ι}

theorem mem_lodged : tenant ∈ lodged op heap after machine answer name tenants ↔
    tenant ∈ tenants ∧ op.Keeps heap after machine (blocks tenants) tenant.block ∨
      tenant.name = name ∧ op.made answer = some tenant.block := by
  rw [lodged, List.mem_append, mem_staying, Option.mem_toList]
  refine or_congr_right ?_
  cases op.made answer with
  | none => simp
  | some block =>
      obtain ⟨own, place⟩ := tenant
      simp [eq_comm]

/-- The new tenant is told apart from those that stay. -/
theorem nodup_lodged {κ : Type} {key : Tenant ι → κ} (distinct : (tenants.map key).Nodup)
    (fresh : ∀ tenant ∈ tenants, ∀ block, key tenant ≠ key ⟨name, block⟩) :
    ((lodged op heap after machine answer name tenants).map key).Nodup := by
  rw [lodged, List.map_append, List.nodup_append]
  refine ⟨distinct.sublist (List.filter_sublist.map _), ?_, fun stayed stays arrived isNew => ?_⟩
  · cases op.made answer with
    | none => exact .nil
    | some block => exact List.nodup_singleton _
  · obtain ⟨tenant, member, rfl⟩ := List.mem_map.mp stays
    obtain ⟨arrival, isMade, rfl⟩ := List.mem_map.mp isNew
    obtain ⟨block, _, rfl⟩ := Option.map_eq_some_iff.mp (Option.mem_toList.mp isMade)
    exact fresh tenant (mem_staying.mp member).1 block

/-- What an order answers refers to the new tenant. -/
theorem listed_made {order : Order} {value : Value} :
    Listed (blocks (lodged (.make order) heap after machine (.made (.ok value)) name tenants))
      value.untagged :=
  ⟨_, List.mem_map.mpr ⟨⟨name, _⟩, mem_lodged.mpr (.inr ⟨rfl, rfl⟩), rfl⟩, rfl⟩

/-- Without a collection everyone stays. -/
theorem listed_stays {address : Nat} (listed : Listed (blocks tenants) address)
    (stays : ∀ block, op.Keeps heap after machine (blocks tenants) block) :
    Listed (blocks (lodged op heap after machine answer name tenants)) address := by
  obtain ⟨_, member, starts⟩ := listed
  obtain ⟨tenant, inhabits, rfl⟩ := List.mem_map.mp member
  exact ⟨_, List.mem_map.mpr ⟨tenant, mem_lodged.mpr (.inl ⟨inhabits, stays _⟩), rfl⟩, starts⟩

end Lodged

variable (accounted : heap.Accounted tiling machine (blocks tenants))

include accounted

theorem eq_of_start_eq (member : tenant ∈ tenants) (otherMember : other ∈ tenants)
    (same : tenant.block.start = other.block.start) : tenant = other := by
  have apart := accounted.records.disjoint accounted.consistent.tiled
  rw [blocks, List.pairwise_map] at apart
  by_contra distinct
  have symmetric : Std.Symm fun first second : Tenant ι => first.block.Disjoint second.block :=
    ⟨fun first second apart => apart.symm⟩
  have disjoint := apart.forall member otherMember distinct
  have large := (accounted.records.whole _ (List.mem_map_of_mem member)).1
  have otherLarge := (accounted.records.whole _ (List.mem_map_of_mem otherMember)).1
  simp only [Block.Disjoint, Block.stop, blockUnit] at *
  omega

/-- A call is for the tenant that lives at the address. -/
theorem called?_eq (member : tenant ∈ tenants) {call : Nat × Memory} (here : call.1 = tenant.block.start) :
    called? tenants call = some tenant.name := by
  unfold called?
  cases found : tenants.find? fun tenant => tenant.block.start = call.1 with
  | none =>
      have absent := List.find?_eq_none.mp found tenant member
      simp [here] at absent
  | some other =>
      have starts := List.find?_some found
      rw [decide_eq_true_eq, here] at starts
      rw [eq_of_start_eq accounted (List.mem_of_find?_eq_some found) member starts]
      rfl

theorem names_called {leaving : List Block} {made : List (Nat × Memory)} {memory : Memory}
    (called : List.Forall₂ (heap.Called memory) leaving made)
    (tenanted : ∀ block ∈ leaving, ∃ tenant ∈ tenants, tenant.block = block) :
    List.Forall₂ (fun block name => ⟨name, block⟩ ∈ tenants) leaving (made.filterMap (called? tenants)) := by
  induction called with
  | nil => exact .nil
  | @cons block call leaving made here _ ih =>
      obtain ⟨inhabited, others⟩ := List.forall_mem_cons.mp tenanted
      obtain ⟨tenant, member, rfl⟩ := inhabited
      rw [List.filterMap_cons_some (called?_eq accounted member here.address)]
      exact .cons member (ih others)

end Tenant

/-- Between two machines, finalizers were called for the tenants of a heap with these names: those that
await the calls and are not kept, in the order of their blocks. -/
def Heap.Attends {ι : Type} (heap : Heap) (machine final : Machine) (keeps : Block → Prop)
    (tenants : List (Tenant ι)) (names : List ι) : Prop :=
  ∃ tiling made, heap.Tiled machine.memory tiling ∧ final.calls = machine.calls ++ made ∧
    List.Forall₂ (heap.Called machine.memory) (heap.leaving machine keeps (heap.blocks tiling)) made ∧
    List.Forall₂ (fun block name => ⟨name, block⟩ ∈ tenants)
      (heap.leaving machine keeps (heap.blocks tiling)) names

namespace Tenant

variable {ι : Type} {tenants : List (Tenant ι)} {tenant : Tenant ι} {heap after : Heap}
  {machine final : Machine} {tiling : Slab → List Block} {op : Operation} {answer : Answer}
  {keeps : Block → Prop} {names : List ι}

def finalizedBetween (tenants : List (Tenant ι)) (machine final : Machine) : List ι :=
  (final.calls.drop machine.calls.length).filterMap (called? tenants)

/-- Calls for the objects that leave are calls for their tenants. -/
theorem attends (accounted : heap.Accounted tiling machine (blocks tenants))
    (departs : heap.Departs tiling machine final keeps) :
    heap.Attends machine final keeps tenants (finalizedBetween tenants machine final) := by
  obtain ⟨made, calls, called⟩ := departs
  have since : final.calls.drop machine.calls.length = made := by
    rw [calls, List.drop_left]
  refine ⟨tiling, made, accounted.consistent.tiled, calls, called, ?_⟩
  rw [finalizedBetween, since]
  refine names_called accounted called fun block leaves => ?_
  obtain ⟨member, awaits⟩ := List.mem_filter.mp leaves
  rw [Bool.and_eq_true] at awaits
  have listed := (accounted.records.mem_iff_of_object (kind_of_awaits awaits.2)).mpr member
  obtain ⟨tenant, inhabits, same⟩ := List.mem_map.mp listed
  exact ⟨tenant, inhabits, same⟩

theorem nodup_of_named {leaving : List Block} (distinct : (tenants.map Tenant.name).Nodup)
    (nodup : leaving.Nodup)
    (named : List.Forall₂ (fun block name => ⟨name, block⟩ ∈ tenants) leaving names) : names.Nodup := by
  induction named with
  | nil => exact .nil
  | cons here later ih =>
      obtain ⟨fresh, nodup⟩ := List.nodup_cons.mp nodup
      refine List.nodup_cons.mpr ⟨fun again => ?_, ih nodup⟩
      obtain ⟨block, listed, inhabits⟩ := forall₂_partner later.flip again
      have same := List.inj_on_of_nodup_map distinct here inhabits rfl
      obtain rfl : _ = block := congrArg Tenant.block same
      exact fresh listed

section Attended

variable (attended : heap.Attends machine final keeps tenants names)
  (distinct : (tenants.map Tenant.name).Nodup)

include attended distinct

theorem nodup_names : names.Nodup := by
  obtain ⟨shown, made, tiled, _, _, named⟩ := attended
  exact nodup_of_named distinct (tiled.nodup_blocks.filter _) named

/-- The tenants called for are those that leave and await it. -/
theorem mem_names_iff (accounted : heap.Accounted tiling machine (blocks tenants))
    (member : tenant ∈ tenants) : tenant.name ∈ names ↔
      ¬ keeps tenant.block ∧ tenant.block.awaits heap.shapes machine.memory = true := by
  obtain ⟨shown, made, tiled, _, _, named⟩ := attended
  have leaves : tenant.block ∈ heap.leaving machine keeps (heap.blocks shown) ↔
      ¬ keeps tenant.block ∧ tenant.block.awaits heap.shapes machine.memory = true := by
    rw [Heap.leaving, List.mem_filter, Bool.and_eq_true, Bool.not_eq_true', decide_eq_false_iff_not,
      and_iff_right_iff_imp]
    intro leaves
    rw [tiled.blocks_eq accounted.consistent.tiled]
    have isObject := kind_of_awaits leaves.2
    exact (accounted.records.mem_iff_of_object isObject).mp (List.mem_map_of_mem member)
  rw [← leaves]
  constructor
  · intro listed
    obtain ⟨block, departs, inhabits⟩ := forall₂_partner named.flip listed
    have same := List.inj_on_of_nodup_map distinct member inhabits rfl
    exact congrArg Tenant.block same ▸ departs
  · intro departs
    obtain ⟨name, listed, inhabits⟩ := forall₂_partner named departs
    have same := eq_of_start_eq accounted member inhabits rfl
    exact congrArg Tenant.name same ▸ listed

omit distinct in
/-- Only tenants are called for. -/
theorem exists_tenant {name : ι} (listed : name ∈ names) :
    ∃ tenant ∈ tenants, tenant.name = name ∧ ¬ keeps tenant.block := by
  obtain ⟨shown, made, tiled, _, _, named⟩ := attended
  obtain ⟨block, departs, inhabits⟩ := forall₂_partner named.flip listed
  have leaves := (List.mem_filter.mp departs).2
  rw [Bool.and_eq_true, Bool.not_eq_true', decide_eq_false_iff_not] at leaves
  exact ⟨_, inhabits, rfl, leaves.1⟩

end Attended

end Tenant

/-- A heap, those who live in it, and those who were finalized. -/
structure Tenancy where
  heap : Heap
  tenants : List (Tenant Nat)
  /-- The name of the next tenant. -/
  next : Nat
  /-- The names of those whose finalizers were called, in the order of the calls. -/
  finalized : List Nat

namespace Tenancy

open Tenant

variable {machine mid final : Machine} {house later : Tenancy} {op : Operation} {after : Heap}
  {answer : Answer}

/-- The house after an operation. -/
noncomputable def operated (house : Tenancy) (machine final : Machine) (op : Operation) (after : Heap)
    (answer : Answer) : Tenancy where
  heap := after
  tenants := lodged op house.heap after machine answer house.next house.tenants
  next := house.next + 1
  finalized := house.finalized ++ finalizedBetween house.tenants machine final

/-- Something else happened, which left the blocks in use where they were. Storage without a header may
have become an object. -/
structure Meanwhile (machine : Machine) (house : Tenancy) (final : Machine) (later : Tenancy) : Prop where
  slabs : later.heap.slabs = house.heap.slabs
  accounted : ∃ tiling, later.heap.Accounted tiling final (blocks later.tenants)
  orderly : final.Orderly
  tenants : List.Forall₂ (fun before after => after.name = before.name ∧
    after.block.start = before.block.start ∧ after.block.size = before.block.size ∧
    (before.block.kind = .object → after.block.kind = .object)) house.tenants later.tenants
  next : later.next = house.next
  finalized : later.finalized = house.finalized
  calls : ∃ made, final.calls = machine.calls ++ made ∧ ∀ call ∈ made, house.heap.contains call.1 = false

/-- One thing that happens to a heap. -/
inductive Step : Machine → Tenancy → Machine → Tenancy → Prop
  | operate {machine final : Machine} {house : Tenancy} {op : Operation} {after : Heap} {answer : Answer}
      (apt : op.Apt house.heap machine (Listed (blocks house.tenants)))
      (ran : (op.perform house.heap).run machine = .ok (after, answer) final) :
      Step machine house final (house.operated machine final op after answer)
  | meanwhile {machine final : Machine} {house later : Tenancy}
      (goesOn : house.Meanwhile machine final later) : Step machine house final later

/-- All that can happen to a heap, whose blocks in use all have names. -/
inductive Reached : Machine → Tenancy → Prop
  | start {machine : Machine} {heap : Heap} {tenants : List (Tenant Nat)} {next : Nat}
      (accounted : ∃ tiling, heap.Accounted tiling machine (blocks tenants)) (orderly : machine.Orderly)
      (distinct : (tenants.map Tenant.name).Nodup) (below : ∀ tenant ∈ tenants, tenant.name < next) :
      Reached machine ⟨heap, tenants, next, []⟩
  | step {machine final : Machine} {house later : Tenancy} (reached : Reached machine house)
      (step : Step machine house final later) : Reached final later

/-- Names are told apart, and no tenant was finalized. -/
structure Kept (machine : Machine) (house : Tenancy) : Prop where
  accounted : ∃ tiling, house.heap.Accounted tiling machine (blocks house.tenants)
  orderly : machine.Orderly
  distinct : (house.tenants.map Tenant.name).Nodup
  once : house.finalized.Nodup
  present : ∀ tenant ∈ house.tenants, tenant.name < house.next ∧ tenant.name ∉ house.finalized
  below : ∀ name ∈ house.finalized, name < house.next

theorem Kept.operate (kept : Kept machine house)
    (apt : op.Apt house.heap machine (Listed (blocks house.tenants)))
    (ran : (op.perform house.heap).run machine = .ok (after, answer) final) :
    Kept final (house.operated machine final op after answer) := by
  obtain ⟨tiling, accounted⟩ := kept.accounted
  have proceeds := op.keeps accounted kept.orderly apt ran
  have attended := attends accounted (op.departs accounted apt ran)
  have gone (name : Nat)
      (listed : name ∈ finalizedBetween house.tenants machine final) :
      name < house.next ∧ name ∉ house.finalized := by
    obtain ⟨tenant, member, rfl, _⟩ := exists_tenant attended listed
    exact kept.present tenant member
  refine ⟨?_, proceeds.orderly, ?_, ?_, fun tenant member => ?_, fun name listed => ?_⟩
  · obtain ⟨taken, still⟩ := proceeds.accounted
    refine ⟨taken, ?_⟩
    rw [operated, blocks_lodged]
    exact still
  · exact nodup_lodged kept.distinct fun tenant member _ => Nat.ne_of_lt (kept.present tenant member).1
  · refine List.nodup_append.mpr ⟨kept.once, nodup_names attended kept.distinct, ?_⟩
    intro name before other listed same
    exact (gone other listed).2 (same ▸ before)
  · have notGone (fresh : tenant.name ∉ house.finalized)
        (stays : tenant.name ∉ finalizedBetween house.tenants machine final) :
        tenant.name ∉ (house.operated machine final op after answer).finalized := by
      intro listed
      exact (List.mem_append.mp listed).elim fresh stays
    rcases mem_lodged.mp member with ⟨inHouse, keeps⟩ | ⟨named, _⟩
    · obtain ⟨below, fresh⟩ := kept.present tenant inHouse
      refine ⟨Nat.lt_succ_of_lt below, notGone fresh fun listed => ?_⟩
      exact ((mem_names_iff attended kept.distinct accounted inHouse).mp listed).1 keeps
    · refine ⟨named ▸ Nat.lt_succ_self _, notGone (fun listed => ?_) fun listed => ?_⟩
      · exact Nat.lt_irrefl _ (named ▸ kept.below tenant.name listed)
      · exact Nat.lt_irrefl _ (named ▸ (gone tenant.name listed).1)
  · rcases List.mem_append.mp listed with before | new
    · exact Nat.lt_succ_of_lt (kept.below name before)
    · exact Nat.lt_succ_of_lt (gone name new).1

theorem Meanwhile.names (goesOn : house.Meanwhile machine final later) :
    later.tenants.map Tenant.name = house.tenants.map Tenant.name := by
  have related := goesOn.tenants
  generalize house.tenants = before at related
  generalize later.tenants = after at related
  induction related with
  | nil => rfl
  | cons here _ ih => rw [List.map_cons, List.map_cons, here.1, ih]

theorem Kept.meanwhile (kept : Kept machine house) (goesOn : house.Meanwhile machine final later) :
    Kept final later where
  accounted := goesOn.accounted
  orderly := goesOn.orderly
  distinct := goesOn.names ▸ kept.distinct
  once := goesOn.finalized ▸ kept.once
  present tenant member := by
    have named := List.mem_map_of_mem (f := Tenant.name) member
    rw [goesOn.names] at named
    obtain ⟨before, inHouse, same⟩ := List.mem_map.mp named
    rw [goesOn.next, goesOn.finalized, ← same]
    exact kept.present before inHouse
  below := goesOn.next ▸ goesOn.finalized ▸ kept.below

/-- What every step keeps holds of every run. -/
theorem Reached.kept (reached : Reached machine house) : Kept machine house := by
  induction reached with
  | start accounted orderly distinct below =>
      exact ⟨accounted, orderly, distinct, .nil, fun tenant member => ⟨below tenant member, by simp⟩, by simp⟩
  | step _ step ih =>
      cases step with
      | operate apt ran => exact ih.operate apt ran
      | meanwhile goesOn => exact ih.meanwhile goesOn

/-- What an operation does about finalizers: it calls for those who leave and await it, in the order of their
blocks, and they see their objects as they were. -/
structure Dismisses (machine : Machine) (house : Tenancy) (op : Operation) (after : Heap) (final : Machine)
    (later : Tenancy) : Prop where
  attends : ∃ names, later.finalized = house.finalized ++ names ∧ house.heap.Attends machine final
    (op.Keeps house.heap after machine (blocks house.tenants)) house.tenants names
  leavers : ∀ tenant ∈ house.tenants, tenant ∉ later.tenants →
    (tenant.name ∈ later.finalized ↔ tenant.block.awaits house.heap.shapes machine.memory = true)

theorem Kept.dismisses (kept : Kept machine house)
    (apt : op.Apt house.heap machine (Listed (blocks house.tenants)))
    (ran : (op.perform house.heap).run machine = .ok (after, answer) final) :
    house.Dismisses machine op after final (house.operated machine final op after answer) := by
  obtain ⟨tiling, accounted⟩ := kept.accounted
  have attended := attends accounted (op.departs accounted apt ran)
  refine ⟨⟨_, rfl, attended⟩, fun tenant member leaves => ?_⟩
  have lost : ¬ op.Keeps house.heap after machine (blocks house.tenants) tenant.block := fun keeps =>
    leaves (mem_lodged.mpr (.inl ⟨member, keeps⟩))
  rw [operated, List.mem_append, or_iff_right (kept.present tenant member).2,
    mem_names_iff attended kept.distinct accounted member, and_iff_right lost]

/-- Nobody is finalized without a call. -/
theorem Reached.length_finalized (reached : Reached machine house) :
    house.finalized.length ≤ machine.calls.length := by
  induction reached with
  | start => exact Nat.zero_le _
  | step reached step ih =>
      cases step with
      | meanwhile goesOn =>
          obtain ⟨made, calls, _⟩ := goesOn.calls
          rw [goesOn.finalized, calls, List.length_append]
          exact Nat.le_add_right_of_le ih
      | operate apt ran =>
          obtain ⟨names, same, tiling, made, _, calls, called, named⟩ :=
            (reached.kept.dismisses apt ran).attends
          rw [same, calls, List.length_append, List.length_append, ← named.length_eq, called.length_eq]
          exact Nat.add_le_add_right ih _

section Elsewhere

variable {other : Heap} {entries : List Block} {context : Context} {keepOwnership : Bool}

/-- What leaves the heap consistent with the same blocks goes on elsewhere. -/
theorem Kept.elsewhere (kept : Kept machine house)
    (consistent : ∀ tiling, house.heap.Consistent tiling machine → house.heap.Consistent tiling final)
    (orderly : final.Orderly) (calls : ∃ made, final.calls = machine.calls ++ made ∧
      ∀ call ∈ made, house.heap.contains call.1 = false) : house.Meanwhile machine final house where
  slabs := rfl
  accounted := by
    obtain ⟨tiling, accounted⟩ := kept.accounted
    exact ⟨tiling, consistent tiling accounted.consistent, accounted.records⟩
  orderly := orderly
  tenants := List.forall₂_same.mpr fun _ _ => ⟨rfl, rfl, rfl, id⟩
  next := rfl
  finalized := rfl
  calls := calls

/-- A fork of the heap goes on elsewhere. -/
theorem Kept.forks (kept : Kept machine house) (listed : Listed (blocks house.tenants) context.address)
    (tagged : machine.memory.tag context.address = Tag.context)
    {made : Except HeapError (Heap × Context)}
    (ran : (house.heap.fork context keepOwnership).run machine = .ok made final) :
    house.Meanwhile machine final house := by
  obtain ⟨tiling, accounted⟩ := kept.accounted
  have silent : machine.Silent final := (house.heap.respects_fork context keepOwnership).of_run ran
  have none : ∃ made, final.calls = machine.calls ++ made ∧
      ∀ call ∈ made, house.heap.contains call.1 = false :=
    ⟨[], silent.trans (List.append_nil _).symm, by simp⟩
  rcases (accounted.fork_arises listed tagged).of_run ran with ⟨_, _, rfl⟩ | ⟨copy, moved, _, _, _, arises, _⟩
  · exact kept.elsewhere (fun _ consistent => consistent) kept.orderly none
  · exact kept.elsewhere (fun _ consistent => consistent.extended arises.reserved)
      (kept.orderly.congr arises.reserved.frames) none

end Elsewhere

/-- In every run, no tenant is finalized twice, none is finalized before it leaves, free storage is what no
tenant lives in, and every operation finalizes those tenants that leave and await it. A collection does so
even where it fails to count the bytes that it freed. -/
theorem Reached.finalizes_once (reached : Reached machine house) :
    house.finalized.Nodup ∧ (∀ tenant ∈ house.tenants, tenant.name ∉ house.finalized) ∧
    (∀ slab ∈ house.heap.slabs, slab.Canonical (blocks house.tenants) machine.memory) ∧
    (blocks house.tenants).Pairwise Block.Disjoint ∧
    (∀ (op : Operation) (after : Heap) (answer : Answer) (final : Machine),
      op.Apt house.heap machine (Listed (blocks house.tenants)) →
      (op.perform house.heap).run machine = .ok (after, answer) final →
      house.Dismisses machine op after final (house.operated machine final op after answer)) ∧
    ∀ context, Listed (blocks house.tenants) context.address →
      ∃ names, house.heap.Attends machine ((house.heap.collect context).ending machine)
        (house.heap.Spares machine (house.heap.roots (some context))) house.tenants names := by
  have kept := reached.kept
  obtain ⟨tiling, accounted⟩ := kept.accounted
  refine ⟨kept.once, fun tenant member => (kept.present tenant member).2, fun slab inHeap => ?_, ?_, ?_, ?_⟩
  · exact accounted.canonical_slab inHeap
  · exact accounted.records.disjoint accounted.consistent.tiled
  · exact fun op after answer final apt ran => kept.dismisses apt ran
  · intro context listed
    refine ⟨_, attends accounted (accounted.consistent.collectFrom_departs fun handle isRoot => ?_)⟩
    obtain rfl := Option.some.inj isRoot
    exact accounted.denotes_handle listed

/-- A type of objects without slots that have a finalizer. -/
def handle : Shape := { name := "handle", size := { base := 16 }, strong := .none, finalized := true }

theorem confined_handle : handle.Confined := by
  intro memory object size sized
  refine ⟨sized, by simp [Shape.lengths, handle, SlotRun.none], fun offset slot => ?_⟩
  have count : handle.strong.slotCount memory object = 0 := rfl
  have weak : handle.weak = none := rfl
  simp [Shape.Slot, Shape.StrongSlot, Shape.WeakSlot, Shape.DependentSlot, count, weak] at slot

section Apt

variable {heap : Heap} {allocated : Nat → Prop}

theorem apt_context : (Operation.make (.context none)).Apt heap machine allocated :=
  ⟨⟨fun typed => typed.elim, by simp⟩, by simp [Order.root], by simp [Order.held]⟩

theorem apt_handle {root : Context} (known : heap.shapes.get? 7 = some handle)
    (inUse : allocated root.address) : (Operation.make (.object root 7 16)).Apt heap machine allocated := by
  refine ⟨⟨fun typed => typed.elim, fun root tag size same => ?_⟩, fun other isRoot => ?_, by simp [Order.held]⟩
  · cases same
    exact ⟨handle, known, rfl, rfl⟩
  · cases isRoot
    exact inUse

end Apt

/-- Makes a context and an object with a finalizer, forks the heap and collects it. -/
def dismiss : Action (Option (Heap × Value × Heap × Machine × Machine)) := do
  match ← Heap.new { initialSize := 256 } .standard {} with
  | .error _ => return none
  | .ok heap =>
      let first ← (Operation.register handle).perform heap
      let second ← (Operation.make (.context none)).perform first.1
      match second.2 with
      | .made (.ok context) =>
          let third ← (Operation.make (.object ⟨context.untagged⟩ 7 16)).perform second.1
          let before ← get
          let _ ← third.1.fork ⟨context.untagged⟩ false
          let middle ← get
          let _ ← (Operation.collect ⟨context.untagged⟩).perform third.1
          return some (second.1, context, third.1, before, middle)
      | _ => return none

/-- Whether the object was made without a collection, and nothing was called before the heap was collected. -/
def dismisses : Option (Heap × Value × Heap × Machine × Machine) → Bool
  | some (second, context, third, before, middle) => second.shapes.get? 7 = some handle &&
      third.counters.collections = second.counters.collections &&
      before.memory.tag context.untagged = Tag.context && middle.calls.length = 0
  | none => false

theorem finalizes_once_dismissed : ∃ machine house, Reached machine house ∧ machine.calls.length = 1 ∧
    house.finalized.length = 1 ∧ house.finalized.Nodup ∧
    ∀ tenant ∈ house.tenants, tenant.name ∉ house.finalized := by
  have made : dismiss.passes {} dismisses = true := by decide +kernel
  have called : dismiss.leaves {} (fun final => final.calls.length = 1) = true := by decide +kernel
  obtain ⟨answer, final, ran, outcome⟩ := Action.ensures_of_passes made
  rw [Action.leaves_eq ran, decide_eq_true_eq] at called
  unfold dismisses at outcome
  split at outcome
  swap
  · exact absurd outcome Bool.false_ne_true
  next second context third before middle =>
  simp only [Bool.and_eq_true, decide_eq_true_eq] at outcome
  obtain ⟨⟨⟨known, same⟩, tagged⟩, silent⟩ := outcome
  unfold dismiss at ran
  obtain ⟨founded, machine, founds, ran⟩ := Action.of_run_bind ran
  cases founded with
  | error refusal => cases ran
  | ok heap =>
      obtain ⟨⟨typed, tag⟩, machine1, registers, ran⟩ := Action.of_run_bind ran
      obtain ⟨⟨heap2, made2⟩, machine2, makes, ran⟩ := Action.of_run_bind ran
      dsimp only at ran
      split at ran
      swap
      · cases ran
      next told =>
      obtain ⟨⟨heap3, made3⟩, machine3, asks, rest⟩ := Action.of_run_bind ran
      obtain ⟨_, _, reads, rest⟩ := Action.of_run_bind rest
      cases reads
      obtain ⟨forked, machine5, forks, rest⟩ := Action.of_run_bind rest
      obtain ⟨_, _, reads, rest⟩ := Action.of_run_bind rest
      cases reads
      obtain ⟨⟨heap7, stats⟩, machine7, collects, ends⟩ := Action.of_run_bind rest
      cases ends
      have born := (Heap.new_arises fun _ _ known => ShapeTable.confined_standard known).of_run founds
      obtain ⟨_, absent, _⟩ | ⟨_, found, _, arises⟩ := born
      · cases absent
      cases found
      have orderly := Account.orderly_fresh.congr arises.reserved.frames
      have start : Reached machine ⟨heap, [], 0, []⟩ := .start arises.accounted orderly .nil (by simp)
      have withType := start.step (.operate (by exact confined_handle) registers)
      obtain ⟨house2, withContext, named2, inhabited⟩ : ∃ house, Reached machine2 house ∧
          house.heap = second ∧ Listed (blocks house.tenants) context.untagged :=
        ⟨_, withType.step (.operate apt_context makes), rfl, listed_made⟩
      subst named2
      obtain ⟨house3, withObject, rfl, stays⟩ : ∃ house, Reached before house ∧
          house.heap = heap3 ∧ Listed (blocks house.tenants) context.untagged :=
        ⟨_, withContext.step (.operate (apt_handle known inhabited) asks), rfl, listed_stays inhabited fun _ => .inl same⟩
      have forked := withObject.step (.meanwhile (withObject.kept.forks stays tagged forks))
      have nobody : house3.finalized = [] := List.eq_nil_of_length_eq_zero
        (Nat.le_zero.mp (silent ▸ forked.length_finalized))
      have swept := forked.step (.operate (by exact stays) collects)
      obtain ⟨_, _, _, _, dismissed, _⟩ := forked.finalizes_once
      obtain ⟨names, finalized, _, calls, _, joined, seen, named⟩ :=
        (dismissed (.collect ⟨context.untagged⟩) heap7 stats final (by exact stays) collects).attends
      obtain ⟨once, gone, _⟩ := swept.finalizes_once
      refine ⟨final, _, swept, called, ?_, once, gone⟩
      rw [joined, List.length_append, silent, seen.length_eq.symm, named.length_eq] at called
      rw [finalized, nobody, List.nil_append]
      omega

end Tenancy

end SlabHeap
