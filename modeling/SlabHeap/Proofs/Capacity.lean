import SlabHeap.Proofs.Founding
import SlabHeap.Proofs.Operations

namespace SlabHeap

/-! How far heaps grow.

`Heap.Bounded` says that slabs are of legal sizes, that they are counted, and that together they stay
within the limit. An action on a heap answers a heap that `Heap.Grows` out of it: it has the same slabs
and perhaps more, and it is bounded if the first one was. This needs nothing of memory. In any run of a
program, `Program.Run`, all heaps are bounded, and none ever shrinks: `Program.Run.bounded_always`.
-/

theorem Slab.roundedSize?_exact {size rounded : Nat} (found : roundedSize? size = some rounded)
    (large : minSlabSize ≤ size) (whole : size % blockUnit = 0) : rounded = size := by
  have unit : (1 : Nat) <<< 4 = blockUnit := rfl
  rw [roundedSize?, Nat.max_eq_left large, ← unit] at found
  obtain ⟨lower, upper, aligned, _⟩ := Size.alignUp?_eq_some found
  simp only [blockUnit] at whole
  omega

/-- A slab has the size that was held against the limit of the heap, and its one free block has room for
the request. -/
structure Slab.Serves (slab : Slab) (heap : Heap) (request : Nat) (memory : Memory) : Prop where
  checked : heap.nextSize? request = some slab.size
  exact : Slab.roundedSize? slab.size = some slab.size
  large : minSlabSize ≤ slab.size
  whole : slab.size % blockUnit = 0
  free : slab.freeBlocks memory = [(slab.objects, slab.size - blockUnit)]
  room : ∃ rounded, Size.alignUp? request blockUnit = some rounded ∧ rounded ≤ slab.size - blockUnit
  limited : heap.settings.maxSize ≠ 0 → heap.totalSize + slab.size ≤ heap.settings.maxSize

namespace Heap

variable {heap mid after : Heap} {machine final : Machine} {slab : Slab} {request size : Nat}
  {context : Context}

/-- Slabs have legal sizes, the first one and all growths are counted, and the limit holds. -/
structure Bounded (heap : Heap) : Prop where
  sizes : ∀ slab ∈ heap.slabs, minSlabSize ≤ slab.size ∧ slab.size % blockUnit = 0
  limited : heap.settings.maxSize ≠ 0 → heap.totalSize ≤ heap.settings.maxSize
  counted : heap.slabs.length = 1 + heap.counters.growths

/-- The later heap has the slabs of the earlier one, and perhaps more. -/
structure Grows (heap after : Heap) : Prop where
  settings : after.settings = heap.settings
  slabs : heap.slabs <+: after.slabs
  bounded : heap.Bounded → after.Bounded

theorem Grows.of_same (settings : after.settings = heap.settings) (slabs : after.slabs = heap.slabs)
    (growths : after.counters.growths = heap.counters.growths) : heap.Grows after where
  settings := settings
  slabs := slabs ▸ List.prefix_rfl
  bounded bounded := by
    refine ⟨slabs ▸ bounded.sizes, ?_, by rw [slabs, growths, bounded.counted]⟩
    rw [settings, totalSize, slabs]
    exact bounded.limited

theorem Grows.refl (heap : Heap) : heap.Grows heap := .of_same rfl rfl rfl

theorem Grows.trans (first : heap.Grows mid) (second : mid.Grows after) : heap.Grows after where
  settings := second.settings.trans first.settings
  slabs := first.slabs.trans second.slabs
  bounded bounded := second.bounded (first.bounded bounded)

theorem Grows.totalSize_le (grows : heap.Grows after) : heap.totalSize ≤ after.totalSize := by
  obtain ⟨more, slabs⟩ := grows.slabs
  have larger (extra : Nat) : heap.slabs.foldr (fun slab total => slab.size + total) 0 ≤
      heap.slabs.foldr (fun slab total => slab.size + total) extra := by
    induction heap.slabs with
    | nil => exact Nat.zero_le _
    | cons slab rest ih => exact Nat.add_le_add_left ih _
  rw [totalSize, totalSize, ← slabs, List.foldr_append]
  exact larger _

theorem Bounded.lastSlab_large (bounded : heap.Bounded) : minSlabSize ≤ heap.lastSlab.size :=
  (bounded.sizes _ (List.getLast_mem _)).1

/-- The slab that a bounded heap gets has the size that was held against the limit. -/
theorem Bounded.size_eq (bounded : heap.Bounded) (sized : heap.nextSize? request = some size)
    (rounded : Slab.roundedSize? size = some slab.size) : slab.size = size :=
  Option.some.inj (rounded.symm.trans (nextSlabSize?_eq_some bounded.lastSlab_large sized).1)

theorem Bounded.grown (bounded : heap.Bounded) (sized : heap.nextSize? request = some slab.size) :
    (heap.grown slab).Bounded where
  sizes other listed := by
    obtain ⟨rounded, _⟩ := nextSlabSize?_eq_some bounded.lastSlab_large sized
    cases List.mem_append.mp listed with
    | inl inHeap => exact bounded.sizes other inHeap
    | inr isNew =>
        obtain rfl := List.mem_singleton.mp isNew
        obtain ⟨_, large, whole, _⟩ := Slab.roundedSize?_eq_some rounded
        exact ⟨large, whole⟩
  limited limited := by
    rw [totalSize_grown]
    exact (nextSlabSize?_eq_some bounded.lastSlab_large sized).2.2 limited
  counted := by
    have counted := bounded.counted
    simp only [Heap.grown, List.length_append, List.length_singleton]
    omega

/-- What `appendSlab` does, whatever memory holds. -/
theorem of_appendSlab {grew : Bool}
    (ran : (heap.appendSlab request).run machine = .ok (after, grew) final) :
    (grew = false ∧ after = heap) ∨ grew = true ∧ ∃ slab size,
      heap.nextSize? request = some size ∧ Slab.roundedSize? size = some slab.size ∧
        after = heap.grown slab ∧ slab.Created heap.shapes machine final := by
  unfold appendSlab at ran
  simp only at ran
  split at ran
  · obtain ⟨_, _, _, ends⟩ := Action.of_run_bind ran
    cases ends
    exact .inl ⟨rfl, rfl⟩
  · next size sized =>
    obtain ⟨answer, made, creates, goesOn⟩ := Action.of_run_bind ran
    have outcome := (Slab.ensures_create heap.shapes).of_run creates
    cases answer with
    | none =>
        obtain ⟨_, _, _, ends⟩ := Action.of_run_bind goesOn
        cases ends
        exact .inl ⟨rfl, rfl⟩
    | some slab =>
        obtain ⟨none, _⟩ | ⟨other, same, rounded, _, _, created⟩ := outcome
        · cases none
        obtain rfl := Option.some.inj same
        obtain ⟨_, counted, adds, notes⟩ := Action.of_run_bind goesOn
        obtain rfl : counted = made := Action.of_run_check adds
        obtain ⟨_, _, noted, counts⟩ := Action.of_run_bind notes
        cases noted
        cases (Action.of_run_count heap.counters.grow_eq counts).2
        exact .inr ⟨rfl, slab, size, sized, rounded, rfl, created.quiet (Machine.quiet_logging _ _)⟩

/-- A bounded heap gets one slab that serves the request. -/
theorem Bounded.serves (bounded : heap.Bounded)
    (ran : (heap.appendSlab request).run machine = .ok (after, true) final) :
    ∃ slab, after = heap.grown slab ∧ slab.Serves heap request final.memory := by
  obtain ⟨refused, _⟩ | ⟨_, slab, size, sized, rounded, same, created⟩ := of_appendSlab ran
  · contradiction
  obtain rfl := bounded.size_eq sized rounded
  obtain ⟨_, room, limited⟩ := nextSlabSize?_eq_some bounded.lastSlab_large sized
  obtain ⟨_, large, whole, small⟩ := Slab.roundedSize?_eq_some rounded
  refine ⟨slab, same, sized, rounded, large, whole, created.layout.freeBlocks_eq,
    ⟨(request + 15) / 16 * 16, ?_, ?_⟩, limited⟩
  · have unit : (1 : Nat) <<< 4 = blockUnit := rfl
    rw [← unit, Size.alignUp?_shift, unit, if_pos]
    · rfl
    · simp only [blockUnit] at *
      omega
  · simp only [blockUnit] at *
    omega

theorem answers_appendSlab (heap : Heap) (request : Nat) :
    (heap.appendSlab request).Answers fun answer => heap.Grows answer.1 := by
  intro machine answer final ran
  cases of_appendSlab ran with
  | inl refused =>
      obtain ⟨_, same⟩ := refused
      rw [same]
      exact .refl heap
  | inr added =>
      obtain ⟨_, slab, size, sized, rounded, same, _⟩ := added
      rw [same]
      refine ⟨rfl, List.prefix_append _ _, fun bounded => ?_⟩
      obtain rfl := bounded.size_eq sized rounded
      exact bounded.grown sized

theorem answers_growFor (heap : Heap) (swept : SweepStats) (request : Nat) :
    (heap.growFor swept request).Answers heap.Grows := by
  unfold growFor
  refine Action.answers_after fun memory => ?_
  refine Action.answers_after fun free => ?_
  refine Action.answers_after fun live => ?_
  split
  · simp only
    split
    · exact Action.answers_after fun _ => Action.answers_pure (.refl heap)
    · exact (answers_appendSlab heap request).bind fun _ grows => Action.answers_pure grows
  · exact Action.answers_pure (.refl heap)

theorem answers_finishCollection (heap : Heap) (context : Option Context) :
    (heap.finishCollection context).Answers fun answer => heap.Grows answer.1 := by
  intro machine answer final ran
  rw [answers_finishCollection_counted heap context machine answer final ran]
  exact .of_same rfl rfl rfl

theorem answers_collectFrom (heap : Heap) (context : Option Context) :
    (heap.collectFrom context).Answers fun answer => heap.Grows answer.1 :=
  Action.answers_after fun _ => answers_finishCollection heap context

theorem answers_collectWithSnapshot (heap : Heap) (context : Context) (snapshot : Snapshot) :
    (heap.collectWithSnapshot context snapshot).Answers fun answer => heap.Grows answer.1 :=
  Action.answers_after fun _ => Action.answers_after fun _ =>
    answers_finishCollection heap (some context)

theorem answers_allocateBlock (heap : Heap) (context : Option Context) (size : Nat) :
    (heap.allocateBlock context size).Answers fun answer => heap.Grows answer.1 := by
  have counted (heap : Heap) : heap.Grows heap.refused := .of_same rfl rfl rfl
  unfold allocateBlock
  split
  · refine Action.answers_count heap.countRefusal_eq fun _ => ?_
    exact Action.answers_after fun _ => Action.answers_pure (counted heap)
  · refine Action.answers_after fun first => ?_
    cases first with
    | some block => exact Action.answers_pure (.refl heap)
    | none =>
        refine (answers_collectFrom heap context).bind fun collected grows => ?_
        refine (answers_growFor collected.1 collected.2 _).bind fun after further => ?_
        refine Action.answers_after fun second => ?_
        have whole := grows.trans further
        cases second with
        | some block => exact Action.answers_pure whole
        | none =>
            refine Action.answers_count after.countRefusal_eq fun _ => ?_
            exact Action.answers_after fun _ => Action.answers_pure (whole.trans (counted after))

theorem answers_allocate (heap : Heap) (context : Context) (size : Nat) :
    (heap.allocate context size).Answers fun answer => heap.Grows answer.1 := by
  unfold allocate
  refine (answers_allocateBlock heap (some context) size).bind fun answer grows => ?_
  obtain ⟨after, given⟩ := answer
  cases given with
  | error refusal => exact Action.answers_pure grows
  | ok block => exact Action.answers_after fun _ => Action.answers_pure grows

theorem answers_allocateTagged (heap : Heap) (context : Option Context) (tag : UInt8) (size : Nat) :
    (heap.allocateTagged context tag size).Answers fun answer => heap.Grows answer.1 := by
  unfold allocateTagged
  split
  · refine (answers_allocateBlock heap context size).bind fun answer grows => ?_
    obtain ⟨after, given⟩ := answer
    cases given with
    | error refusal => exact Action.answers_pure grows
    | ok block => exact Action.answers_after fun _ => Action.answers_pure grows
  · intro machine answer final ran
    cases ran

theorem answers_makeContext (heap : Heap) (parent : Option Context) :
    (heap.makeContext parent).Answers fun answer => heap.Grows answer.1 := by
  unfold makeContext
  refine (answers_allocateTagged heap parent Tag.context _).bind fun answer grows => ?_
  obtain ⟨after, given⟩ := answer
  cases given with
  | error refusal => exact Action.answers_pure grows
  | ok block =>
      exact Action.answers_after fun _ => Action.answers_after fun _ => Action.answers_after fun _ =>
        Action.answers_after fun _ => Action.answers_pure grows

theorem answers_allocateHolding (heap : Heap) (context : Context) (tag : UInt8) (size : Nat)
    (held : List Value) (write : Nat → Action Unit) :
    (heap.allocateHolding context tag size held write).Answers fun answer => heap.Grows answer.1 := by
  have scratched : (heap.withScratch held fun heap => heap.allocateObject context tag size).Answers
      fun answer => heap.Grows answer.1 := by
    unfold withScratch
    refine (answers_allocateTagged _ (some context) tag size).bind fun answer grows => ?_
    refine Action.answers_pure (.trans ?_ (grows.trans (.of_same rfl rfl rfl)))
    exact .of_same rfl rfl rfl
  unfold allocateHolding
  refine scratched.bind fun answer grows => ?_
  obtain ⟨after, given⟩ := answer
  cases given with
  | error refusal => exact Action.answers_pure grows
  | ok object =>
      exact Action.answers_after fun _ => Action.answers_after fun _ => Action.answers_pure grows

theorem answers_allocateSequence (heap : Heap) (context : Context) (tag : UInt8) (size : Nat)
    (held : List Value) (write : Nat → Action Unit) :
    (heap.allocateSequence context tag size held write).Answers fun answer => heap.Grows answer.1 := by
  unfold allocateSequence
  split
  · exact Action.answers_count heap.countRefusal_eq fun _ => Action.answers_pure (.of_same rfl rfl rfl)
  · exact answers_allocateHolding heap context tag size held write

theorem answers_order (heap : Heap) (order : Order) :
    (order.perform heap).Answers fun answer => heap.Grows answer.1 := by
  cases order with
  | context parent =>
      exact (answers_makeContext heap parent).bind fun _ grows => Action.answers_pure grows
  | pair root car cdr => exact answers_allocateHolding heap _ _ _ _ _
  | vector root length value => exact answers_allocateSequence heap _ _ _ _ _
  | bytes root contents => exact answers_allocateSequence heap _ _ _ _ _
  | weakBox root target => exact answers_allocateHolding heap _ _ _ _ _
  | ephemeron root key value => exact answers_allocateHolding heap _ _ _ _ _
  | object root tag size =>
      exact (answers_allocateTagged heap (some root) tag size).bind fun _ grows =>
        Action.answers_pure grows
  | storage root size => exact answers_allocate heap root size

theorem register_grows (heap : Heap) (shape : Shape) : heap.Grows (heap.register shape).1 := by
  exact .of_same rfl rfl rfl

theorem answers_operation (heap : Heap) (operation : Operation) :
    (operation.perform heap).Answers fun answer => heap.Grows answer.1 := by
  have framed (number : Nat) (action : Frame → Action Answer) :
      (Operation.onFrame heap number action).Answers fun answer => heap.Grows answer.1 := by
    intro machine answer final ran
    obtain ⟨same, _⟩ := Operation.of_onFrame ran
    rw [same]
    exact .refl heap
  cases operation with
  | make order => exact (answers_order heap order).bind fun _ grows => Action.answers_pure grows
  | collect context =>
      exact (answers_collectFrom heap (some context)).bind fun _ grows => Action.answers_pure grows
  | scan context snapshot =>
      exact (answers_collectWithSnapshot heap context snapshot).bind fun _ grows =>
        Action.answers_pure grows
  | append request =>
      exact (answers_appendSlab heap request).bind fun _ grows => Action.answers_pure grows
  | register shape => exact Action.answers_pure (register_grows heap shape)
  | element vector index =>
      exact Action.answers_after fun _ => Action.answers_after fun _ => Action.answers_pure (.refl heap)
  | slot | setSlot | field | setField | vectorLength | setElement | contents | environment | parent
  | setEnvironment | openFrame | replace =>
      exact Action.answers_after fun _ => Action.answers_pure (.refl heap)
  | save | saved | dropFrame => exact framed _ _

theorem bounded_founded {settings : Settings} {shapes : ShapeTable} {features : Features}
    {identity rounded : Nat} (accepted : settings.check = .ok ())
    (rounds : Size.alignUp? settings.initialSize blockUnit = some rounded)
    (sized : Slab.roundedSize? (if settings.maxSize = 0 then rounded
      else min rounded (settings.maxSize / blockUnit * blockUnit)) = some slab.size) :
    (founded identity settings shapes features slab).Bounded := by
  obtain ⟨lower, _, aligned, _⟩ := Size.alignUp?_eq_some
    (show Size.alignUp? settings.initialSize (1 <<< 4) = some rounded from rounds)
  have least : minSlabSize ≤ settings.initialSize := by
    by_contra small
    simp [Settings.check, Nat.lt_of_not_le small] at accepted
  have covers : settings.maxSize ≠ 0 → settings.initialSize ≤ settings.maxSize := by
    intro limited
    by_contra small
    simp [Settings.check, Nat.not_lt.mpr least, limited, Nat.lt_of_not_le small] at accepted
  set size := if settings.maxSize = 0 then rounded
    else min rounded (settings.maxSize / blockUnit * blockUnit) with chosen
  have legal : minSlabSize ≤ size ∧ size % blockUnit = 0 ∧
      (settings.maxSize ≠ 0 → size ≤ settings.maxSize) := by
    rw [chosen]
    simp only [minSlabSize, blockUnit] at *
    split <;> omega
  obtain ⟨large, whole, limited⟩ := legal
  have exact : slab.size = size := Slab.roundedSize?_exact sized large whole
  refine ⟨fun other listed => ?_, ?_, rfl⟩
  · obtain rfl := List.mem_singleton.mp listed
    exact exact ▸ ⟨large, whole⟩
  · simpa [founded, totalSize, exact] using limited

theorem answers_new (settings : Settings) (shapes : ShapeTable) (features : Features) :
    (new settings shapes features).Answers fun answer =>
      ∀ heap, answer = .ok heap → heap.settings = settings ∧ heap.Bounded := by
  intro machine answer final ran heap founds
  unfold new at ran
  split at ran
  · cases ran
    cases founds
  · next accepted =>
    split at ran
    · cases ran
      cases founds
    · next rounded rounds =>
      obtain ⟨made, later, creates, goesOn⟩ := Action.of_run_bind ran
      cases made with
      | none =>
          cases goesOn
          cases founds
      | some slab =>
          cases goesOn
          cases founds
          obtain ⟨none, _⟩ | ⟨_, same, sized, _⟩ := (Slab.ensures_create shapes).of_run creates
          · cases none
          obtain rfl := Option.some.inj same
          refine ⟨rfl, ?_⟩
          exact bounded_founded accepted rounds sized

theorem answers_fork (heap : Heap) (context : Context) (keepOwnership : Bool) :
    (heap.fork context keepOwnership).Answers fun answer => ∀ copy moved, answer = .ok (copy, moved) →
      heap.Bounded → copy.settings = heap.settings ∧ copy.Bounded := by
  intro machine answer final ran copy moved forks bounded
  unfold fork at ran
  obtain ⟨memory, _, reads, ran⟩ := Action.of_run_bind ran
  cases reads
  cases checked : heap.checkSource context machine.memory with
  | error refusal =>
      rw [checked] at ran
      cases ran
      cases forks
  | ok source =>
      rw [checked] at ran
      obtain ⟨made, later, creates, ran⟩ := Action.of_run_bind ran
      cases made with
      | none =>
          cases ran
          cases forks
      | some target =>
          obtain ⟨none, _⟩ | ⟨_, same, sized, _⟩ := (Slab.ensures_create heap.shapes).of_run creates
          · cases none
          obtain rfl := Option.some.inj same
          obtain ⟨around, mid, surrounds, ran⟩ := Action.of_run_bind ran
          cases surrounds
          obtain ⟨_, _, _, ends⟩ := Action.of_run_bind ran
          cases ends
          cases forks
          have single := (of_checkSource checked).1
          have inHeap : source ∈ heap.slabs := by simp [single]
          obtain ⟨large, whole⟩ := bounded.sizes source inHeap
          -- The size of the source is legal, so that its copy is not rounded up.
          have exact := Slab.roundedSize?_exact sized large whole
          refine ⟨rfl, ⟨?_, fun limited => ?_, rfl⟩⟩
          · intro slab listed
            obtain rfl := List.mem_singleton.mp listed
            exact exact ▸ ⟨large, whole⟩
          · have below := bounded.limited limited
            simp only [totalSize, single, List.foldr_cons, List.foldr_nil] at below ⊢
            exact exact ▸ below

theorem answers_copyInto (source target : Heap) (context : Context) (inTarget : Value)
    (keepOwnership : Bool) : (source.copyInto context target inTarget keepOwnership).Answers
      fun answer => target.Grows answer.1 := by
  intro machine answer final ran
  unfold copyInto at ran
  obtain ⟨memory, _, _, ran⟩ := Action.of_run_bind ran
  cases checked : source.checkDestination context target inTarget memory with
  | error refusal =>
      rw [checked] at ran
      cases ran
      exact .refl target
  | ok places =>
      rw [checked] at ran
      obtain ⟨fromSlab, toSlab⟩ := places
      simp only at ran
      split at ran
      · obtain ⟨_, _, _, ran⟩ := Action.of_run_bind ran
        obtain ⟨_, _, _, ends⟩ := Action.of_run_bind ran
        cases ends
        exact .of_same rfl rfl rfl
      · obtain ⟨_, _, _, ends⟩ := Action.of_run_bind ran
        cases ends
        exact .of_same rfl rfl rfl

end Heap

namespace Program

variable {start machine final : Machine} {heaps later : List Heap}

/-- One thing that a program does with its heaps. It may use them as it likes, and change words and
frames at any time. -/
inductive Step : Machine → List Heap → Machine → List Heap → Prop
  | found {machine final : Machine} {heaps : List Heap} {settings : Settings} {shapes : ShapeTable}
      {features : Features} {answer : Except HeapError Heap}
      (ran : (Heap.new settings shapes features).run machine = .ok answer final) :
      Step machine heaps final (heaps ++ answer.toOption.toList)
  | operate {machine final : Machine} {heaps : List Heap} {heap after : Heap} {operation : Operation}
      {answer : Answer} (index : Nat) (listed : heaps[index]? = some heap)
      (ran : (operation.perform heap).run machine = .ok (after, answer) final) :
      Step machine heaps final (heaps.set index after)
  | fork {machine final : Machine} {heaps : List Heap} {heap : Heap} {context : Context}
      {keepOwnership : Bool} {answer : Except HeapError (Heap × Context)} (index : Nat)
      (listed : heaps[index]? = some heap)
      (ran : (heap.fork context keepOwnership).run machine = .ok answer final) :
      Step machine heaps final (heaps ++ (answer.toOption.map Prod.fst).toList)
  | copyInto {machine final : Machine} {heaps : List Heap} {source target : Heap} {context : Context}
      {inTarget : Value} {keepOwnership : Bool} {answer : Heap × Except HeapError Context}
      (index : Nat) (listed : heaps[index]? = some target)
      (ran : (source.copyInto context target inTarget keepOwnership).run machine = .ok answer final) :
      Step machine heaps final (heaps.set index answer.1)
  | root {machine : Machine} {heaps : List Heap} {heap : Heap} (globals : Option (List Value)) (index : Nat)
      (listed : heaps[index]? = some heap) : Step machine heaps machine (heaps.set index { heap with globals })
  | other {machine : Machine} {heaps : List Heap} (final : Machine) : Step machine heaps final heaps

/-- Any number of steps. -/
inductive Run : Machine → List Heap → Machine → List Heap → Prop
  | rest {machine : Machine} {heaps : List Heap} : Run machine heaps machine heaps
  | step {machine mid final : Machine} {heaps between later : List Heap}
      (run : Run machine heaps mid between) (step : Step mid between final later) :
      Run machine heaps final later

/-- The later heaps are bounded, and those that there were before are among them, perhaps grown. -/
structure Keeps (heaps later : List Heap) : Prop where
  bounded : ∀ heap ∈ later, heap.Bounded
  grows : ∀ (index : Nat) (heap : Heap), heaps[index]? = some heap →
    ∃ after, later[index]? = some after ∧ heap.Grows after

namespace Keeps

theorem refl (bounded : ∀ heap ∈ heaps, heap.Bounded) : Keeps heaps heaps :=
  ⟨bounded, fun _ heap listed => ⟨heap, listed, .refl heap⟩⟩

theorem trans {mid : List Heap} (first : Keeps heaps mid) (second : Keeps mid later) :
    Keeps heaps later := by
  refine ⟨second.bounded, fun index heap listed => ?_⟩
  obtain ⟨between, found, grows⟩ := first.grows index heap listed
  obtain ⟨after, found, further⟩ := second.grows index between found
  exact ⟨after, found, grows.trans further⟩

theorem append {joining : Option Heap} (bounded : ∀ heap ∈ heaps, heap.Bounded)
    (joins : ∀ heap, joining = some heap → heap.Bounded) : Keeps heaps (heaps ++ joining.toList) := by
  constructor
  · intro heap listed
    cases List.mem_append.mp listed with
    | inl old => exact bounded heap old
    | inr new => exact joins heap (Option.mem_toList.mp new)
  · intro index heap listed
    have inside := (List.getElem?_eq_some_iff.mp listed).1
    exact ⟨heap, (List.getElem?_append_left inside).trans listed, .refl heap⟩

theorem set {index : Nat} {heap after : Heap} (bounded : ∀ heap ∈ heaps, heap.Bounded)
    (listed : heaps[index]? = some heap) (grows : heap.Grows after) :
    Keeps heaps (heaps.set index after) := by
  have inside := (List.getElem?_eq_some_iff.mp listed).1
  constructor
  · intro other member
    cases List.mem_or_eq_of_mem_set member with
    | inl old => exact bounded other old
    | inr changed => exact changed ▸ grows.bounded (bounded heap (List.mem_of_getElem? listed))
  · intro place other found
    by_cases here : place = index
    · subst here
      obtain rfl := Option.some.inj (listed.symm.trans found)
      exact ⟨after, List.getElem?_set_self inside, grows⟩
    · exact ⟨other, (List.getElem?_set_ne (Ne.symm here)).trans found, .refl other⟩

end Keeps

/-- No step breaks a limit. -/
theorem Step.keeps (step : Step machine heaps final later) (bounded : ∀ heap ∈ heaps, heap.Bounded) :
    Keeps heaps later := by
  cases step with
  | @found _ _ settings shapes features answer ran =>
      refine .append bounded fun heap joins => ?_
      cases answer with
      | error refusal => cases joins
      | ok founded => exact (Heap.answers_new settings shapes features _ _ _ ran heap (by cases joins; rfl)).2
  | operate index listed ran =>
      exact .set bounded listed (Heap.answers_operation _ _ _ _ _ ran)
  | @fork _ _ source context keepOwnership answer index listed ran =>
      refine .append bounded fun heap joins => ?_
      cases answer with
      | error refusal => cases joins
      | ok copied =>
          cases joins
          exact (Heap.answers_fork source context keepOwnership _ _ _ ran _ copied.2 rfl
            (bounded source (List.mem_of_getElem? listed))).2
  | @copyInto _ _ source target context inTarget keepOwnership answer index listed ran =>
      exact .set bounded listed
        (Heap.answers_copyInto source target context inTarget keepOwnership _ _ _ ran)
  | root globals index listed => exact .set bounded listed (.of_same rfl rfl rfl)
  | other => exact .refl bounded

theorem Run.keeps (run : Run machine heaps final later) (bounded : ∀ heap ∈ heaps, heap.Bounded) :
    Keeps heaps later := by
  induction run with
  | rest => exact .refl bounded
  | step _ step ih =>
      have before := ih bounded
      exact before.trans (step.keeps before.bounded)

/-- In any run of a program, from the first slab of each heap on, all heaps are bounded, and no heap
ever gets smaller. An appended slab is one slab of the size that was held against the limit, and it
serves the request. Heaps that grow inside an allocation are bounded as well, `Heap.answers_growFor`. -/
theorem Run.bounded_always (born : Run start [] machine heaps) (goesOn : Run machine heaps final later) :
    (∀ heap ∈ later, heap.Bounded) ∧
    (∀ (index : Nat) (heap : Heap), heaps[index]? = some heap → ∃ after, later[index]? = some after ∧
      after.settings = heap.settings ∧ heap.slabs <+: after.slabs ∧
      heap.totalSize ≤ after.totalSize) ∧
    (∀ settings shapes features mid heap ends,
      (Heap.new settings shapes features).run mid = .ok (.ok heap) ends →
        heap.settings = settings ∧ heap.Bounded) ∧
    ∀ (heap : Heap), heap.Bounded → ∀ request mid after ends,
      (heap.appendSlab request).run mid = .ok (after, true) ends →
        ∃ slab, after.slabs = heap.slabs ++ [slab] ∧ after.Bounded ∧
          slab.Serves heap request ends.memory := by
  have kept := goesOn.keeps (born.keeps (fun _ => by simp)).bounded
  refine ⟨kept.bounded, fun index heap listed => ?_, ?_, ?_⟩
  · obtain ⟨after, found, grows⟩ := kept.grows index heap listed
    exact ⟨after, found, grows.settings, grows.slabs, grows.totalSize_le⟩
  · intro settings shapes features mid heap ends ran
    exact Heap.answers_new settings shapes features _ _ _ ran heap rfl
  · intro heap bounded request mid after ends ran
    obtain ⟨slab, rfl, serves⟩ := bounded.serves ran
    exact ⟨slab, rfl, (Heap.answers_appendSlab heap request _ _ _ ran).bounded bounded, serves⟩

/-- Founds a heap that may take 200 bytes, and appends a slab to it. -/
def widen : Action (Except HeapError (Heap × Heap × Answer)) := do
  match ← Heap.new { initialSize := 64, maxSize := 200 } .standard {} with
  | .error refusal => return .error refusal
  | .ok heap => return .ok (heap, ← (Operation.append 30).perform heap)

def widens : Except HeapError (Heap × Heap × Answer) → Bool
  | .ok (heap, after, .done true) => heap.totalSize = 64 && after.totalSize = 192
  | _ => false

theorem bounded_always_widen : ∃ heap after machine final, Run {} [] machine [heap] ∧
    Run machine [heap] final [after] ∧ heap.totalSize = 64 ∧ after.totalSize = 192 ∧ after.Bounded ∧
    ∃ slab, after.slabs = heap.slabs ++ [slab] ∧ slab.Serves heap 30 final.memory := by
  have made : widen.passes {} widens = true := by decide +kernel
  obtain ⟨answer, final, ran, outcome⟩ := Action.ensures_of_passes made
  unfold widens at outcome
  split at outcome
  · next heap after =>
    unfold widen at ran
    obtain ⟨founded, machine, founds, ran⟩ := Action.of_run_bind ran
    cases founded with
    | error refusal => cases ran
    | ok first =>
        obtain ⟨result, _, performs, ends⟩ := Action.of_run_bind ran
        cases ends
        have born : Run {} [] machine [heap] := Run.rest.step (.found founds)
        have goesOn : Run machine [heap] final [after] := Run.rest.step (.operate 0 rfl performs)
        obtain ⟨_, _, _, appended⟩ := Run.bounded_always born goesOn
        obtain ⟨⟨other, success⟩, _, appends, ends⟩ := Action.of_run_bind performs
        cases ends
        obtain ⟨small, large⟩ : heap.totalSize = 64 ∧ after.totalSize = 192 := by simpa using outcome
        obtain ⟨slab, more, bounded, serves⟩ := appended heap ((born.keeps (by simp)).bounded heap
          (List.mem_singleton_self heap)) 30 _ _ _ appends
        exact ⟨heap, _, machine, final, born, goesOn, small, large, bounded, slab, more, serves⟩
  · contradiction

end Program

end SlabHeap
