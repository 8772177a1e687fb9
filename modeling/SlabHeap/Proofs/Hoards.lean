import SlabHeap.Proofs.Shortage

namespace SlabHeap

/-! What the churn job holds on to.

A `Hoard` is the lists that the job keeps in the environment of its context, and the list that it is about to
build. `Hoard.Held` says that all of this is in the heap, pair by pair, and how many bytes were given out.
Whatever the collector does, an allocation on the way leaves it there, `Hoard.Held.pairs`: the list under
construction is a root of its own next pair. It is not refused as long as the first slab is large enough.
-/

open Block Heap

/-- A list that is kept, and the pair of the environment that keeps it. -/
structure Keepsake where
  cell : Nat
  list : Value
  items : List (Nat × Value)

/-- The numbers below `count`, the largest one first. -/
def countdown (count : Nat) : List Value := (List.range count).reverse.map fun number : Nat => .fixnum number

theorem countdown_succ (count : Nat) : countdown (count + 1) = .fixnum count :: countdown count := by
  simp [countdown, List.range_succ]

structure Hoard where
  kept : List Keepsake := []
  items : List (Nat × Value) := []
  list : Value := .nil

namespace Hoard

variable {hoard : Hoard} {length spare : Nat} {slab : Slab} {context : Context} {heap after : Heap}
  {machine final : Machine} {entries later : List Block} {cell : Nat} {block : Block}

/-- The pairs of the environment, and what they hold. -/
def shelf (hoard : Hoard) : List (Nat × Value) :=
  hoard.kept.map fun keepsake => (keepsake.cell, keepsake.list)

def cells (hoard : Hoard) : List Nat :=
  (hoard.kept.flatMap fun keepsake => keepsake.cell :: keepsake.items.map Prod.fst) ++
    hoard.items.map Prod.fst

abbrev stock (hoard : Hoard) (context : Context) : Stock := ⟨context, hoard.cells⟩

/-- All of the hoard is in the heap, which started with the slab and gave out so many pairs more. -/
structure Held (hoard : Hoard) (length : Nat) (slab : Slab) (context : Context) (heap : Heap) (machine : Machine)
    (entries : List Block) (spare : Nat) : Prop extends (hoard.stock context).Held heap machine entries spare where
  first : slab ∈ heap.slabs
  environment : machine.memory.Spine (context.environment machine.memory) hoard.shelf
  lists : ∀ keepsake ∈ hoard.kept, machine.memory.Spine keepsake.list keepsake.items ∧
    keepsake.items.map Prod.snd = countdown length
  current : machine.memory.Spine hoard.list hoard.items ∧
    hoard.items.map Prod.snd = countdown hoard.items.length

/-- A pair was given out that is not of the hoard. -/
structure New (hoard : Hoard) (context : Context) (entries : List Block) (memory : Memory) (start : Nat)
    (car cdr : Value) : Prop extends (hoard.stock context).New entries start where
  isPair : memory.tag start = Tag.pair
  car : memory.value (start + Layout.Pair.car) = car
  cdr : memory.value (start + Layout.Pair.cdr) = cdr

theorem mem_cells : cell ∈ hoard.cells ↔ (∃ keepsake ∈ hoard.kept, cell = keepsake.cell ∨
    ∃ item ∈ keepsake.items, item.1 = cell) ∨ ∃ item ∈ hoard.items, item.1 = cell := by
  simp [cells]

theorem mem_cells_shelf {item : Nat × Value} (member : item ∈ hoard.shelf) : item.1 ∈ hoard.cells := by
  obtain ⟨keepsake, isKept, rfl⟩ := List.mem_map.mp member
  exact mem_cells.mpr (.inl ⟨keepsake, isKept, .inl rfl⟩)

namespace Held

section Holding

variable (held : hoard.Held length slab context heap machine entries spare)

include held

/-- There are fewer pairs than numbers to put into them. -/
theorem length_items_le : hoard.items.length ≤ 2 ^ 61 := by
  have fewer := held.length_cells_le
  simp only [cells, List.length_append, List.length_map] at fewer
  omega

/-- A list that is kept takes its pairs and one more. -/
theorem length_cells (empty : hoard.items = []) : hoard.cells.length = hoard.kept.length * (length + 1) := by
  have each : ∀ keepsake ∈ hoard.kept,
      (keepsake.cell :: keepsake.items.map Prod.fst).length = length + 1 := fun keepsake isKept => by
    have counts := congrArg List.length (held.lists keepsake isKept).2
    simp only [countdown, List.length_map, List.length_reverse, List.length_range] at counts
    rw [List.length_cons, List.length_map, counts]
  rw [cells, empty, List.map_nil, List.append_nil, List.length_flatMap, List.map_congr_left each, List.map_const',
    List.sum_replicate_nat]

/-- Every pair is on one of the lists, whose pairs refer to nothing else. -/
theorem on_spine (member : cell ∈ hoard.cells) : ∃ list items, machine.memory.Spine list items ∧
    (∀ item ∈ items, item.1 ∈ hoard.cells ∧
      ∀ address, item.2.address? = some address → address ∈ hoard.cells) ∧
    ∃ item ∈ items, item.1 = cell := by
  have numbers {items : List (Nat × Value)} {count : Nat} (counts : items.map Prod.snd = countdown count)
      {item : Nat × Value} (isItem : item ∈ items) : item.2.address? = none := by
    have isNumber : item.2 ∈ countdown count := counts ▸ List.mem_map_of_mem isItem
    obtain ⟨number, _, same⟩ := List.mem_map.mp isNumber
    exact same ▸ Value.address?_fixnum number
  obtain ⟨keepsake, isKept, isPart⟩ | ⟨item, isItem, rfl⟩ := mem_cells.mp member
  · cases isPart with
    | inl first =>
        refine ⟨_, _, held.environment, fun item isItem => ⟨mem_cells_shelf isItem, fun address found => ?_⟩, _,
          List.mem_map_of_mem isKept, first.symm⟩
        obtain ⟨other, otherKept, rfl⟩ := List.mem_map.mp isItem
        have inList {item : Nat × Value} (isItem : item ∈ other.items) : item.1 ∈ hoard.cells :=
          mem_cells.mpr (.inl ⟨other, otherKept, .inr ⟨item, isItem, rfl⟩⟩)
        obtain ⟨item, isItem, rfl⟩ := List.mem_map.mp ((held.lists other otherKept).1.refers found
          fun item isItem => held.aligned (inList isItem))
        exact inList isItem
    | inr later =>
        obtain ⟨spine, counts⟩ := held.lists keepsake isKept
        refine ⟨_, _, spine, fun item isItem => ⟨mem_cells.mpr (.inl ⟨keepsake, isKept, .inr ⟨item, isItem, rfl⟩⟩),
          fun address found => ?_⟩, later⟩
        cases (numbers counts isItem).symm.trans found
  · obtain ⟨spine, counts⟩ := held.current
    refine ⟨_, _, spine, fun item isItem => ⟨mem_cells.mpr (.inr ⟨item, isItem, rfl⟩), fun address found => ?_⟩,
      item, isItem, rfl⟩
    cases (numbers counts isItem).symm.trans found

theorem list_refers : hoard.list.Refers (· ∈ hoard.cells) := by
  intro address found
  obtain ⟨item, isItem, rfl⟩ := List.mem_map.mp (held.current.1.refers found
    fun item isItem => held.aligned (mem_cells.mpr (.inr ⟨item, isItem, rfl⟩)))
  exact mem_cells.mpr (.inr ⟨item, isItem, rfl⟩)

theorem environment_refers : (context.environment machine.memory).Refers (· ∈ hoard.cells) := by
  intro address found
  obtain ⟨item, isItem, rfl⟩ := List.mem_map.mp (held.environment.refers found
    fun item isItem => held.aligned (mem_cells_shelf isItem))
  exact mem_cells_shelf isItem

theorem isPair (member : cell ∈ hoard.cells) : machine.memory.tag cell = Tag.pair := by
  obtain ⟨list, items, spine, within, item, isItem, rfl⟩ := held.on_spine member
  exact (spine.slots (fun other isOther => held.aligned (within other isOther).1) isItem).1

theorem strong (member : block ∈ (hoard.stock context).blocks) {shape : Shape}
    (known : heap.shapes.get? (machine.memory.tag block.start) = some shape) : shape.weak = none := by
  rw [held.standard] at known
  rcases List.mem_cons.mp member with rfl | isPair
  · rw [show machine.memory.tag _ = _ from held.isContext] at known
    cases known
    rfl
  · obtain ⟨cell, isCell, rfl⟩ := List.mem_map.mp isPair
    rw [show machine.memory.tag (Block.cell cell).start = _ from held.isPair isCell] at known
    cases known
    rfl

/-- Who reaches the context and the list under construction reaches all of the hoard. -/
theorem reachable {roots : List Value} (rooted : context.toValue ∈ roots)
    (current : hoard.items = [] ∨ hoard.list ∈ roots) :
    ∀ block ∈ (hoard.stock context).blocks, heap.Reachable machine roots block.start := by
  have known : heap.shapes.get? Tag.pair = some .pair := held.standard ▸ rfl
  have owner : heap.Reachable machine roots context.address := .root rooted held.address?_context
  have shelf : ∀ item ∈ hoard.shelf, heap.Reachable machine roots item.1 := by
    refine held.environment.reachable known (fun item member => held.aligned (mem_cells_shelf member)) ?_
    intro address found
    exact .slot owner (held.isContext ▸ rfl) ((Shape.slot_context.mpr (.inr rfl)).strong rfl) found
  rw [Stock.blocks, List.forall_mem_cons]
  refine ⟨owner, fun block member => ?_⟩
  obtain ⟨cell, isCell, rfl⟩ := List.mem_map.mp member
  obtain ⟨keepsake, isKept, isPart⟩ | ⟨item, isItem, rfl⟩ := mem_cells.mp isCell
  · have isShelf : (keepsake.cell, keepsake.list) ∈ hoard.shelf := List.mem_map_of_mem isKept
    have place := shelf _ isShelf
    obtain ⟨isPair, holds, _⟩ := held.environment.slots
      (fun item member => held.aligned (mem_cells_shelf member)) isShelf
    dsimp only at place isPair holds
    cases isPart with
    | inl first => exact first ▸ place
    | inr later =>
        obtain ⟨item, isItem, rfl⟩ := later
        refine (held.lists keepsake isKept).1.reachable known (fun other member => ?_) ?_ item isItem
        · exact held.aligned (mem_cells.mpr (.inl ⟨keepsake, isKept, .inr ⟨other, member, rfl⟩⟩))
        · intro address found
          rw [← holds] at found
          exact .slot place (isPair ▸ known) ((Shape.slot_pair.mpr (.inl rfl)).strong rfl) found
  · refine held.current.1.reachable known (fun other member => ?_) (fun address found => ?_) item isItem
    · exact held.aligned (mem_cells.mpr (.inr ⟨other, member, rfl⟩))
    · cases current with
      | inl none =>
          rw [none] at isItem
          cases isItem
      | inr isRoot => exact .root isRoot found

/-- From the context and the hoard one reaches nothing else. -/
theorem within {roots : List Value} {object : Nat}
    (rooted : ∀ value ∈ roots, value = context.toValue ∨ value.Refers (· ∈ hoard.cells))
    (reached : heap.Reachable machine roots object) : object = context.address ∨ object ∈ hoard.cells := by
  induction reached with
  | root listed refers =>
      rcases rooted _ listed with rfl | isCell
      · exact .inl (Option.some.inj (refers.symm.trans held.address?_context))
      · exact .inr (isCell _ refers)
  | @slot owner object offset shape _ known strong refers ih =>
      rw [held.standard] at known
      rcases ih with rfl | isCell
      · rw [show machine.memory.tag context.address = _ from held.isContext] at known
        cases known
        rcases Shape.slot_context.mp (.inl strong) with rfl | rfl
        · rw [held.orphan] at refers
          cases refers
        · obtain ⟨item, isItem, rfl⟩ := List.mem_map.mp (held.environment.refers refers
            fun item member => held.aligned (mem_cells_shelf member))
          exact .inr (mem_cells_shelf isItem)
      · rw [held.isPair isCell] at known
        cases known
        obtain ⟨list, items, spine, closed, item, isItem, rfl⟩ := held.on_spine isCell
        obtain ⟨_, car, cdr⟩ := spine.slots (fun other isOther => held.aligned (closed other isOther).1) isItem
        rcases Shape.slot_pair.mp (.inl strong) with rfl | rfl
        · exact .inr ((closed item isItem).2 object (car ▸ refers))
        · obtain ⟨other, isOther, rfl⟩ := List.mem_map.mp (cdr object refers)
          exact .inr (closed other isOther).1
  | @saved owner object frame value _ isContext linked _ _ ih =>
      rcases ih with rfl | isCell
      · rw [show (Context.mk context.address).saves machine.memory = 0 from held.unsaved] at linked
        exact absurd linked (machine.not_linked_zero frame)
      · cases (held.isPair isCell).symm.trans isContext

theorem keep {more : Nat} (stays : (hoard.stock context).Held after final later more) (first : slab ∈ after.slabs)
    (kept : ∀ block ∈ (hoard.stock context).blocks, block.Kept machine.memory final.memory) :
    hoard.Held length slab context after final later more ∧
      context.environment final.memory = context.environment machine.memory := by
  have cellKept {cell : Nat} (member : cell ∈ hoard.cells) :
      (Block.cell cell).Kept machine.memory final.memory := kept _ (Stock.cell_mem member)
  have environment := Context.environment_kept (kept _ List.mem_cons_self)
  refine ⟨⟨stays, first, ?_, fun keepsake isKept => ⟨(held.lists keepsake isKept).1.keep fun item member => ?_,
      (held.lists keepsake isKept).2⟩, ⟨held.current.1.keep fun item member => ?_, held.current.2⟩⟩, environment⟩
  · rw [environment]
    exact held.environment.keep fun item member => cellKept (mem_cells_shelf member)
  · exact cellKept (mem_cells.mpr (.inl ⟨keepsake, isKept, .inr ⟨item, member, rfl⟩⟩))
  · exact cellKept (mem_cells.mpr (.inr ⟨item, member, rfl⟩))

/-- Another pair is asked for, with what is under construction, if anything is, in it. -/
theorem pairs {car cdr : Value} {enough : Prop} (paced : heap.Paced entries) (carRefers : car.Refers (· ∈ hoard.cells))
    (cdrRefers : cdr.Refers (· ∈ hoard.cells))
    (current : hoard.items = [] ∨ hoard.list = car ∨ hoard.list = cdr)
    (room : enough → 96 + 48 * hoard.cells.length < slab.size) :
    (Command.Step.call (·.allocPair context car cdr)).Yields heap machine
      (Command.Step.Affords enough fun value after final => ∃ later start, value = .reference start ∧
        hoard.Held length slab context after final later (spare + 1) ∧ after.Paced later ∧
          hoard.New context later final.memory start car cdr ∧
            context.environment final.memory = context.environment machine.memory)
      (Size.limit ≤ 32 * spare) := by
  have apt := held.toHeld.apt (.pair context car cdr) trivial rfl
    (List.forall_mem_cons.mpr ⟨fun address found => held.listed (carRefers address found),
      List.forall_mem_singleton.mpr fun address found => held.listed (cdrRefers address found)⟩)
  have roots : (Order.pair context car cdr).roots heap = [car, cdr, context.toValue] := by
    simp only [Order.roots, Heap.roots, Heap.holding, held.scratch, held.globals]
    rfl
  have alive : ∀ block ∈ (hoard.stock context).blocks,
      heap.Reachable machine ((Order.pair context car cdr).roots heap) block.start := by
    rw [roots]
    refine held.reachable (by simp) (current.imp_right fun isHeld => ?_)
    rcases isHeld with same | same
    · exact same ▸ List.mem_cons_self
    · exact same ▸ List.mem_cons_of_mem _ List.mem_cons_self
  refine Command.Step.yields_call ?_
  rcases held.grants paced apt (Order.block_pair context car cdr) (fun block member _ => held.strong member) alive with
    ⟨⟨after, answer⟩, final, ran, granted⟩ | ⟨final, failed, bound⟩
  · have first : slab ∈ after.slabs := (Heap.answers_order heap _ _ _ _ ran).slabs.subset held.first
    refine .inl ⟨_, final, ran, ?_⟩
    cases answer with
    | error refusal =>
        refine ⟨fun isEnough => ?_, Order.refuses apt.1.registered ran⟩
        have size := held.toHeld.size_le_of_refused apt id
          (show Size.alignUp? (max 24 blockUnit) blockUnit = some 32 by decide) (fun object reached =>
          held.within (by simpa [roots] using ⟨.inr carRefers, .inr cdrRefers⟩) reached) ran first
        have room := room isEnough
        dsimp only at size
        omega
    | ok value =>
        obtain ⟨later, start, rfl, stays, new, granted⟩ := granted value rfl
        obtain ⟨still, environment⟩ := held.keep stays first fun block member => (granted.kept block member).2
        exact ⟨later, start, rfl, still, granted.paced paced,
          ⟨new, granted.tagged rfl, granted.stored.1, granted.stored.2⟩, environment⟩
  · exact .inr ⟨final, failed, bound⟩

/-- A list that is not kept is forgotten. -/
theorem forget : ({ kept := hoard.kept } : Hoard).Held length slab context heap machine entries
    (spare + hoard.items.length) := by
  have stays : (({ kept := hoard.kept } : Hoard).stock context).Held heap machine entries
      (spare + (hoard.items.map Prod.fst).length) :=
    held.leave rfl (by simp [cells])
  rw [List.length_map] at stays
  exact ⟨stays, held.first, held.environment, held.lists, .nil, rfl⟩

/-- A collection from the context leaves nothing but the hoard. -/
theorem collects (paced : heap.Paced entries) (empty : hoard.items = []) : (heap.collect context).Meets machine
    (fun answer final => ∃ later, hoard.Held length slab context answer.1 final later spare ∧
      bytes later = 48 + 32 * hoard.cells.length)
    fun _ => Size.limit ≤ 32 * spare := by
  have meets := held.toHeld.collects paced (fun block member _ => held.strong member)
    (held.reachable (List.mem_singleton_self _) (.inl empty))
  refine meets.weaken (fun answer final collected => ?_) fun _ => id
  obtain ⟨counted, later, stays, kept, reached⟩ := collected
  exact ⟨later, (held.keep stays (counted ▸ held.first) kept).1, stays.bytes_eq fun block member =>
    held.within (by simp) (reached block member)⟩

end Holding

/-- A pair that holds the next number and the list becomes the list. -/
theorem extend {start : Nat} (held : hoard.Held length slab context heap machine entries (spare + 1))
    (new : hoard.New context entries machine.memory start (.fixnum hoard.items.length) hoard.list) :
    ({ hoard with items := (start, .fixnum hoard.items.length) :: hoard.items, list := .reference start } :
      Hoard).Held length slab context heap machine entries spare := by
  have stays := held.toHeld.join (Hoard.stock { hoard with
    items := (start, .fixnum hoard.items.length) :: hoard.items, list := .reference start } context) new.toNew rfl
      (by simp [cells])
  refine { held with toHeld := stays, current := ⟨.cons new.isPair new.car ?_, ?_⟩ }
  · exact new.cdr ▸ held.current.1
  · rw [List.length_cons, countdown_succ, List.map_cons, held.current.2]

/-- A pair that holds the list and the environment becomes the environment. -/
theorem shelve {start : Nat} (held : hoard.Held length slab context heap machine entries (spare + 1))
    (full : hoard.items.length = length)
    (new : hoard.New context entries machine.memory start hoard.list (context.environment machine.memory)) :
    ({ kept := ⟨start, hoard.list, hoard.items⟩ :: hoard.kept } : Hoard).Held length slab context heap
      (machine.withMemory (context.setEnvironment machine.memory (.reference start))) entries spare := by
  have shelf : ({ kept := ⟨start, hoard.list, hoard.items⟩ :: hoard.kept } : Hoard).cells.Perm
      (start :: hoard.cells) := by
    simpa [cells] using List.perm_append_comm
  have joined := held.toHeld.join (Hoard.stock
    { kept := ⟨start, hoard.list, hoard.items⟩ :: hoard.kept } context) new.toNew rfl shelf
  have member : start ∈ ({ kept := ⟨start, hoard.list, hoard.items⟩ :: hoard.kept } : Hoard).cells :=
    shelf.mem_iff.mpr List.mem_cons_self
  have old {cell : Nat} (member : cell ∈ hoard.cells) := shelf.mem_iff.mpr (List.mem_cons_of_mem _ member)
  have refers : (Value.reference start).Refers (Listed entries) := fun address found => by
    have place := joined.aligned member
    rw [Value.address?_reference place.1 place.2] at found
    exact Option.some.inj found ▸ joined.listed member
  obtain ⟨stays, environment, kept⟩ := joined.environ refers
  have shelved : machine.memory.Spine (.reference start) ((start, hoard.list) :: hoard.shelf) :=
    .cons new.isPair new.car (new.cdr ▸ held.environment)
  refine ⟨stays, held.first, ?_, List.forall_mem_cons.mpr ⟨⟨held.current.1.keep fun item member => ?_, full ▸ held.current.2⟩,
      fun keepsake isKept => ⟨(held.lists keepsake isKept).1.keep fun item member => ?_,
        (held.lists keepsake isKept).2⟩⟩, .nil, rfl⟩
  · rw [Machine.memory_withMemory, environment]
    exact shelved.keep (List.forall_mem_cons.mpr ⟨kept start member, fun item member =>
      kept item.1 (old (mem_cells_shelf member))⟩)
  · exact kept item.1 (old (mem_cells.mpr (.inr ⟨item, member, rfl⟩)))
  · exact kept item.1 (old (mem_cells.mpr (.inl ⟨keepsake, isKept, .inr ⟨item, member, rfl⟩⟩)))

theorem start {enough : Prop} (length : Nat) (fresh : Stock.Held.Fresh heap machine) (single : heap.slabs = [slab])
    (room : enough → 64 ≤ slab.size) : (Command.Step.call (·.makeContext none)).Yields heap machine
    (Command.Step.Affords enough fun context after final =>
      ∃ entries, ({} : Hoard).Held length slab context after final entries 0 ∧ after.Paced entries) False := by
  refine (Stock.Held.affords_context fresh single room).afford (fun context after final opened => ?_) id
  obtain ⟨later, held, empty, frugal⟩ := opened
  exact ⟨later, ⟨held, frugal.slabs.subset List.mem_cons_self, by rw [empty]; exact .nil,
    fun _ member => (List.not_mem_nil member).elim, .nil, rfl⟩, frugal.paced⟩

end Held

end Hoard

end SlabHeap
