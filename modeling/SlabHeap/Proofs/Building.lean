import SlabHeap.Command.Fork
import SlabHeap.Proofs.Rings
import SlabHeap.Proofs.Shortage

namespace SlabHeap

/-! How the fork job builds its ring.

`Ring.Held` says that a string of pairs is in the heap, where the environment refers to its first pair. Each
round of the job adds a pair and a vector, `Ring.Held.buildNodes`, and the last pair is led back to the first
one, `Ring.Held.buildRing`. If the first slab is large enough for the whole ring, no order is refused, and the
heap stays as small as it was.
-/

open SlabHeap.Action Block Heap Command

namespace Stock.Held

variable {stock : Stock} {heap : Heap} {machine : Machine} {entries : List Block} {slab : Slab}
  {founding : Machine} {enough : Prop} {order : Order} {tag : UInt8}

theorem affords (held : stock.Held heap machine entries 0) (frugal : heap.Frugal machine entries slab founding enough)
    (apt : (Operation.make order).Apt heap machine (Listed entries)) (tagged : order.tag? = some tag)
    (cells : ∀ start, order.block start = Block.cell start) (fits : ¬ order.Oversized)
    (room : enough → 96 + 32 * stock.cells.length ≤ slab.size)
    (strong : ∀ block ∈ stock.blocks, ∀ shape,
      heap.shapes.get? (machine.memory.tag block.start) = some shape → shape.weak = none)
    (alive : ∀ block ∈ stock.blocks, heap.Reachable machine (order.roots heap) block.start) :
    (Step.call fun heap => order.perform heap).Yields heap machine (Step.Affords enough fun value after final =>
      ∃ later start, value = .reference start ∧ stock.Held after final later 1 ∧
        (∀ block ∈ stock.blocks, block.Kept machine.memory final.memory) ∧
          after.Frugal final later slab founding enough ∧ stock.New later start ∧
            final.memory.tag start = tag ∧ order.Stored final.memory start) False := by
  obtain ⟨tiling, accounted⟩ := held.accounted
  have footprint : order.footprint = 32 := congrArg Block.size (cells 0)
  have positive : 0 < order.footprint := by omega
  have few : enough → blockUnit + bytes entries + order.footprint ≤ slab.size := fun isEnough => by
    have counts := held.counts
    have room := room isEnough
    simp only [blockUnit] at *
    omega
  refine Step.yields_call ?_
  rcases held.grants frugal.paced apt cells strong alive with
    ⟨⟨after, answer⟩, final, ran, granted⟩ | ⟨final, failed, bound⟩
  · refine .inl ⟨_, final, ran, ?_⟩
    cases answer with
    | error refusal => exact frugal.refuses accounted apt positive fits few ran rfl
    | ok value =>
        obtain ⟨later, start, rfl, stays, new, granted⟩ := granted value rfl
        exact ⟨later, start, rfl, stays, fun block member => (granted.kept block member).2,
          frugal.grants accounted apt positive fits few ran rfl granted, new, granted.tagged tagged, granted.stored⟩
  · exact absurd bound (by decide)

end Stock.Held

/-- What the last pair of a string goes on with is replaced. -/
theorem Stock.Held.relink {stock : Stock} {heap : Heap} {machine : Machine} {entries : List Block}
    {spare head last : Nat} {back : Option Nat} {nodes : List (Nat × Option Nat)} {next new : Value}
    (held : stock.Held heap machine entries spare) (strung : machine.memory.Strung head next ((last, back) :: nodes))
    (within : (Memory.cellsOf ((last, back) :: nodes)).Sublist stock.cells) (refers : new.Refers (Listed entries)) :
    ∃ memory, (heap.setCdr (.reference last) new).run machine = .ok true (machine.withMemory memory) ∧
      stock.Held heap (machine.withMemory memory) entries spare ∧
      memory.Strung head new ((last, back) :: nodes) ∧
      ∀ block ∈ stock.blocks, block ≠ cell last → block.Kept machine.memory memory := by
  cases strung with
  | cons rest pair double =>
    have distinct : (last :: (back.toList ++ Memory.cellsOf nodes)).Nodup := within.nodup held.distinct
    obtain ⟨ran, stays, kept⟩ := held.setField (within.subset List.mem_cons_self) refers pair.tag
      (show ShapeTable.standard.get? Tag.pair = some .pair from rfl) (fun _ _ => Shape.slot_pair.mpr (.inr rfl))
      (show Layout.Pair.cdr < 32 by decide)
    have others {other : Nat} (member : other ∈ back.toList ++ Memory.cellsOf nodes) :=
      kept (cell other) (Stock.cell_mem (within.subset (List.mem_cons_of_mem _ member))) (cell_ne fun same =>
        (List.nodup_cons.mp distinct).1 ((show other = last from same) ▸ member))
    refine ⟨_, ran, stays, .cons (rest.keep fun other member => others (List.mem_append_right _ member)) pair.setCdr
      fun vector isBack => ?_, kept⟩
    obtain ⟨number, isDouble⟩ := double vector isBack
    exact ⟨number, isDouble.keep (others (List.mem_append_left _ (Option.mem_toList.mpr isBack)))⟩

structure Ring where
  head : Nat
  nodes : List (Nat × Option Nat)

namespace Ring

variable {ring : Ring} {context : Context} {heap after : Heap} {machine final : Machine}
  {entries later : List Block} {spare more : Nat} {founding : Machine} {next : Value} {block : Block} {slab : Slab}
  {enough : Prop} {order : Order} {last : Nat} {back : Option Nat}

/-- The ring with a further node. -/
def add (ring : Ring) (cell : Nat) (back : Option Nat) : Ring := { ring with nodes := (cell, back) :: ring.nodes }

def cells (ring : Ring) : List Nat := Memory.cellsOf ring.nodes

abbrev stock (ring : Ring) (context : Context) : Stock := ⟨context, ring.cells⟩

theorem length_add (ring : Ring) (last : Nat) (back : Option Nat) :
    (ring.add last back).cells.length = ring.cells.length + 1 + back.toList.length := by
  simp only [cells, add, Memory.cellsOf, List.flatMap_cons, List.cons_append, List.length_cons, List.length_append]
  omega

/-- The string is in the heap, which gave out so many cells more, and its last pair goes on with a value. -/
structure Held (ring : Ring) (context : Context) (heap : Heap) (machine : Machine) (entries : List Block)
    (spare : Nat) (next : Value) : Prop extends (ring.stock context).Held heap machine entries spare where
  environment : context.environment machine.memory = .reference ring.head
  started : ring.head ∈ ring.cells
  strung : machine.memory.Strung ring.head next ring.nodes

namespace Held

section Holding

variable (held : ring.Held context heap machine entries spare next)

include held

theorem aligned_cells : ∀ cell ∈ ring.head :: ring.cells, cell % 8 = 0 ∧ cell < Size.limit := fun _ member =>
  held.aligned ((List.mem_cons.mp member).elim (fun same => same ▸ held.started) id)

theorem reachable {roots : List Value} (rooted : context.toValue ∈ roots) :
    ∀ block ∈ (ring.stock context).blocks, heap.Reachable machine roots block.start := by
  have owner : heap.Reachable machine roots context.address := .root rooted held.address?_context
  have head : heap.Reachable machine roots ring.head := by
    obtain ⟨whole, bounded⟩ := held.aligned held.started
    have known : heap.shapes.get? (machine.memory.tag context.address) = some .context := by
      rw [show machine.memory.tag context.address = _ from held.isContext, held.standard]
      rfl
    exact .slot owner known ((Shape.slot_context.mpr (.inr rfl)).strong rfl)
      ((congrArg Value.address? held.environment).trans (Value.address?_reference whole bounded))
  obtain ⟨_, cells⟩ := held.strung.mem_of_closed held.aligned_cells head fun cell _ car cdr reached pair => by
    have known : heap.shapes.get? (machine.memory.tag cell) = some .pair := by
      rw [pair.tag, held.standard]
      rfl
    refine ⟨fun address found => ?_, fun address found => ?_⟩
    · exact .slot reached known ((Shape.slot_pair.mpr (.inl rfl)).strong rfl) (pair.car.symm ▸ found)
    · exact .slot reached known ((Shape.slot_pair.mpr (.inr rfl)).strong rfl) (pair.cdr.symm ▸ found)
  refine List.forall_mem_cons.mpr ⟨owner, fun block member => ?_⟩
  obtain ⟨cell, isCell, rfl⟩ := List.mem_map.mp member
  exact cells cell isCell

theorem strong (member : block ∈ (ring.stock context).blocks) {shape : Shape}
    (known : heap.shapes.get? (machine.memory.tag block.start) = some shape) : shape.weak = none := by
  rw [held.standard] at known
  rcases List.mem_cons.mp member with rfl | isCell
  · rw [show machine.memory.tag _ = _ from held.isContext] at known
    cases known
    rfl
  · obtain ⟨cell, isOther, rfl⟩ := List.mem_map.mp isCell
    rcases held.strung.tags isOther with tag | tag
    all_goals
      rw [show machine.memory.tag (Block.cell cell).start = _ from tag] at known
      cases known
      rfl

/-- The ring stays where its stock is held and its blocks are as they were. -/
theorem keep (stays : (ring.stock context).Held after final later more)
    (kept : ∀ block ∈ (ring.stock context).blocks, block.Kept machine.memory final.memory) :
    ring.Held context after final later more next where
  toHeld := stays
  environment := (Context.environment_kept (kept _ List.mem_cons_self)).trans held.environment
  started := held.started
  strung := held.strung.keep fun _ member => kept _ (Stock.cell_mem member)

end Holding

section Orders

variable (held : ring.Held context heap machine entries 0 next)
  (frugal : heap.Frugal machine entries slab founding enough)

include held frugal

theorem orders {tag : UInt8} (apt : (Operation.make order).Apt heap machine (Listed entries))
    (rooted : order.root = some context) (tagged : order.tag? = some tag)
    (cells : ∀ start, order.block start = Block.cell start) (fits : ¬ order.Oversized)
    (room : enough → 96 + 32 * ring.cells.length ≤ slab.size) :
    (Step.call fun heap => order.perform heap).Yields heap machine (Step.Affords enough fun value after final =>
      ∃ later start, value = .reference start ∧ ring.Held context after final later 1 next ∧
        after.Frugal final later slab founding enough ∧ (ring.stock context).New later start ∧
          final.memory.tag start = tag ∧ order.Stored final.memory start) False := by
  have listed : context.toValue ∈ order.roots heap := List.mem_append_right _ (by simp [rooted])
  refine (held.affords frugal apt tagged cells fits room (fun block member _ => held.strong member)
    (held.reachable listed)).weaken (fun answer after final afforded => ?_) id
  cases answer with
  | error refusal => exact afforded
  | ok value =>
      obtain ⟨later, start, rfl, stays, kept, frugal, rest⟩ := afforded
      exact ⟨later, start, rfl, held.keep stays kept, frugal, rest⟩

end Orders

theorem link {start : Nat} (held : (ring.add last back).Held context heap machine entries 1 next)
    (new : ((ring.add last back).stock context).New entries start)
    (pair : machine.memory.IsPair start .nil .nil) :
    ∃ memory, (heap.setCdr (.reference last) (.reference start)).run machine = .ok true (machine.withMemory memory) ∧
      ((ring.add last back).add start none).Held context heap (machine.withMemory memory) entries 0 .nil := by
  have joined := held.toHeld.join (((ring.add last back).add start none).stock context) new rfl (.refl _)
  have member : start ∈ ((ring.add last back).add start none).cells := List.mem_cons_self
  obtain ⟨memory, ran, stays, strung, kept⟩ := joined.relink held.strung (List.sublist_cons_self start _)
    (joined.refers_cell member)
  have apart : cell start ≠ cell last := cell_ne fun same =>
    new.apart (same ▸ (List.mem_cons_self : last ∈ (ring.add last back).cells))
  have environment := Context.environment_kept (kept _ List.mem_cons_self fun same => by cases congrArg Block.size same)
  exact ⟨memory, ran, stays, environment.trans held.environment, List.mem_cons_of_mem _ held.started,
    .cons strung (pair.keep (kept _ (Stock.cell_mem member) apart)) fun _ none => nomatch none⟩

/-- A new vector refers to the first pair, and the last pair to the vector. -/
theorem tie {start : Nat} {number : Int} (held : (ring.add last none).Held context heap machine entries 1 next)
    (new : ((ring.add last none).stock context).New entries start)
    (double : machine.memory.IsDouble start (.fixnum number) (.fixnum number)) :
    ∃ memory after, (heap.vectorSet (.reference start) 0 (.reference ring.head)).run machine =
        .ok true (machine.withMemory memory) ∧
      (heap.setCar (.reference last) (.reference start)).run (machine.withMemory memory) =
        .ok true (machine.withMemory after) ∧
      (ring.add last (some start)).Held context heap (machine.withMemory after) entries 0 next := by
  have joined := held.toHeld.join ((ring.add last (some start)).stock context) new rfl (.swap _ _ _)
  have isLast : last ∈ (ring.add last (some start)).cells := List.mem_cons_self
  have isNew : start ∈ (ring.add last (some start)).cells := List.mem_cons_of_mem _ List.mem_cons_self
  have old {cell : Nat} (member : cell ∈ (ring.add last none).cells) : cell ∈ (ring.add last (some start)).cells :=
    (List.mem_cons.mp member).elim (fun same => same ▸ isLast) fun later =>
      List.mem_cons_of_mem _ (List.mem_cons_of_mem _ later)
  obtain ⟨ran, first, kept⟩ := joined.setElement isNew (joined.refers_cell (old held.started)) double.tag double.length
    (show 0 < 2 by decide)
  cases held.strung with
  | cons rest pair _ =>
    have apart {cell : Nat} (member : cell ∈ (ring.add last none).cells) : Block.cell cell ≠ Block.cell start :=
      cell_ne fun same => new.apart (same ▸ member)
    have pair := pair.keep (kept _ (Stock.cell_mem isLast) (apart List.mem_cons_self))
    obtain ⟨again, second, still⟩ := first.setField isLast (first.refers_cell isNew) pair.tag
      (show ShapeTable.standard.get? Tag.pair = some .pair from rfl) (fun _ _ => Shape.slot_pair.mpr (.inl rfl))
      (show Layout.Pair.car < 32 by decide)
    have distinct : (last :: start :: Memory.cellsOf ring.nodes).Nodup := joined.distinct
    have others {cell : Nat} (member : cell ∈ Memory.cellsOf ring.nodes) : (Block.cell cell).Kept machine.memory _ :=
      have stock := Stock.cell_mem (old (List.mem_cons_of_mem _ member))
      (kept _ stock (apart (List.mem_cons_of_mem _ member))).trans (still _ stock (cell_ne fun same =>
        (List.nodup_cons.mp distinct).1 (List.mem_cons_of_mem _ (same ▸ member))))
    have context := (Context.environment_kept (still _ List.mem_cons_self fun same => by
      cases congrArg Block.size same)).trans (Context.environment_kept (kept _ List.mem_cons_self fun same => by
        cases congrArg Block.size same))
    refine ⟨_, _, ran, again, second, context.trans held.environment, old held.started,
      .cons (rest.keep fun cell member => others member) pair.setCar fun vector isBack => ?_⟩
    obtain rfl := Option.some.inj isBack
    exact ⟨number, (double.setFirst).keep (still _ (Stock.cell_mem isNew)
      (apart List.mem_cons_self).symm)⟩


theorem buildNodes {head : Nat} (count : Nat) {index : Nat} (few : index ≤ (ring.add last back).cells.length)
    (starts : ring.head = head)
    (held : (ring.add last back).Held context heap machine entries 0 .nil)
    (frugal : heap.Frugal machine entries slab founding enough)
    (room : enough → 64 + 32 * ((ring.add last back).cells.length + 2 * count) ≤ slab.size) :
    (Command.buildNodes context (.reference head) (.reference last) index count).Yields heap machine
      (Step.Affords enough fun value after final =>
        ∃ (grown : Ring) (place : Nat) (vector : Option Nat) (later : List Block), value = .reference place ∧
        (grown.add place vector).Held context after final later 0 .nil ∧
          after.Frugal final later slab founding enough ∧ grown.head = head ∧
            (grown.add place vector).cells.length = (ring.add last back).cells.length + 2 * count) False := by
  induction count generalizing ring last back index heap machine entries with
  | zero => exact Step.yields_pure.mpr ⟨ring, last, back, entries, rfl, held, frugal, starts, rfl⟩
  | succ count ih =>
      have nil : Value.nil.Refers (Listed entries) := fun _ found => nomatch found
      have apt := held.apt (.pair context .nil .nil) trivial rfl
        (List.forall_mem_cons.mpr ⟨nil, List.forall_mem_singleton.mpr nil⟩)
      -- First a pair, which the last one of the string is led to.
      refine Step.Yields.followed (held.orders frugal apt rfl rfl (Order.block_pair context .nil .nil) id
        fun isEnough => ?_) ?_
      · have := room isEnough
        omega
      rintro value after machine ⟨entries, start, rfl, held, frugal, new, tag, car, cdr⟩
      obtain ⟨memory, ran, held⟩ := held.link new ⟨tag, car, cdr⟩
      rw [Step.yields_write ran]
      have bound : ((ring.add last back).add start none).cells.length ≤ 2 ^ 61 := held.length_cells_le
      have longer := (ring.add last back).length_add start none
      rw [Option.toList_none, List.length_nil] at longer
      -- Then a vector with the number of the node. The pair and the vector refer to each other.
      have number : Value.ofInt index = .ok (.fixnum index) := if_pos ⟨by omega, by omega⟩
      rw [Step.yields_act_bind (by rw [number]; rfl)]
      have immediate : (Value.fixnum index).Refers (Listed entries) := fun _ found => by
        cases (Value.address?_fixnum _).symm.trans found
      have apt := held.apt (.vector context 2 (.fixnum index)) trivial rfl (List.forall_mem_singleton.mpr immediate)
      refine Step.Yields.followed (held.orders (frugal.withMemory memory) apt rfl rfl
        (Order.block_double context (.fixnum index)) (Nat.not_le_of_lt (show 32 < Size.limit by decide))
        fun isEnough => ?_) ?_
      · have := room isEnough
        omega
      rintro value after machine ⟨entries, vector, rfl, held, frugal, new, tag, length, elements⟩
      obtain ⟨first, second, ran, again, held⟩ := held.tie new
        ⟨tag, congrArg Value.mk length, elements 0 (by decide), elements 1 (by decide)⟩
      subst starts
      rw [Step.yields_write ran, Step.yields_write again]
      have longest := (ring.add last back).length_add start (some vector)
      rw [Option.toList_some, List.length_singleton] at longest
      rw [show (ring.add last back).cells.length + 2 * (count + 1) =
        ((ring.add last back).add start (some vector)).cells.length + 2 * count by omega] at room ⊢
      exact ih (by omega) rfl held ((frugal.withMemory _).withMemory _) room

end Held

/-- The job builds a ring, or the slab is too small. -/
theorem builds {nodes : Nat} (positive : 0 < nodes) (held : Stock.Held ⟨context, []⟩ heap machine entries 0)
    (frugal : heap.Frugal machine entries slab founding enough) (room : enough → 64 * nodes + 32 ≤ slab.size) :
    (Command.buildRing context nodes).Yields heap machine (Step.Affords enough fun value after final =>
      ∃ (ring : Ring) (later : List Block), value = .reference ring.head ∧
        ring.Held context after final later 0 value ∧ after.Frugal final later slab founding enough ∧
          ring.cells.length = 2 * nodes - 1) False := by
  have nil : Value.nil.Refers (Listed entries) := by
    intro _ found
    cases found
  have only {block : Block} (member : block ∈ Stock.blocks ⟨context, []⟩) :
      block = ⟨context.address, 48, .object⟩ := List.mem_singleton.mp member
  refine Step.Yields.followed (held.affords frugal (held.apt (.pair context .nil .nil) trivial rfl
    (List.forall_mem_cons.mpr ⟨nil, List.forall_mem_singleton.mpr nil⟩)) rfl (Order.block_pair context .nil .nil) id
    (fun isEnough => ?_) (fun block member shape known => ?_) fun block member => ?_) ?_
  · have := room isEnough
    simp only [List.length_nil]
    omega
  · rw [only member, show machine.memory.tag _ = _ from held.isContext, held.standard] at known
    cases known
    rfl
  · rw [only member]
    exact .root (List.mem_append_right _ (by simp [Order.root])) held.address?_context
  rintro value after machine ⟨entries, start, rfl, held, kept, frugal, new, tag, car, cdr⟩
  have joined := held.join ⟨context, [start]⟩ new rfl (.refl _)
  have member : start ∈ (Stock.mk context [start]).cells := List.mem_cons_self
  obtain ⟨stays, environment, cells⟩ := joined.environ (joined.refers_cell member)
  have pair : machine.memory.IsPair start .nil .nil := ⟨tag, car, cdr⟩
  -- The first pair alone is a string that leads nowhere yet.
  have first : (add ⟨start, []⟩ start none).Held context after (machine.withMemory
      (context.setEnvironment machine.memory (.reference start))) entries 0 .nil :=
    ⟨stays, environment, List.mem_cons_self, .cons .nil (pair.keep (cells start member)) fun _ none => by cases none⟩
  have one : (add ⟨start, []⟩ start none).cells.length = 1 := rfl
  rw [Step.yields_onMemory]
  refine Step.Yields.followed (first.buildNodes (nodes - 1) one.ge rfl (frugal.withMemory _) fun isEnough => ?_) ?_
  · have := room isEnough
    rw [one]
    omega
  rintro value after machine ⟨grown, last, vector, entries, rfl, held, frugal, rfl, count⟩
  obtain ⟨memory, ran, stays, strung, kept⟩ := held.toHeld.relink held.strung (List.Sublist.refl _)
    (held.toHeld.refers_cell held.started)
  rw [Step.yields_write ran]
  -- Once the last pair refers to the first one, the string is closed.
  have closed : (grown.add last vector).Held context after (machine.withMemory memory) entries 0
      (.reference grown.head) :=
    ⟨stays, (Context.environment_kept (kept _ List.mem_cons_self fun same => by
      cases congrArg Block.size same)).trans held.environment, held.started, strung⟩
  refine Step.yields_pure.mpr ⟨grown.add last vector, entries, rfl, closed, frugal.withMemory memory, ?_⟩
  rw [count, one]
  omega

end Ring

end SlabHeap
