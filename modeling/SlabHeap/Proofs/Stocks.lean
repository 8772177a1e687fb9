import SlabHeap.Proofs.Grants
import SlabHeap.Proofs.Spelling

namespace SlabHeap

/-! What a job on one heap holds on to.

A `Stock` is a context and cells of 32 bytes: pairs, or other objects of that size. `Stock.Held` says that all
of it is in use, and how many cells the heap gave out besides. An allocation leaves the stock where it is if
what is allocated can reach it, and gives out one cell more, `Stock.Held.grants`; a slot that is replaced
leaves everything else, `Stock.Held.rewrite`.
-/

open Block Heap

/-- There are no more objects than words. -/
theorem Size.length_le_wordLimit {objects : List Nat} (distinct : objects.Nodup)
    (aligned : ∀ object ∈ objects, object % 8 = 0 ∧ object < limit) : objects.length ≤ wordLimit := by
  have within : ∀ object ∈ objects, object ∈ (List.range wordLimit).map (8 * ·) := fun object member => by
    have place := aligned object member
    simp only [limit] at place
    refine List.mem_map.mpr ⟨object / 8, List.mem_range.mpr ?_, by omega⟩
    simp only [wordLimit, limit, wordBytes]
    omega
  simpa using (distinct.subperm within).length_le

theorem Block.cell_ne {start other : Nat} (distinct : start ≠ other) : cell start ≠ cell other := fun same =>
  distinct (congrArg Block.start same)

theorem Order.block_pair (root : Context) (car cdr : Value) (start : Nat) :
    (Order.pair root car cdr).block start = cell start :=
  congrArg (Block.mk start · _) (show (Size.alignUp? (max 24 blockUnit) blockUnit).getD 0 = 32 by decide)

theorem Order.block_double (root : Context) (value : Value) (start : Nat) :
    (Order.vector root 2 value).block start = cell start :=
  congrArg (Block.mk start · _) (show (Size.alignUp? (max 32 blockUnit) blockUnit).getD 0 = 32 by decide)

theorem Context.environment_kept {context : Context} {memory after : Memory}
    (kept : (⟨context.address, 48, .object⟩ : Block).Kept memory after) :
    context.environment after = context.environment memory :=
  congrArg Value.mk (kept _
    ⟨Nat.le_add_right _ _, Nat.add_lt_add_left (show Layout.Context.environment < 48 by decide) _⟩)

namespace Heap

variable {heap : Heap} {memory : Memory} {vector : Value} {start length index : Nat}

section Lengths

variable (found : heap.objectOf? memory Tag.vector vector = some start)
  (counts : memory.value (start + Layout.Sequence.length) = .fixnum length) (small : length < 2 ^ 60)

include found counts small

/-- The length of a vector is the one that it was given. -/
theorem vectorLength?_eq : heap.vectorLength? memory vector = some length := by
  have field : heap.fieldOf? memory Tag.vector Layout.Sequence.length vector = some (.fixnum length) := by
    simp only [fieldOf?, fieldAddress?, found, Option.map_some, counts]
  have read : (Value.fixnum length).toCount? = some length := by
    rw [Value.toCount?, Value.toInt?_fixnum ⟨by omega, by omega⟩, Option.map_some, Size.limit]
    congr 1
    omega
  rw [vectorLength?, field]
  exact read

theorem elementAddress?_eq (among : index < length) : heap.elementAddress? memory vector index =
    .ok (some (start + (Layout.Sequence.contents + index * wordBytes))) := by
  have product : Size.mul index wordBytes = .ok (index * wordBytes) :=
    Size.mul_eq_ok (by simp only [wordBytes, Size.limit]; omega)
  have sum : Size.add Layout.Sequence.contents (index * wordBytes) =
      .ok (Layout.Sequence.contents + index * wordBytes) :=
    Size.add_eq_ok (by simp only [wordBytes, Layout.Sequence.contents, Size.limit]; omega)
  simp only [elementAddress?, found, vectorLength?_eq found counts small, if_pos among, product, sum, bind, Except.bind,
    pure, Except.pure]

end Lengths

end Heap

structure Stock where
  context : Context
  cells : List Nat

namespace Stock

variable {stock more : Stock} {heap after : Heap} {machine final : Machine} {entries later : List Block}
  {spare start offset : Nat} {block other : Block} {order : Order} {memory : Memory}

def blocks (stock : Stock) : List Block := ⟨stock.context.address, 48, .object⟩ :: stock.cells.map Block.cell

/-- The stock is in use in a heap that gave out so many cells besides. -/
structure Held (stock : Stock) (heap : Heap) (machine : Machine) (entries : List Block) (spare : Nat) :
    Prop where
  accounted : ∃ tiling, heap.Accounted tiling machine entries
  orderly : machine.Orderly
  standard : heap.shapes = .standard
  scratch : heap.scratch = []
  globals : heap.globals.getD [] = []
  objects : ∀ block ∈ entries, block.kind = .object
  inUse : ∀ block ∈ stock.blocks, block ∈ entries
  distinct : stock.cells.Nodup
  isContext : machine.memory.tag stock.context.address = Tag.context
  belongs : stock.context.isIn heap machine.memory = true
  unsaved : stock.context.saves machine.memory = 0
  orphan : machine.memory.value (stock.context.address + Layout.Context.parent) = .no
  counts : heap.counters.bytesFreed + bytes entries = 48 + 32 * (stock.cells.length + spare)

/-- A cell was given out that is not of the stock. -/
structure New (stock : Stock) (entries : List Block) (start : Nat) : Prop where
  listed : Block.cell start ∈ entries
  apart : start ∉ stock.cells

theorem cell_mem (member : start ∈ stock.cells) : Block.cell start ∈ stock.blocks :=
  List.mem_cons_of_mem _ (List.mem_map_of_mem member)

theorem kind_of_mem (member : block ∈ stock.blocks) : block.kind = .object := by
  rcases List.mem_cons.mp member with rfl | isCell
  · rfl
  · obtain ⟨start, _, rfl⟩ := List.mem_map.mp isCell
    rfl

/-- The words of a context that tell it from others lie in its block. -/
theorem context_covers
    (listed : offset ∈ [0, Layout.Context.heap, Layout.Context.saves, Layout.Context.parent]) :
    (⟨stock.context.address, 48, .object⟩ : Block).Covers (stock.context.address + offset) := by
  have known : offset = 0 ∨ offset = 8 ∨ offset = 16 ∨ offset = 24 := by
    simpa [Layout.Context.heap, Layout.Context.saves, Layout.Context.parent] using listed
  simp only [Block.Covers, Block.stop]
  omega

theorem bytes_blocks : bytes stock.blocks = 48 + 32 * stock.cells.length := by
  have cells (cells : List Nat) : bytes (cells.map Block.cell) = 32 * cells.length := by
    induction cells with
    | nil => rfl
    | cons start rest ih =>
        have step : bytes ((start :: rest).map Block.cell) = 32 + bytes (rest.map Block.cell) := rfl
        rw [step, ih, List.length_cons]
        omega
  exact congrArg (48 + ·) (cells stock.cells)

theorem nodup_blocks (distinct : stock.cells.Nodup) : stock.blocks.Nodup := by
  refine List.nodup_cons.mpr ⟨fun member => ?_, distinct.map fun start other same => ?_⟩
  · obtain ⟨start, _, same⟩ := List.mem_map.mp member
    cases congrArg Block.size same
  · exact congrArg Block.start same

namespace Held

section Holding

variable (held : stock.Held heap machine entries spare)

include held

theorem context_listed : Listed entries stock.context.address :=
  ⟨_, held.inUse _ List.mem_cons_self, rfl⟩

theorem listed (member : start ∈ stock.cells) : Listed entries start :=
  ⟨_, held.inUse _ (cell_mem member), rfl⟩

theorem bounds (member : block ∈ stock.blocks) : block.start % 8 = 0 ∧ block.start < Size.limit := by
  obtain ⟨tiling, accounted⟩ := held.accounted
  have place := accounted.consistent.tiled.bounds
    (accounted.records.mem_blocks_of_object (held.inUse block member) (kind_of_mem member))
  simp only [Block.stop] at place
  omega

theorem aligned (member : start ∈ stock.cells) : start % 8 = 0 ∧ start < Size.limit :=
  held.bounds (cell_mem member)

theorem address?_context : stock.context.toValue.address? = some stock.context.address :=
  have place := held.bounds List.mem_cons_self
  Value.address?_reference place.1 place.2

/-- Numbers up to the count of the cells can be tagged. -/
theorem length_cells_le : stock.cells.length ≤ 2 ^ 61 :=
  Size.length_le_wordLimit held.distinct fun _ member => held.aligned member

/-- Blocks among which the stock is take as many bytes at least. -/
theorem bytes_le (within : ∀ block ∈ stock.blocks, block ∈ later) :
    48 + 32 * stock.cells.length ≤ bytes later :=
  bytes_blocks ▸ Block.bytes_le (nodup_blocks held.distinct) within

/-- No word of the stock belongs to two blocks. -/
theorem words_apart (member : block ∈ stock.blocks) (otherMember : other ∈ stock.blocks) (distinct : other ≠ block)
    (inside : offset < block.size) {address : Nat} (covers : other.Covers address) :
    address / 8 ≠ (block.start + offset) / 8 := by
  obtain ⟨tiling, accounted⟩ := held.accounted
  have tiled := accounted.consistent.tiled
  have present {block : Block} (member : block ∈ stock.blocks) :=
    tiled.bounds (accounted.records.mem_blocks_of_object (held.inUse block member) (kind_of_mem member))
  have place := present member
  have otherPlace := present otherMember
  have apart := accounted.records.disjoint_of_ne tiled (held.inUse _ otherMember) (held.inUse _ member) distinct
  simp only [Block.Covers, Block.Disjoint, Block.stop] at *
  omega

/-- Where a word of a block is replaced, all other blocks stay. -/
theorem kept_write (member : block ∈ stock.blocks) (otherMember : other ∈ stock.blocks) (distinct : other ≠ block)
    (inside : offset < block.size) (word : UInt64) :
    other.Kept machine.memory (machine.memory.write (block.start + offset) word) :=
  fun _ covers => Memory.read_write_ne (held.words_apart member otherMember distinct inside covers)

/-- The stock stays held where its blocks stay in use, and its context stays one. -/
theorem keep {spareAfter : Nat} (accounted : ∃ tiling, after.Accounted tiling final later)
    (orderly : final.Orderly) (shapes : after.shapes = heap.shapes) (scratch : after.scratch = heap.scratch)
    (globals : after.globals = heap.globals) (identity : after.identity = heap.identity)
    (objects : ∀ block ∈ later, block.kind = .object)
    (counts : after.counters.bytesFreed + bytes later = 48 + 32 * (stock.cells.length + spareAfter))
    (inUse : ∀ block ∈ stock.blocks, block ∈ later)
    (words : ∀ offset ∈ [0, Layout.Context.heap, Layout.Context.saves, Layout.Context.parent],
      final.memory.read (stock.context.address + offset) =
        machine.memory.read (stock.context.address + offset)) :
    stock.Held after final later spareAfter := by
  refine ⟨accounted, orderly, shapes.trans held.standard, scratch.trans held.scratch, globals ▸ held.globals,
    objects, inUse, held.distinct, ?_, ?_, ?_, ?_, counts⟩
  · rw [← held.isContext]
    exact congrArg (Header.tag ∘ Header.ofWord) (words 0 (by simp))
  · have belongs := held.belongs
    rwa [Context.isIn, Context.heapWord, ← words Layout.Context.heap (by simp), ← identity] at belongs
  · rw [← held.unsaved]
    exact congrArg UInt64.toNat (words Layout.Context.saves (by simp))
  · rw [← held.orphan]
    exact congrArg Value.mk (words Layout.Context.parent (by simp))

/-- A slot of the stock is replaced. -/
theorem rewrite {op : Operation} {answer : Answer} {word : UInt64} (only : op.Edits) (other : ¬ op.Frames)
    (apt : op.Apt heap machine (Listed entries)) (member : block ∈ stock.blocks) (inside : offset < block.size)
    (slot : block = ⟨stock.context.address, 48, .object⟩ → offset = Layout.Context.environment)
    (ran : (op.perform heap).run machine =
      .ok (heap, answer) (machine.withMemory (machine.memory.write (block.start + offset) word))) :
    stock.Held heap (machine.withMemory (machine.memory.write (block.start + offset) word)) entries spare := by
  obtain ⟨tiling, accounted⟩ := held.accounted
  obtain ⟨_, filled⟩ := Operation.fills only accounted held.orderly apt ran other
  refine held.keep filled.accounted filled.orderly rfl rfl rfl rfl held.objects held.counts held.inUse
    fun place listed => ?_
  have known : place = 0 ∨ place = 8 ∨ place = 16 ∨ place = 24 := by
    simpa [Layout.Context.heap, Layout.Context.saves, Layout.Context.parent] using listed
  rw [Machine.memory_withMemory]
  by_cases same : block = ⟨stock.context.address, 48, .object⟩
  · refine Memory.read_write_ne ?_
    rw [slot same, same]
    simp only [Layout.Context.environment]
    omega
  · exact held.kept_write member List.mem_cons_self (Ne.symm same) inside word _ (context_covers listed)

theorem environ {value : Value} (refers : value.Refers (Listed entries)) :
    stock.Held heap (machine.withMemory (stock.context.setEnvironment machine.memory value)) entries spare ∧
      stock.context.environment (stock.context.setEnvironment machine.memory value) = value ∧
      ∀ start ∈ stock.cells,
        (cell start).Kept machine.memory (stock.context.setEnvironment machine.memory value) := by
  have inside : Layout.Context.environment < 48 := by decide
  refine ⟨held.rewrite (show (Operation.setEnvironment stock.context value).Edits from trivial) id
      ⟨held.context_listed, held.isContext, refers⟩ List.mem_cons_self inside (fun _ => rfl) rfl,
    congrArg Value.mk (Memory.read_write_same _ _ _), fun start member => ?_⟩
  exact held.kept_write List.mem_cons_self (cell_mem member) (fun same => by cases congrArg Block.size same) inside _

section Cells

variable {value : Value} (member : start ∈ stock.cells) (refers : value.Refers (Listed entries))

include member refers

omit refers in
theorem refers_cell : (Value.reference start).Refers (Listed entries) := fun address found => by
  have place := held.aligned member
  rw [Value.address?_reference place.1 place.2] at found
  exact Option.some.inj found ▸ held.listed member

omit refers in
theorem objectOf?_cell {tag : UInt8} (tagged : machine.memory.tag start = tag) :
    heap.objectOf? machine.memory tag (.reference start) = some start := by
  obtain ⟨tiling, accounted⟩ := held.accounted
  have inUse := accounted.records.mem_blocks_of_object (held.inUse _ (cell_mem member)) rfl
  exact (accounted.consistent.tiled.objectOf?_reference tag inUse rfl).trans (if_pos tagged)

omit refers in
theorem replaced {op : Operation} {answer : Answer} (only : op.Edits) (other : ¬ op.Frames)
    (apt : op.Apt heap machine (Listed entries)) (inside : offset < 32)
    (ran : (op.perform heap).run machine =
      .ok (heap, answer) (machine.withMemory (machine.memory.write (start + offset) value.bits))) :
    stock.Held heap (machine.withMemory (machine.memory.write (start + offset) value.bits)) entries spare ∧
      ∀ block ∈ stock.blocks, block ≠ cell start →
        block.Kept machine.memory (machine.memory.write (start + offset) value.bits) :=
  ⟨held.rewrite only other apt (cell_mem member) inside
      (fun same => by cases congrArg Block.size same) ran,
    fun _ isOther distinct => held.kept_write (cell_mem member) isOther distinct inside _⟩

theorem setField {tag : UInt8} {shape : Shape} (tagged : machine.memory.tag start = tag)
    (known : ShapeTable.standard.get? tag = some shape) (slot : ∀ memory object, shape.Slot memory object offset)
    (inside : offset < 32) :
    (heap.setFieldOf tag offset (.reference start) value).run machine =
        .ok true (machine.withMemory (machine.memory.write (start + offset) value.bits)) ∧
      stock.Held heap (machine.withMemory (machine.memory.write (start + offset) value.bits)) entries spare ∧
      ∀ block ∈ stock.blocks, block ≠ cell start →
        block.Kept machine.memory (machine.memory.write (start + offset) value.bits) := by
  have ran : (heap.setFieldOf tag offset (.reference start) value).run machine =
      .ok true (machine.withMemory (machine.memory.write (start + offset) value.bits)) := by
    refine (Action.run_bind rfl).trans ?_
    rw [Heap.fieldAddress?, held.objectOf?_cell member tagged]
    rfl
  exact ⟨ran, held.replaced member (show (Operation.setField tag offset (.reference start) value).Edits from
    trivial) id ⟨held.refers_cell member, refers, shape, held.standard ▸ known, slot⟩ inside (Action.run_bind ran)⟩

theorem setElement {index : Nat} (tagged : machine.memory.tag start = Tag.vector)
    (counts : machine.memory.value (start + Layout.Sequence.length) = .fixnum 2) (among : index < 2) :
    (heap.vectorSet (.reference start) index value).run machine = .ok true (machine.withMemory
        (machine.memory.write (start + (Layout.Sequence.contents + index * wordBytes)) value.bits)) ∧
      stock.Held heap (machine.withMemory
        (machine.memory.write (start + (Layout.Sequence.contents + index * wordBytes)) value.bits)) entries spare ∧
      ∀ block ∈ stock.blocks, block ≠ cell start → block.Kept machine.memory
        (machine.memory.write (start + (Layout.Sequence.contents + index * wordBytes)) value.bits) := by
  have found := held.objectOf?_cell member tagged
  have ran : (heap.vectorSet (.reference start) index value).run machine = .ok true (machine.withMemory
      (machine.memory.write (start + (Layout.Sequence.contents + index * wordBytes)) value.bits)) := by
    refine (Action.run_bind rfl).trans ?_
    rw [Heap.elementAddress?_eq found counts (by decide) among]
    rfl
  refine ⟨ran, held.replaced member (show (Operation.setElement (.reference start) index value).Edits from trivial) id
    ⟨held.refers_cell member, refers, held.standard ▸ rfl⟩ ?_ (Action.run_bind ran)⟩
  simp only [Layout.Sequence.contents, wordBytes]
  omega

end Cells

/-- Helpers may be used with the context, for what is in use. -/
theorem apt (order : Order) (typed : order.Typed) (rooted : order.root = some stock.context)
    (refers : ∀ value ∈ order.held, value.Refers (Listed entries)) :
    (Operation.make order).Apt heap machine (Listed entries) := by
  refine ⟨⟨fun _ => held.standard ▸ fun _ _ known => known, fun root tag size same => ?_⟩, fun handle isRoot => ?_,
    refers⟩
  · subst same
    exact typed.elim
  · obtain rfl := Option.some.inj (rooted.symm.trans isRoot)
    exact held.context_listed

/-- An order for a cell that may hold all of the stock leaves it, and gives out a cell more. -/
theorem grants (paced : heap.Paced entries) (apt : (Operation.make order).Apt heap machine (Listed entries))
    (cells : ∀ start, order.block start = Block.cell start)
    (strong : ∀ block ∈ stock.blocks, ∀ shape,
      heap.shapes.get? (machine.memory.tag block.start) = some shape → shape.weak = none)
    (alive : ∀ block ∈ stock.blocks, heap.Reachable machine (order.roots heap) block.start) :
    (order.perform heap).Meets machine
      (fun answer final => ∀ value, answer.2 = .ok value → ∃ later start, value = .reference start ∧
        stock.Held answer.1 final later (spare + 1) ∧ stock.New later start ∧
          order.Granted heap answer.1 machine final entries stock.blocks later start)
      fun _ => Size.limit ≤ 32 * spare := by
  obtain ⟨tiling, accounted⟩ := held.accounted
  have counts := held.counts
  refine (Order.grants accounted apt (fun block member => ⟨held.inUse block member, kind_of_mem member⟩) alive
    paced held.orderly strong (nodup_blocks held.distinct)).weaken (fun answer final granted value made => ?_)
    fun _ bound => ?_
  · obtain ⟨later, start, rfl, granted⟩ := granted value made
    have footprint : order.footprint = 32 := congrArg Block.size (cells 0)
    have issued := granted.counts
    rw [footprint] at issued
    have objects : ∀ block ∈ later, block.kind = .object := fun block member => by
      rcases granted.only block member with old | rfl
      · exact held.objects block old
      · exact cells start ▸ rfl
    refine ⟨later, start, rfl, held.keep granted.accounted granted.orderly granted.shapes granted.scratch
      granted.globals granted.identity objects (by omega) (fun block member => (granted.kept block member).1)
      (fun offset listed => ?_), ⟨cells start ▸ granted.made, fun member => ?_⟩, granted⟩
    · exact (granted.kept _ List.mem_cons_self).2 _ (context_covers listed)
    · have apart := granted.apart _ (cell_mem member)
      rw [cells start] at apart
      simp only [Block.Disjoint, Block.stop, Block.cell] at apart
      omega
  · rw [bytes_blocks] at bound
    omega

/-- A collection from the context leaves the stock if all of it can be reached from there, and nothing that
cannot. -/
theorem collects (paced : heap.Paced entries) (strong : ∀ block ∈ stock.blocks, ∀ shape,
      heap.shapes.get? (machine.memory.tag block.start) = some shape → shape.weak = none)
    (alive : ∀ block ∈ stock.blocks, heap.Reachable machine [stock.context.toValue] block.start) :
    (heap.collect stock.context).Meets machine
      (fun answer final => answer.1 = heap.counted answer.2 ∧ ∃ later, stock.Held answer.1 final later spare ∧
        (∀ block ∈ stock.blocks, block.Kept machine.memory final.memory) ∧
        ∀ block ∈ later, heap.Reachable machine [stock.context.toValue] block.start)
      fun _ => Size.limit ≤ 32 * spare := by
  obtain ⟨tiling, accounted⟩ := held.accounted
  have consistent := accounted.consistent
  have roots : heap.roots (some stock.context) = [stock.context.toValue] := by
    rw [Heap.roots, held.scratch, held.globals]
    rfl
  have denotes : ∀ handle ∈ some stock.context, heap.Denotes tiling handle.toValue := fun handle same =>
    Option.some.inj same ▸ accounted.denotes_handle held.context_listed
  have rooted := consistent.rooted denotes
  -- All that the stock consists of survives, its context being the only root.
  have stays : ∀ block ∈ stock.blocks,
      block ∈ heap.survivors machine (heap.roots (some stock.context)) entries := fun block member =>
    mem_survivors.mpr ⟨held.inUse block member, fun _ => roots ▸ alive block member⟩
  rcases (consistent.collectable denotes).collectFrom_meets with
    ⟨⟨after, stats⟩, final, ran, counted, swept, collected⟩ | ⟨final, failed, overflows⟩
  · obtain rfl : after = heap.counted stats := counted
    have acts : ((Operation.collect stock.context).perform heap).run machine =
        .ok (heap.counted stats, .stats stats) final := Action.run_bind ran
    have proceeds := accounted.collectsFrom held.orderly held.context_listed ran
    have apt : (Operation.collect stock.context).Apt heap machine (Listed entries) := held.context_listed
    have counts := Operation.conserves accounted held.orderly apt acts
    have kept : ∀ block ∈ stock.blocks, block.Kept machine.memory final.memory := fun block member => by
      have inUse := accounted.records.mem_blocks_of_object (held.inUse block member) (kind_of_mem member)
      refine collected.keeps consistent inUse (kind_of_mem member) ?_ (strong block member)
      exact (consistent.reach_iff rooted inUse (kind_of_mem member)).mpr (roots ▸ alive block member)
    refine .inl ⟨_, final, ran, rfl, _, held.keep proceeds.accounted proceeds.orderly rfl rfl rfl rfl
      (fun block member => held.objects block (mem_survivors.mp member).1) (counts.trans held.counts) stays
      fun offset listed => ?_, kept, fun block member => ?_⟩
    · exact kept _ List.mem_cons_self _ (context_covers listed)
    · obtain ⟨listed, reached⟩ := mem_survivors.mp member
      exact roots ▸ reached (held.objects block listed)
  · have bound := paced.overflows_bytes accounted rooted overflows
    have live := held.bytes_le stays
    rw [held.counts] at bound
    exact .inr ⟨final, failed, by omega⟩

theorem mem_blocks (member : block ∈ entries)
    (within : block.start = stock.context.address ∨ block.start ∈ stock.cells) : block ∈ stock.blocks := by
  obtain ⟨tiling, accounted⟩ := held.accounted
  have same {other : Block} (isOther : other ∈ stock.blocks) (starts : block.start = other.start) :
      block ∈ stock.blocks := by
    have equal := accounted.consistent.tiled.eq_of_start_eq
      (accounted.records.mem_blocks_of_object member (held.objects block member))
      (accounted.records.mem_blocks_of_object (held.inUse other isOther) (kind_of_mem isOther)) starts
    exact equal ▸ isOther
  rcases within with starts | isCell
  · exact same List.mem_cons_self starts
  · exact same (cell_mem isCell) rfl

/-- The stock is all that is in use if nothing starts anywhere else. -/
theorem bytes_eq (within : ∀ block ∈ entries, block.start = stock.context.address ∨ block.start ∈ stock.cells) :
    bytes entries = 48 + 32 * stock.cells.length := by
  obtain ⟨tiling, accounted⟩ := held.accounted
  refine le_antisymm ?_ (held.bytes_le held.inUse)
  rw [← bytes_blocks]
  exact Block.bytes_le (accounted.records.nodup accounted.consistent.tiled) fun block member =>
    held.mem_blocks member (within block member)

end Holding

theorem join (more : Stock) (held : stock.Held heap machine entries (spare + 1)) (new : stock.New entries start)
    (context : more.context = stock.context) (perm : more.cells.Perm (start :: stock.cells)) :
    more.Held heap machine entries spare := by
  refine { held with
    inUse := fun block member => ?_
    distinct := perm.nodup_iff.mpr (List.nodup_cons.mpr ⟨new.apart, held.distinct⟩)
    isContext := context ▸ held.isContext
    belongs := context ▸ held.belongs
    unsaved := context ▸ held.unsaved
    orphan := context ▸ held.orphan
    counts := ?_ }
  · rcases List.mem_cons.mp member with rfl | isCell
    · exact held.inUse _ (context ▸ List.mem_cons_self)
    · obtain ⟨other, isOther, rfl⟩ := List.mem_map.mp isCell
      rcases List.mem_cons.mp (perm.mem_iff.mp isOther) with rfl | old
      · exact new.listed
      · exact held.inUse _ (cell_mem old)
  · rw [held.counts, perm.length_eq, List.length_cons]
    omega

theorem leave {gone : List Nat} (held : stock.Held heap machine entries spare)
    (context : more.context = stock.context) (split : stock.cells = more.cells ++ gone) :
    more.Held heap machine entries (spare + gone.length) := by
  refine { held with
    inUse := fun block member => ?_
    distinct := (List.nodup_append.mp (split ▸ held.distinct)).1
    isContext := context ▸ held.isContext
    belongs := context ▸ held.belongs
    unsaved := context ▸ held.unsaved
    orphan := context ▸ held.orphan
    counts := ?_ }
  · rcases List.mem_cons.mp member with rfl | isCell
    · exact held.inUse _ (context ▸ List.mem_cons_self)
    · obtain ⟨other, isOther, rfl⟩ := List.mem_map.mp isCell
      exact held.inUse _ (cell_mem (split ▸ List.mem_append_left _ isOther))
  · rw [held.counts, split, List.length_append]
    omega

/-- A heap on which a job starts: nothing was given out. -/
structure Fresh (heap : Heap) (machine : Machine) : Prop where
  accounted : ∃ tiling, heap.Accounted tiling machine []
  orderly : machine.Orderly
  standard : heap.shapes = .standard
  scratch : heap.scratch = []
  globals : heap.globals.getD [] = []
  bounded : heap.Bounded
  uncounted : heap.counters = {}
  named : heap.identity < Size.limit
  single : ∃ slab, heap.slabs = [slab]

theorem fresh_of_new {placement : Placement} {settings : Settings}
    (founds : (Heap.new settings .standard {}).run (.fresh placement) = .ok (.ok heap) machine) :
    Fresh heap machine := by
  obtain ⟨_, same, _⟩ | ⟨slab, made, same, created, rfl⟩ := Heap.ensures_new.of_run founds
  · cases same
  · obtain rfl := Except.ok.inj same
    exact ⟨(Heap.arises_founded created (fun _ _ known => ShapeTable.confined_standard known) settings {}
        (Machine.heapIdentity 0) 1).accounted, Account.orderly_fresh.congr created.frames, rfl, rfl, rfl,
      (Heap.answers_new settings .standard {} _ _ _ founds _ rfl).2, rfl,
      show Machine.heapIdentity 0 < Size.limit by decide, slab, rfl⟩

/-- A job gets a context first. -/
theorem opens (fresh : Fresh heap machine) : (heap.makeContext none).Meets machine
    (fun answer final => ∀ context, answer.2 = .ok context → ∃ later,
      Held ⟨context, []⟩ answer.1 final later 0 ∧ context.environment final.memory = .nil ∧
        (Order.context none).Granted heap answer.1 machine final [] [] later context.address)
    fun _ => False := by
  obtain ⟨tiling, accounted⟩ := fresh.accounted
  have apt : (Operation.make (.context none)).Apt heap machine (Listed []) :=
    ⟨⟨fun typed => typed.elim, by simp⟩, by simp [Order.root], by simp [Order.held]⟩
  have empty {block : Block} (member : block ∈ ([] : List Block)) : False := List.not_mem_nil member
  have grants := Order.grants accounted apt (fun _ member => (empty member).elim) (fun _ member => (empty member).elim)
    (fresh.bounded.paced fresh.uncounted []) fresh.orderly (fun _ member => (empty member).elim) .nil
  rcases grants.of_map with ⟨⟨after, answer⟩, final, ran, granted⟩ | ⟨final, failed, bound⟩
  · refine .inl ⟨_, final, ran, fun context made => ?_⟩
    obtain rfl : answer = .ok context := made
    obtain ⟨later, start, same, granted⟩ := granted context.toValue rfl
    obtain ⟨place, belongs⟩ := Order.of_makeContext accounted apt fresh.named ran
    rw [same, granted.untagged] at place
    subst place
    obtain ⟨_, _, furnished⟩ := granted.furnished Tag.context rfl
    have footprint : (Order.context none).footprint = 48 := by decide
    have counts := granted.counts
    rw [fresh.uncounted, footprint] at counts
    refine ⟨later, ⟨granted.accounted, granted.orderly, granted.shapes.trans fresh.standard,
      granted.scratch.trans fresh.scratch, granted.globals ▸ fresh.globals, fun block member => ?_,
      fun block member => ?_, .nil, granted.tagged rfl, belongs, congrArg UInt64.toNat (furnished.saves rfl),
      granted.stored.1, counts⟩, granted.stored.2, granted⟩
    · rcases granted.only block member with old | rfl
      · exact (empty old).elim
      · rfl
    · obtain rfl := List.mem_singleton.mp member
      exact footprint ▸ granted.made
  · rw [fresh.uncounted] at bound
    exact absurd bound (by decide)

end Held

end Stock

end SlabHeap
