import SlabHeap.Proofs.Standard
import SlabHeap.Proofs.Sweep
import SlabHeap.Proofs.Weak

namespace SlabHeap

/-! Collections: marks come and go, and what had none is reclaimed.

`Heap.Marked` is where marking leaves a heap whose objects carried no marks. From there on,
`Heap.Marked.finishCollection_swept` says what the weak pass and the sweep make of it: `Heap.Collected`
compares the memory at the start with that at the end.
-/

open Block

namespace Heap

variable {heap : Heap} {machine mid final : Machine} {memory : Memory}
  {tiling swept : Slab → List Block} {block : Block} {live : Nat → Prop} {value : Value}

/-- The bytes that are not free. -/
def usedBytes (heap : Heap) (tiling : Slab → List Block) : Nat :=
  ((used (heap.blocks tiling)).map Block.size).sum

/-- The next request may be more than the heap can count, whatever a collection frees. -/
def Exhausted (heap : Heap) (tiling : Slab → List Block) : Prop :=
  heap.counters.Spent ∨ ¬ heap.counters.Counts 1 (heap.usedBytes tiling)

/-- The value refers to storage of the heap without a mark that is not kept. -/
def Lost (heap : Heap) (machine : Machine) (live : Nat → Prop) (value : Value) : Prop :=
  ∃ referent, heap.target? machine.memory value = some referent ∧ heap.contains referent = true ∧
    machine.Unmarked referent ∧ ¬ live referent

/-- A collection that keeps what is `live` clears a weak slot of the block. -/
def Breaks (heap : Heap) (machine : Machine) (live : Nat → Prop) (block : Block) : Prop :=
  heap.features.weakReferences = true ∧ ∃ shape,
    heap.shapes.get? (machine.memory.tag block.start) = some shape ∧
      shape.Breaks machine.memory (heap.Lost machine live) block.start

/-- A collection that keeps what is `live` clears the slot at an offset of the block. -/
def Drops (heap : Heap) (machine : Machine) (live : Nat → Prop) (block : Block) (offset : Nat) :
    Prop :=
  heap.features.weakReferences = true ∧ ∃ shape,
    heap.shapes.get? (machine.memory.tag block.start) = some shape ∧
      shape.Drops machine.memory (heap.Lost machine live) block.start offset

/-- Of all objects, a collection kept those that are `live`. -/
structure Collected (heap : Heap) (tiling swept : Slab → List Block) (machine final : Machine)
    (live : Nat → Prop) : Prop where
  steady : machine.Steady final
  tiled : heap.Tiled final.memory swept
  used : ∀ slab ∈ heap.slabs, ∀ block, block ∈ used (swept slab) ↔
    block ∈ used (tiling slab) ∧ (block.kind = .object → live block.start)
  coalesced : ∀ slab ∈ heap.slabs, Coalesced (tiling slab) → Coalesced (swept slab)
  objects : ∀ block ∈ heap.blocks tiling, block.kind = .object → live block.start →
    block.Weakened machine.memory final.memory (heap.Breaks machine live block)
      (heap.Drops machine live block)
  bareHeaders : ∀ block ∈ heap.blocks tiling, block.kind = .bare →
    final.memory.header block.start = machine.memory.header block.start ∨
      live block.start ∧
        final.memory.header block.start = (machine.memory.header block.start).mark
  bareContents : ∀ block ∈ heap.blocks tiling, block.kind = .bare → ∀ address,
    block.start + 8 ≤ address → address < block.stop →
      final.memory.read address = machine.memory.read address
  outside : ∀ address, (∀ slab ∈ heap.slabs, address < slab.start ∨ slab.stop ≤ address) →
    final.memory.read address = machine.memory.read address

namespace Collected

variable (collected : heap.Collected tiling swept machine final live)

include collected

theorem mem_swept (inUse : block.kind ≠ .free) : block ∈ heap.blocks swept ↔
    block ∈ heap.blocks tiling ∧ (block.kind = .object → live block.start) := by
  simp only [mem_blocks]
  constructor
  · rintro ⟨slab, inHeap, inSlab⟩
    have stays := (collected.used slab inHeap block).mp (mem_used.mpr ⟨inSlab, inUse⟩)
    exact ⟨⟨slab, inHeap, (mem_used.mp stays.1).1⟩, stays.2⟩
  · rintro ⟨⟨slab, inHeap, inSlab⟩, alive⟩
    have stays := (collected.used slab inHeap block).mpr ⟨mem_used.mpr ⟨inSlab, inUse⟩, alive⟩
    exact ⟨slab, inHeap, (mem_used.mp stays).1⟩

section Survivors

variable (tiled : heap.Tiled machine.memory tiling) (member : block ∈ heap.blocks tiling)
  (isObject : block.kind = .object) (alive : live block.start)

include tiled member isObject alive

theorem alike : block.Alike heap.shapes machine.memory final.memory := by
  obtain ⟨slab, inHeap, inSlab⟩ := mem_blocks.mp member
  refine (collected.objects block member isObject alive).alike
    ((tiled.layout slab inHeap).fits block inSlab) fun shape known offset drops => ?_
  obtain ⟨_, found, foundKnown, drops⟩ := drops
  obtain rfl := Option.some.inj (known.symm.trans foundKnown)
  exact drops.slot

omit tiled in
/-- A survivor keeps the words that are no slots. -/
theorem read_eq {address : Nat} (lower : block.start + 8 ≤ address) (upper : address < block.stop)
    (clear : ∀ shape, heap.shapes.get? (machine.memory.tag block.start) = some shape → ∀ offset,
      shape.Slot machine.memory block.start offset →
        ¬ (block.start + offset ≤ address ∧ address < block.start + offset + 8)) :
    final.memory.read address = machine.memory.read address := by
  refine (collected.objects block member isObject alive).kept address lower upper ?_
  rintro offset ⟨_, shape, known, drops⟩
  exact clear shape known offset drops.slot

theorem value_eq {shape : Shape} {offset : Nat}
    (known : heap.shapes.get? (machine.memory.tag block.start) = some shape)
    (slot : shape.Slot machine.memory block.start offset)
    (stays : ¬ heap.Drops machine live block offset) :
    final.memory.value (block.start + offset) = machine.memory.value (block.start + offset) := by
  have describes := (tiled.describes member (by simp [isObject]) known).2
  refine (collected.objects block member isObject alive).value_eq describes (fun other dropped => ?_)
    slot stays
  obtain ⟨_, found, foundKnown, drops⟩ := dropped
  obtain rfl := Option.some.inj (known.symm.trans foundKnown)
  exact drops.slot

theorem saves_eq (isContext : machine.memory.tag block.start = Tag.context) :
    (Context.mk block.start).saves final.memory = (Context.mk block.start).saves machine.memory := by
  have known : heap.shapes.get? Tag.context = some .context := rfl
  have describes := (tiled.describes member (by simp [isObject]) (isContext.symm ▸ known)).2
  have size := Shape.size_of_context known describes
  refine congrArg UInt64.toNat (collected.read_eq member isObject alive ?_ ?_ ?_)
  · simp only [Layout.Context.saves]
    omega
  · simp only [Block.stop, Layout.Context.saves]
    omega
  · intro shape found offset slot
    have behind := Shape.slot_of_context (isContext ▸ found) slot
    simp only [Layout.Context.saves]
    omega

/-- A survivor keeps alive nothing that it did not keep alive before. -/
theorem keptValues_swept (held : value ∈ heap.keptValues final block.start) :
    value = .no ∨ value ∈ heap.keptValues machine block.start := by
  have alike := collected.alike tiled member isObject alive
  rcases mem_keptValues.mp held with
    ⟨isContext, frame, linked, held⟩ | ⟨shape, known, offset, strong, rfl⟩
  · rw [alike.tag] at isContext
    have saves := collected.saves_eq tiled member isObject alive isContext
    have same := Context.savedValues_congr collected.steady.frames saves
    have saved := Context.mem_savedValues.mpr ⟨frame, linked, held⟩
    rw [same] at saved
    exact .inr (mem_keptValues.mpr (.inl ⟨isContext, Context.mem_savedValues.mp saved⟩))
  · rw [alike.tag] at known
    rw [Shape.strongSlot_congr (alike.lengths isObject shape known)] at strong
    by_cases dropped : heap.Drops machine live block offset
    · exact .inl ((collected.objects block member isObject alive).dropped offset dropped)
    · rw [collected.value_eq tiled member isObject alive known (.inl strong) dropped]
      exact .inr (slot_keptValues known strong)

end Survivors

end Collected

def counted (heap : Heap) (stats : SweepStats) : Heap :=
  { heap with counters := { heap.counters with
    collections := heap.counters.collections + 1
    bytesFreed := heap.counters.bytesFreed + stats.sumFreed } }

/-- What the weak slots of objects refer to in the heap is in use. -/
def WeaklyWithin (heap : Heap) (tiling : Slab → List Block) (memory : Memory) : Prop :=
  ∀ block ∈ heap.blocks tiling, block.kind = .object → ∀ shape,
    heap.shapes.get? (memory.tag block.start) = some shape → ∀ offset,
      shape.WeakSlot memory block.start offset →
        heap.DenotesWithin tiling (memory.value (block.start + offset))

/-- No object carries a mark, and what weak slots refer to in the heap is in use. -/
structure Clean (heap : Heap) (tiling : Slab → List Block) (machine : Machine) : Prop where
  tiled : heap.Tiled machine.memory tiling
  unmarked : ∀ block ∈ heap.blocks tiling, block.kind = .object → machine.Unmarked block.start
  weak : heap.features.weakReferences = true → heap.WeaklyWithin tiling machine.memory

/-- What is `live` was marked in a heap whose objects carried no marks. -/
structure Marked (heap : Heap) (tiling : Slab → List Block) (machine mid : Machine)
    (live : Nat → Prop) : Prop extends heap.Clean tiling machine where
  steady : machine.Steady mid
  nodes : ∀ object, live object → heap.Node tiling object
  marked : machine.memory.MarkedOn mid.memory live

theorem Tiled.slot_marked {live : Nat → Prop} (tiled : heap.Tiled machine.memory tiling)
    (nodes : ∀ object, live object → heap.Node tiling object)
    (marked : machine.memory.MarkedOn mid.memory live) (member : block ∈ heap.blocks tiling)
    (isObject : block.kind = .object) {shape : Shape} {offset : Nat}
    (known : heap.shapes.get? (machine.memory.tag block.start) = some shape)
    (slot : shape.Slot machine.memory block.start offset) :
    mid.memory.value (block.start + offset) = machine.memory.value (block.start + offset) := by
  have place := ((tiled.describes member (by simp [isObject]) known).2.slotInside offset slot).2
  exact congrArg Value.mk (tiled.contents_marked nodes marked member (by omega)
    (by simp only [Block.stop]; omega))

theorem Tiled.lengths_marked {live : Nat → Prop} (tiled : heap.Tiled machine.memory tiling)
    (nodes : ∀ object, live object → heap.Node tiling object)
    (marked : machine.memory.MarkedOn mid.memory live) (member : block ∈ heap.blocks tiling)
    (isObject : block.kind = .object) {shape : Shape}
    (known : heap.shapes.get? (machine.memory.tag block.start) = some shape) :
    ∀ length ∈ shape.lengths, mid.memory.read (block.start + length.offset) =
      machine.memory.read (block.start + length.offset) := by
  intro length listed
  have describes := (tiled.describes member (by simp [isObject]) known).2
  have place := (describes.lengthInside length listed).2
  exact tiled.contents_marked nodes marked member (by omega) (by simp only [Block.stop]; omega)

theorem WeaklyWithin.marked {live : Nat → Prop} (within : heap.WeaklyWithin tiling machine.memory)
    (tiled : heap.Tiled machine.memory tiling)
    (nodes : ∀ object, live object → heap.Node tiling object)
    (marked : machine.memory.MarkedOn mid.memory live) : heap.WeaklyWithin tiling mid.memory := by
  intro block member isObject shape known offset slot
  rw [tiled.tag_marked nodes marked member] at known
  have slot := (Shape.weakSlot_congr
    (tiled.lengths_marked nodes marked member isObject known)).mp slot
  rw [tiled.slot_marked nodes marked member isObject known (.inr (.inl slot))]
  exact within block member isObject shape known offset slot

/-- The end of a collection is what its phases make of it. -/
theorem finishCollection_run_eq {context : Option Context} {after : Machine} {stats : SweepStats}
    (weakRan : EStateM.run
      (if heap.features.weakReferences then heap.breakWeakReferences else pure ())
      (mid.logging (.notice (.collecting context heap.identity heap.totalSize))) = .ok () after)
    (sweepRan : heap.sweep.run after = .ok stats final) :
    (heap.finishCollection context).run mid =
      if heap.counters.Counts 1 stats.sumFreed then
        .ok (heap.counted stats, stats)
          (final.logging (.notice (.collected context stats.sumFreed stats.maxFreed)))
      else .error .additionOverflow
        (final.logging (.notice (.collected context stats.sumFreed stats.maxFreed))) := by
  have begins : (Action.note (.collecting context heap.identity heap.totalSize)).run mid =
      .ok () (mid.logging (.notice (.collecting context heap.identity heap.totalSize))) := rfl
  have ends : (Action.note (.collected context stats.sumFreed stats.maxFreed)).run final =
      .ok () (final.logging (.notice (.collected context stats.sumFreed stats.maxFreed))) := rfl
  unfold finishCollection
  rw [Action.run_bind begins]
  dsimp only
  rw [Action.ite_bind, Action.run_bind weakRan, Action.run_bind sweepRan, Action.run_bind ends]
  rw [Counters.collect_eq]
  split <;> rfl

namespace Marked

variable (marked : heap.Marked tiling machine mid live)

include marked

theorem stillTiled : heap.Tiled mid.memory tiling :=
  marked.tiled.of_marked marked.nodes marked.marked

theorem contents (member : block ∈ heap.blocks tiling) {address : Nat}
    (lower : block.start + 8 ≤ address) (upper : address < block.stop) :
    mid.memory.read address = machine.memory.read address :=
  marked.tiled.contents_marked marked.nodes marked.marked member lower upper

theorem isMarked_iff (member : block ∈ heap.blocks tiling) (isObject : block.kind = .object) :
    (mid.memory.header block.start).isMarked = true ↔ live block.start := by
  have unmarked : (machine.memory.header block.start).isMarked = false :=
    marked.unmarked block member isObject
  rw [marked.tiled.isMarked_iff marked.nodes marked.marked member]
  simp [unmarked]

/-- What marking leaves without a mark is lost. -/
theorem loses_iff (denotes : heap.DenotesWithin tiling value) :
    heap.Loses mid.memory value ↔ heap.Lost machine live value := by
  unfold Loses Lost
  rw [marked.tiled.target?_marked marked.nodes marked.marked]
  refine exists_congr fun referent => and_congr_right fun target => and_congr_right fun inHeap => ?_
  obtain ⟨block, member, _, rfl⟩ := denotes referent (address?_of_target? target) inHeap
  have iff := marked.tiled.isMarked_iff marked.nodes marked.marked member
  rw [← Bool.not_eq_true, iff, Machine.Unmarked, not_or, Bool.not_eq_true, and_comm]

variable (member : block ∈ heap.blocks tiling) (isObject : block.kind = .object)

include member isObject

theorem lengths_eq {shape : Shape}
    (known : heap.shapes.get? (machine.memory.tag block.start) = some shape) :
    ∀ length ∈ shape.lengths, mid.memory.read (block.start + length.offset) =
      machine.memory.read (block.start + length.offset) :=
  marked.tiled.lengths_marked marked.nodes marked.marked member isObject known

/-- A weak slot holds what it held, and loses it or not. -/
theorem loses_value {shape : Shape} {offset : Nat}
    (weak : heap.features.weakReferences = true)
    (known : heap.shapes.get? (machine.memory.tag block.start) = some shape)
    (slot : shape.WeakSlot machine.memory block.start offset) :
    heap.Loses mid.memory (mid.memory.value (block.start + offset)) ↔
      heap.Lost machine live (machine.memory.value (block.start + offset)) := by
  rw [marked.tiled.slot_marked marked.nodes marked.marked member isObject known (.inr (.inl slot))]
  exact marked.loses_iff (marked.weak weak block member isObject shape known offset slot)

theorem breaksIn_iff (weak : heap.features.weakReferences = true) (alive : live block.start) :
    heap.BreaksIn mid.memory block ↔ heap.Breaks machine live block := by
  have tag := marked.tiled.tag_marked marked.nodes marked.marked member
  rw [BreaksIn, and_iff_right isObject, and_iff_right ((marked.isMarked_iff member isObject).mpr alive),
    Breaks, and_iff_right weak, tag]
  refine exists_congr fun shape => and_congr_right fun known => ?_
  exact Shape.breaks_congr (marked.lengths_eq member isObject known)
    fun offset => marked.loses_value member isObject weak known

theorem dropsIn_iff (weak : heap.features.weakReferences = true) (alive : live block.start)
    (offset : Nat) : heap.DropsIn mid.memory block offset ↔ heap.Drops machine live block offset := by
  have tag := marked.tiled.tag_marked marked.nodes marked.marked member
  rw [DropsIn, and_iff_right isObject, and_iff_right ((marked.isMarked_iff member isObject).mpr alive),
    Drops, and_iff_right weak, tag]
  refine exists_congr fun shape => and_congr_right fun known => ?_
  exact Shape.drops_congr (marked.lengths_eq member isObject known)
    (fun offset => marked.loses_value member isObject weak known) offset

omit member isObject

/-- The blocks that the weak pass does not come to: all of them, if the feature is off. -/
def unvisited (heap : Heap) (tiling : Slab → List Block) : List Block :=
  if heap.features.weakReferences then [] else heap.blocks tiling

theorem ensures_weakPass :
    (do if heap.features.weakReferences then heap.breakWeakReferences : Action Unit).Ensures mid
      fun _ after => heap.WeakPass tiling mid after (unvisited heap tiling) := by
  cases weak : heap.features.weakReferences with
  | false =>
      simp only [unvisited, weak, Bool.false_eq_true, if_false]
      exact Action.ensures_pure.mpr (.start mid)
  | true =>
      simp only [unvisited, weak, if_true]
      have within := (marked.weak weak).marked marked.tiled marked.nodes marked.marked
      exact marked.stillTiled.ensures_breakWeakReferences fun block member isObject _ =>
        within block member isObject

section Phases

variable {after : Machine} (pass : heap.WeakPass tiling mid after (unvisited heap tiling))

include pass

theorem isDead_iff (member : block ∈ heap.blocks tiling) :
    block.isDead after.memory = false ↔ (block.kind = .object → live block.start) := by
  by_cases isObject : block.kind = .object
  · have same := (pass.weakened block member (by simp [isObject])).isMarked
    simp [isDead, isObject, same, marked.isMarked_iff member isObject]
  · simp [isDead, isObject]

/-- A survivor went through all three phases. -/
theorem object_weakened (swept : heap.Swept tiling after final heap.slabs)
    (member : block ∈ heap.blocks tiling) (isObject : block.kind = .object)
    (alive : live block.start) :
    block.Weakened machine.memory final.memory (heap.Breaks machine live block)
      (heap.Drops machine live block) := by
  obtain ⟨slab, inHeap, inSlab⟩ := mem_blocks.mp member
  have inUse : block.kind ≠ .free := by simp [isObject]
  have lives := (marked.isDead_iff pass member).mpr fun _ => alive
  have survives := swept.survived slab inHeap block (mem_used.mpr ⟨inSlab, inUse⟩) lives
  have header := marked.marked.marked block.start alive
  have unmarked : (machine.memory.header block.start).isMarked = false :=
    marked.unmarked block member isObject
  have weakened : block.Weakened mid.memory after.memory (heap.Breaks machine live block)
      (heap.Drops machine live block) := by
    refine (pass.weakened block member inUse).congr ?_ fun offset => ?_
    · cases weak : heap.features.weakReferences with
      | false => simp [unvisited, Breaks, weak, member]
      | true => simpa [unvisited, weak] using marked.breaksIn_iff member isObject weak alive
    · cases weak : heap.features.weakReferences with
      | false => simp [unvisited, Drops, weak, member]
      | true => simpa [unvisited, weak] using marked.dropsIn_iff member isObject weak alive offset
  refine ⟨fun breaks => ?_, fun whole => ?_, fun offset drops => ?_,
    fun address lower upper outside => ?_⟩
  · rw [survives.header isObject, weakened.broken breaks, header, Header.unmark_add_broken,
      Header.unmark_mark unmarked]
  · rw [survives.header isObject, weakened.whole whole, header, Header.unmark_mark unmarked]
  · have slot : 8 ≤ offset ∧ offset + 8 ≤ block.size := by
      obtain ⟨_, shape, known, drops⟩ := drops
      have describes := (marked.tiled.describes member inUse known).2
      have place := (describes.slotInside offset drops.slot).2
      exact ⟨place.1, place.2.1⟩
    rw [← weakened.dropped offset drops, Memory.value, Memory.value,
      survives.contents _ ⟨by omega, by simp only [Block.stop]; omega⟩ fun _ => by omega]
  · rw [survives.contents address ⟨by omega, upper⟩ fun _ => lower,
      weakened.kept address lower upper outside, marked.contents member lower upper]

/-- Storage without a header keeps at most a mark. -/
theorem bare_kept (swept : heap.Swept tiling after final heap.slabs)
    (member : block ∈ heap.blocks tiling) (isBare : block.kind = .bare) :
    block.Kept mid.memory final.memory := by
  obtain ⟨slab, inHeap, inSlab⟩ := mem_blocks.mp member
  have inUse : block.kind ≠ .free := by simp [isBare]
  have lives := (marked.isDead_iff pass member).mpr fun isObject => by simp [isBare] at isObject
  have survives := swept.survived slab inHeap block (mem_used.mpr ⟨inSlab, inUse⟩) lives
  have kept : block.Kept mid.memory after.memory :=
    (pass.weakened block member inUse).unchanged (fun both => by simp [BreaksIn, isBare] at both)
      (fun _ both => by simp [DropsIn, isBare] at both) (marked.tiled.bounds member).2.1
  refine fun address covers => ?_
  rw [survives.contents address covers fun isObject => by simp [isBare] at isObject,
    kept address covers]

theorem collected (swept : heap.Swept tiling after final heap.slabs) :
    heap.Collected tiling (sweptTiling after.memory tiling) machine final live where
  steady := (marked.steady.trans pass.steady).trans swept.steady
  tiled := ⟨swept.layout, marked.tiled.apart⟩
  used slab inHeap block := by
    rw [sweptTiling, used_sweep fun _ => isDead_used, List.mem_filter, Bool.not_eq_true',
      and_congr_right_iff]
    intro inUse
    exact marked.isDead_iff pass (mem_blocks.mpr ⟨slab, inHeap, (mem_used.mp inUse).1⟩)
  coalesced slab inHeap coalesced := coalesced.sweep
  objects block member isObject alive := marked.object_weakened pass swept member isObject alive
  bareHeaders block member isBare := by
    have kept := marked.bare_kept pass swept member isBare
    rw [Memory.header, Memory.header, kept _ (marked.tiled.start_covers member)]
    by_cases alive : live block.start
    · exact .inr ⟨alive, marked.marked.marked block.start alive⟩
    · exact .inl (marked.tiled.header_unmarked marked.nodes marked.marked member alive)
  bareContents block member isBare address lower upper := by
    rw [marked.bare_kept pass swept member isBare address ⟨by omega, upper⟩]
    exact marked.contents member lower upper
  outside address apart := by
    have clear : ∀ block ∈ heap.blocks tiling, ¬ block.Covers address := by
      intro block member covers
      obtain ⟨slab, inHeap, inSlab⟩ := mem_blocks.mp member
      have within := marked.tiled.slab_covers inHeap inSlab covers
      have := apart slab inHeap
      omega
    rw [swept.outside address apart, pass.outside address fun block member _ => clear block member]
    refine marked.marked.same address fun object alive inside => ?_
    obtain ⟨block, member, _, rfl⟩ := marked.nodes object alive
    have large := (marked.tiled.bounds member).2.2.1
    exact clear block member ⟨inside.1, by simp only [Block.stop]; omega⟩

omit marked pass in
/-- What was in use is in use or freed. -/
theorem sumFreed_eq {shown : Memory} :
    (sweptStats shown tiling heap.slabs).sumFreed + heap.usedBytes (sweptTiling shown tiling) =
      heap.usedBytes tiling := by
  have stats (slabs : List Slab) (start : SweepStats) :
      (slabs.foldl (fun stats slab =>
        (Block.sweep (isDead shown) stats (tiling slab)).2) start).sumFreed +
          ((used (slabs.flatMap (sweptTiling shown tiling))).map Block.size).sum =
        start.sumFreed + ((used (slabs.flatMap tiling)).map Block.size).sum := by
    induction slabs generalizing start with
    | nil => simp [used]
    | cons slab rest ih =>
        have onlyUsed : (tiling slab).filter (isDead shown) =
            (used (tiling slab)).filter (isDead shown) := by
          rw [used, List.filter_filter]
          refine List.filter_congr fun block _ => ?_
          cases dies : isDead shown block with
          | false => simp
          | true => simp [isDead_used dies]
        have parts : (((used (tiling slab)).filter (isDead shown)).map Block.size).sum +
            (((used (tiling slab)).filter fun block => !isDead shown block).map
              Block.size).sum = ((used (tiling slab)).map Block.size).sum := by
          simpa using List.sum_map_filter_add_sum_map_filter_not
            (fun block => isDead shown block = true) Block.size (used (tiling slab))
        have here : used (sweptTiling shown tiling slab) =
            (used (tiling slab)).filter fun block => !isDead shown block :=
          used_sweep fun _ => isDead_used
        have later := ih (Block.sweep (isDead shown) start (tiling slab)).2
        rw [Block.sweep, sumFreed_sweepFrom, onlyUsed] at later
        simp only [List.foldl_cons, List.flatMap_cons, used_append, List.map_append, List.sum_append,
          here]
        rw [Block.sweep]
        omega
  simpa [sweptStats, usedBytes, Heap.blocks] using stats heap.slabs {}

end Phases

/-- What dies is untouched until the sweep. -/
theorem dead_kept {after : Machine} (pass : heap.WeakPass tiling mid after (unvisited heap tiling))
    (member : block ∈ heap.blocks tiling) (isObject : block.kind = .object)
    (dies : block.isDead after.memory = true) : block.Kept machine.memory after.memory := by
  have lost : ¬ live block.start := by
    intro alive
    have lives := (marked.isDead_iff pass member).mpr fun _ => alive
    simp [dies] at lives
  have unmarked : ¬ (mid.memory.header block.start).isMarked = true :=
    fun isMarked => lost ((marked.isMarked_iff member isObject).mp isMarked)
  have aligned := (marked.tiled.bounds member).2.1
  have passed : block.Kept mid.memory after.memory :=
    (pass.weakened block member (by simp [isObject])).unchanged
      (fun both => unmarked both.2.2.1) (fun _ both => unmarked both.2.2.1) aligned
  refine Kept.trans (Kept.of_header aligned ?_ ?_) passed
  · exact marked.tiled.header_unmarked marked.nodes marked.marked member lost
  · exact fun address lower upper => marked.contents member lower upper

/-- Only counting can fail, and it does so after all is done. What dies can be seen in
memory when the sweep begins. -/
theorem finishCollection_swept (context : Option Context) :
    ∃ shown final, (∀ block ∈ heap.blocks tiling,
        block.isDead shown = false ↔ (block.kind = .object → live block.start)) ∧
      heap.Collected tiling (sweptTiling shown tiling) machine final live ∧
      heap.Finalized tiling (isDead shown) machine.memory mid final heap.slabs ∧
      (heap.finishCollection context).run mid =
        if heap.counters.Counts 1 (sweptStats shown tiling heap.slabs).sumFreed then
          .ok (heap.counted (sweptStats shown tiling heap.slabs),
            sweptStats shown tiling heap.slabs) final
        else .error .additionOverflow final := by
  have begun : heap.Marked tiling machine
      (mid.logging (.notice (.collecting context heap.identity heap.totalSize))) live :=
    ⟨marked.toClean, ⟨marked.steady.frames, marked.steady.identities, marked.steady.pages⟩,
      marked.nodes, marked.marked⟩
  have silently : Action.Respects Machine.Silent
      (if heap.features.weakReferences then heap.breakWeakReferences else pure () : Action Unit) :=
    .ite heap.respects_breakWeakReferences (Action.respects_pure ())
  obtain ⟨_, after, weakRan, pass⟩ := begun.ensures_weakPass
  obtain ⟨stats, final, sweepRan, counted, swept, made, calls, called⟩ :=
    (pass.stillTiled begun.stillTiled).ensures_sweep
  have done : Machine.Quiet final
      (final.logging (.notice (.collected context stats.sumFreed stats.maxFreed))) :=
    final.quiet_logging _
  have collected := begun.collected pass
    ⟨swept.steady.trans done.toSteady, swept.layout, swept.survived, swept.outside⟩
  have finalized : heap.Finalized tiling (isDead after.memory) after.memory mid
      (final.logging (.notice (.collected context stats.sumFreed stats.maxFreed))) heap.slabs := by
    refine ⟨made, ?_, called⟩
    rw [Machine.calls_logging, calls, silently.of_run weakRan, Machine.calls_logging]
    simp [Event.call?]
  refine ⟨after.memory, _, fun block member => begun.isDead_iff pass member, collected,
    finalized.since fun slab inHeap block inSlab isObject dies => ?_, ?_⟩
  · have member := mem_blocks.mpr ⟨slab, inHeap, inSlab⟩
    exact ⟨marked.tiled.start_covers member, begun.dead_kept pass member isObject dies⟩
  · rw [← counted]
    exact finishCollection_run_eq weakRan sweepRan

end Marked

/-- A collection keeps what can be reached from its roots. -/
theorem Clean.collectFrom_swept {context : Option Context} (clean : heap.Clean tiling machine)
    (closed : heap.Closed machine tiling (heap.roots context)) :
    ∃ shown final, (∀ block ∈ heap.blocks tiling, block.isDead shown = false ↔
        (block.kind = .object →
          heap.Reach machine machine.Unmarked (heap.roots context) block.start)) ∧
      heap.Collected tiling (sweptTiling shown tiling) machine final
        (heap.Reach machine machine.Unmarked (heap.roots context)) ∧
      heap.Finalized tiling (isDead shown) machine.memory machine final heap.slabs ∧
      (heap.collectFrom context).run machine =
        if heap.counters.Counts 1 (sweptStats shown tiling heap.slabs).sumFreed then
          .ok (heap.counted (sweptStats shown tiling heap.slabs),
            sweptStats shown tiling heap.slabs) final
        else .error .additionOverflow final := by
  have silently : Action.Respects Machine.Silent (heap.mark (heap.roots context)) := heap.respects_mark _
  obtain ⟨_, mid, ran, ⟨steady, markedOn⟩, silent⟩ := closed.ensures_mark.respecting silently
  have marked : heap.Marked tiling machine mid _ :=
    ⟨clean, steady, fun _ reached => closed.node reached, markedOn⟩
  obtain ⟨shown, final, dies, collected, ⟨made, calls, called⟩, finished⟩ :=
    marked.finishCollection_swept context
  refine ⟨shown, final, dies, collected, ⟨made, calls.trans (by rw [silent]), called⟩, ?_⟩
  rw [collectFrom, Action.run_bind ran]
  exact finished

/-- The bytes that were in use are in use or were freed. -/
theorem Clean.collectFrom_run {context : Option Context} (clean : heap.Clean tiling machine)
    (closed : heap.Closed machine tiling (heap.roots context)) :
    ∃ stats final swept,
      heap.Collected tiling swept machine final
        (heap.Reach machine machine.Unmarked (heap.roots context)) ∧
      stats.sumFreed + heap.usedBytes swept = heap.usedBytes tiling ∧
      (heap.collectFrom context).run machine =
        if heap.counters.Counts 1 stats.sumFreed then
          .ok ({ heap with counters := { heap.counters with
            collections := heap.counters.collections + 1
            bytesFreed := heap.counters.bytesFreed + stats.sumFreed } }, stats) final
        else .error .additionOverflow final := by
  obtain ⟨shown, final, _, collected, _, ran⟩ := clean.collectFrom_swept closed
  exact ⟨sweptStats shown tiling heap.slabs, final, _, collected, Marked.sumFreed_eq, ran⟩

/-- A collection that answers was counted, which was possible. -/
theorem answers_finishCollection_counts (heap : Heap) (context : Option Context) :
    (heap.finishCollection context).Answers fun answer =>
      answer.1 = heap.counted answer.2 ∧ heap.counters.Counts 1 answer.2.sumFreed := by
  have goesOn : (do
      let swept ← heap.sweep
      Action.note (.collected context swept.sumFreed swept.maxFreed)
      let counters ← heap.counters.collect swept.sumFreed
      return ({ heap with counters }, swept) : Action (Heap × SweepStats)).Answers fun answer =>
          answer.1 = heap.counted answer.2 ∧ heap.counters.Counts 1 answer.2.sumFreed := by
    refine Action.answers_after fun swept => Action.answers_after fun _ => ?_
    exact Action.answers_count (heap.counters.collect_eq _) fun counts => Action.answers_pure ⟨rfl, counts⟩
  unfold finishCollection
  refine Action.answers_after fun _ => ?_
  split
  · exact Action.answers_after fun _ => goesOn
  · exact goesOn

theorem answers_collectFrom_counts (heap : Heap) (context : Option Context) :
    (heap.collectFrom context).Answers fun answer =>
      answer.1 = heap.counted answer.2 ∧ heap.counters.Counts 1 answer.2.sumFreed :=
  Action.answers_after fun _ => answers_finishCollection_counts heap context

theorem answers_finishCollection_counted (heap : Heap) (context : Option Context) :
    (heap.finishCollection context).Answers fun answer => answer.1 = heap.counted answer.2 :=
  fun machine answer final ran => (answers_finishCollection_counts heap context machine answer final ran).1

theorem answers_collectFrom_counted (heap : Heap) (context : Option Context) :
    (heap.collectFrom context).Answers fun answer => answer.1 = heap.counted answer.2 :=
  Action.answers_after fun _ => answers_finishCollection_counted heap context

end Heap

end SlabHeap
