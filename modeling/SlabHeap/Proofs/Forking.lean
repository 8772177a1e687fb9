import SlabHeap.Proofs.Building

namespace SlabHeap

/-! Forks of a heap with a ring.

Where the objects of a heap have images in a copy, so has a string of pairs, `Memory.Strung.image`. A fork of a
heap that holds on to a ring and nothing else has a ring of the same length in its copy, which the copied
context holds on to, and leaves the first one alone: `Ring.Held.fork`.
-/

open SlabHeap.Action Block Heap

namespace Heap.Mirrors

variable {heap copy : Heap} {place : Nat → Nat} {tiling copied : Slab → List Block} {memory other : Memory}
  {cell : Nat}

section Cells

variable (mirrors : heap.Mirrors copy place tiling copied memory other) (tiled : heap.Tiled memory tiling)
  (member : Block.cell cell ∈ heap.blocks tiling)

include tiled member

theorem moveValue_cell : heap.moveValue place (.reference cell) = .reference (place cell) := by
  have bounds := tiled.bounds member
  have inside : heap.contains cell = true := tiled.contains member
  simp only [Block.cell, Block.stop] at bounds
  rw [moveValue, Value.address?_reference (by omega) (by omega)]
  exact if_pos inside

include mirrors

variable (standard : heap.shapes = .standard) {first second : Value}

include standard

omit tiled in
theorem isPair (pair : memory.IsPair cell first second) :
    other.IsPair (place cell) (heap.moveValue place first) (heap.moveValue place second) := by
  have imaged := mirrors.imaged _ member rfl
  have known : heap.shapes.get? (memory.tag (Block.cell cell).start) = some .pair := by
    rw [show memory.tag (Block.cell cell).start = _ from pair.tag, standard]
    rfl
  exact ⟨imaged.tag.trans pair.tag, (imaged.slots _ known _ (Shape.slot_pair.mpr (.inl rfl))).trans
    (congrArg _ pair.car), (imaged.slots _ known _ (Shape.slot_pair.mpr (.inr rfl))).trans (congrArg _ pair.cdr)⟩

theorem isDouble (double : memory.IsDouble cell first second) :
    other.IsDouble (place cell) (heap.moveValue place first) (heap.moveValue place second) := by
  have imaged := mirrors.imaged _ member rfl
  have known : heap.shapes.get? (memory.tag (Block.cell cell).start) = some .vector := by
    rw [show memory.tag (Block.cell cell).start = _ from double.tag, standard]
    rfl
  have two : Size.saturate (Shape.stored memory cell) = 2 := by
    rw [Shape.stored, double.length]
    decide
  have slot (index : Nat) (among : index < 2) :
      Shape.vector.Slot memory cell (Layout.Sequence.contents + index * wordBytes) :=
    Shape.slot_vector.mpr ⟨index, two.symm ▸ among, by rw [Nat.mul_comm]⟩
  have length : other.read (place cell + Layout.Sequence.length) = memory.read (cell + Layout.Sequence.length) :=
    mirrors.lengths tiled member rfl known ⟨Layout.Sequence.length, wordBytes⟩ List.mem_cons_self
  exact ⟨imaged.tag.trans double.tag, (congrArg Value.mk length).trans double.length,
    (imaged.slots _ known _ (slot 0 (by decide))).trans (congrArg _ double.first),
    (imaged.slots _ known _ (slot 1 (by decide))).trans (congrArg _ double.second)⟩

end Cells

end Heap.Mirrors

namespace Memory

variable {heap copy : Heap} {place : Nat → Nat} {tiling copied : Slab → List Block} {memory other : Memory}
  {head : Nat} {next : Value} {nodes : List (Nat × Option Nat)}

def moveNodes (place : Nat → Nat) (nodes : List (Nat × Option Nat)) : List (Nat × Option Nat) :=
  nodes.map fun node => (place node.1, node.2.map place)

theorem cellsOf_moveNodes (place : Nat → Nat) (nodes : List (Nat × Option Nat)) :
    cellsOf (moveNodes place nodes) = (cellsOf nodes).map place := by
  induction nodes with
  | nil => rfl
  | cons node nodes ih =>
      have step : cellsOf (moveNodes place (node :: nodes)) =
          (place node.1 :: (node.2.map place).toList) ++ cellsOf (moveNodes place nodes) := rfl
      have steps : cellsOf (node :: nodes) = (node.1 :: node.2.toList) ++ cellsOf nodes := rfl
      rw [step, steps, ih, List.map_append, List.map_cons, Option.toList_map]

theorem Strung.image (mirrors : heap.Mirrors copy place tiling copied memory other)
    (tiled : heap.Tiled memory tiling) (standard : heap.shapes = .standard) (strung : memory.Strung head next nodes)
    (inUse : ∀ cell ∈ head :: cellsOf nodes, Block.cell cell ∈ heap.blocks tiling) :
    other.Strung (place head) (heap.moveValue place next) (moveNodes place nodes) := by
  induction strung with
  | nil =>
      rw [Mirrors.moveValue_cell tiled (inUse head List.mem_cons_self)]
      exact .nil
  | @cons cell back next nodes rest pair double ih =>
      have own {place : Nat} (member : place ∈ cell :: back.toList) : Block.cell place ∈ heap.blocks tiling :=
        inUse place (List.mem_cons_of_mem _ (List.mem_append_left _ member))
      have rest := ih fun place member => inUse place ((List.mem_cons.mp member).elim
        (fun same => same ▸ List.mem_cons_self) fun later => List.mem_cons_of_mem _ (List.mem_append_right _ later))
      rw [Mirrors.moveValue_cell tiled (own List.mem_cons_self)] at rest
      refine .cons rest ?_ fun vector isBack => ?_
      · have image := mirrors.isPair (own List.mem_cons_self) standard pair
        cases back with
        | none => exact image
        | some vector =>
            have isOwn := own (List.mem_cons_of_mem _ List.mem_cons_self)
            rw [Option.elim_some, Mirrors.moveValue_cell tiled isOwn] at image
            exact image
      · obtain ⟨original, isOriginal, rfl⟩ := Option.map_eq_some_iff.mp isBack
        obtain ⟨number, isDouble⟩ := double original isOriginal
        have image := mirrors.isDouble tiled (own (List.mem_cons_of_mem _ (Option.mem_toList.mpr isOriginal))) standard
          isDouble
        rw [Mirrors.moveValue_cell tiled (inUse head List.mem_cons_self),
          moveValue_of_none (Value.address?_fixnum number)] at image
        exact ⟨number, image⟩

end Memory

/-- Blocks stay as they are where others take new storage. -/
theorem Heap.Consistent.kept_extended {heap : Heap} {tiling : Slab → List Block} {machine final : Machine}
    {block : Block} (consistent : heap.Consistent tiling machine) (reserved : machine.Extended final)
    (member : block ∈ heap.blocks tiling) : block.Kept machine.memory final.memory := by
  intro address covers
  obtain ⟨slab, inHeap, inSlab⟩ := mem_blocks.mp member
  have inside := consistent.tiled.slab_covers inHeap inSlab covers
  exact consistent.untouched reserved slab inHeap address inside.1 inside.2

/-- There is no fork without room for another slab. -/
theorem Heap.ensures_fork_full {heap : Heap} {context : Context} {machine : Machine} {source : Slab}
    {blocks : List Block} (single : heap.slabs = [source])
    (layout : source.Layout heap.shapes machine.memory blocks) (inside : source.contains context.address = true)
    (isIn : context.isIn heap machine.memory = true) (keepOwnership : Bool) (full : ¬ machine.Room source.size) :
    (heap.fork context keepOwnership).Ensures machine fun answer _ => answer = .error (.reservation source.size) := by
  unfold Heap.fork
  rw [Action.ensures_memory]
  simp only [heap.checkSource_eq_ok single inside isIn]
  refine (Slab.ensures_create heap.shapes).bind ?_
  rintro _ made (⟨rfl, rfl, _⟩ | ⟨target, rfl, sized, room, _⟩)
  · exact Action.ensures_pure.mpr rfl
  · rw [roundedSize?_of_placed layout.placed] at sized
    exact absurd (Option.some.inj sized ▸ room) full

def Ring.move (place : Nat → Nat) (ring : Ring) : Ring := ⟨place ring.head, Memory.moveNodes place ring.nodes⟩

theorem Ring.cells_move (place : Nat → Nat) (ring : Ring) : (ring.move place).cells = ring.cells.map place :=
  Memory.cellsOf_moveNodes place ring.nodes

namespace Ring.Held

variable {ring : Ring} {context : Context} {heap : Heap} {machine made final : Machine} {entries : List Block}
  {spare : Nat} {next : Value} {source target : Slab} {tiling : Slab → List Block} {keepOwnership : Bool}

theorem extended (held : ring.Held context heap machine entries spare next) (reserved : machine.Extended final) :
    ring.Held context heap final entries spare next := by
  obtain ⟨tiling, accounted⟩ := held.accounted
  have kept : ∀ block ∈ (ring.stock context).blocks, block.Kept machine.memory final.memory := fun block member =>
    accounted.consistent.kept_extended reserved (accounted.records.mem_blocks_of_object (held.inUse block member)
      (Stock.kind_of_mem member))
  exact held.keep (held.toHeld.keep ⟨tiling, accounted.consistent.extended reserved, accounted.records⟩
    (held.orderly.congr reserved.frames) rfl rfl rfl rfl held.objects held.counts held.inUse
    fun offset listed => kept _ List.mem_cons_self _ (Stock.context_covers listed)) kept

section Image

variable (held : ring.Held context heap machine entries 0 (.reference ring.head))
  (accounted : heap.Accounted tiling machine entries)
  (forks : heap.Forks tiling keepOwnership machine made final source target)

include held accounted

theorem mem_blocks_stock {block : Block} (member : block ∈ (ring.stock context).blocks) : block ∈ heap.blocks tiling :=
  accounted.records.mem_blocks_of_object (held.inUse block member) (Stock.kind_of_mem member)

theorem cell_mem_blocks : ∀ cell ∈ ring.head :: ring.cells, Block.cell cell ∈ heap.blocks tiling :=
  fun _ member => held.mem_blocks_stock accounted
    (Stock.cell_mem ((List.mem_cons.mp member).elim (fun same => same ▸ held.started) id))

include forks

theorem context_mem_source : (⟨context.address, 48, .object⟩ : Block) ∈ tiling source := by
  simpa [blocks, forks.single] using held.mem_blocks_stock accounted List.mem_cons_self

theorem counterpart_context (offset : Nat) : source.counterpart target (context.address + offset) =
    source.counterpart target context.address + offset := by
  have inHeap : source ∈ heap.slabs := forks.single ▸ List.mem_singleton_self source
  have bounds := (accounted.consistent.tiled.layout source inHeap).bounds
    (held.context_mem_source accounted forks)
  dsimp only at bounds
  exact Slab.counterpart_add (by omega)

omit held in
theorem mirrors_fork : heap.Mirrors (heap.forkOf (Machine.heapIdentity machine.identities) target)
    (source.counterpart target) tiling (copiedTiling source target tiling) made.memory final.memory :=
  forks.duplicated.mirrors_copy forks.single rfl forks.beside (accounted.consistent.extended forks.reserved).upheld
    (fun _ _ _ => rfl) rfl

/-- The fork has the context and the cells of the ring in use. -/
theorem image_stock
    (arises : (heap.forkOf (Machine.heapIdentity machine.identities) target).Arises machine final
      (entries.map (source.moveBlock target))) (named : Machine.heapIdentity machine.identities < Size.limit) :
    ((ring.move (source.counterpart target)).stock ⟨source.counterpart target context.address⟩).Held
      (heap.forkOf (Machine.heapIdentity machine.identities) target) final (entries.map (source.moveBlock target))
      0 := by
  have still := held.extended forks.reserved
  have consistent := accounted.consistent.extended forks.reserved
  have mirrors := mirrors_fork accounted forks
  have cells := held.cell_mem_blocks accounted
  have imaged := mirrors.imaged _ (held.mem_blocks_stock accounted List.mem_cons_self) rfl
  have adapted := forks.duplicated.adapted _ (held.context_mem_source accounted forks) rfl
  have place := held.counterpart_context accounted forks
  exact {
    accounted := arises.accounted
    orderly := held.orderly.congr forks.extended.frames
    standard := held.standard
    scratch := rfl
    globals := rfl
    objects := fun block member => by
      obtain ⟨original, isOriginal, rfl⟩ := List.mem_map.mp member
      exact held.objects original isOriginal
    inUse := fun block member => by
      rcases List.mem_cons.mp member with rfl | isImage
      · exact List.mem_map.mpr ⟨_, held.inUse _ List.mem_cons_self, rfl⟩
      · obtain ⟨image, isOther, rfl⟩ := List.mem_map.mp isImage
        rw [stock, cells_move] at isOther
        obtain ⟨cell, isCell, rfl⟩ := List.mem_map.mp isOther
        exact List.mem_map.mpr ⟨_, held.inUse _ (Stock.cell_mem isCell), rfl⟩
    distinct := by
      rw [stock, cells_move]
      exact held.distinct.map_on fun first isFirst second isSecond => mirrors.places.injective _ _
        (consistent.tiled.contains (cells first (List.mem_cons_of_mem _ isFirst)))
        (consistent.tiled.contains (cells second (List.mem_cons_of_mem _ isSecond)))
    isContext := imaged.tag.trans still.isContext
    belongs := by
      have own : (Context.mk context.address).heapWord made.memory = heap.identity := of_decide_eq_true still.belongs
      have word := adapted.heapWord still.isContext
      rw [place, if_pos own] at word
      have fits : Machine.heapIdentity machine.identities < 2 ^ 64 := named
      refine decide_eq_true (?_ : Context.heapWord _ _ = Machine.heapIdentity machine.identities)
      rw [stock, Context.heapWord, word, UInt64.toNat_ofNat', Nat.mod_eq_of_lt fits]
    unsaved := by
      have word := adapted.saves still.isContext
      rw [place] at word
      exact congrArg UInt64.toNat word
    orphan := by
      have known : heap.shapes.get? (made.memory.tag context.address) = some .context := by
        rw [show made.memory.tag context.address = _ from still.isContext, held.standard]
        rfl
      refine (imaged.slots _ known _ (Shape.slot_context.mpr (.inl rfl))).trans ?_
      rw [show made.memory.value (context.address + Layout.Context.parent) = .no from still.orphan]
      exact moveValue_of_none rfl
    counts := by
      have counts := held.counts
      have least := held.bytes_le held.inUse
      have same : bytes (entries.map (source.moveBlock target)) = bytes entries := by
        rw [bytes, List.map_map]
        rfl
      simp only [cells_move, List.length_map] at *
      rw [same]
      simp only [forkOf]
      omega }

theorem image
    (arises : (heap.forkOf (Machine.heapIdentity machine.identities) target).Arises machine final
      (entries.map (source.moveBlock target))) (named : Machine.heapIdentity machine.identities < Size.limit) :
    (ring.move (source.counterpart target)).Held ⟨source.counterpart target context.address⟩
      (heap.forkOf (Machine.heapIdentity machine.identities) target) final (entries.map (source.moveBlock target)) 0
      (.reference (source.counterpart target ring.head)) where
  toHeld := held.image_stock accounted forks arises named
  environment := by
    have still := held.extended forks.reserved
    have consistent := accounted.consistent.extended forks.reserved
    have imaged := (mirrors_fork accounted forks).imaged _ (held.mem_blocks_stock accounted List.mem_cons_self) rfl
    have known : heap.shapes.get? (made.memory.tag context.address) = some .context := by
      rw [show made.memory.tag context.address = _ from still.isContext, held.standard]
      rfl
    refine (imaged.slots _ known _ (Shape.slot_context.mpr (.inr rfl))).trans ?_
    rw [show made.memory.value (context.address + Layout.Context.environment) = .reference ring.head from
      still.environment]
    exact Mirrors.moveValue_cell consistent.tiled (held.cell_mem_blocks accounted _ List.mem_cons_self)
  started := by
    rw [cells_move]
    exact List.mem_map_of_mem held.started
  strung := by
    have consistent := accounted.consistent.extended forks.reserved
    have cells := held.cell_mem_blocks accounted
    have image := (held.extended forks.reserved).strung.image (mirrors_fork accounted forks) consistent.tiled
      held.standard cells
    rwa [Mirrors.moveValue_cell consistent.tiled (cells _ List.mem_cons_self)] at image

end Image

/-- A fork has a ring as long, if there is room for another slab. -/
theorem fork (held : ring.Held context heap machine entries 0 (.reference ring.head)) (paced : heap.Paced entries)
    (single : heap.slabs = [source]) (named : Machine.heapIdentity machine.identities < Size.limit)
    (keepOwnership : Bool) :
    (heap.fork context keepOwnership).Ensures machine fun answer final =>
      (¬ machine.Room source.size ∧ answer = .error (.reservation source.size)) ∨
      machine.Room source.size ∧ ∃ copy moved more later, answer = .ok (copy, moved) ∧
        ring.Held context heap final entries 0 (.reference ring.head) ∧
        Held more moved copy final later 0 (.reference more.head) ∧ copy.Paced later ∧
          more.cells.length = ring.cells.length := by
  obtain ⟨tiling, accounted⟩ := held.accounted
  have inHeap : source ∈ heap.slabs := single ▸ List.mem_singleton_self source
  have isContext := accounted.isContext held.context_listed held.isContext
  obtain ⟨⟨block, member, isObject, starts⟩, tagged⟩ := isContext
  have inSlab : block ∈ tiling source := by simpa [blocks, single] using member
  have layout := accounted.consistent.tiled.layout source inHeap
  have hosted := accounted.consistent.hosted source inHeap
  by_cases room : machine.Room source.size
  · obtain ⟨answer, final, ran, refused | made⟩ := Heap.ensures_fork single layout hosted inSlab isObject starts tagged
      held.belongs keepOwnership
    · exact absurd room refused.2.2
    refine ⟨answer, final, ran, .inr ⟨room, ?_⟩⟩
    obtain ⟨target, made, rfl, sized, created, duplicated⟩ := made
    have beside : source.Beside target := ⟨layout.placed, created.layout.placed, Nat.le_of_eq sized.symm,
      (created.vacant.apart hosted).symm⟩
    have forks : heap.Forks tiling keepOwnership machine made final source target :=
      ⟨single, created, beside, duplicated⟩
    obtain ⟨_, same, _⟩ | ⟨copy, moved, same, _, _, arises, _⟩ :=
      (accounted.fork_arises held.context_listed held.isContext).of_run ran
    · cases same
    · cases same
      have copySingle : (heap.forkOf (Machine.heapIdentity machine.identities) target).slabs = [target] := rfl
      rw [lastSlab_of_single single, lastSlab_of_single copySingle] at arises
      refine ⟨_, _, ring.move (source.counterpart target), _, rfl, held.extended forks.extended,
        held.image accounted forks arises named,
        (heap.answers_fork context keepOwnership _ _ _ ran _ _ rfl paced.bounded).2.paced rfl _, ?_⟩
      rw [cells_move, List.length_map]
  · exact (ensures_fork_full single layout (starts ▸ layout.contains inSlab) held.belongs keepOwnership room).weaken
      fun answer final refused => .inl ⟨room, refused⟩

end Ring.Held

end SlabHeap
