import SlabHeap.Proofs.Creation
import SlabHeap.Proofs.Duplication

namespace SlabHeap

/-! Forks are relocations.

`Heap.Relocated` compares a slab with its copy word for word: links and references into the slab are
shifted by the distance between the two, ownership is dropped, contexts belong to the new heap, and
all else is the same. `Heap.fork_exact` says that a fork makes such a copy, apart from what was there.
-/

open FreeList Block

namespace Heap

variable {heap : Heap} {source target : Slab} {memory mid after : Memory} {machine : Machine}
  {block : Block} {blocks : List Block} {keepOwnership : Bool} {copyIdentity address : Nat}

/-- A copy of the slab takes over the word at the address as it is. -/
structure Plain (heap : Heap) (slab : Slab) (blocks : List Block) (memory : Memory)
    (address : Nat) : Prop where
  inside : slab.start ≤ address ∧ address < slab.stop
  link : ¬ slab.InLink blocks address
  header : ∀ block ∈ blocks, block.kind = .object →
    ¬ (block.start ≤ address ∧ address < block.start + 8)
  slot : ∀ block ∈ blocks, block.kind = .object → ∀ shape,
    heap.shapes.get? (memory.tag block.start) = some shape → ∀ offset,
      shape.Slot memory block.start offset →
        ¬ (block.start + offset ≤ address ∧ address < block.start + offset + 8)
  context : ∀ block ∈ blocks, block.kind = .object → memory.tag block.start = Tag.context →
    ¬ (block.start + 8 ≤ address ∧ address < block.start + 24)

/-- A slab was copied word for word, but for links, references into the slab, marks of ownership, and
what contexts hold. -/
structure Relocated (heap : Heap) (source target : Slab) (blocks : List Block)
    (keepOwnership : Bool) (copyIdentity : Nat) (memory after : Memory) : Prop where
  links : ∀ node,
    (node = source.start ∨ ∃ block ∈ blocks, block.kind = .free ∧ block.start = node) →
      next after (source.counterpart target node) = source.moveLink target (next memory node)
  slots : ∀ block ∈ blocks, block.kind = .object → ∀ shape,
    heap.shapes.get? (memory.tag block.start) = some shape → ∀ offset,
      shape.Slot memory block.start offset →
        after.value (source.counterpart target (block.start + offset)) =
          source.moveValue target (memory.value (block.start + offset))
  headers : ∀ block ∈ blocks, block.kind = .object →
    after.header (source.counterpart target block.start) =
      if keepOwnership then memory.header block.start
      else (memory.header block.start).remove .owned
  saves : ∀ block ∈ blocks, block.kind = .object → memory.tag block.start = Tag.context →
    after.read (source.counterpart target (block.start + Layout.Context.saves)) = 0
  heapWords : ∀ block ∈ blocks, block.kind = .object → memory.tag block.start = Tag.context →
    after.read (source.counterpart target (block.start + Layout.Context.heap)) =
      if (Context.mk block.start).heapWord memory = heap.identity then .ofNat copyIdentity
      else memory.read (block.start + Layout.Context.heap)
  words : ∀ address, heap.Plain source blocks memory address →
    after.read (source.counterpart target address) = memory.read address

/-- Where links were moved and objects adapted, and all else was copied, a slab was relocated. -/
theorem relocated_of_transferred {copied : Memory} (layout : source.Layout heap.shapes memory blocks)
    (transferred : source.Transferred target blocks memory copied)
    (adapted : ∀ block ∈ blocks, block.kind = .object →
      source.Adapted target heap.shapes keepOwnership heap.identity copyIdentity memory after block)
    (unused : ∀ address, source.start ≤ address → address < source.stop →
      (∀ block ∈ blocks, block.kind = .object → ¬ block.Covers address) →
        after.read (source.counterpart target address) = copied.read (source.counterpart target address)) :
    heap.Relocated source target blocks keepOwnership copyIdentity memory after := by
  have large := layout.placed.large
  simp only [minSlabSize] at large
  refine ⟨fun node member => ?_, fun block member isObject => (adapted block member isObject).slots,
    fun block member isObject => (adapted block member isObject).header,
    fun block member isObject => (adapted block member isObject).saves,
    fun block member isObject => (adapted block member isObject).heapWord, fun address plain => ?_⟩
  · have inSlab : source.start ≤ node ∧ node + 16 ≤ source.stop := by
      rcases member with rfl | ⟨free, freeMember, _, rfl⟩
      · simp only [Slab.stop]
        omega
      · have bounds := layout.bounds freeMember
        omega
    have place : source.counterpart target node + 8 = source.counterpart target (node + 8) := by
      simp only [Slab.counterpart]
      omega
    rw [← transferred.links node member, next, next, place]
    refine congrArg UInt64.toNat (unused (node + 8) (by omega) (by omega) ?_)
    intro block objectMember isObject covers
    have bounds := layout.bounds objectMember
    rcases member with rfl | ⟨free, freeMember, isFree, rfl⟩
    · simp only [Block.Covers] at covers
      omega
    · have size := (layout.bounds freeMember).2.2.1
      have equal := layout.tiles.eq_of_covers objectMember freeMember covers
        ⟨by omega, by simp only [Block.stop]; omega⟩
      simp [equal, isFree] at isObject
  · obtain ⟨lower, upper⟩ := plain.inside
    have copiedWord := transferred.words address lower upper plain.link
    -- In an object, a plain word is one that adapting leaves alone; elsewhere nothing is written
    -- after the copy.
    by_cases inObject : ∃ block ∈ blocks, block.kind = .object ∧ block.Covers address
    · obtain ⟨block, member, isObject, begins, ends⟩ := inObject
      have header := plain.header block member isObject
      have context := plain.context block member isObject
      exact (adapted block member isObject).same address (by omega) ends
        (plain.slot block member isObject) fun isContext => by
          have := context isContext
          omega
    · rw [unused address lower upper fun block member isObject covers =>
        inObject ⟨block, member, isObject, covers⟩]
      exact copiedWord

/-- A slab of the same size holds nothing but the copy. -/
theorem Duplicated.relocated {final : Machine}
    (duplicated : heap.Duplicated source target blocks keepOwnership copyIdentity machine final)
    (layout : source.Layout heap.shapes machine.memory blocks) (same : target.size = source.size) :
    heap.Relocated source target blocks keepOwnership copyIdentity machine.memory
      final.memory := by
  obtain ⟨copied, transferred, unused⟩ := duplicated.free same
  exact relocated_of_transferred layout transferred duplicated.adapted unused

section SameWords

variable (layout : source.Layout heap.shapes memory blocks)
  (same : ∀ address, source.start ≤ address → address < source.stop → mid.read address = memory.read address)
  {block : Block} {shape : Shape} {offset : Nat} (member : block ∈ blocks)

include layout same member

theorem read_same (inside : offset < block.size) :
    mid.read (block.start + offset) = memory.read (block.start + offset) := by
  have bounds := layout.bounds member
  exact same _ (by omega) (by omega)

theorem header_same : mid.header block.start = memory.header block.start := by
  have positive := (layout.bounds member).2.2.1
  exact congrArg Header.ofWord (read_same layout same member (show 0 < block.size by omega))

theorem slot_same (isObject : block.kind = .object)
    (known : heap.shapes.get? (memory.tag block.start) = some shape) :
    shape.Slot mid block.start offset ↔ shape.Slot memory block.start offset := by
  obtain ⟨found, foundKnown, describes⟩ := layout.object member isObject
  obtain rfl := Option.some.inj (known.symm.trans foundKnown)
  refine Shape.slot_congr fun length listed => ?_
  have inside := (describes.lengthInside length listed).2
  exact read_same layout same member (by omega)

theorem contextWord_same (isObject : block.kind = .object) (isContext : memory.tag block.start = Tag.context) :
    mid.read (block.start + Layout.Context.heap) = memory.read (block.start + Layout.Context.heap) := by
  obtain ⟨shape, known, describes⟩ := layout.object member isObject
  have size := Shape.size_of_context (isContext ▸ known) describes
  exact read_same layout same member (by simp only [Layout.Context.heap]; omega)

end SameWords

/-- What a slab held before its copy was made may be read in any memory that has the same words. -/
theorem Relocated.of_same (layout : source.Layout heap.shapes memory blocks)
    (same : ∀ address, source.start ≤ address → address < source.stop →
      mid.read address = memory.read address)
    (relocated : heap.Relocated source target blocks keepOwnership copyIdentity mid after) :
    heap.Relocated source target blocks keepOwnership copyIdentity memory after := by
  have large := layout.placed.large
  simp only [minSlabSize] at large
  have tag {block : Block} (member : block ∈ blocks) : mid.tag block.start = memory.tag block.start :=
    congrArg Header.tag (header_same layout same member)
  refine ⟨fun node member => ?_, fun block member isObject shape known offset present => ?_,
    fun block member isObject => ?_, fun block member isObject isContext => ?_,
    fun block member isObject isContext => ?_, fun address plain => ?_⟩
  · have word : mid.read (node + 8) = memory.read (node + 8) := by
      rcases member with rfl | ⟨free, freeMember, _, rfl⟩
      · exact same _ (by omega) (by simp only [Slab.stop]; omega)
      · have bounds := (layout.bounds freeMember).2.2.1
        exact read_same layout same freeMember (by omega)
    rw [relocated.links node member, next, word, ← next]
  · obtain ⟨found, foundKnown, describes⟩ := layout.object member isObject
    obtain rfl := Option.some.inj (known.symm.trans foundKnown)
    have inside := describes.slotInside offset present
    rw [relocated.slots block member isObject shape ((tag member).symm ▸ known) offset
      ((slot_same layout same member isObject known).mpr present), Memory.value,
      read_same layout same member (by omega)]
    rfl
  · rw [relocated.headers block member isObject, header_same layout same member]
  · exact relocated.saves block member isObject ((tag member).trans isContext)
  · rw [relocated.heapWords block member isObject ((tag member).trans isContext),
      Context.heapWord, contextWord_same layout same member isObject isContext]
    rfl
  · obtain ⟨lower, upper⟩ := plain.inside
    rw [← same address lower upper]
    refine relocated.words address ⟨plain.inside, plain.link, plain.header, ?_, ?_⟩
    · intro block member isObject shape known offset present
      rw [tag member] at known
      exact plain.slot block member isObject shape known offset
        ((slot_same layout same member isObject known).mp present)
    · intro block member isObject isContext
      exact plain.context block member isObject ((tag member).symm.trans isContext)

/-- A fork made a heap with a slab of its own, which is a copy of that of the heap. -/
structure Forked (heap copy : Heap) (source target : Slab) (blocks : List Block)
    (keepOwnership : Bool) (machine final : Machine) : Prop where
  copied : copy = { identity := Machine.heapIdentity machine.identities
                    settings := heap.settings
                    shapes := heap.shapes
                    features := heap.features
                    slabs := [target]
                    slabs_nonempty := by simp }
  size : target.size = source.size
  vacant : machine.Vacant target
  apart : source.Apart target
  layout : target.Layout heap.shapes final.memory (blocks.map (source.moveBlock target))
  relocated : heap.Relocated source target blocks keepOwnership copy.identity machine.memory
    final.memory
  frames : final.frames = machine.frames
  reserved : ∀ address, machine.Reserved address →
    final.memory.read address = machine.memory.read address

theorem checkSource_eq_ok {context : Context} (single : heap.slabs = [source])
    (inside : source.contains context.address = true)
    (isIn : context.isIn heap machine.memory = true) :
    heap.checkSource context machine.memory = .ok source := by
  have contained : heap.contains context.address = true := by
    simp [Heap.contains, single, inside]
  have only : heap.singleSlab? = .ok source := by
    simp only [singleSlab?, single]
  simp only [checkSource, only, contained, isIn]
  rfl

theorem roundedSize?_of_placed (placed : source.Placed) :
    Slab.roundedSize? source.size = some source.size := by
  have large := placed.large
  have whole := placed.sizeAligned
  have bounded := placed.bounded
  have positive := placed.startPositive
  have aligned := placed.startAligned
  have unit : (1 : Nat) <<< 4 = blockUnit := rfl
  rw [Slab.roundedSize?, Nat.max_eq_left large, ← unit, Size.alignUp?_shift, unit]
  simp only [blockUnit, Slab.stop] at aligned bounded whole
  have small : source.size + (blockUnit - 1) < Size.limit := by
    simp only [blockUnit]
    omega
  have rounded : (source.size + (blockUnit - 1)) / blockUnit * blockUnit = source.size := by
    simp only [blockUnit]
    omega
  rw [if_pos small, rounded]

def forkOf (heap : Heap) (identity : Nat) (slab : Slab) : Heap :=
  { identity
    settings := heap.settings
    shapes := heap.shapes
    features := heap.features
    slabs := [slab]
    slabs_nonempty := Slab.single_nonempty slab }

section Forking

variable {context : Context} (single : heap.slabs = [source])
  (layout : source.Layout heap.shapes machine.memory blocks)
  (hosted : machine.Hosts source) (member : block ∈ blocks)
  (isObject : block.kind = .object) (starts : block.start = context.address)
  (isContext : machine.memory.tag context.address = Tag.context)
  (isIn : context.isIn heap machine.memory = true) (keepOwnership : Bool)

include single layout hosted member isObject starts isContext isIn

/-- A fork makes a slab where nothing was reserved, if there is room for one, and duplicates the heap there. -/
theorem ensures_fork : (heap.fork context keepOwnership).Ensures machine fun answer final =>
    (answer = .error (.reservation source.size) ∧ final = machine ∧ ¬ machine.Room source.size) ∨
      ∃ target made, answer = .ok (heap.forkOf (Machine.heapIdentity machine.identities) target,
          ⟨source.counterpart target context.address⟩) ∧
        target.size = source.size ∧ target.Created heap.shapes machine made ∧
        heap.Duplicated source target blocks keepOwnership (Machine.heapIdentity machine.identities)
          { made with identities := machine.identities + 1 } final := by
  have checked := heap.checkSource_eq_ok single (starts ▸ layout.contains member) isIn
  unfold fork
  rw [Action.ensures_memory]
  simp only [checked]
  refine (Slab.ensures_create heap.shapes).bind ?_
  rintro _ made (⟨rfl, rfl, full⟩ | ⟨target, rfl, sized, _, _, created⟩)
  · exact Action.ensures_pure.mpr
      (.inl ⟨rfl, rfl, full source.size (roundedSize?_of_placed layout.placed)⟩)
  have size : target.size = source.size :=
    Option.some.inj (sized.symm.trans (roundedSize?_of_placed layout.placed))
  have beside : source.Beside target := ⟨layout.placed, created.layout.placed, Nat.le_of_eq size.symm,
    (created.vacant.apart hosted).symm⟩
  have bounds := layout.bounds member
  -- The new slab takes other pages, so that making it leaves the source alone.
  have same : ∀ address, source.start ≤ address → address < source.stop →
      made.memory.read address = machine.memory.read address :=
    fun address above below => created.outside address (hosted.reserved above below)
  have header : made.memory.header context.address = machine.memory.header context.address :=
    congrArg Header.ofWord (same context.address (by omega) (by omega))
  simp only [ofSlab, Action.newIdentity, bind_assoc, pure_bind]
  rw [Action.ensures_get]
  refine (Action.ensures_bind_iff rfl).mpr ?_
  have copies : (heap.copySlab context (Machine.heapIdentity made.identities) source target
      keepOwnership).Ensures { made with identities := made.identities + 1 }
        fun copy final => copy = ⟨source.counterpart target context.address⟩ ∧
          heap.Duplicated source target blocks keepOwnership
            (Machine.heapIdentity made.identities) { made with identities := made.identities + 1 }
            final :=
    ensures_copySlab beside (layout.keep same) member isObject starts
      ((congrArg Header.tag header).trans isContext)
  refine copies.bind ?_
  rintro _ final ⟨rfl, duplicated⟩
  rw [created.identities] at duplicated ⊢
  exact Action.ensures_pure.mpr (.inr ⟨target, made, rfl, size, created, duplicated⟩)

end Forking

/-- A fork of a heap of one slab is a relocation of it, if there is room for another slab. -/
theorem fork_exact {context : Context} (single : heap.slabs = [source])
    (layout : source.Layout heap.shapes machine.memory blocks)
    (hosted : machine.Hosts source) (member : block ∈ blocks)
    (isObject : block.kind = .object) (starts : block.start = context.address)
    (isContext : machine.memory.tag context.address = Tag.context)
    (isIn : context.isIn heap machine.memory = true) (keepOwnership : Bool) :
    (heap.fork context keepOwnership).Ensures machine fun answer final =>
      (answer = .error (.reservation source.size) ∧ final = machine ∧
        ¬ machine.Room source.size) ∨
      ∃ copy target, answer = .ok (copy, ⟨source.counterpart target context.address⟩) ∧
        heap.Forked copy source target blocks keepOwnership machine final := by
  refine (ensures_fork single layout hosted member isObject starts isContext isIn
    keepOwnership).weaken ?_
  rintro _ final (refused | ⟨target, made, rfl, size, created, duplicated⟩)
  · exact .inl refused
  have same : ∀ address, source.start ≤ address → address < source.stop →
      made.memory.read address = machine.memory.read address :=
    fun address above below => created.outside address (hosted.reserved above below)
  refine .inr ⟨_, target, rfl, ?_⟩
  have none : Block.extend (blocks.map (source.moveBlock target)) (source.filled target).stop
      (target.size - source.size) = blocks.map (source.moveBlock target) :=
    if_pos (by omega)
  refine ⟨rfl, size, created.vacant, (created.vacant.apart hosted).symm, none ▸ duplicated.layout, ?_, ?_, ?_⟩
  · exact (duplicated.relocated (layout.keep same) size).of_same layout same
  · exact duplicated.steady.frames.trans created.frames
  · intro address isReserved
    rw [duplicated.outside address (created.vacant.outside isReserved)]
    exact created.outside address isReserved

section Ring

/-- A context, a pair in its environment that refers to itself, and a free block, at the end of the
range for slabs. -/
def ringBlocks : List Block :=
  [⟨0x3ffffffff010, 48, .object⟩, ⟨0x3ffffffff040, 32, .object⟩, ⟨0x3ffffffff060, 32, .free⟩]

def ringWords : List (Nat × UInt64) :=
  [(0x3ffffffff008, 0x3ffffffff060), (0x3ffffffff010, (Header.fresh Tag.context).toWord),
    (0x3ffffffff018, 0x520000000000), (0x3ffffffff028, Value.no.bits),
    (0x3ffffffff030, (Value.reference 0x3ffffffff040).bits),
    (0x3ffffffff040, (Header.fresh Tag.pair).toWord),
    (0x3ffffffff048, (Value.reference 0x3ffffffff040).bits), (0x3ffffffff050, Value.nil.bits),
    (0x3ffffffff060, 32)]

def ringMachine : Machine :=
  { memory := ringWords.foldl (fun memory entry => memory.write entry.1 entry.2) .empty
    identities := 1
    pages.taken := [⟨0x3ffffffff, 1⟩] }

def ringSlab : Slab := { start := 0x3ffffffff000, size := 128, maxSize := 0 }

def ringHeap : Heap :=
  { identity := 0x520000000000, settings := {}, shapes := .standard, features := {}
    slabs := [ringSlab], slabs_nonempty := by simp }

theorem header_ring : ringMachine.memory.header 0x3ffffffff010 = .fresh Tag.context ∧
    ringMachine.memory.header 0x3ffffffff040 = .fresh Tag.pair := by
  simp [ringMachine, ringWords, Memory.header, Memory.read_write, Header.ofWord_toWord]

theorem layout_ring : ringSlab.Layout .standard ringMachine.memory ringBlocks where
  placed := ⟨by decide, by decide, by decide, by decide, by decide⟩
  tiles := by simp [Tiles, ringBlocks, ringSlab, Slab.objects, Slab.stop, Block.stop, blockUnit]
  sentinel := by simp [FreeList.size, ringMachine, ringWords, ringSlab, Memory.read_write]
  listed := by
    simp [FreeList.Path, FreeList.size, Slab.firstFree, FreeList.next, ringMachine, ringWords,
      ringSlab, Memory.read_write, ringBlocks, frees]
  fits := by
    obtain ⟨context, pair⟩ := header_ring
    simp only [ringBlocks, List.forall_mem_cons, Block.Fits, Memory.tag, context, pair]
    exact ⟨⟨.context, rfl, Shape.describes_context _ _⟩, ⟨.pair, rfl, Shape.describes_pair _ _⟩,
      trivial, by simp⟩

/-- The pair of the copy refers to itself, and nothing owns it. -/
theorem fork_exact_ring : ∃ copy target final,
    (ringHeap.fork ⟨0x3ffffffff010⟩ false).run ringMachine =
      .ok (.ok (copy, ⟨ringSlab.counterpart target 0x3ffffffff010⟩)) final ∧
    ringHeap.Forked copy ringSlab target ringBlocks false ringMachine final ∧
    final.memory.value (ringSlab.counterpart target 0x3ffffffff048) =
      .reference (ringSlab.counterpart target 0x3ffffffff040) ∧
    final.memory.header (ringSlab.counterpart target 0x3ffffffff040) =
      (Header.fresh Tag.pair).remove .owned := by
  have isIn : (Context.mk 0x3ffffffff010).isIn ringHeap ringMachine.memory = true := by
    simp [Context.isIn, Context.heapWord, ringMachine, ringWords, ringHeap, Memory.read_write,
      Layout.Context.heap]
  have single : ringHeap.slabs = [ringSlab] := rfl
  have hosted : ringMachine.Hosts ringSlab := ⟨⟨0x3ffffffff, 1⟩, List.mem_singleton_self _, by decide⟩
  have room : ringMachine.Room ringSlab.size := ⟨0x1000, 0x3fffffffe, by decide, by decide⟩
  have isContext : ringMachine.memory.tag 0x3ffffffff010 = Tag.context :=
    congrArg Header.tag header_ring.1
  have isPair : ringMachine.memory.tag 0x3ffffffff040 = Tag.pair :=
    congrArg Header.tag header_ring.2
  have member : ⟨0x3ffffffff010, 48, .object⟩ ∈ ringBlocks := by simp [ringBlocks]
  have pair : ⟨0x3ffffffff040, 32, .object⟩ ∈ ringBlocks := by simp [ringBlocks]
  obtain ⟨answer, final, ran, ⟨_, _, full⟩ | ⟨copy, target, rfl, forked⟩⟩ :=
    fork_exact single layout_ring hosted member rfl rfl isContext isIn false
  · exact absurd room full
  refine ⟨copy, target, final, ran, forked, ?_, ?_⟩
  · have known : ringHeap.shapes.get? (ringMachine.memory.tag 0x3ffffffff040) = some .pair := by
      rw [isPair]
      rfl
    have moved := forked.relocated.slots _ pair rfl _ known _ (Shape.slot_pair.mpr (.inl rfl))
    have car : ringMachine.memory.value (0x3ffffffff040 + Layout.Pair.car) =
        .reference 0x3ffffffff040 := by
      simp [ringMachine, ringWords, Memory.value, Memory.read_write, Layout.Pair.car]
    have inside : ringSlab.contains 0x3ffffffff040 = true := by decide
    have refers : (Value.reference 0x3ffffffff040).address? = some 0x3ffffffff040 := by decide
    rw [car, Slab.moveValue, refers] at moved
    simpa only [inside, if_true, Layout.Pair.car] using moved
  · have header := forked.relocated.headers _ pair rfl
    rw [header_ring.2] at header
    exact header

end Ring

end Heap

end SlabHeap
