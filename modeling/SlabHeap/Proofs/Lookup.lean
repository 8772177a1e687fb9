import SlabHeap.Proofs.Snapshots

namespace SlabHeap

/-! Which context a snapshot finds.

A word calls an object if it equals its address or the reference to it; that is how conservative
marking chooses its roots, `Snapshot.names_iff`. `Heap.Tiled.findContext_first` says that a lookup
answers with the context of the first word that calls one of the heap's own, and that other words do
not stop it.
-/

open Block

/-- The word equals the address or the reference to it. -/
def Calls (word : UInt64) (address : Nat) : Prop :=
  word = .ofNat address ∨ word = (Value.reference address).bits

namespace Calls

variable {word : UInt64} {address : Nat}

/-- A word calls one whole address at most: the one that it holds as a reference, else its own number. -/
theorem iff_holds (bounds : address % 8 = 0 ∧ address < Size.limit) :
    Calls word address ↔ (Value.mk word).address?.getD word.toNat = address := by
  obtain ⟨aligned, bounded⟩ := bounds
  have number : (UInt64.ofNat address).toNat = address := by
    rw [UInt64.toNat_ofNat']
    exact Nat.mod_eq_of_lt bounded
  have refers := Value.address?_reference aligned bounded
  constructor
  · rintro (rfl | rfl)
    · have plain : ¬ (Value.mk (.ofNat address)).isReference = true := by
        rw [Value.isReference_iff, number]
        omega
      simp only [Value.address?, plain, if_false, Bool.false_eq_true, Option.getD_none, number]
    · rw [show (Value.mk (Value.reference address).bits).address? = some address from refers,
        Option.getD_some]
  · intro holds
    cases found : (Value.mk word).address? with
    | none =>
        rw [found, Option.getD_none] at holds
        exact .inl (by rw [← holds, UInt64.ofNat_toNat])
    | some held =>
        rw [found, Option.getD_some] at holds
        obtain ⟨_, _, same⟩ := Value.eq_reference found
        exact .inr (holds ▸ congrArg Value.bits same)

end Calls

/-- Conservative marking takes for roots what some word calls. -/
theorem Snapshot.names_iff {snapshot : Snapshot} {address : Nat} :
    snapshot.names address = true ↔ ∃ word ∈ snapshot.words, Calls word address := by
  simp only [names, Bool.or_eq_true, List.contains_iff_mem, Calls, and_or_left, exists_or,
    exists_eq_right]

namespace Heap

/-- A context stands at the address, and names this heap. -/
structure OwnContext (heap : Heap) (memory : Memory) (address : Nat) : Prop where
  allocated : heap.Allocated memory address
  tagged : memory.tag address = Tag.context
  own : (Context.mk address).heapWord memory = heap.identity

/-- The word calls a context of this heap. -/
def CallsOwn (heap : Heap) (memory : Memory) (word : UInt64) (address : Nat) : Prop :=
  heap.OwnContext memory address ∧ Calls word address

variable {heap : Heap} {machine : Machine} {memory : Memory} {tiling : Slab → List Block}
  {address other : Nat} {word : UInt64} {snapshot : Snapshot}

theorem Tiled.ownContext_iff (tiled : heap.Tiled memory tiling) : heap.OwnContext memory address ↔
    heap.Object tiling address ∧ memory.tag address = Tag.context ∧
      (Context.mk address).isIn heap memory = true := by
  rw [Context.isIn, decide_eq_true_eq]
  exact ⟨fun context => ⟨tiled.allocated_iff.mp context.allocated, context.tagged, context.own⟩,
    fun ⟨object, tagged, own⟩ => ⟨tiled.allocated_iff.mpr object, tagged, own⟩⟩

theorem Tiled.allocated_bounds (tiled : heap.Tiled memory tiling)
    (allocated : heap.Allocated memory address) : address % 8 = 0 ∧ address < Size.limit := by
  obtain ⟨block, member, _, rfl⟩ := tiled.allocated_iff.mp allocated
  have bounds := tiled.bounds member
  simp only [Block.stop] at bounds
  omega

/-- A word that calls anything but a context of this heap calls no context of this heap. -/
theorem Tiled.not_callsOwn (tiled : heap.Tiled memory tiling)
    (bounds : address % 8 = 0 ∧ address < Size.limit) (calls : Calls word address)
    (different : ¬ heap.OwnContext memory address) : ¬ heap.CallsOwn memory word other := by
  intro callsOwn
  have same := (Calls.iff_holds bounds).mp calls
  rw [(Calls.iff_holds (tiled.allocated_bounds callsOwn.1.allocated)).mp callsOwn.2] at same
  exact different (same ▸ callsOwn.1)

/-- The heap takes a reference to a context of its own for that context. -/
theorem Tiled.ofValue?_own (tiled : heap.Tiled memory tiling) (own : heap.OwnContext memory address) :
    Context.ofValue? heap memory (.reference address) = some ⟨address⟩ := by
  obtain ⟨block, member, isObject, rfl⟩ := (tiled.ownContext_iff.mp own).1
  rw [Context.ofValue?, tiled.objectOf?_reference Tag.context member isObject, if_pos own.tagged,
    Option.map_some]

/-- Storage where no context of this heap stands, whatever its words may show. -/
inductive Foreign (heap : Heap) (tiling : Slab → List Block) (memory : Memory) (address : Nat) : Prop
  | object (isObject : heap.Object tiling address) (other : memory.tag address ≠ Tag.context)
  | context (isObject : heap.Object tiling address)
      (elsewhere : (Context.mk address).heapWord memory ≠ heap.identity)
  | inside {block : Block} (member : block ∈ heap.blocks tiling) (covers : block.Covers address)
      (behind : block.start ≠ address) (whole : address % 8 = 0)
  | free {block : Block} (member : block ∈ heap.blocks tiling) (covers : block.Covers address)
      (isFree : block.kind = .free) (whole : address % 8 = 0)

namespace Foreign

variable (foreign : heap.Foreign tiling memory address) (tiled : heap.Tiled memory tiling)

include foreign tiled

theorem bounds : address % 8 = 0 ∧ address < Size.limit := by
  have covered {block : Block} (member : block ∈ heap.blocks tiling) (covers : block.Covers address) :
      address < Size.limit := Nat.lt_trans covers.2 (tiled.bounds member).2.2.2.2
  cases foreign with
  | object isObject => exact tiled.allocated_bounds (tiled.allocated_iff.mpr isObject)
  | context isObject => exact tiled.allocated_bounds (tiled.allocated_iff.mpr isObject)
  | inside member covers _ whole => exact ⟨whole, covered member covers⟩
  | free member covers _ whole => exact ⟨whole, covered member covers⟩

theorem not_own : ¬ heap.OwnContext memory address := by
  intro own
  obtain ⟨block, member, isObject, rfl⟩ := (tiled.ownContext_iff.mp own).1
  have here := tiled.start_covers member
  cases foreign with
  | object _ other => exact other own.tagged
  | context _ elsewhere => exact elsewhere own.own
  | inside around covers behind =>
      exact behind (congrArg Block.start (tiled.eq_of_covers around member covers here))
  | free around covers isFree =>
      rw [tiled.eq_of_covers around member covers here, isObject] at isFree
      cases isFree

end Foreign

/-- A walk that collects the contexts of this heap has found `found` and has the blocks `rest` ahead. -/
structure Collecting (heap : Heap) (machine : Machine) (found : List Nat) (rest : List Block) (mid : Machine) :
    Prop where
  quiet : machine.Quiet mid
  sound : ∀ address ∈ found, heap.OwnContext machine.memory address
  complete : ∀ address, heap.OwnContext machine.memory address →
    address ∈ found ∨ ∃ block ∈ rest, block.kind = .object ∧ block.start = address

namespace Collecting

variable {found : List Nat} {block : Block} {rest : List Block} {mid : Machine}

theorem pass (collecting : heap.Collecting machine found (block :: rest) mid) (notObject : block.kind ≠ .object) :
    heap.Collecting machine found rest mid where
  quiet := collecting.quiet
  sound := collecting.sound
  complete address context := (collecting.complete address context).imp_right <| by
    rintro ⟨other, member, isObject, starts⟩
    refine ⟨other, (List.mem_cons.mp member).resolve_left fun same => ?_, isObject, starts⟩
    exact notObject (same ▸ isObject)

/-- An object that is no context of this heap is left out. -/
theorem skip (collecting : heap.Collecting machine found (block :: rest) mid)
    (other : ¬ heap.OwnContext machine.memory block.start) : heap.Collecting machine found rest mid where
  quiet := collecting.quiet
  sound := collecting.sound
  complete address context := (collecting.complete address context).imp_right <| by
    rintro ⟨here, member, isObject, rfl⟩
    refine ⟨here, (List.mem_cons.mp member).resolve_left fun same => ?_, isObject, rfl⟩
    exact other (same ▸ context)

theorem take (collecting : heap.Collecting machine found (block :: rest) mid)
    (own : heap.OwnContext machine.memory block.start) :
    heap.Collecting machine (block.start :: found) rest mid where
  quiet := collecting.quiet
  sound := List.forall_mem_cons.mpr ⟨own, collecting.sound⟩
  complete address context := by
    rcases collecting.complete address context with earlier | ⟨here, member, isObject, rfl⟩
    · exact .inl (List.mem_cons_of_mem _ earlier)
    rcases List.mem_cons.mp member with rfl | later
    · exact .inl List.mem_cons_self
    · exact .inr ⟨here, later, isObject, rfl⟩

end Collecting

/-- The walk collects the contexts of this heap. -/
theorem Tiled.ensures_ownContexts (tiled : heap.Tiled machine.memory tiling) :
    heap.ownContexts.Ensures machine fun found final => machine.Quiet final ∧
      ∀ address, address ∈ found ↔ heap.OwnContext machine.memory address := by
  have start : heap.Collecting machine [] (heap.blocks tiling) machine :=
    ⟨.refl machine, by simp, fun address context => .inr (tiled.ownContext_iff.mp context).1⟩
  unfold ownContexts
  refine (ensures_foldAll (heap.Collecting machine) ?_ ?_ ?_ ?_ start).weaken ?_
  · exact fun _ _ _ collecting => collecting.quiet.memory ▸ tiled
  · exact fun _ _ _ _ collecting quiet => { collecting with quiet := collecting.quiet.trans quiet }
  · exact fun _ _ _ _ collecting _ notObject => collecting.pass notObject
  · rintro found block rest mid collecting suffix isObject
    have object : heap.Object tiling block.start := ⟨block, suffix.mem List.mem_cons_self, isObject, rfl⟩
    rw [Action.ensures_memory, collecting.quiet.memory]
    refine Action.ensures_pure.mpr ?_
    split
    · next own =>
      rw [Bool.and_eq_true, decide_eq_true_eq] at own
      exact collecting.take (tiled.ownContext_iff.mpr ⟨object, own⟩)
    · next other =>
      rw [Bool.and_eq_true, decide_eq_true_eq] at other
      exact collecting.skip fun context => other (tiled.ownContext_iff.mp context).2
  · rintro found final ⟨quiet, sound, complete⟩
    exact ⟨quiet, fun address =>
      ⟨sound address, fun context => (complete address context).resolve_right (by simp)⟩⟩

/-- A lookup takes the context that a word calls, word by word. -/
theorem Tiled.ensures_findContext (tiled : heap.Tiled machine.memory tiling) (snapshot : Snapshot) :
    (heap.findContext snapshot).Ensures machine fun answer final => machine.Quiet final ∧
      ∃ called : UInt64 → Option Context,
        (∀ word context, called word = some context ↔
          heap.CallsOwn machine.memory word context.address) ∧
        answer = snapshot.words.findSome? called := by
  unfold findContext
  refine tiled.ensures_ownContexts.bind fun found final ⟨quiet, own⟩ => ?_
  rw [Action.ensures_memory]
  refine Action.ensures_pure.mpr ⟨quiet, _, fun word context => ?_, rfl⟩
  dsimp only
  rw [quiet.memory]
  have holds (calls : heap.CallsOwn machine.memory word context.address) :
      (Value.mk word).address?.getD word.toNat = context.address :=
    (Calls.iff_holds (tiled.allocated_bounds calls.1.allocated)).mp calls.2
  split
  · next present =>
    have isOwn := (own _).mp (List.contains_iff_mem.mp present)
    rw [tiled.ofValue?_own isOwn, Option.some.injEq]
    constructor
    · rintro rfl
      exact ⟨isOwn, (Calls.iff_holds (tiled.allocated_bounds isOwn.allocated)).mpr rfl⟩
    · intro calls
      rw [holds calls]
  · next absent =>
    rw [List.contains_iff_mem, own] at absent
    simp only [reduceCtorEq, false_iff]
    exact fun calls => absent (holds calls ▸ calls.1)

/-- The lookup answers with the context that a word calls, if no word in front of it calls one: of this
heap, and in use. Whatever else a word calls, the search passes over it. -/
theorem Tiled.findContext_first (tiled : heap.Tiled machine.memory tiling) (snapshot : Snapshot) :
    (heap.findContext snapshot).Ensures machine fun answer final =>
      machine.Quiet final ∧
      (∀ context, answer = some context ↔ ∃ before word after,
        snapshot.words = before ++ word :: after ∧
        heap.CallsOwn machine.memory word context.address ∧
        ∀ earlier ∈ before, ∀ other, ¬ heap.CallsOwn machine.memory earlier other) ∧
      (answer = none ↔
        ∀ word ∈ snapshot.words, ∀ other, ¬ heap.CallsOwn machine.memory word other) ∧
      (answer.isSome = true ↔
        ∃ address, heap.OwnContext machine.memory address ∧ snapshot.names address = true) ∧
      (∀ before word after, snapshot.words = before ++ word :: after →
        (∀ other, ¬ heap.CallsOwn machine.memory word other) →
          (heap.findContext ⟨before ++ after⟩).Ensures machine fun shorter _ => shorter = answer) ∧
      ∀ word address, Calls word address → heap.Foreign tiling machine.memory address →
        ∀ other, ¬ heap.CallsOwn machine.memory word other := by
  refine (tiled.ensures_findContext snapshot).weaken fun answer final ⟨quiet, called, iff, found⟩ => ?_
  have none_iff (word : UInt64) :
      called word = none ↔ ∀ other, ¬ heap.CallsOwn machine.memory word other := by
    rw [Option.eq_none_iff_forall_ne_some]
    exact ⟨fun none other calls => none ⟨other⟩ ((iff word ⟨other⟩).mpr calls),
      fun none context calls => none context.address ((iff word context).mp calls)⟩
  have absent : answer = none ↔
      ∀ word ∈ snapshot.words, ∀ other, ¬ heap.CallsOwn machine.memory word other := by
    simp only [found, List.findSome?_eq_none_iff, none_iff]
  refine ⟨quiet, fun context => ?_, absent, ?_, ?_, fun word address calls foreign other =>
    tiled.not_callsOwn (foreign.bounds tiled) calls (foreign.not_own tiled)⟩
  · simp only [found, List.findSome?_eq_some_iff, iff, none_iff]
  · rw [← Option.ne_none_iff_isSome, Ne, absent]
    push Not
    simp only [Snapshot.names_iff, CallsOwn]
    exact ⟨fun ⟨word, listed, address, own, calls⟩ => ⟨address, own, word, listed, calls⟩,
      fun ⟨address, own, word, listed, calls⟩ => ⟨word, listed, address, own, calls⟩⟩
  · intro before word after split skipped
    refine (tiled.ensures_findContext ⟨before ++ after⟩).weaken ?_
    rintro shorter _ ⟨_, again, againIff, rfl⟩
    have same : again = called := funext fun word => Option.ext fun context => by
      rw [againIff, iff]
    rw [found, split, same, List.findSome?_append, List.findSome?_append, List.findSome?_cons,
      (none_iff word).mpr skipped]

/-- A number, a reference to a pair, a word inside of the context and free storage are passed over. -/
theorem findContext_first_sample : ∃ final,
    (sampleHeap.findContext ⟨[7, 4161, 4120, 4224, 4113, 4160]⟩).run sampleMachine =
      .ok (some ⟨4112⟩) final := by
  obtain ⟨answer, final, ran, _, first, _, _, _, skips⟩ :=
    wellFormed_sample.tiled.findContext_first ⟨[7, 4161, 4120, 4224, 4113, 4160]⟩
  have tiled := wellFormed_sample.tiled
  have member (block : Block) (listed : block ∈ sampleBlocks) :
      block ∈ sampleHeap.blocks fun _ => sampleBlocks := blocks_sample ▸ listed
  have context := member ⟨4112, 48, .object⟩ (by decide)
  have unused := member ⟨4224, 64, .free⟩ (by decide)
  have own : sampleHeap.OwnContext sampleMachine.memory 4112 :=
    tiled.ownContext_iff.mpr ⟨⟨_, context, rfl, rfl⟩, congrArg Header.tag header_sample.1,
      by decide +kernel⟩
  have small (other : Nat) : ¬ sampleHeap.CallsOwn sampleMachine.memory 7 other := by
    intro calls
    have bounds := tiled.allocated_bounds calls.1.allocated
    have holds : 7 = other := (Calls.iff_holds bounds).mp calls.2
    omega
  have pair : sampleHeap.Foreign (fun _ => sampleBlocks) sampleMachine.memory 4160 :=
    .object ⟨_, member ⟨4160, 32, .object⟩ (by decide), rfl, rfl⟩
      (by rw [Memory.tag, header_sample.2.1]; decide)
  have inside : sampleHeap.Foreign (fun _ => sampleBlocks) sampleMachine.memory 4120 :=
    .inside context (by decide) (by decide) (by decide)
  have free : sampleHeap.Foreign (fun _ => sampleBlocks) sampleMachine.memory 4224 :=
    .free unused (by decide) rfl (by decide)
  obtain rfl := (first ⟨4112⟩).mpr ⟨[7, 4161, 4120, 4224], 4113, [4160], rfl,
    ⟨own, .inr (by decide)⟩, by
      simp only [List.forall_mem_cons]
      exact ⟨small, skips _ 4160 (.inr (by decide)) pair, skips _ 4120 (.inl (by decide)) inside,
        skips _ 4224 (.inl (by decide)) free, by simp⟩⟩
  exact ⟨final, ran⟩

end Heap

end SlabHeap
