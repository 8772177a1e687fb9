import SlabHeap.Proofs.Lasting
import SlabHeap.Proofs.Operations

namespace SlabHeap

/-! Operations that neither take nor give storage.

Such an operation leaves all objects where they are, and sound: `Operation.alters`. It changes words behind
their headers, and frames; unless it has to do with frames, it changes slots only, `Operation.rewrites`. What
the objects may refer to is a parameter.
-/

open Block

namespace ShapeTable

variable {shapes : ShapeTable} {shape found : Shape} {tag : UInt8}

theorem lt_size_of_get? (known : shapes.get? tag = some found) : tag.toNat < shapes.size := by
  simp only [get?] at known
  simp only [size]
  split at known
  · contradiction
  · omega
  · next index numbered =>
    have inside := (Array.getElem?_eq_some_iff.mp known).1
    omega

theorem get?_register (known : shapes.get? tag = some found) :
    (shapes.register shape).1.get? tag = some found :=
  (get?_register_old (lt_size_of_get? known) shape).trans known

theorem of_get?_register (known : (shapes.register shape).1.get? tag = some found) :
    shapes.get? tag = some found ∨ found = shape := by
  by_cases old : tag.toNat < shapes.size
  · exact .inl ((get?_register_old old shape).symm.trans known)
  · simp only [size, Nat.not_lt] at old
    simp only [register] at known
    split at known
    · simp only [get?] at known
      split at known
      · contradiction
      · omega
      · next index numbered =>
        rw [Array.getElem?_push] at known
        split at known
        · exact .inr (Option.some.inj known).symm
        · rw [Array.getElem?_eq_none (by omega)] at known
          contradiction
    · exact .inl known

theorem confined_register (confined : ∀ tag found, shapes.get? tag = some found → found.Confined)
    (also : shape.Confined) :
    ∀ tag found, (shapes.register shape).1.get? tag = some found → found.Confined := by
  intro tag found known
  rcases of_get?_register known with old | rfl
  · exact confined tag found old
  · exact also

end ShapeTable

namespace Heap

variable {heap after : Heap} {machine final : Machine} {tiling : Slab → List Block} {block : Block}
  {denotes : Value → Prop} {allocated : Nat → Prop} {frame : Frame} {context : Context} {value : Value}
  {offset number index : Nat} {shape : Shape}

/-- The objects stay sound while nothing changes but words of theirs behind their headers. -/
structure Alters (heap : Heap) (denotes : Value → Prop) (tiling : Slab → List Block)
    (machine final : Machine) : Prop extends heap.Upholds denotes tiling machine final where
  orderly : final.Orderly
  within : heap.Within heap machine final
  words : ∀ address, final.memory.read address = machine.memory.read address ∨
    ∃ block ∈ heap.blocks tiling, block.kind = .object ∧ block.start + 8 ≤ address ∧
      address < block.stop

/-- The objects stay sound while nothing changes but slots of theirs. -/
structure Rewrites (heap : Heap) (denotes : Value → Prop) (tiling : Slab → List Block)
    (machine final : Machine) : Prop extends heap.Alters denotes tiling machine final where
  frames : final.frames = machine.frames
  lasts : ∀ block ∈ heap.blocks tiling, block.kind = .object →
    block.Lasts heap.shapes machine.memory final.memory

theorem Alters.read_start (alters : heap.Alters denotes tiling machine final)
    (tiled : heap.Tiled machine.memory tiling) (member : block ∈ heap.blocks tiling) :
    final.memory.read block.start = machine.memory.read block.start := by
  obtain same | ⟨other, otherMember, _, lower, upper⟩ := alters.words block.start
  · exact same
  · have equal := tiled.eq_of_covers member otherMember (tiled.start_covers member) ⟨by omega, upper⟩
    subst equal
    omega

theorem Tiled.isContext {memory : Memory} (tiled : heap.Tiled memory tiling)
    (node : heap.Node tiling context.address) (tagged : memory.tag context.address = Tag.context) :
    heap.IsContext tiling memory context := by
  obtain ⟨block, member, inUse, starts⟩ := node
  have known : heap.shapes.get? (memory.tag block.start) = some .context := by
    rw [starts, tagged]
    rfl
  exact ⟨⟨block, member, (tiled.describes member inUse known).1, starts⟩, tagged⟩

namespace Upheld

variable (upheld : heap.Upheld denotes tiling machine) (orderly : machine.Orderly)

include upheld orderly

/-- What only looks at a heap changes nothing. -/
theorem looks : heap.Rewrites denotes tiling machine machine :=
  ⟨⟨upheld.keep (fun _ _ _ _ _ => rfl) (fun _ _ found _ => found) (List.Subset.refl _), orderly,
    .of_quiet (.refl machine) rfl, fun _ => .inl rfl⟩, rfl,
    fun _ member _ => .of_kept (fun _ _ => rfl) (upheld.tiled.start_covers member)⟩

theorem changes {memory : Memory}
    (upholds : heap.Upholds denotes tiling machine (machine.withMemory memory))
    (member : block ∈ heap.blocks tiling) (isObject : block.kind = .object)
    (same : ∀ address, ¬ (block.start + 8 ≤ address ∧ address < block.stop) →
      memory.read address = machine.memory.read address) :
    heap.Alters denotes tiling machine (machine.withMemory memory) := by
  refine ⟨upholds, orderly.congr rfl,
    .of_inside (fun address apart => same address fun inside => ?_) (machine.steady_withMemory _) rfl,
    fun address => ?_⟩
  · obtain ⟨slab, inHeap, inSlab⟩ := mem_blocks.mp member
    have within := upheld.tiled.slab_covers inHeap inSlab ⟨by omega, inside.2⟩
    have := apart slab inHeap
    omega
  · by_cases inside : block.start + 8 ≤ address ∧ address < block.stop
    · exact .inr ⟨block, member, isObject, inside⟩
    · exact .inl (same address inside)

theorem stores {address : Nat} (node : heap.Node tiling address)
    (known : heap.shapes.get? (machine.memory.tag address) = some shape)
    (slot : shape.Slot machine.memory address offset) (holds : denotes value) :
    heap.Rewrites denotes tiling machine
      (machine.withMemory (machine.memory.write (address + offset) value.bits)) := by
  have tiled := upheld.tiled
  obtain ⟨block, member, inUse, rfl⟩ := node
  obtain ⟨isObject, describes⟩ := tiled.describes member inUse known
  have aligned := (tiled.bounds member).2.1
  have place := describes.slotInside offset slot
  have inBlock {other : Nat} (inside : block.start + offset ≤ other ∧ other < block.start + offset + 8) :
      block.start + 8 ≤ other ∧ other < block.stop := by
    simp only [Block.stop]
    omega
  have stored := upheld.store member isObject known slot holds
  have alters := upheld.changes orderly stored member isObject fun other outside => by
      rw [read_stored describes slot (by omega), if_neg fun inside => outside (inBlock inside)]
  refine ⟨alters, rfl, fun other otherMember otherObject => ⟨.inl (congrArg Header.ofWord ?_), ?_⟩⟩
  · exact alters.read_start tiled otherMember
  · intro address isFixed
    refine (read_stored describes slot (by omega)).trans (if_neg fun inside => ?_)
    have inOther := isFixed.1
    have within := inBlock inside
    have equal := tiled.eq_of_covers otherMember member ⟨by omega, inOther.2⟩ ⟨by omega, within.2⟩
    subst equal
    exact isFixed.2 shape known offset slot inside

omit upheld orderly in
theorem objectOf?_eq_some {memory : Memory} {tag : UInt8} {object : Nat}
    (found : heap.objectOf? memory tag value = some object) :
    value.address? = some object ∧ memory.tag object = tag := by
  obtain ⟨found, tagged⟩ := Option.filter_eq_some_iff.mp found
  refine ⟨?_, of_decide_eq_true tagged⟩
  simp only [object?, Option.bind_eq_bind] at found
  cases refers : value.address? with
  | none => simp [refers] at found
  | some address =>
      simp only [refers, Option.bind_some] at found
      split at found
      · contradiction
      · split at found
        · exact found
        · contradiction

section Given

variable (nodes : ∀ address, allocated address → heap.Node tiling address)

include nodes

theorem storesField {tag : UInt8} {object : Value} {done : Bool} (owner : object.Refers allocated)
    (holds : denotes value) (known : heap.shapes.get? tag = some shape)
    (slot : ∀ memory object, shape.Slot memory object offset)
    (ran : (heap.setFieldOf tag offset object value).run machine = .ok done final) :
    heap.Rewrites denotes tiling machine final := by
  simp only [setFieldOf, fieldAddress?] at ran
  rw [Action.run_bind (show Action.memory.run machine = .ok machine.memory machine from rfl)] at ran
  cases found : heap.objectOf? machine.memory tag object with
  | none =>
      simp only [found, Option.map_none, Action.storeIfPresent] at ran
      cases ran
      exact upheld.looks orderly
  | some address =>
      obtain ⟨refers, tagged⟩ := objectOf?_eq_some found
      simp only [found, Option.map_some, Action.storeIfPresent] at ran
      cases ran
      exact upheld.stores orderly (nodes _ (owner address refers)) (tagged.symm ▸ known) (slot _ _) holds

variable (counted : ∀ block ∈ heap.blocks tiling, block.kind = .object →
  block.Counted heap.shapes machine.memory)

include counted

omit orderly in
/-- An element below the length of a vector has a slot. -/
theorem slot_of_elementAddress? {vector : Value} {address : Nat} (owner : vector.Refers allocated)
    (known : heap.shapes.get? Tag.vector = some .vector)
    (found : heap.elementAddress? machine.memory vector index = .ok (some address)) :
    ∃ object, heap.Node tiling object ∧ machine.memory.tag object = Tag.vector ∧
      Shape.vector.Slot machine.memory object (Layout.Sequence.contents + index * wordBytes) ∧
        address = object + (Layout.Sequence.contents + index * wordBytes) := by
  simp only [elementAddress?] at found
  split at found
  · next object length objectFound counts =>
    obtain ⟨holds, tagged⟩ := objectOf?_eq_some objectFound
    obtain ⟨block, member, inUse, rfl⟩ := nodes _ (owner _ holds)
    have isObject := (upheld.tiled.describes member inUse (tagged.symm ▸ known)).1
    obtain ⟨stored, small, word⟩ := counted block member isObject (tagged.symm ▸ known)
    have value : machine.memory.value (block.start + Layout.Sequence.length) = .fixnum stored :=
      congrArg Value.mk word
    have read : (Value.fixnum stored).toInt? = some (stored : Int) :=
      Value.toInt?_fixnum ⟨by omega, by omega⟩
    -- The length that is read is the one that the vector was counted with.
    have same : length = stored := by
      simp only [vectorLength?, fieldOf?, fieldAddress?, objectFound, Option.map_some,
        Option.bind_eq_bind, Option.bind_some, value, Value.toCount?,
        read] at counts
      simp only [Option.some.injEq, Size.limit] at counts
      omega
    subst same
    split at found
    · next inside =>
      refine ⟨block.start, ⟨block, member, inUse, rfl⟩, tagged, Shape.slot_vector.mpr
        ⟨index, ?_, by rw [Nat.mul_comm]⟩, ?_⟩
      · rw [Order.stored_fixnum small word]
        simp only [Size.saturate, Size.limit]
        omega
      -- An address was found, so that neither the product nor the sum is too large.
      · simp only [Size.mul, Size.add] at found
        by_cases product : index * wordBytes < Size.limit
        · by_cases sum : Layout.Sequence.contents + index * wordBytes < Size.limit
          · simp only [product, sum, if_true, bind, Except.bind, pure, Except.pure, Except.ok.injEq,
              Option.some.injEq] at found
            exact found.symm
          · simp [product, sum, bind, Except.bind] at found
        · simp [product, bind, Except.bind] at found
    · cases found
  · cases found

theorem storesElement {vector : Value} {done : Bool} (owner : vector.Refers allocated)
    (holds : denotes value) (known : heap.shapes.get? Tag.vector = some .vector)
    (ran : (heap.vectorSet vector index value).run machine = .ok done final) :
    heap.Rewrites denotes tiling machine final := by
  simp only [vectorSet] at ran
  rw [Action.run_bind (show Action.memory.run machine = .ok machine.memory machine from rfl)] at ran
  cases found : heap.elementAddress? machine.memory vector index with
  | error fault =>
      rw [found] at ran
      cases ran
  | ok address =>
      rw [found] at ran
      cases address with
      | none =>
          cases ran
          exact upheld.looks orderly
      | some address =>
          cases ran
          obtain ⟨object, node, tagged, slot, rfl⟩ :=
            upheld.slot_of_elementAddress? nodes counted owner known found
          exact upheld.stores orderly node (tagged.symm ▸ known) slot holds

end Given

theorem opens (addressed : Machine.frameAddress (machine.frames.size + 1) ≤ Size.limit) :
    heap.Alters denotes tiling machine
      { machine with frames := machine.frames.push (some { context }) } where
  toUpholds := upheld.push _
  orderly := by
    refine ⟨by simpa using addressed, fun number frame found unlinked => ?_⟩
    rw [Machine.frame?_push] at found
    split at found
    · exact Option.some.inj found ▸ rfl
    · exact orderly.unlinked number frame found unlinked
  within := by
    refine ⟨fun _ => .inl, List.Subset.refl _, fun _ _ _ => rfl, fun number frame found _ _ => ?_⟩
    rw [Machine.frame?_push, if_neg (Nat.ne_of_lt (Machine.frame?_lt found))]
    exact found
  words _ := .inl rfl

section Frames

variable (found : machine.frame? number = some frame)

include found

/-- A frame of a context of the heap changed, and the link of the context perhaps. -/
theorem reframes {changed : Option Frame} (owner : heap.Node tiling frame.context.address)
    (upholds : heap.Upholds denotes tiling machine final)
    (reframed : machine.Reframed final number changed)
    (empty : ∀ frame ∈ changed, frame.linked = false → frame.size = 0)
    (words : final.memory = machine.memory ∨ heap.IsContext tiling machine.memory frame.context ∧
      ∃ link, final.memory = frame.context.setSaves machine.memory link) :
    heap.Alters denotes tiling machine final := by
  have tiled := upheld.tiled
  have behind (address : Nat) : final.memory.read address = machine.memory.read address ∨
      ∃ block ∈ heap.blocks tiling, block.kind = .object ∧ block.start + 8 ≤ address ∧
        address < block.stop := by
    rcases words with same | ⟨⟨⟨block, member, isObject, starts⟩, tagged⟩, link, written⟩
    · exact .inl (by rw [same])
    · have size := tiled.size_of_context member isObject (starts ▸ tagged)
      have aligned := (tiled.bounds member).2.1
      by_cases inside : block.start + 8 ≤ address ∧ address < block.stop
      · exact .inr ⟨block, member, isObject, inside⟩
      · left
        rw [written, Context.setSaves, Memory.read_write_ne]
        simp only [Block.stop] at inside
        simp only [Layout.Context.saves, ← starts]
        omega
  refine ⟨upholds, reframed.orderly orderly empty, ⟨fun _ => .inl, reframed.pages ▸ List.Subset.refl _,
    fun address _ apart => ?_, ?_⟩, behind⟩
  · obtain same | ⟨block, member, _, inside⟩ := behind address
    · exact same
    · obtain ⟨slab, inHeap, inSlab⟩ := mem_blocks.mp member
      have covers := tiled.slab_covers inHeap inSlab ⟨by omega, inside.2⟩
      have := apart slab inHeap
      omega
  · intro other otherFrame otherFound _ foreign
    refine (reframed.others other fun equal => ?_).trans otherFound
    subst equal
    obtain rfl := Option.some.inj (found.symm.trans otherFound)
    obtain ⟨block, member, _, starts⟩ := owner
    simp [← starts, tiled.contains member] at foreign

theorem saves {size : Nat} (node : heap.Node tiling frame.context.address)
    (tagged : machine.memory.tag frame.context.address = Tag.context) (holds : denotes value)
    (ran : (Action.saveValue number frame value).run machine = .ok size final) :
    heap.Alters denotes tiling machine final := by
  obtain ⟨_, memory, reframed⟩ := (Machine.ensures_saveValue found).of_run ran
  have isContext := upheld.tiled.isContext node tagged
  refine upheld.reframes orderly found node
    (upheld.save found orderly isContext memory reframed holds) reframed ?_ ?_
  · rintro _ ⟨⟩ unlinked
    rw [Frame.links_save.1, Machine.linking] at unlinked
    split at unlinked
    · next linked => simp [linked] at unlinked
    · contradiction
  · cases linked : frame.linked with
    | true =>
        simp only [Machine.linkingMemory, linked, if_true] at memory
        exact .inl memory
    | false =>
        simp only [Machine.linkingMemory, linked, Bool.false_eq_true, if_false] at memory
        exact .inr ⟨isContext, _, memory⟩

theorem replaces (node : heap.Node tiling frame.context.address) (holds : denotes value)
    (ran : (Action.replaceValue number index value).run machine = .ok () final) :
    heap.Alters denotes tiling machine final := by
  cases got : frame.get index with
  | error fault => cases ran.symm.trans (Machine.refuses_replaceValue found got)
  | ok old =>
      obtain ⟨memory, reframed⟩ := (Machine.ensures_replaceValue found got).of_run ran
      refine upheld.reframes orderly found node
        (upheld.refill found memory reframed Frame.links_set fun other held =>
          (Frame.mem_values_set held).imp_right fun same => by rwa [same])
        reframed ?_ (.inl memory)
      rintro _ ⟨⟩ unlinked
      rw [Frame.links_set.1] at unlinked
      exact Frame.size_set.trans (orderly.unlinked number frame found unlinked)

theorem drops (node : heap.Node tiling frame.context.address)
    (tagged : machine.memory.tag frame.context.address = Tag.context)
    (ran : (Action.dropFrame number frame).run machine = .ok () final) :
    heap.Alters denotes tiling machine final := by
  have isContext := upheld.tiled.isContext node tagged
  have ordered := Machine.innermost_of_dropFrame ran
  obtain ⟨memory, reframed⟩ := (Machine.ensures_dropFrame found ordered).of_run ran
  cases linked : frame.linked with
  | true =>
      simp only [linked, if_true] at memory
      exact upheld.reframes orderly found node
        (upheld.unlink found orderly isContext (ordered linked) memory reframed)
        reframed (by simp) (.inr ⟨isContext, _, memory⟩)
  | false =>
      simp only [linked, Bool.false_eq_true, if_false] at memory
      exact upheld.reframes orderly found node (upheld.discard found linked memory reframed)
        reframed (by simp) (.inl memory)

end Frames

section Register

omit orderly

theorem get?_registered (shape : Shape) (member : block ∈ heap.blocks tiling)
    (isObject : block.kind = .object) :
    (heap.register shape).1.shapes.get? (machine.memory.tag block.start) =
      heap.shapes.get? (machine.memory.tag block.start) := by
  have fits := upheld.fits member
  simp only [Block.Fits, isObject] at fits
  obtain ⟨found, known, _⟩ := fits
  exact (ShapeTable.get?_register known).trans known.symm

theorem register (shape : Shape) : (heap.register shape).1.Upheld denotes tiling machine := by
  refine ⟨⟨fun slab inHeap => ?_, upheld.tiled.apart⟩, upheld.hosted, upheld.upper,
    fun block member isObject => ?_⟩
  · refine (upheld.tiled.layout slab inHeap).refit fun block inSlab isObject => ?_
    exact upheld.get?_registered shape (mem_blocks.mpr ⟨slab, inHeap, inSlab⟩) isObject
  · have sound := upheld.objects block member isObject
    refine ⟨sound.valid, sound.unmarked, fun found listed => ?_, sound.chain⟩
    exact sound.slots found ((upheld.get?_registered shape member isObject).symm.trans listed)

theorem counted_register (counted : ∀ block ∈ heap.blocks tiling, block.kind = .object →
      block.Counted heap.shapes machine.memory)
    (member : block ∈ heap.blocks tiling) (isObject : block.kind = .object) :
    block.Counted (heap.register shape).1.shapes machine.memory := fun isVector =>
  counted block member isObject ((upheld.get?_registered shape member isObject).symm.trans isVector)

end Register

end Upheld

end Heap

/-- An action that is the last step but for how its answer is put. -/
theorem Action.of_run_map {α β : Type} {action : Action α} {put : α → β} {machine final : Machine}
    {answer : β} (ran : (do return put (← action) : Action β).run machine = .ok answer final) :
    ∃ result, answer = put result ∧ action.run machine = .ok result final := by
  rw [EStateM.run_bind] at ran
  cases acts : action.run machine with
  | error fault later =>
      rw [acts] at ran
      cases ran
  | ok result later =>
      rw [acts] at ran
      cases ran
      exact ⟨result, rfl, rfl⟩

namespace Operation

variable {op : Operation} {heap after : Heap} {machine final : Machine} {tiling : Slab → List Block}
  {denotes : Value → Prop} {allocated : Nat → Prop} {answer : Answer}

/-- The operation neither takes nor gives storage. -/
def Edits : Operation → Prop
  | make _ | collect _ | scan _ _ | append _ | register _ => False
  | _ => True

/-- The operation changes the frames of a program. -/
def Frames : Operation → Prop
  | openFrame _ | save _ _ | replace _ _ _ | dropFrame _ => True
  | _ => False

section Alterations

variable (only : op.Edits) (upheld : heap.Upheld denotes tiling machine) (orderly : machine.Orderly)
  (counted : ∀ block ∈ heap.blocks tiling, block.kind = .object →
    block.Counted heap.shapes machine.memory)
  (nodes : ∀ address, allocated address → heap.Node tiling address)
  (holds : ∀ value : Value, value.Refers allocated → denotes value)
  (apt : op.Apt heap machine allocated)
  (ran : (op.perform heap).run machine = .ok (after, answer) final)

include only upheld orderly counted nodes holds apt ran

/-- What neither takes nor gives storage and has nothing to do with frames changes slots at most. -/
theorem rewrites (other : ¬ op.Frames) :
    after = heap ∧ heap.Rewrites denotes tiling machine final := by
  cases op with
  | make | collect | scan | append | register => exact only.elim
  | openFrame | save | replace | dropFrame => exact absurd trivial other
  | setSlot object offset value =>
      obtain ⟨refers, address, found, listed, shape, known, slot⟩ := apt
      cases ran
      rw [Value.untagged_eq found]
      exact ⟨rfl, upheld.stores orderly (nodes _ listed) known slot (holds _ refers)⟩
  | setField tag offset object value =>
      obtain ⟨_, same, acts⟩ := Action.of_run_map ran
      cases same
      obtain ⟨owner, refers, shape, known, slot⟩ := apt
      exact ⟨rfl, upheld.storesField orderly nodes owner (holds _ refers) known slot acts⟩
  | setElement vector index value =>
      obtain ⟨_, same, acts⟩ := Action.of_run_map ran
      cases same
      exact ⟨rfl, upheld.storesElement orderly nodes counted apt.1 (holds _ apt.2.1) apt.2.2 acts⟩
  | setEnvironment context value =>
      obtain ⟨listed, tagged, refers⟩ := apt
      cases ran
      have known : heap.shapes.get? (machine.memory.tag context.address) = some .context := by
        rw [tagged]
        rfl
      exact ⟨rfl, upheld.stores orderly (nodes _ listed) known (Shape.slot_context.mpr (.inr rfl))
        (holds _ refers)⟩
  | saved number index =>
      obtain ⟨rfl, ⟨_, rfl⟩ | ⟨frame, found, acts⟩⟩ := of_onFrame ran
      · exact ⟨rfl, upheld.looks orderly⟩
      · cases got : frame.get index with
        | error fault =>
            rw [got] at acts
            cases acts
        | ok value =>
            rw [got] at acts
            cases acts
            exact ⟨rfl, upheld.looks orderly⟩
  | element vector index =>
      unfold perform at ran
      rw [Action.run_bind (show Action.memory.run machine = .ok machine.memory machine from rfl)] at ran
      cases got : heap.vectorRef? machine.memory vector index with
      | error fault =>
          rw [got] at ran
          cases ran
      | ok value =>
          rw [got] at ran
          cases ran
          exact ⟨rfl, upheld.looks orderly⟩
  | slot | field | vectorLength | contents | environment | parent =>
      cases ran
      exact ⟨rfl, upheld.looks orderly⟩

/-- What neither takes nor gives storage changes words of objects and frames. -/
theorem alters : after = heap ∧ heap.Alters denotes tiling machine final := by
  by_cases frames : op.Frames
  swap
  · obtain ⟨rfl, rewritten⟩ := rewrites only upheld orderly counted nodes holds apt ran frames
    exact ⟨rfl, rewritten.toAlters⟩
  have looks : heap.Alters denotes tiling machine machine := (upheld.looks orderly).toAlters
  cases op with
  | openFrame context =>
      cases ran
      exact ⟨rfl, upheld.opens orderly apt⟩
  | save number value =>
      obtain ⟨rfl, ⟨_, rfl⟩ | ⟨frame, found, acts⟩⟩ := of_onFrame ran
      · exact ⟨rfl, looks⟩
      · obtain ⟨_, _, acts⟩ := Action.of_run_map acts
        exact ⟨rfl, upheld.saves orderly found (nodes _ (apt.2 frame found).1) (apt.2 frame found).2
        (holds _ apt.1) acts⟩
  | replace number index value =>
      obtain ⟨_, same, acts⟩ := Action.of_run_map ran
      cases same
      cases found : machine.frame? number with
      | none =>
          unfold Action.replaceValue at acts
          rw [Action.run_bind (show (Action.frame? number).run machine = .ok none machine from
            congrArg (EStateM.Result.ok · machine) found)] at acts
          cases acts
          exact ⟨rfl, looks⟩
      | some frame =>
          exact ⟨rfl, upheld.replaces orderly found (nodes _ (apt.2 frame found)) (holds _ apt.1) acts⟩
  | dropFrame number =>
      obtain ⟨rfl, ⟨_, rfl⟩ | ⟨frame, found, acts⟩⟩ := of_onFrame ran
      · exact ⟨rfl, looks⟩
      · obtain ⟨_, _, acts⟩ := Action.of_run_map acts
        exact ⟨rfl, upheld.drops orderly found (nodes _ (apt frame found).1) (apt frame found).2 acts⟩
  | _ => exact frames.elim

end Alterations

end Operation

end SlabHeap
