import SlabHeap.Memory.Bulk
import SlabHeap.Proofs.Making

namespace SlabHeap

/-! Orders for blocks.

`Order` lists what can be asked for: objects of the standard types, objects of any fixed size, and storage
without a header. Each order is one allocation that fills its block in a way of its own,
`Order.perform_meets`, and what it makes is a sound object, `Order.furnished`.
-/

open Block

inductive Order where
  | context (parent : Option Context)
  | pair (root : Context) (car cdr : Value)
  | vector (root : Context) (length : Nat) (value : Value)
  | bytes (root : Context) (contents : List UInt8)
  | weakBox (root : Context) (target : Value)
  | ephemeron (root : Context) (key value : Value)
  | object (root : Context) (tag : UInt8) (size : Nat)
  | storage (root : Context) (size : Nat)

namespace Order

/-- The context that a collection on the way takes for a root. -/
def root : Order → Option Context
  | .context parent => parent
  | .pair root _ _ | .vector root _ _ | .bytes root _ | .weakBox root _ | .ephemeron root _ _
  | .object root _ _ | .storage root _ => some root

/-- The values that a collection on the way takes for roots as well. -/
def held : Order → List Value
  | .pair _ car cdr => [car, cdr]
  | .vector _ _ value => [value]
  | .weakBox _ target => [target]
  | .ephemeron _ key value => [key, value]
  | .context _ | .bytes _ _ | .object _ _ _ | .storage _ _ => []

def tag? : Order → Option UInt8
  | .context _ => some Tag.context
  | .pair _ _ _ => some Tag.pair
  | .vector _ _ _ => some Tag.vector
  | .bytes _ _ => some Tag.bytes
  | .weakBox _ _ => some Tag.weakBox
  | .ephemeron _ _ _ => some Tag.ephemeron
  | .object _ tag _ => some tag
  | .storage _ _ => none

def size : Order → Nat
  | .context _ => Layout.Context.size
  | .pair _ _ _ => Layout.Pair.size
  | .vector _ length _ => Layout.Sequence.contents + length * wordBytes
  | .bytes _ contents => Layout.Sequence.contents + contents.length
  | .weakBox _ _ => Layout.WeakBox.size
  | .ephemeron _ _ _ => Layout.Ephemeron.size
  | .object _ _ size | .storage _ size => size

def contents (identity : Nat) : Order → Nat → Memory → Memory
  | .context parent, start, memory => Heap.contextFill identity parent start memory
  | .pair _ car cdr, start, memory =>
      (memory.write (start + Layout.Pair.car) car.bits).write (start + Layout.Pair.cdr) cdr.bits
  | .vector _ length value, start, memory =>
      (memory.write (start + Layout.Sequence.length) (Value.fixnum length).bits).fillWords
        value.bits (start + Layout.Sequence.contents) length
  | .bytes _ contents, start, memory =>
      (memory.write (start + Layout.Sequence.length) (Value.fixnum contents.length).bits).writeBytes
        (start + Layout.Sequence.contents) contents
  | .weakBox _ target, start, memory => memory.write (start + Layout.WeakBox.target) target.bits
  | .ephemeron _ key value, start, memory =>
      (memory.write (start + Layout.Ephemeron.key) key.bits).write
        (start + Layout.Ephemeron.value) value.bits
  | .object _ _ _, _, memory | .storage _ _, _, memory => memory

def fill (identity : Nat) (order : Order) (start : Nat) (memory : Memory) : Memory :=
  match order.tag? with
  | none => memory
  | some tag => order.contents identity start (memory.setHeader start (.fresh tag))

/-- Asks a heap for the block. The answer refers to it. -/
def perform (heap : Heap) : Order → Action (Heap × Except HeapError Value)
  | .context parent => do
      let (heap, answer) ← heap.makeContext parent
      return (heap, answer.map Context.toValue)
  | .pair root car cdr => heap.allocPair root car cdr
  | .vector root length value => heap.allocVector root length value
  | .bytes root contents => heap.allocBytes root contents
  | .weakBox root target => heap.allocWeakBox root target
  | .ephemeron root key value => heap.allocEphemeron root key value
  | .object root tag size => do
      let (heap, answer) ← heap.allocateObject root tag size
      return (heap, answer.map Value.reference)
  | .storage root size => heap.allocate root size

variable {heap : Heap} {machine : Machine} {tiling : Slab → List Block} {order : Order}

/-- What the order refers to is in use. -/
structure Rooted (order : Order) (heap : Heap) (tiling : Slab → List Block) : Prop where
  root : ∀ context ∈ order.root, heap.Denotes tiling context.toValue
  held : ∀ value ∈ order.held, heap.Denotes tiling value

/-- What is written behind the header of a block. -/
theorem ensures_contents {write : Action Unit} {mid : Machine} {start : Nat} (identity : Nat)
    (order : Order) (written : write.run mid =
      .ok () (mid.withMemory (order.contents identity start mid.memory))) :
    write.Ensures mid fun _ final =>
      mid.Steady final ∧ final.memory = order.contents identity start mid.memory :=
  ⟨(), _, written, mid.steady_withMemory _, rfl⟩

theorem Rooted.collectable (rooted : order.Rooted heap tiling)
    (consistent : heap.Consistent tiling machine) :
    (heap.holding order.held).Collectable order.root tiling machine :=
  (consistent.holding rooted.held).collectable rooted.root

theorem perform_meets (collectable : (heap.holding order.held).Collectable order.root tiling machine)
    (registered : ∀ tag ∈ order.tag?, heap.shapes.isRegistered tag = true) :
    (order.perform heap).Meets machine
      (fun answer final => ∃ given, answer.2 = given.map Value.reference ∧
        heap.Allotted order.root order.held tiling machine order.size
          (order.fill heap.identity) answer.1 given final)
      fun _ => (heap.holding order.held).Overflows order.root tiling machine := by
  have limit : Memory.pageLimit * Memory.pageBytes ≤ 0x4000000000000000 := by decide
  have counted {length : Nat} (inside : Layout.Sequence.contents + length ≤
      Memory.pageLimit * Memory.pageBytes) : Value.ofInt length = .ok (.fixnum length) := by
    refine if_pos ⟨by omega, ?_⟩
    simp only [Layout.Sequence.contents] at inside
    omega
  cases order with
  | context parent =>
      rw [show heap.holding (context parent).held = heap from heap.holding_nil] at collectable ⊢
      refine Action.Meets.bind collectable.makeContext_meets ?_
      rintro ⟨after, _⟩ final ⟨given, rfl, allotted⟩
      refine Action.Ensures.meets (Action.ensures_pure.mpr ⟨given, ?_, allotted⟩)
      cases given <;> rfl
  | pair root car cdr =>
      exact collectable.allocateHolding_meets (registered _ rfl)
        fun start mid _ => ensures_contents heap.identity (.pair root car cdr) rfl
  | vector root length value =>
      refine collectable.allocateSequence_meets (registered _ rfl)
        fun start mid inside => ensures_contents heap.identity (.vector root length value) ?_
      have fits : Layout.Sequence.contents + length ≤ Memory.pageLimit * Memory.pageBytes := by
        simp only [wordBytes] at inside
        omega
      rw [counted fits]
      rfl
  | bytes root contents =>
      refine collectable.allocateSequence_meets (registered _ rfl)
        fun start mid inside => ensures_contents heap.identity (.bytes root contents) ?_
      rw [counted (Nat.le_trans (Nat.le_add_left _ _) inside)]
      rfl
  | weakBox root target =>
      exact collectable.allocateHolding_meets (registered _ rfl)
        fun start mid _ => ensures_contents heap.identity (.weakBox root target) rfl
  | ephemeron root key value =>
      exact collectable.allocateHolding_meets (registered _ rfl)
        fun start mid _ => ensures_contents heap.identity (.ephemeron root key value) rfl
  | object root tag size =>
      unfold perform Heap.allocateObject Heap.Allotted
      rw [show heap.holding (object root tag size).held = heap from heap.holding_nil] at collectable ⊢
      refine Action.Meets.bind (collectable.allocateTagged_meets (registered _ rfl)) ?_
      rintro ⟨after, answer⟩ final ⟨prepared, divided, mid, prepares, answered⟩
      refine Action.Ensures.meets (Action.ensures_pure.mpr
        ⟨answer, rfl, prepared, divided, mid, after, prepares, answered, ?_⟩)
      have whole := prepares.scratch_eq
      rcases answered with ⟨_, _, _, _, same, _⟩ | ⟨_, same, _⟩
      · cases same
        rw [← whole]
      · cases same
        simp only [Heap.refused, ← whole]
  | storage root size =>
      rw [show heap.holding (storage root size).held = heap from heap.holding_nil] at collectable ⊢
      exact collectable.allocate_meets

end Order

namespace Memory

variable {memory : Memory} {address other : Nat}

theorem read_write_ne {word : UInt64} (distinct : other / 8 ≠ address / 8) :
    (memory.write address word).read other = memory.read other := by
  rw [read_write, if_neg distinct]

theorem read_writeBytes {contents : List UInt8}
    (outside : other / 8 < address / 8 ∨ address + contents.length ≤ other / 8 * 8) :
    (memory.writeBytes address contents).read other = memory.read other := by
  induction contents generalizing memory address with
  | nil => rfl
  | cons byte rest ih =>
      simp only [List.length_cons] at outside
      rw [writeBytes, ih (by omega), writeByte, read_write_ne (by omega)]

end Memory

/-- A block of zeros was made an object with the tag, whose slots hold `values` and nothing beside. -/
structure Furnished (shapes : ShapeTable) (tag : UInt8) (values : List Value) (start request : Nat)
    (memory after : Memory) : Prop where
  outside : ∀ address, ¬ (start ≤ address ∧ address < start + request) →
    after.read address = memory.read address
  header : after.header start = .fresh tag
  shape : ∃ shape, shapes.get? tag = some shape ∧
    Size.alignUp? (max (shape.size.byteCount after start) 1) 16 = some request ∧
      ∀ offset, shape.Slot after start offset → after.value (start + offset) ∈ values
  saves : tag = Tag.context → after.read (start + Layout.Context.saves) = 0
  counted : ∀ size, Block.Counted shapes after ⟨start, size, .object⟩

/-- Rounding makes a size at least one unit. -/
theorem Size.alignUp?_saturate {size request : Nat}
    (rounded : alignUp? (max size blockUnit) blockUnit = some request) :
    alignUp? (max (saturate size) 1) 16 = some request := by
  rw [show blockUnit = 1 <<< 4 from rfl, alignUp?_shift] at rounded
  rw [show (16 : Nat) = 1 <<< 4 from rfl, alignUp?_shift]
  rw [show (1 : Nat) <<< 4 = 16 from rfl] at *
  split at rounded
  · next small =>
    have := Option.some.inj rounded
    have whole : saturate size = size := by
      simp only [saturate]
      omega
    rw [whole, if_pos (by omega)]
    congr 1
    omega
  · contradiction

namespace ShapeTable

/-- The standard shapes are under their tags. -/
def Extends (shapes : ShapeTable) : Prop :=
  ∀ tag shape, standard.get? tag = some shape → shapes.get? tag = some shape

end ShapeTable

namespace Order

/-- What the slots of the object hold. -/
def values : Order → List Value
  | .context parent => [(parent.map Context.toValue).getD .no, .nil]
  | .object _ _ _ => [⟨0⟩]
  | order => order.held

/-- The order is for an object of one of the standard types, for which there are helpers. -/
def Typed : Order → Prop
  | .pair _ _ _ | .vector _ _ _ | .bytes _ _ | .weakBox _ _ | .ephemeron _ _ _ => True
  | .context _ | .object _ _ _ | .storage _ _ => False

/-- The helpers find the standard types, and other objects are asked for with exactly the size of
their type. -/
structure Apt (order : Order) (shapes : ShapeTable) : Prop where
  standard : order.Typed → shapes.Extends
  exact : ∀ root tag size, order = .object root tag size → ∃ shape,
    shapes.get? tag = some shape ∧ shape.size.length = none ∧ shape.size.base = size

/-- The words behind the header hold what the object is made for. -/
def Stored (memory : Memory) (start : Nat) : Order → Prop
  | .context parent =>
      memory.value (start + Layout.Context.parent) = (parent.map Context.toValue).getD .no ∧
        memory.value (start + Layout.Context.environment) = .nil
  | .pair _ car cdr => memory.value (start + Layout.Pair.car) = car ∧
      memory.value (start + Layout.Pair.cdr) = cdr
  | .vector _ length value =>
      memory.read (start + Layout.Sequence.length) = (Value.fixnum length).bits ∧ ∀ index < length,
        memory.value (start + (Layout.Sequence.contents + index * wordBytes)) = value
  | .bytes _ contents =>
      memory.read (start + Layout.Sequence.length) = (Value.fixnum contents.length).bits ∧
        memory.readBytes (start + Layout.Sequence.contents) contents.length = contents
  | .weakBox _ target => memory.value (start + Layout.WeakBox.target) = target
  | .ephemeron _ key value => memory.value (start + Layout.Ephemeron.key) = key ∧
      memory.value (start + Layout.Ephemeron.value) = value
  | .object _ _ _ | .storage _ _ => True

theorem stored_fill {memory : Memory} {start identity : Nat} (order : Order) (aligned : start % 16 = 0) :
    order.Stored (order.fill identity start memory) start := by
  cases order with
  | context parent =>
      constructor
      · simp (disch := omega) only [fill, tag?, contents, Heap.contextFill, Memory.value,
          Memory.read_write_ne, Memory.read_write_same, Layout.Context.parent,
          Layout.Context.environment]
      · simp only [fill, tag?, contents, Heap.contextFill, Memory.value, Memory.read_write_same]
  | pair root car cdr =>
      constructor
      · simp (disch := omega) only [fill, tag?, contents, Memory.value, Memory.read_write_ne,
          Memory.read_write_same, Layout.Pair.car, Layout.Pair.cdr]
      · simp only [fill, tag?, contents, Memory.value, Memory.read_write_same]
  | vector root length value =>
      have whole : (start + Layout.Sequence.contents) % 8 = 0 := by
        simp only [Layout.Sequence.contents]
        omega
      constructor
      · simp only [fill, tag?, contents]
        rw [Memory.read_fillWords _ _ whole, if_neg, Memory.read_write_same]
        simp only [Layout.Sequence.length, Layout.Sequence.contents]
        omega
      · intro index inside
        simp only [fill, tag?, contents, Memory.value]
        rw [Memory.read_fillWords _ _ whole, if_pos]
        simp only [Layout.Sequence.contents, wordBytes]
        omega
  | bytes root contents =>
      simp only [Stored, fill, tag?, Order.contents]
      refine ⟨?_, Memory.readBytes_writeBytes _ _ _⟩
      rw [Memory.read_writeBytes, Memory.read_write_same]
      simp only [Layout.Sequence.length, Layout.Sequence.contents]
      omega
  | weakBox root target => simp only [Stored, fill, tag?, contents, Memory.value, Memory.read_write_same]
  | ephemeron root key value =>
      constructor
      · simp (disch := omega) only [fill, tag?, contents, Memory.value, Memory.read_write_ne,
          Memory.read_write_same, Layout.Ephemeron.key, Layout.Ephemeron.value]
      · simp only [fill, tag?, contents, Memory.value, Memory.read_write_same]
  | object | storage => trivial

section Furnishing

variable {shapes : ShapeTable} {memory : Memory} {start request : Nat} {root : Context}

theorem stored_fixnum {after : Memory} {length : Nat} (small : length < 0x4000000000000000)
    (same : after.read (start + Layout.Sequence.length) = (Value.fixnum length).bits) :
    Shape.stored after start = length := by
  have read : (Value.fixnum length).toInt? = some (length : Int) :=
    Value.toInt?_fixnum ⟨by omega, by omega⟩
  rw [Shape.stored, Memory.value, same]
  change (((Value.fixnum length).toInt?).getD 0).toNat = length
  rw [read]
  rfl

theorem counted_of_ne {tag : UInt8} {shape : Shape} {after : Memory}
    (header : after.header start = .fresh tag) (known : shapes.get? tag = some shape)
    (other : shape ≠ .vector) (size : Nat) : Block.Counted shapes after ⟨start, size, .object⟩ := by
  intro isVector
  rw [Memory.tag, header] at isVector
  exact absurd (Option.some.inj (known.symm.trans isVector)) other

variable (aligned : start % 16 = 0)

include aligned

theorem furnished_context {parent : Option Context} {identity : Nat}
    (large : Layout.Context.size ≤ request)
    (sized : Size.alignUp? (max (Size.saturate Layout.Context.size) 1) 16 = some request) :
    Furnished shapes Tag.context (context parent).values start request memory
      ((context parent).fill identity start memory) := by
  simp only [Layout.Context.size] at large
  have header : ((context parent).fill identity start memory).header start = .fresh Tag.context := by
    simp (disch := omega) only [fill, tag?, contents, Heap.contextFill, Memory.setHeader,
      Memory.header, Memory.read_write_ne, Memory.read_write_same, Header.ofWord_toWord,
      Layout.Context.heap, Layout.Context.saves, Layout.Context.parent, Layout.Context.environment]
  refine ⟨fun address outside => ?_, header, ⟨.context, rfl, sized, fun offset slot => ?_⟩,
    fun _ => ?_, counted_of_ne header rfl (by decide)⟩
  · simp (disch := omega) only [fill, tag?, contents, Heap.contextFill, Memory.setHeader,
      Memory.read_write_ne, Layout.Context.heap, Layout.Context.saves, Layout.Context.parent,
      Layout.Context.environment]
  · rcases Shape.slot_context.mp slot with rfl | rfl
    · simp (disch := omega) only [fill, tag?, contents, Heap.contextFill, Memory.value, values,
        Memory.read_write_ne, Memory.read_write_same, Layout.Context.parent,
        Layout.Context.environment, List.mem_cons, true_or]
    · simp only [fill, tag?, contents, Heap.contextFill, Memory.value, values,
        Memory.read_write_same, List.mem_cons, true_or, or_true]
  · simp (disch := omega) only [fill, tag?, contents, Heap.contextFill, Memory.read_write_ne,
      Memory.read_write_same, Layout.Context.saves, Layout.Context.parent,
      Layout.Context.environment]

theorem furnished_weakBox {target : Value} {identity : Nat}
    (known : shapes.get? Tag.weakBox = some .weakBox) (large : Layout.WeakBox.size ≤ request)
    (sized : Size.alignUp? (max (Size.saturate Layout.WeakBox.size) 1) 16 = some request) :
    Furnished shapes Tag.weakBox [target] start request memory
      ((weakBox root target).fill identity start memory) := by
  simp only [Layout.WeakBox.size] at large
  have header : ((weakBox root target).fill identity start memory).header start =
      .fresh Tag.weakBox := by
    simp (disch := omega) only [fill, tag?, contents, Memory.setHeader, Memory.header,
      Memory.read_write_ne, Memory.read_write_same, Header.ofWord_toWord, Layout.WeakBox.target]
  refine ⟨fun address outside => ?_, header, ⟨.weakBox, known, sized, fun offset slot => ?_⟩,
    fun other => absurd other (by decide), counted_of_ne header known (by decide)⟩
  · simp (disch := omega) only [fill, tag?, contents, Memory.setHeader, Memory.read_write_ne,
      Layout.WeakBox.target]
  · obtain rfl := Shape.slot_weakBox.mp slot
    simp only [fill, tag?, contents, Memory.value, Memory.read_write_same, List.mem_singleton]

/-- A pair and an ephemeron hold two values behind their headers. -/
theorem furnished_two {tag : UInt8} {shape : Shape} {first second : Value} {order : Order}
    {identity : Nat} (known : shapes.get? tag = some shape) (large : 24 ≤ request)
    (filled : order.fill identity start memory =
      ((memory.setHeader start (.fresh tag)).write (start + 8) first.bits).write (start + 16)
        second.bits)
    (sized : Size.alignUp? (max (shape.size.byteCount (order.fill identity start memory) start) 1)
      16 = some request)
    (slots : ∀ offset, shape.Slot (order.fill identity start memory) start offset →
      offset = 8 ∨ offset = 16)
    (other : tag ≠ Tag.context) (notVector : shape ≠ .vector) :
    Furnished shapes tag [first, second] start request memory (order.fill identity start memory) := by
  have header : (order.fill identity start memory).header start = .fresh tag := by
    simp (disch := omega) only [filled, Memory.setHeader, Memory.header, Memory.read_write_ne,
      Memory.read_write_same, Header.ofWord_toWord]
  refine ⟨fun address outside => ?_, header, ⟨shape, known, sized, fun offset slot => ?_⟩,
    fun same => absurd same other, counted_of_ne header known notVector⟩
  · simp (disch := omega) only [filled, Memory.setHeader, Memory.read_write_ne]
  · rcases slots offset slot with rfl | rfl
    · simp (disch := omega) only [filled, Memory.value, Memory.read_write_ne,
        Memory.read_write_same, List.mem_cons, true_or]
    · simp only [filled, Memory.value, Memory.read_write_same, List.mem_cons, true_or, or_true]

theorem furnished_vector {length : Nat} {value : Value} {identity : Nat}
    (known : shapes.get? Tag.vector = some .vector)
    (large : Layout.Sequence.contents + length * wordBytes ≤ request)
    (small : request < Size.limit)
    (sized : Size.alignUp?
      (max (Size.saturate (Layout.Sequence.contents + length * wordBytes)) 1) 16 = some request) :
    Furnished shapes Tag.vector [value] start request memory
      ((vector root length value).fill identity start memory) := by
  simp only [Layout.Sequence.contents, wordBytes, Size.limit] at large small
  have whole : (start + 16) % 8 = 0 := by omega
  have read (address : Nat) : ((vector root length value).fill identity start memory).read address =
      if start + 16 ≤ address ∧ address < start + 16 + 8 * length then value.bits
      else ((memory.setHeader start (.fresh Tag.vector)).write (start + 8)
        (Value.fixnum length).bits).read address :=
    Memory.read_fillWords _ _ whole _ _
  have lengthWord : ((vector root length value).fill identity start memory).read
      (start + Layout.Sequence.length) = (Value.fixnum length).bits := by
    rw [Layout.Sequence.length, read, if_neg (by omega), Memory.read_write_same]
  have stored : Shape.stored ((vector root length value).fill identity start memory) start =
      length := stored_fixnum (by omega) lengthWord
  refine ⟨fun address outside => ?_, ?_, ⟨.vector, known, ?_, fun offset slot => ?_⟩,
    fun other => absurd other (by decide), fun size _ => ⟨length, by omega, lengthWord⟩⟩
  · rw [read, if_neg (by omega), Memory.read_write_ne (by omega), Memory.setHeader,
      Memory.read_write_ne (by omega)]
  · rw [Memory.header, read, if_neg (by omega), Memory.read_write_ne (by omega)]
    exact Memory.header_setHeader _ _ _
  · rw [Shape.byteCount_vector, stored]
    exact sized
  · obtain ⟨index, inside, rfl⟩ := Shape.slot_vector.mp slot
    rw [stored] at inside
    simp only [Size.saturate, Layout.Sequence.contents, wordBytes] at inside ⊢
    rw [Memory.value, read, if_pos (by omega)]
    exact List.mem_singleton.mpr rfl

theorem furnished_bytes {contents : List UInt8} {identity : Nat}
    (known : shapes.get? Tag.bytes = some .bytes)
    (large : Layout.Sequence.contents + contents.length ≤ request) (whole : request % 16 = 0)
    (small : request < 0x4000000000000000)
    (sized : Size.alignUp?
      (max (Size.saturate (Layout.Sequence.contents + contents.length)) 1) 16 = some request) :
    Furnished shapes Tag.bytes [] start request memory
      ((bytes root contents).fill identity start memory) := by
  simp only [Layout.Sequence.contents] at large
  have read {address : Nat} (outside : address < start + 16 ∨ start + request ≤ address) :
      ((bytes root contents).fill identity start memory).read address =
        ((memory.setHeader start (.fresh Tag.bytes)).write (start + 8)
          (Value.fixnum contents.length).bits).read address :=
    Memory.read_writeBytes (by simp only [Layout.Sequence.contents]; omega)
  have stored : Shape.stored ((bytes root contents).fill identity start memory) start =
      contents.length := by
    refine stored_fixnum (by omega) ?_
    rw [Layout.Sequence.length, read (by omega), Memory.read_write_same]
  have header : ((bytes root contents).fill identity start memory).header start =
      .fresh Tag.bytes := by
    rw [Memory.header, read (by omega), Memory.read_write_ne (by omega)]
    exact Memory.header_setHeader _ _ _
  refine ⟨fun address outside => ?_, header, ⟨.bytes, known, ?_, fun offset slot => ?_⟩,
    fun other => absurd other (by decide), counted_of_ne header known (by decide)⟩
  · rw [read (by omega), Memory.read_write_ne (by omega), Memory.setHeader,
      Memory.read_write_ne (by omega)]
  · rw [Shape.byteCount_bytes, stored]
    exact sized
  · exact absurd slot Shape.not_slot_bytes

/-- An object of a fixed size is all zeros behind its header. -/
theorem furnished_object {tag : UInt8} {size identity : Nat} {shape : Shape}
    (known : shapes.get? tag = some shape) (confined : shape.Confined)
    (plain : shape.size.length = none) (base : shape.size.base = size) (unit : 16 ≤ request)
    (large : size ≤ request)
    (sized : Size.alignUp? (max (Size.saturate size) 1) 16 = some request)
    (zero : ∀ address, start ≤ address → address < start + request → memory.read address = 0) :
    Furnished shapes tag [⟨0⟩] start request memory
      ((object root tag size).fill identity start memory) := by
  have read {address : Nat} (outside : ¬ (start ≤ address ∧ address < start + 8)) :
      ((object root tag size).fill identity start memory).read address = memory.read address :=
    Memory.read_setHeader (by omega) outside
  have bytes : shape.size.byteCount ((object root tag size).fill identity start memory) start =
      Size.saturate size := by
    rw [SizeRule.byteCount, plain, base]
    rfl
  rw [← bytes] at sized
  have notVector : shape ≠ .vector := fun same => by
    subst same
    cases plain
  refine ⟨fun address outside => read (by omega), Memory.header_setHeader _ _ _,
    ⟨shape, known, sized, fun offset slot => ?_⟩, fun isContext => ?_,
    counted_of_ne (Memory.header_setHeader _ _ _) known notVector⟩
  · have place := (confined _ _ _ sized).slotInside offset slot
    rw [Memory.value, read (by omega), zero _ (by omega) (by omega)]
    exact List.mem_singleton.mpr rfl
  · subst isContext
    obtain rfl : Shape.context = shape := Option.some.inj known
    have words : Shape.context.size.base = 40 := rfl
    simp only [Layout.Context.saves]
    rw [read (by omega), zero _ (by omega) (by omega)]

end Furnishing

/-- What an order puts into a block of zeros makes an object of it. -/
theorem furnished {order : Order} {shapes : ShapeTable} {tag : UInt8} {memory : Memory}
    {identity start request : Nat} (apt : order.Apt shapes) (tagged : order.tag? = some tag)
    (confined : ∀ shape, shapes.get? tag = some shape → shape.Confined)
    (aligned : start % 16 = 0) (small : request < 0x4000000000000000)
    (rounded : Size.alignUp? (max order.size blockUnit) blockUnit = some request)
    (zero : ∀ address, start ≤ address → address < start + request → memory.read address = 0) :
    Furnished shapes tag order.values start request memory (order.fill identity start memory) := by
  obtain ⟨atLeast, _, whole, limited⟩ := Size.alignUp?_eq_some
    (show Size.alignUp? (max order.size blockUnit) (1 <<< 4) = some request from rounded)
  have sized := Size.alignUp?_saturate rounded
  have large : order.size ≤ request := Nat.le_trans (Nat.le_max_left _ _) atLeast
  have unit : blockUnit ≤ request := Nat.le_trans (Nat.le_max_right _ _) atLeast
  cases order with
  | context parent =>
      cases tagged
      exact furnished_context aligned large sized
  | pair root car cdr =>
      cases tagged
      exact furnished_two aligned (apt.standard trivial _ .pair rfl) large rfl sized
        (fun _ => Shape.slot_pair.mp) (by decide) (by decide)
  | vector root length value =>
      cases tagged
      exact furnished_vector aligned (apt.standard trivial _ .vector rfl) large limited sized
  | bytes root contents =>
      cases tagged
      exact furnished_bytes aligned (apt.standard trivial _ .bytes rfl) large whole small sized
  | weakBox root target =>
      cases tagged
      exact furnished_weakBox aligned (apt.standard trivial _ .weakBox rfl) large sized
  | ephemeron root key value =>
      cases tagged
      exact furnished_two aligned (apt.standard trivial _ .ephemeron rfl) large rfl sized
        (fun _ => Shape.slot_ephemeron.mp) (by decide) (by decide)
  | object root other size =>
      cases tagged
      obtain ⟨shape, known, plain, base⟩ := apt.exact root tag size rfl
      exact furnished_object aligned known (confined shape known) plain base unit large sized zero
  | storage root size => contradiction

end Order

end SlabHeap
