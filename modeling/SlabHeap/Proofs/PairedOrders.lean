import SlabHeap.Proofs.Doubling

namespace SlabHeap

/-! Orders that stand for each other.

`Order.map` replaces what an order is given. What such orders put into blocks of zeros differs in slots alone,
`Order.agrees_fill`, and what the slots hold was replaced in the same way, `Order.value_map`.
-/

open Block

namespace Memory

variable {start place size offset count : Nat} {loose : Nat → Prop} {memory image : Memory} {word other : UInt64}

/-- Behind the two addresses the memories hold the same words, but for some offsets. -/
def Agrees (start place size : Nat) (loose : Nat → Prop) (memory image : Memory) : Prop :=
  ∀ offset < size, ¬ loose offset → image.read (place + offset) = memory.read (start + offset)

namespace Agrees

variable (agrees : Agrees start place size loose memory image) (aligned : start % 8 = 0)
  (placed : place % 8 = 0)

include agrees aligned placed

theorem write (word : UInt64) (offset : Nat) : Agrees start place size loose
    (memory.write (start + offset) word) (image.write (place + offset) word) := by
  intro inside small tight
  rw [read_write, read_write, agrees inside small tight]
  congr 1
  exact propext (by omega)

theorem write_loose (word other : UInt64) (whole : offset % 8 = 0)
    (covered : ∀ inside, offset ≤ inside → inside < offset + 8 → loose inside) :
    Agrees start place size loose (memory.write (start + offset) word)
      (image.write (place + offset) other) := by
  intro inside small tight
  have outside : ¬ (offset ≤ inside ∧ inside < offset + 8) := fun both => tight (covered inside both.1 both.2)
  rw [read_write_ne (by omega), read_write_ne (by omega)]
  exact agrees inside small tight

theorem setHeader {header also : Header} (first : ∀ inside < 8, loose inside) :
    Agrees start place size loose (memory.setHeader start header) (image.setHeader place also) := by
  intro inside small tight
  have behind : 8 ≤ inside := Nat.le_of_not_lt fun before => tight (first inside before)
  rw [Memory.setHeader, Memory.setHeader, read_write_ne (by omega), read_write_ne (by omega)]
  exact agrees inside small tight

theorem fillWords_loose (whole : offset % 8 = 0)
    (covered : ∀ inside, offset ≤ inside → inside < offset + 8 * count → loose inside) :
    Agrees start place size loose (memory.fillWords word (start + offset) count)
      (image.fillWords other (place + offset) count) := by
  intro inside small tight
  have outside : ¬ (offset ≤ inside ∧ inside < offset + 8 * count) :=
    fun both => tight (covered inside both.1 both.2)
  rw [read_fillWords _ _ (by omega), if_neg (by omega), read_fillWords _ _ (by omega), if_neg (by omega)]
  exact agrees inside small tight

theorem writeBytes {contents : List UInt8} (inside : offset + contents.length ≤ size)
    (tight : ∀ inside, offset ≤ inside → ¬ loose inside) :
    Agrees start place size loose (memory.writeBytes (start + offset) contents)
      (image.writeBytes (place + offset) contents) := by
  induction contents generalizing offset memory image with
  | nil => exact agrees
  | cons byte rest ih =>
      rw [List.length_cons] at inside
      have index : (place + offset) % 8 = (start + offset) % 8 := by omega
      have step : Agrees start place size loose (memory.writeByte (start + offset) byte)
          (image.writeByte (place + offset) byte) := by
        unfold Memory.writeByte
        rw [agrees offset (by omega) (tight offset (Nat.le_refl _)), index]
        exact agrees.write aligned placed _ _
      exact @ih (offset + 1) _ _ step (by omega) fun inside later => tight inside (by omega)

end Agrees

end Memory

namespace Order

variable {order : Order} {move : Value → Value} {seat : Context → Context} {shapes : ShapeTable}
  {memory image : Memory} {start place request identity other offset : Nat} {tag : UInt8} {shape : Shape}

def map (move : Value → Value) (seat : Context → Context) : Order → Order
  | .context parent => .context (parent.map seat)
  | .pair root car cdr => .pair (seat root) (move car) (move cdr)
  | .vector root length value => .vector (seat root) length (move value)
  | .bytes root contents => .bytes (seat root) contents
  | .weakBox root target => .weakBox (seat root) (move target)
  | .ephemeron root key value => .ephemeron (seat root) (move key) (move value)
  | .object root tag size => .object (seat root) tag size
  | .storage root size => .storage (seat root) size

@[simp]
theorem root_map (order : Order) : (order.map move seat).root = order.root.map seat := by
  cases order <;> rfl

@[simp]
theorem held_map (order : Order) : (order.map move seat).held = order.held.map move := by
  cases order <;> rfl

@[simp]
theorem tag?_map (order : Order) : (order.map move seat).tag? = order.tag? := by
  cases order <;> rfl

@[simp]
theorem size_map (order : Order) : (order.map move seat).size = order.size := by
  cases order <;> rfl

@[simp]
theorem kind_map (order : Order) : (order.map move seat).kind = order.kind := by
  rw [kind, kind, tag?_map]

theorem map_congr {other : Value → Value} {another : Context → Context}
    (held : ∀ value ∈ order.held, move value = other value) (roots : ∀ root ∈ order.root, seat root = another root) :
    order.map move seat = order.map other another := by
  cases order with
  | context parent =>
      cases parent with
      | none => rfl
      | some parent => simp only [map, Option.map_some, roots parent rfl]
  | pair root car cdr => simp only [map, roots root rfl, held car (by simp [Order.held]), held cdr (by simp [Order.held])]
  | vector root length value => simp only [map, roots root rfl, held value (by simp [Order.held])]
  | weakBox root target => simp only [map, roots root rfl, held target (by simp [Order.held])]
  | ephemeron root key value =>
      simp only [map, roots root rfl, held key (by simp [Order.held]), held value (by simp [Order.held])]
  | bytes root _ | object root _ _ | storage root _ => simp only [map, roots root rfl]

theorem oversized_map (order : Order) : (order.map move seat).Oversized ↔ order.Oversized := by
  cases order <;> exact Iff.rfl

theorem Apt.map (apt : order.Apt shapes) : (order.map move seat).Apt shapes where
  standard typed := apt.standard (by cases order <;> exact typed)
  exact root tag size same := by
    cases order with
    | object =>
        cases same
        exact apt.exact _ tag size rfl
    | _ => cases same

/-- Of objects that stand for each other, these offsets may differ beside the header: those of slots, and those
that tie a context to its heap. -/
def Loose : Order → Nat → Prop
  | .context _, offset => offset < Layout.Context.size
  | .pair _ _ _, offset => offset < Layout.Pair.size
  | .vector _ length _, offset => offset < Layout.Sequence.length ∨
      Layout.Sequence.contents ≤ offset ∧ offset < Layout.Sequence.contents + 8 * length
  | .bytes _ _, offset | .object _ _ _, offset => offset < 8
  | .weakBox _ _, offset => offset < Layout.WeakBox.size
  | .ephemeron _ _ _, offset => offset < Layout.Ephemeron.size
  | .storage _ _, _ => False

section Filled

variable (aligned : start % 16 = 0) (placed : place % 16 = 0)

include aligned placed

/-- What is put into blocks of zeros agrees but for what the orders are given. -/
theorem agrees_fill (order : Order) (fits : order.size ≤ request)
    (zero : ∀ address, start ≤ address → address < start + request → memory.read address = 0)
    (copyZero : ∀ address, place ≤ address → address < place + request → image.read address = 0) :
    Memory.Agrees start place request order.Loose (order.fill identity start memory)
      ((order.map move seat).fill other place image) := by
  have whole : start % 8 = 0 := by omega
  have placedWhole : place % 8 = 0 := by omega
  have empty : Memory.Agrees start place request order.Loose memory image := by
    intro offset inside _
    rw [zero _ (by omega) (by omega), copyZero _ (by omega) (by omega)]
  -- Every order begins with a header, and no word that differs lies in it.
  have headed (header : Header) (first : ∀ inside < 8, order.Loose inside) :
      Memory.Agrees start place request order.Loose (memory.setHeader start header)
        (image.setHeader place header) := empty.setHeader whole placedWhole first
  cases order with
  | context parent =>
      have loose {offset : Nat} (small : offset < 40) : (context parent).Loose offset := small
      have heapWord := (headed (.fresh Tag.context) fun inside small => loose (by omega)).write_loose whole placedWhole
        (.ofNat identity) (.ofNat other) (show Layout.Context.heap % 8 = 0 from rfl) fun inside _ upper => loose (by
          simp only [Layout.Context.heap] at upper
          omega)
      have parentWord := (heapWord.write whole placedWhole 0 Layout.Context.saves).write_loose whole placedWhole
        ((parent.map Context.toValue).getD .no).bits (((parent.map seat).map Context.toValue).getD .no).bits
        (show Layout.Context.parent % 8 = 0 from rfl) fun inside _ upper => loose (by
          simp only [Layout.Context.parent] at upper
          omega)
      exact parentWord.write whole placedWhole Value.nil.bits Layout.Context.environment
  | pair root car cdr =>
      have loose {offset : Nat} (small : offset < 24) : (pair root car cdr).Loose offset := small
      exact ((headed (.fresh Tag.pair) fun inside small => loose (by omega)).write_loose whole placedWhole _ _
        (show Layout.Pair.car % 8 = 0 from rfl) fun inside _ upper => loose (by
          simp only [Layout.Pair.car] at upper
          omega)).write_loose whole placedWhole _ _ (show Layout.Pair.cdr % 8 = 0 from rfl)
        fun inside _ upper => loose (by
          simp only [Layout.Pair.cdr] at upper
          omega)
  | vector root length value =>
      exact ((headed (.fresh Tag.vector) fun inside small => .inl small).write whole placedWhole
        (Value.fixnum length).bits Layout.Sequence.length).fillWords_loose whole placedWhole
        (show Layout.Sequence.contents % 8 = 0 from rfl) fun inside lower upper => .inr ⟨lower, upper⟩
  | bytes root contents =>
      exact ((headed (.fresh Tag.bytes) fun inside small => small).write whole placedWhole
        (Value.fixnum contents.length).bits Layout.Sequence.length).writeBytes whole placedWhole fits
        fun inside lower => Nat.not_lt.mpr (Nat.le_trans (by decide) lower)
  | weakBox root target =>
      exact (headed (.fresh Tag.weakBox) fun inside small => Nat.lt_trans small (by decide)).write_loose
        whole placedWhole _ _ (show Layout.WeakBox.target % 8 = 0 from rfl) fun inside _ upper => upper
  | ephemeron root key value =>
      have loose {offset : Nat} (small : offset < 24) : (ephemeron root key value).Loose offset := small
      exact ((headed (.fresh Tag.ephemeron) fun inside small => loose (by omega)).write_loose whole placedWhole _ _
        (show Layout.Ephemeron.key % 8 = 0 from rfl) fun inside _ upper => loose (by
          simp only [Layout.Ephemeron.key] at upper
          omega)).write_loose whole placedWhole _ _ (show Layout.Ephemeron.value % 8 = 0 from rfl)
        fun inside _ upper => loose (by
          simp only [Layout.Ephemeron.value] at upper
          omega)
  | object root tag size => exact headed (.fresh tag) fun inside small => small
  | storage root size => exact empty

omit placed in
theorem slot_fill_vector {root : Context} {length : Nat} {value : Value}
    (small : (vector root length value).size < 0x4000000000000000) :
    Shape.vector.Slot ((vector root length value).fill identity start memory) start offset ↔
      ∃ index < length, offset = Layout.Sequence.contents + index * wordBytes := by
  simp only [size, Layout.Sequence.contents, wordBytes] at small
  have stored : Shape.stored ((vector root length value).fill identity start memory) start = length :=
    stored_fixnum (by omega) (stored_fill (vector root length value) aligned).1
  rw [Shape.slot_vector, stored, Size.saturate, Nat.min_eq_left (by simp only [Size.limit]; omega)]
  simp only [Nat.mul_comm]

variable (apt : order.Apt shapes) (tagged : order.tag? = some tag) (known : shapes.get? tag = some shape)
  (small : order.size < 0x4000000000000000)

include apt tagged known small

omit placed in
/-- What may differ behind the header lies in slots, or ties a context to its heap. -/
theorem covered_of_loose (loose : order.Loose offset) (behind : 8 ≤ offset)
    (beyond : tag = Tag.context → 24 ≤ offset) : ∃ slot,
      shape.Slot (order.fill identity start memory) start slot ∧ slot ≤ offset ∧ offset < slot + 8 := by
  have standard (typed : order.Typed) {found : Shape} (listed : ShapeTable.standard.get? tag = some found) :
      shape = found := Option.some.inj (known.symm.trans (apt.standard typed tag found listed))
  cases order with
  | context parent =>
      cases tagged
      obtain rfl : Shape.context = shape := Option.some.inj known
      have behind := beyond rfl
      simp only [Loose, Layout.Context.size] at loose
      by_cases first : offset < 32
      · exact ⟨_, Shape.slot_context.mpr (.inl rfl), behind, first⟩
      · exact ⟨_, Shape.slot_context.mpr (.inr rfl), Nat.not_lt.mp first, loose⟩
  | pair root car cdr =>
      cases tagged
      obtain rfl := standard trivial (show _ = some Shape.pair from rfl)
      simp only [Loose, Layout.Pair.size] at loose
      by_cases first : offset < 16
      · exact ⟨_, Shape.slot_pair.mpr (.inl rfl), behind, first⟩
      · exact ⟨_, Shape.slot_pair.mpr (.inr rfl), Nat.not_lt.mp first, loose⟩
  | vector root length value =>
      cases tagged
      obtain rfl := standard trivial (show _ = some Shape.vector from rfl)
      simp only [Loose, Layout.Sequence.length, Layout.Sequence.contents] at loose
      refine ⟨_, (slot_fill_vector aligned small).mpr ⟨(offset - 16) / 8, by omega, rfl⟩, ?_, ?_⟩ <;>
        simp only [Layout.Sequence.contents, wordBytes] <;> omega
  | bytes root contents =>
      simp only [Loose] at loose
      omega
  | weakBox root target =>
      cases tagged
      obtain rfl := standard trivial (show _ = some Shape.weakBox from rfl)
      exact ⟨_, Shape.slot_weakBox.mpr rfl, behind, loose⟩
  | ephemeron root key value =>
      cases tagged
      obtain rfl := standard trivial (show _ = some Shape.ephemeron from rfl)
      simp only [Loose, Layout.Ephemeron.size] at loose
      by_cases first : offset < 16
      · exact ⟨_, Shape.slot_ephemeron.mpr (.inl rfl), behind, first⟩
      · exact ⟨_, Shape.slot_ephemeron.mpr (.inr rfl), Nat.not_lt.mp first, loose⟩
  | object root other size =>
      simp only [Loose] at loose
      omega
  | storage root size => exact loose.elim

/-- Slots of objects that stand for each other hold values that do. -/
theorem value_map (no : move .no = .no) (nil : move .nil = .nil) (none : move ⟨0⟩ = ⟨0⟩)
    (parents : ∀ parent, order = .context (some parent) → (seat parent).toValue = move parent.toValue)
    (describes : shape.Describes (order.fill identity start memory) start request) (fits : order.size ≤ request)
    (zero : ∀ address, start ≤ address → address < start + request → memory.read address = 0)
    (copyZero : ∀ address, place ≤ address → address < place + request → image.read address = 0)
    (slot : shape.Slot (order.fill identity start memory) start offset) :
    ((order.map move seat).fill other place image).value (place + offset) =
      move ((order.fill identity start memory).value (start + offset)) := by
  have standard (typed : order.Typed) {found : Shape} (listed : ShapeTable.standard.get? tag = some found) :
      shape = found := Option.some.inj (known.symm.trans (apt.standard typed tag found listed))
  have stored : order.Stored (order.fill identity start memory) start := stored_fill order aligned
  have copyStored : (order.map move seat).Stored ((order.map move seat).fill other place image) place :=
    stored_fill (order.map move seat) placed
  cases order with
  | context parent =>
      cases tagged
      obtain rfl : Shape.context = shape := Option.some.inj known
      rcases Shape.slot_context.mp slot with rfl | rfl
      · rw [stored.1, copyStored.1]
        cases parent with
        | none => exact no.symm
        | some parent => exact parents parent rfl
      · rw [stored.2, copyStored.2, nil]
  | pair root car cdr =>
      cases tagged
      obtain rfl := standard trivial (show _ = some Shape.pair from rfl)
      rcases Shape.slot_pair.mp slot with rfl | rfl
      · rw [stored.1, copyStored.1]
      · rw [stored.2, copyStored.2]
  | vector root length value =>
      cases tagged
      obtain rfl := standard trivial (show _ = some Shape.vector from rfl)
      obtain ⟨index, inside, rfl⟩ := (slot_fill_vector aligned small).mp slot
      rw [stored.2 index inside, copyStored.2 index inside]
  | bytes root contents =>
      cases tagged
      obtain rfl := standard trivial (show _ = some Shape.bytes from rfl)
      exact absurd slot Shape.not_slot_bytes
  | weakBox root target =>
      cases tagged
      obtain rfl := standard trivial (show _ = some Shape.weakBox from rfl)
      obtain rfl := Shape.slot_weakBox.mp slot
      rw [stored, copyStored]
  | ephemeron root key value =>
      cases tagged
      obtain rfl := standard trivial (show _ = some Shape.ephemeron from rfl)
      rcases Shape.slot_ephemeron.mp slot with rfl | rfl
      · rw [stored.1, copyStored.1]
      · rw [stored.2, copyStored.2]
  | object root tag size =>
      obtain ⟨_, behind, inside, _⟩ := describes.slotInside offset slot
      have blank {memory : Memory} {start : Nat} (aligned : start % 16 = 0)
          (zero : ∀ address, start ≤ address → address < start + request → memory.read address = 0) :
          (memory.setHeader start (.fresh tag)).read (start + offset) = 0 :=
        (Memory.read_setHeader (by omega) (by omega)).trans (zero _ (by omega) (by omega))
      have first := congrArg Value.mk (blank aligned zero)
      have second := congrArg Value.mk (blank placed copyZero)
      exact (second.trans none.symm).trans (congrArg move first.symm)
  | storage root size => cases tagged

end Filled

end Order

end SlabHeap
