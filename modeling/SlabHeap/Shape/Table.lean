import SlabHeap.Shape.Standard

namespace SlabHeap

/-! The shapes of a heap, indexed by tag.

Tag 0 has no shape, tag 1 is the context's, and registered shapes take the tags from 2 on, up to
255. Main statements: `get?_register_new` and `get?_register_old`.
-/

/-- The shapes registered besides the context's, in the order of their tags. -/
structure ShapeTable where
  registered : Array Shape := #[]
  deriving DecidableEq, Repr

namespace ShapeTable

/-- The table with the context's shape alone. -/
def basic : ShapeTable := {}

/-- The table of the standard shapes. -/
def standard : ShapeTable :=
  ⟨#[.pair, .vector, .bytes, .weakBox, .ephemeron]⟩

/-- One past the highest tag in use. -/
def size (shapes : ShapeTable) : Nat := shapes.registered.size + 2

def get? (shapes : ShapeTable) (tag : UInt8) : Option Shape :=
  match tag.toNat with
  | 0 => none
  | 1 => some .context
  | index + 2 => shapes.registered[index]?

/-- The shape of a tag that is given as any number. -/
def atNumber? (shapes : ShapeTable) (tag : Nat) : Option Shape :=
  if tag < 256 then shapes.get? (.ofNat tag) else none

def isRegistered (shapes : ShapeTable) (tag : UInt8) : Bool := (shapes.get? tag).isSome

/-- Adds a shape under the next tag, while there is one. -/
def register (shapes : ShapeTable) (shape : Shape) : ShapeTable × Option UInt8 :=
  if shapes.size ≤ 255 then (⟨shapes.registered.push shape⟩, some (.ofNat shapes.size))
  else (shapes, none)

/-- The bytes that an object's block takes, a multiple of 16; `none` if its tag has no shape or its
size does not fit the range. Objects start at multiples of eight. -/
def blockSize? (shapes : ShapeTable) (memory : Memory) (object : Nat) :
    Except Fault (Option Nat) :=
  if object % 8 = 0 then
    match shapes.get? (memory.tag object) with
    | none => .ok none
    | some shape => do
        let bytes ← shape.size.bytes memory object
        return Size.alignUp? (max bytes 1) 16
  else .error .objectNotAligned

theorem get?_register_new {shapes : ShapeTable} (room : shapes.size ≤ 255) (shape : Shape) :
    (shapes.register shape).1.get? (.ofNat shapes.size) = some shape := by
  have tag : (UInt8.ofNat shapes.size).toNat = shapes.registered.size + 2 := by
    simp only [UInt8.toNat_ofNat', size] at *
    omega
  simp [register, room, get?, tag]

theorem get?_register_old {shapes : ShapeTable} {tag : UInt8} (known : tag.toNat < shapes.size)
    (shape : Shape) : (shapes.register shape).1.get? tag = shapes.get? tag := by
  simp only [register]
  split
  · simp only [get?]
    split
    · rfl
    · rfl
    · rename_i index found
      simp only [size] at known
      have inside : index < shapes.registered.size := by omega
      simp [inside, Array.getElem?_push, Nat.ne_of_lt inside]
  · rfl

end ShapeTable

end SlabHeap
