import SlabHeap.Value

namespace SlabHeap

/-! Save frames: values that a running computation keeps alive.

A frame has sixteen fixed slots and a list for what does not fit into them. It joins the chain of
its context when the first value is saved. Main statement: `get_save`.
-/

/-- An execution context, named by the address of its object. -/
structure Context where
  address : Nat
  deriving DecidableEq, Repr

/-- The reference to a context's object. -/
def Context.toValue (context : Context) : Value := .reference context.address

def Context.describe (context : Context) : String :=
  s!"Context(ObjectRef(0x{Text.hex context.address}))"

structure Frame where
  context : Context
  /-- The address of the frame that was innermost when this one was linked, or 0. -/
  outer : Nat := 0
  linked : Bool := false
  /-- How many of the fixed slots are in use. -/
  used : Nat := 0
  fixed : Vector Value 16 := .replicate 16 .no
  overflow : Array Value := #[]
  deriving DecidableEq, Repr

namespace Frame

/-- The number of values saved. -/
def size (frame : Frame) : Nat := frame.used + frame.overflow.size

def isEmpty (frame : Frame) : Bool := frame.size = 0

/-- The values saved, oldest first. -/
def values (frame : Frame) : List Value :=
  frame.fixed.toList.take frame.used ++ frame.overflow.toList

/-- Adds a value. The index under which it is found again is the size before. -/
def save (frame : Frame) (value : Value) : Frame :=
  if room : frame.used < 16 then
    { frame with fixed := frame.fixed.set frame.used value, used := frame.used + 1 }
  else { frame with overflow := frame.overflow.push value }

/-- The value at an index. The fixed slots can always be read. -/
def get (frame : Frame) (index : Nat) : Except Fault Value :=
  if fits : index < 16 then .ok frame.fixed[index]
  else if inside : index - 16 < frame.overflow.size then .ok frame.overflow[index - 16]
  else .error (.indexOutOfBounds frame.overflow.size (index - 16))

/-- Replaces the value at an index. Nothing changes where `get` fails. -/
def set (frame : Frame) (index : Nat) (value : Value) : Frame :=
  if fits : index < 16 then { frame with fixed := frame.fixed.set index value }
  else { frame with overflow := frame.overflow.setIfInBounds (index - 16) value }

/-- The frames that lead outwards from the one at an address, at most `bound` of them. -/
def chain (find : Nat → Option Frame) (address : Nat) : Nat → List Frame
  | 0 => []
  | bound + 1 =>
      match find address with
      | none => []
      | some frame => frame :: chain find frame.outer bound

/-- The frames that `save` builds: the list is used only once the fixed slots are full. -/
def WellFormed (frame : Frame) : Prop :=
  frame.used ≤ 16 ∧ (frame.used < 16 → frame.overflow = #[])

theorem wellFormed_save {frame : Frame} (wellFormed : frame.WellFormed) (value : Value) :
    (frame.save value).WellFormed := by
  unfold save WellFormed at *
  split
  · refine ⟨by simp; omega, fun _ => ?_⟩
    exact wellFormed.2 (by simp at *; omega)
  · rename_i full
    exact ⟨wellFormed.1, fun room => absurd room full⟩

theorem get_save {frame : Frame} (wellFormed : frame.WellFormed) (value : Value) {index : Nat}
    (inside : index < 16 ∨ index ≤ frame.size) :
    (frame.save value).get index = if index = frame.size then .ok value else frame.get index := by
  obtain ⟨usedBound, spill⟩ := wellFormed
  simp only [save]
  split
  · rename_i room
    have empty := spill room
    have size : frame.size = frame.used := by simp [Frame.size, empty]
    have fits : index < 16 := by omega
    simp only [get, fits, dif_pos, size, Vector.getElem_set]
    by_cases same : index = frame.used
    · simp [same]
    · have other : frame.used ≠ index := fun equal => same equal.symm
      simp [same, other]
  · rename_i full
    have used : frame.used = 16 := by omega
    have size : frame.size = 16 + frame.overflow.size := by simp [Frame.size, used]
    by_cases fits : index < 16
    · have old : index ≠ frame.size := by omega
      simp [get, fits, old]
    · simp only [get, fits, dif_neg, not_false_eq_true, Array.size_push, Array.getElem_push]
      by_cases last : index = frame.size
      · simp [last, size]
      · have inside : index - 16 < frame.overflow.size := by omega
        have stillInside : index - 16 < frame.overflow.size + 1 := by omega
        simp [inside, stillInside, last]

end Frame

end SlabHeap
