namespace SlabHeap

/-!
The ways in which an operation breaks a rule of the machine instead of answering. A fault ends the
run that raised it; refusals that a caller can handle are answers and live in `SlabHeap.HeapError`.
-/

/-- What an operation did wrong. Each cause carries the numbers its message shows. -/
inductive Fault where
  /-- An integer outside the 63-bit range of fixnums was tagged. -/
  | fixnumOverflow (number : Int)
  /-- A reference was made from an address that is no multiple of eight. -/
  | pointerNotAligned
  /-- A header was made with the tag that marks headerless storage. -/
  | reservedTag
  /-- An object was requested under a tag that no shape is registered for. -/
  | unregisteredTag (tag : UInt8)
  /-- A word was addressed at an offset that is no multiple of eight. -/
  | offsetNotAligned
  /-- An object was looked for at an address that is no multiple of eight. -/
  | objectNotAligned
  /-- A context was expected where an object of another type lies. -/
  | contextExpected
  /-- A sum left the 64-bit range. -/
  | additionOverflow
  /-- A difference left the 64-bit range. -/
  | subtractionOverflow
  /-- A product left the 64-bit range. -/
  | multiplicationOverflow
  /-- A linked save frame was dropped while a later one was still linked. -/
  | framesOutOfOrder
  /-- A saved index lies past the values that its frame holds. -/
  | indexOutOfBounds (length index : Nat)
  deriving DecidableEq, Repr

namespace Fault

/-- The text that reports a fault. -/
def message : Fault → String
  | .fixnumOverflow number => s!"fixnum overflow: {number}"
  | .pointerNotAligned => "pointer not aligned"
  | .reservedTag => "tag 0 is reserved"
  | .unregisteredTag tag => s!"unregistered tag {tag}"
  | .offsetNotAligned => "assertion failed: offset % WORD == 0"
  | .objectNotAligned => "assertion failed: addr != 0 && addr % WORD == 0"
  | .contextExpected => "assertion `left == right` failed"
  | .additionOverflow => "attempt to add with overflow"
  | .subtractionOverflow => "attempt to subtract with overflow"
  | .multiplicationOverflow => "attempt to multiply with overflow"
  | .framesOutOfOrder =>
      "assertion `left == right` failed: SaveFrame drop must follow LIFO scope order"
  | .indexOutOfBounds length index =>
      s!"index out of bounds: the len is {length} but the index is {index}"

end Fault

end SlabHeap
