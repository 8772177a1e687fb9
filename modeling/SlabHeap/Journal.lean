import SlabHeap.Frame
import SlabHeap.Memory

namespace SlabHeap

/-! What the outside learns while heaps work: notices for the log, and calls of finalizers. -/

/-- How much a notice matters. -/
inductive Level where
  | trace
  | debug
  | warn
  | error
  deriving DecidableEq, Repr

def Level.describe : Level → String
  | .trace => "trace"
  | .debug => "debug"
  | .warn => "warn"
  | .error => "error"

/-- What a heap writes into the log. -/
inductive Notice where
  /-- A block whose first word has no registered tag, or that claims more than memory has. -/
  | badObject (address : Nat) (tag : UInt8)
  | badMagic (address : Nat) (magic : UInt16)
  /-- An object that claims to reach past the next free block. -/
  | badSize (address size limit : Nat)
  | misalignedReference (address : Nat)
  | foreignReference (address : Nat)
  | conservativeRoot (address : Nat) (tag : UInt8)
  | collecting (root : Option Context) (heap total : Nat)
  | collected (root : Option Context) (freed maxFreed : Nat)
  /-- A request that cannot even be rounded to a block size. -/
  | unroundable (requested : Nat)
  | outOfMemory (requested total : Nat)
  | atMaximum (maximum : Nat)
  | growthRefused (total maximum needed : Nat)
  | reservationFailed (size : Nat)
  | grown (size total : Nat)
  | rootsDropped (heap : Nat)
  | duplicating (source sourceSize target targetSize : Nat)
  | copied (source target : Nat)
  deriving DecidableEq, Repr

namespace Notice

def level : Notice → Level
  | .badObject .. | .badMagic .. | .badSize .. | .misalignedReference .. | .foreignReference .. =>
      .error
  | .unroundable .. | .outOfMemory .. | .atMaximum .. | .growthRefused ..
  | .reservationFailed .. => .warn
  | .collecting .. | .collected .. | .grown .. | .rootsDropped .. | .duplicating .. => .debug
  | .conservativeRoot .. | .copied .. => .trace

/-- The reference that a collection started from, as the log shows it. -/
def describeRoot : Option Context → String
  | none => "None"
  | some root => s!"Some({root.toValue.describe})"

/-- The line of the log. -/
def message : Notice → String
  | .badObject address tag => s!"bad object at 0x{Text.hex address}: tag {tag}"
  | .badMagic address magic =>
      s!"bad magic at 0x{Text.hex address}: 0x{Text.hexPadded 4 magic.toNat}"
  | .badSize address size limit =>
      s!"bad size at 0x{Text.hex address} + {size} > 0x{Text.hex limit}"
  | .misalignedReference address => s!"invalid heap alignment: 0x{Text.hex address}"
  | .foreignReference address => s!"invalid object outside heap: 0x{Text.hex address}"
  | .conservativeRoot address tag => s!"conservative root 0x{Text.hex address} (tag {tag})"
  | .collecting root heap total =>
      s!"gc {describeRoot root} (heap: 0x{Text.hex heap} size: {total})"
  | .collected root freed maxFreed =>
      s!"gc {describeRoot root} (freed: {freed} max_freed: {maxFreed})"
  | .unroundable requested => s!"out of memory: {requested} bytes requested"
  | .outOfMemory requested total =>
      s!"out of memory: {requested} bytes requested, heap is {total} bytes"
  | .atMaximum maximum => s!"heap growth refused: at maximum of {maximum} bytes"
  | .growthRefused total maximum needed =>
      s!"heap growth refused: {total} of {maximum} bytes in use, need {needed}"
  | .reservationFailed size => s!"failed to reserve a {size} byte slab"
  | .grown size total => s!"heap grown by {size} bytes to {total}"
  | .rootsDropped heap => s!"dropped global roots of overwritten heap 0x{Text.hex heap}"
  | .duplicating source sourceSize target targetSize =>
      s!"copying heap 0x{Text.hex source} ({sourceSize} bytes) " ++
        s!"to 0x{Text.hex target} ({targetSize} bytes)"
  | .copied source target => s!"copied 0x{Text.hex source} -> 0x{Text.hex target}"

end Notice

/-- One entry of the journal. -/
inductive Event where
  | notice (notice : Notice)
  /-- A finalizer was called on an object; it saw the memory as it was then. -/
  | finalized (object : Nat) (memory : Memory)

end SlabHeap
