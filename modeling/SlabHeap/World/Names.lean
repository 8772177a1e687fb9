import SlabHeap.Text.Decimal
import SlabHeap.World

namespace SlabHeap

/-! Names for addresses, so that reports do not depend on where slabs, heaps and frames lie.

An address inside slab `s` of heap `h` is `h:s+offset`, the identity of a heap is `heap` and its
name, the address of a frame is `frame` and its number. The shared heap is called `g`. A frame that
was dropped has given its address back and counts as lying at 0.
-/

namespace World

/-- The heaps of a world with their names. -/
def namedHeaps (world : World) : List (String × Heap) :=
  (world.heaps.toList.zipIdx.map fun (heap, index) => (toString index, heap)) ++
    (world.shared.map fun heap => ("g", heap)).toList

/-- The name of an address that is a heap's identity or lies in one of its slabs. -/
def nameInHeap? (name : String) (heap : Heap) (address : Nat) : Option String :=
  if heap.identity = address then some s!"heap{name}"
  else
    heap.slabs.zipIdx.findSome? fun (slab, number) =>
      if slab.start ≤ address ∧ address < slab.stop then
        some s!"{name}:{number}+{address - slab.start}"
      else none

/-- The number of the frame that an address stands for. Of the dropped frames, which all count as
lying at 0 and nowhere else, it is the one opened last. -/
def frameNumber? (machine : Machine) (address : Nat) : Option Nat :=
  if address = 0 then
    (machine.frames.toList.zipIdx.reverse.find? fun (frame, _) => frame.isNone).map (·.2)
  else
    (machine.frameIndex? address).filter fun _ => (machine.frameAt? address).isSome

/-- The name of an address, if it has one. -/
def nameOf? (world : World) (address : Nat) : Option String :=
  match world.namedHeaps.findSome? fun (name, heap) => nameInHeap? name heap address with
  | some name => some name
  | none => (frameNumber? world.machine address).map fun number => s!"frame{number}"

/-- Splits a text at the first of the given characters. -/
def splitAt? (mark : Char) (text : List Char) : Option (List Char × List Char) :=
  match text.dropWhile (· ≠ mark) with
  | [] => none
  | _ :: rest => some (text.takeWhile (· ≠ mark), rest)

/-- Reads the name of a heap. A number is a name only without leading zeros. -/
def readHeapName? (name : List Char) : Option HeapName :=
  if name = ['g'] then some .shared
  else do
    let index ← Text.readDecimal? name
    if (toString index).toList = name then some (.numbered index) else none

/-- The address that a name of the form `h:s+offset` stands for; the offset may lie behind the end
of the slab. -/
def addressOf? (world : World) (name : List Char) : Option Nat := do
  let (heap, rest) ← splitAt? ':' name
  let (slab, offset) ← splitAt? '+' rest
  let heap ← world.heap? (← readHeapName? heap)
  let slab ← heap.slabs[← Text.readDecimal? slab]?
  let address := slab.start + (← Text.readDecimal? offset)
  if address < Size.limit then some address else none

/-- A value with its address named. Values without a name are shown as numbers or as words. -/
def showValue (world : World) (value : Value) : String :=
  let plain := s!"0x{Text.hex value.bits.toNat}"
  match value.address?, value.toInt? with
  | some address, _ => ((world.nameOf? address).map fun name => s!"@{name}").getD plain
  | none, some number =>
      ((world.nameOf? value.bits.toNat).map fun name => s!"&{name}").getD (toString number)
  | none, none =>
      if Value.immediates.contains value then value.describe else plain

/-- A word, by its name if it is an address that has one. -/
def showWord (world : World) (word : UInt64) : String :=
  ((world.nameOf? word.toNat).map fun name => s!"&{name}").getD (toString word.toNat)

/-- Replaces the addresses in a text by their names. -/
def nameAddresses (world : World) (text : String) : String :=
  match text.splitOn "0x" with
  | [] => text
  | first :: rest =>
      first ++ String.join (rest.map fun part =>
        let digits := part.toList.takeWhile fun digit => (Text.hexDigit? digit).isSome
        let behind := String.ofList (part.toList.drop digits.length)
        match (Text.readHex? digits).bind world.nameOf? with
        | some name => s!"&{name}{behind}"
        | none => s!"0x{part}")

end World

end SlabHeap
