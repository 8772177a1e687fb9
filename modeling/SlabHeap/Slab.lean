import SlabHeap.FreeList
import SlabHeap.Machine
import SlabHeap.Memory.Bulk
import SlabHeap.Settings

namespace SlabHeap

/-! Slabs: ranges of memory that start with the sentinel of a free list. Behind it, free blocks and
allocated blocks follow each other without gaps. -/

/-- Blocks start at multiples of this many bytes and are at least as large, so that what is left of
a block can always hold a free node. -/
def blockUnit : Nat := 16

structure Slab where
  start : Nat
  size : Nat
  /-- The limit of the heap that the slab was made for. -/
  maxSize : Nat
  deriving DecidableEq, Repr

namespace Slab

/-- One past the last byte. -/
def stop (slab : Slab) : Nat := slab.start + slab.size

/-- Where the blocks begin, behind the sentinel. -/
def objects (slab : Slab) : Nat := slab.start + blockUnit

/-- Whether an address lies among the blocks. -/
def contains (slab : Slab) (address : Nat) : Bool :=
  slab.objects ≤ address && address < slab.stop

/-- More than the steps of a walk through the slab, each of which passes at least one word. -/
def stepBound (slab : Slab) : Nat := slab.size / wordBytes + 1

/-- The address of the first free block, or 0. -/
def firstFree (slab : Slab) (memory : Memory) : Nat := FreeList.next memory slab.start

/-- The free blocks in list order, each with its size. -/
def freeBlocks (slab : Slab) (memory : Memory) : List (Nat × Nat) :=
  FreeList.blocks memory (slab.firstFree memory) Size.wordLimit

/-- The free blocks by their distance from the start of the slab, each with its size. -/
def freeOffsets (slab : Slab) (memory : Memory) : Except Fault (List (Nat × Nat)) :=
  (slab.freeBlocks memory).mapM fun (node, size) => do
    return (← Size.sub node slab.start, size)

def freeBytes (slab : Slab) (memory : Memory) : Except Fault Nat :=
  Size.total ((slab.freeBlocks memory).map (·.2))

/-- The size of the largest free block, 0 if there is none. -/
def largestFree (slab : Slab) (memory : Memory) : Nat :=
  ((slab.freeBlocks memory).map (·.2)).foldl max 0

/-- The size that a slab of at least `size` bytes gets. -/
def roundedSize? (size : Nat) : Option Nat := Size.alignUp? (max size minSlabSize) blockUnit

/-- Makes a slab of at least `size` bytes: a sentinel and one free block. -/
def create (size maxSize : Nat) : Action (Option Slab) := do
  let some size := roundedSize? size | return none
  let some mapped := Size.alignUp? size Memory.pageBytes | return none
  let some start ← Action.reserve mapped | return none
  Action.onMemory fun memory =>
    let first := FreeList.writeNode memory (start + blockUnit) (size - blockUnit) 0
    FreeList.writeNode first start 0 (start + blockUnit)
  return some { start, size, maxSize }

/-- A free block that has room for a request. -/
structure Fit where
  block : Nat
  /-- The node in front of the block in the free list. -/
  before : Nat
  /-- Whether what the request leaves of the block can hold a free node. -/
  splits : Bool
  deriving DecidableEq, Repr

/-- The first free block that has room for `request` bytes: a multiple of 16, not 0. -/
def fit? (slab : Slab) (memory : Memory) (request : Nat) : Except Fault (Option Fit) := do
  match FreeList.firstFit? memory request slab.start (slab.firstFree memory)
    Size.wordLimit with
  | none => return none
  | some (before, block) =>
      let splittable ← Size.add request blockUnit
      return some { block, before, splits := splittable ≤ FreeList.size memory block }

/-- Takes `request` bytes from the start of a free block. What is left of the block stays free. The
bytes taken are zero. -/
def Fit.carve (fit : Fit) (request : Nat) (memory : Memory) : Memory :=
  let available := FreeList.size memory fit.block
  let following := FreeList.next memory fit.block
  let unlinked :=
    if fit.splits then
      let rest := fit.block + request
      let split := FreeList.writeNode memory rest (available - request) following
      FreeList.setNext split fit.before rest
    else FreeList.setNext memory fit.before following
  unlinked.fillWords 0 fit.block (request / wordBytes)

/-- The words of a slab that are not zero, each behind its distance from the start. -/
def dump (slab : Slab) (memory : Memory) : List (Nat × UInt64) :=
  (memory.nonzeroBefore slab.start [] (slab.size / wordBytes)).map fun (address, word) =>
    (address - slab.start, word)

/-- The text that shows a slab to a developer. -/
def describe (slab : Slab) : String :=
  let start := Text.hex slab.start
  s!"Slab \x7b start: 0x{start}, size: {slab.size}, max_size: {slab.maxSize} \x7d"

end Slab

end SlabHeap
