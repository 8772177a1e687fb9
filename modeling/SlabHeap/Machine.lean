import SlabHeap.Journal
import SlabHeap.Pages
import SlabHeap.Shape

namespace SlabHeap

/-! The state that all heaps share, and the actions on it.

An action either answers or raises a fault; it leaves a machine behind in both cases. Heaps and save
frames have addresses of their own, above those of all slabs.

`read_occupy` says what memory holds after a reservation.
-/

structure Machine where
  memory : Memory := .empty
  /-- Every frame that was ever opened, by number; a dropped frame is gone. -/
  frames : Array (Option Frame) := #[]
  /-- How many heap identities were given out. -/
  identities : Nat := 0
  /-- The pages that are reserved, and how the system places others. -/
  pages : Pages := {}
  /-- What happened, newest first. -/
  journal : List Event := []

namespace Machine

/-- A machine on which nothing happened yet. -/
def fresh (placement : Placement) : Machine := { pages := { placement } }

/-- The address of frame number `index`. -/
def frameAddress (index : Nat) : Nat := 0x510000000000 + 16 * index

/-- The identity of heap number `index`. -/
def heapIdentity (index : Nat) : Nat := 0x520000000000 + 16 * index

/-- The number of the frame at an address. -/
def frameIndex? (machine : Machine) (address : Nat) : Option Nat :=
  let index := (address - frameAddress 0) / 16
  if frameAddress index = address ∧ index < machine.frames.size then some index else none

/-- The frame at an address. -/
def frameAt? (machine : Machine) (address : Nat) : Option Frame := do
  let index ← machine.frameIndex? address
  (machine.frames[index]?).join

/-- The chain of frames from the one at `address` outwards, at most `bound` of them. -/
def frameChain (machine : Machine) (address bound : Nat) : List Frame :=
  Frame.chain machine.frameAt? address bound

/-- The pages that `size` bytes take. -/
def pagesFor (size : Nat) : Nat := (size + (Memory.pageBytes - 1)) / Memory.pageBytes

/-- Puts pages that are all zero into use. -/
def occupy (machine : Machine) (range : PageRange) : Machine :=
  { machine with
    memory := machine.memory.clearPages (Memory.pageLimit - (range.first + range.count)) range.count
    pages := machine.pages.take range }

/-- Reserves zeroed memory for `size` bytes, at a page boundary. Nothing is reserved for no bytes,
nor when the system has no place. -/
def reserve? (machine : Machine) (size : Nat) : Option (Nat × Machine) :=
  if size = 0 then none
  else (machine.pages.place? (pagesFor size)).map fun first =>
    (first * Memory.pageBytes, machine.occupy ⟨first, pagesFor size⟩)

/-- Takes all pages and identities back, once no heap is left. Frames stay open. -/
def vacate (machine : Machine) : Machine :=
  { machine with pages.taken := [], identities := 0 }

theorem reserve?_eq_some {machine after : Machine} {size start : Nat} :
    machine.reserve? size = some (start, after) ↔ size ≠ 0 ∧ ∃ first,
      machine.pages.place? (pagesFor size) = some first ∧ start = first * Memory.pageBytes ∧
        after = machine.occupy ⟨first, pagesFor size⟩ := by
  unfold reserve?
  split
  · next none => simp [none]
  · next positive =>
    simp only [ne_eq, positive, not_false_eq_true, true_and, Option.map_eq_some_iff, Prod.mk.injEq]
    exact exists_congr fun first => and_congr_right fun _ => and_congr eq_comm eq_comm

/-- Occupied pages are empty, and all other memory is as it was. -/
theorem read_occupy (machine : Machine) {range : PageRange}
    (inside : range.first + range.count ≤ Memory.pageLimit) (address : Nat) :
    (machine.occupy range).memory.read address =
      if range.start ≤ address ∧ address < range.stop then 0 else machine.memory.read address := by
  rw [occupy, Memory.read_clearPages]
  by_cases below : address / Memory.pageBytes < Memory.pageLimit <;>
    simp only [Memory.pageNumber, below, if_true, if_false] <;>
    simp only [PageRange.start, PageRange.stop, Memory.pageLimit, Memory.pageBytes] at inside below ⊢ <;>
    congr 1 <;> simp only [eq_iff_iff] <;> omega

end Machine

/-- A computation on the machine. -/
abbrev Action := EStateM Fault Machine

namespace Action

instance : MonadLift (Except Fault) Action where
  monadLift
    | .ok result => pure result
    | .error fault => throw fault

/-- The memory as it is now. -/
def memory : Action Memory := do return (← get).memory

/-- Changes the memory. -/
def onMemory (change : Memory → Memory) : Action Unit :=
  modify fun machine => { machine with memory := change machine.memory }

/-- Replaces the word at an address. -/
def store (address : Nat) (word : UInt64) : Action Unit := onMemory (·.write address word)

/-- Replaces the value at an address. -/
def storeValue (address : Nat) (value : Value) : Action Unit := store address value.bits

/-- Replaces the value at an address, if there is one. The answer is whether there is. -/
def storeIfPresent (address : Option Nat) (value : Value) : Action Bool := do
  match address with
  | none => return false
  | some address =>
      storeValue address value
      return true

/-- Changes the header of an object. -/
def onHeader (object : Nat) (change : Header → Header) : Action Unit :=
  onMemory fun memory => memory.setHeader object (change (memory.header object))

/-- Adds an event to the journal. -/
def record (event : Event) : Action Unit :=
  modify fun machine => { machine with journal := event :: machine.journal }

/-- Writes a notice into the log. -/
def note (notice : Notice) : Action Unit := record (.notice notice)

/-- Reserves zeroed memory. -/
def reserve (size : Nat) : Action (Option Nat) := do
  match (← get).reserve? size with
  | none => return none
  | some (start, machine) =>
      set machine
      return some start

/-- Gives out the identity of a new heap. -/
def newIdentity : Action Nat := do
  let number := (← get).identities
  modify fun machine => { machine with identities := number + 1 }
  return Machine.heapIdentity number

end Action

end SlabHeap
