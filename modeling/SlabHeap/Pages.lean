import SlabHeap.Memory

namespace SlabHeap

/-! Where the system puts the slabs.

Slabs are reserved in whole pages. Which pages these are, and whether there is room at all, is up to the
system: a `Placement` is asked for them and may refuse. What it gives out is never in use already, and lies
in the range for slabs. `Placement.descending` is the one that commands run with.
-/

/-- Pages that follow each other. -/
structure PageRange where
  first : Nat
  count : Nat
  deriving DecidableEq, Repr

namespace PageRange

/-- The address of the first byte. -/
def start (range : PageRange) : Nat := range.first * Memory.pageBytes

/-- The address behind the last byte. -/
def stop (range : PageRange) : Nat := (range.first + range.count) * Memory.pageBytes

/-- The ranges have no page in common. -/
def Apart (range other : PageRange) : Prop :=
  range.first + range.count ≤ other.first ∨ other.first + other.count ≤ range.first

theorem Apart.bytes {range other : PageRange} (apart : range.Apart other) :
    range.stop ≤ other.start ∨ other.stop ≤ range.start :=
  apart.imp (Nat.mul_le_mul_right _) (Nat.mul_le_mul_right _)

end PageRange

/-- How the system places reservations. -/
structure Placement where
  /-- The first of `count` pages that follow each other, while the pages of `taken` are in use. The newest
  range stands first. -/
  place? (taken : List PageRange) (count : Nat) : Option Nat
  apart {taken : List PageRange} {count first : Nat} (placed : place? taken count = some first) :
    ∀ range ∈ taken, PageRange.Apart ⟨first, count⟩ range
  inside {taken : List PageRange} {count first : Nat} (placed : place? taken count = some first) :
    0 < first ∧ first + count ≤ Memory.pageLimit

namespace Placement

/-- The lowest page in use, or the end of the range for slabs. -/
def lowest (taken : List PageRange) : Nat :=
  taken.foldr (fun range lowest => min range.first lowest) Memory.pageLimit

theorem lowest_le_pageLimit (taken : List PageRange) : lowest taken ≤ Memory.pageLimit := by
  induction taken with
  | nil => exact Nat.le_refl _
  | cons range taken ih => exact Nat.le_trans (Nat.min_le_right _ _) ih

theorem lowest_le {taken : List PageRange} {range : PageRange} (member : range ∈ taken) :
    lowest taken ≤ range.first := by
  induction member with
  | head => exact Nat.min_le_left _ _
  | tail _ _ ih => exact Nat.le_trans (Nat.min_le_right _ _) ih

/-- The lowest page that is ever given out. -/
@[noinline]
def firstPage : Nat := 0x100000

/-- One range lies below the other, down to `firstPage`. -/
def descending : Placement where
  place? taken count :=
    if firstPage + count ≤ lowest taken then some (lowest taken - count) else none
  apart := by
    intro taken count first placed range member
    obtain ⟨room, found⟩ := Option.ite_none_right_eq_some.mp placed
    obtain rfl := Option.some.inj found
    have below := lowest_le member
    exact .inl (by dsimp only; omega)
  inside := by
    intro taken count first placed
    obtain ⟨room, found⟩ := Option.ite_none_right_eq_some.mp placed
    obtain rfl := Option.some.inj found
    have below := lowest_le_pageLimit taken
    simp only [firstPage] at room
    omega

end Placement

/-- The pages in use, and how more are found. -/
structure Pages where
  placement : Placement := .descending
  taken : List PageRange := []

namespace Pages

def place? (pages : Pages) (count : Nat) : Option Nat := pages.placement.place? pages.taken count

def take (pages : Pages) (range : PageRange) : Pages := { pages with taken := range :: pages.taken }

end Pages

end SlabHeap
