import SlabHeap.Fault

namespace SlabHeap

/-!
Byte counts. A size is a natural number below `Size.limit`. The operations `add`, `sub`, `mul` and
`total` raise a fault when their result leaves that range; `saturate` and `alignUp?` serve where
such a result is no fault.

`alignUp?_shift` is the rule behind every rounding: for a power of two, which is `1 <<< exponent`,
the result is the least multiple at or above the argument.
-/

/-- The bytes in one word of memory. -/
def wordBytes : Nat := 8

namespace Size

/-- One past the largest size: two to the power 64. -/
def limit : Nat := 0x10000000000000000

/-- How many words have addresses. No walk that meets no word twice takes more steps. -/
@[noinline]
def wordLimit : Nat := limit / wordBytes

/-- The nearest size: numbers past the range count as the largest one. -/
def saturate (number : Nat) : Nat := min number (limit - 1)

/-- A sum that must be a size. -/
def add (left right : Nat) : Except Fault Nat :=
  if left + right < limit then .ok (left + right) else .error .additionOverflow

/-- A difference that must not be negative. -/
def sub (left right : Nat) : Except Fault Nat :=
  if right ≤ left then .ok (left - right) else .error .subtractionOverflow

/-- A product that must be a size. -/
def mul (left right : Nat) : Except Fault Nat :=
  if left * right < limit then .ok (left * right) else .error .multiplicationOverflow

/-- The sum of several sizes, which must be a size. -/
def total (sizes : List Nat) : Except Fault Nat := sizes.foldlM add 0

/-- Rounds up to a multiple of `align`, a power of two, unless the result is no size. -/
def alignUp? (number align : Nat) : Option Nat :=
  let top := number + (align - 1)
  if top < limit then some (top - (top &&& (align - 1))) else none

/-- Rounding to a caller's alignment, which must not be zero. -/
def alignUp (number align : Nat) : Except Fault (Option Nat) :=
  if align = 0 then .error .subtractionOverflow else .ok (alignUp? number align)

theorem add_eq_ok {left right : Nat} (inRange : left + right < limit) :
    add left right = .ok (left + right) := if_pos inRange

theorem sub_eq_ok {left right : Nat} (ordered : right ≤ left) :
    sub left right = .ok (left - right) := if_pos ordered

theorem mul_eq_ok {left right : Nat} (inRange : left * right < limit) :
    mul left right = .ok (left * right) := if_pos inRange

theorem foldlM_add_eq_ok {start : Nat} {sizes : List Nat}
    (inRange : start + sizes.foldr (· + ·) 0 < limit) :
    sizes.foldlM add start = .ok (start + sizes.foldr (· + ·) 0) := by
  induction sizes generalizing start with
  | nil => rfl
  | cons size rest ih =>
      simp only [List.foldr_cons, ← Nat.add_assoc] at inRange ⊢
      rw [List.foldlM_cons, add_eq_ok (by omega)]
      exact ih inRange

theorem total_eq_ok {sizes : List Nat} (inRange : sizes.foldr (· + ·) 0 < limit) :
    total sizes = .ok (sizes.foldr (· + ·) 0) := by
  rw [total, foldlM_add_eq_ok (by omega), Nat.zero_add]

theorem alignUp?_shift (number exponent : Nat) :
    alignUp? number (1 <<< exponent) =
      if number + (1 <<< exponent - 1) < limit then
        some ((number + (1 <<< exponent - 1)) / 1 <<< exponent * 1 <<< exponent)
      else none := by
  simp only [alignUp?, Nat.one_shiftLeft, Nat.and_two_pow_sub_one_eq_mod]
  have split := Nat.div_add_mod' (number + (2 ^ exponent - 1)) (2 ^ exponent)
  split
  · congr 1
    omega
  · rfl

end Size

end SlabHeap
