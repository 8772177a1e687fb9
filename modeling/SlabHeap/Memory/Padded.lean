namespace SlabHeap.Padded

/-! Arrays that have a default value behind their end.

Values are read with `getD`. Main statements: `getD_change` and `getD_reset`.
-/

variable {α : Type}

/-- Changes the value at `key`; an array that does not reach that far grows. -/
def change (default : α) (values : Array α) (key : Nat) (update : α → α) : Array α :=
  if key < values.size then values.modify key update
  else (values ++ Array.replicate (key - values.size) default).push (update default)

/-- Gives `count` places from `low` on the default value. -/
def resetFrom (default : α) (values : Array α) (low : Nat) : Nat → Array α
  | 0 => values
  | count + 1 => resetFrom default (values.setIfInBounds low default) (low + 1) count

/-- Gives the places from `low` up to, but not including, `high` the default value. -/
def reset (default : α) (values : Array α) (low high : Nat) : Array α :=
  resetFrom default values low (min high values.size - low)

@[simp]
theorem reset_empty (default : α) (low high : Nat) : reset default #[] low high = #[] := by
  simp [reset, resetFrom]

theorem getD_change (default : α) (values : Array α) (key : Nat) (update : α → α) (other : Nat) :
    (change default values key update).getD other default =
      if other = key then update (values.getD key default) else values.getD other default := by
  simp only [change, Array.getD_eq_getD_getElem?]
  split
  · grind
  · grind

theorem getD_resetFrom (default : α) (values : Array α) (low count other : Nat) :
    (resetFrom default values low count).getD other default =
      if low ≤ other ∧ other < low + count then default else values.getD other default := by
  induction count generalizing values low with
  | zero =>
      have outside : ¬ (low ≤ other ∧ other < low + 0) := by omega
      simp only [resetFrom, outside, if_false]
  | succ count ih =>
      simp only [resetFrom, ih, Array.getD_eq_getD_getElem?]
      grind

theorem getD_reset (default : α) (values : Array α) (low high other : Nat) :
    (reset default values low high).getD other default =
      if low ≤ other ∧ other < high then default else values.getD other default := by
  rw [reset, getD_resetFrom, Array.getD_eq_getD_getElem?]
  grind

end SlabHeap.Padded
