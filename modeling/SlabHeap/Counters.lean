import SlabHeap.Size

namespace SlabHeap

/-! Counts over the lifetime of a heap. They are sizes like all others, so that counting fails where one of
them would leave the range of sizes.

`Counters.Counts` says when collections can be counted, and `Counters.Spent` when something else cannot be.
-/

structure Counters where
  collections : Nat := 0
  bytesFreed : Nat := 0
  growths : Nat := 0
  /-- Requests that could not be met. -/
  outOfMemory : Nat := 0
  deriving DecidableEq, Repr

namespace Counters

/-- Counts a collection that freed so many bytes. -/
def collect (counters : Counters) (freed : Nat) : Except Fault Counters := do
  let collections ← Size.add counters.collections 1
  let bytesFreed ← Size.add counters.bytesFreed freed
  return { counters with collections, bytesFreed }

/-- Counts a slab that was added. -/
def grow (counters : Counters) : Except Fault Counters := do
  let growths ← Size.add counters.growths 1
  return { counters with growths }

/-- Counts a request that was refused. -/
def refuse (counters : Counters) : Except Fault Counters := do
  let outOfMemory ← Size.add counters.outOfMemory 1
  return { counters with outOfMemory }

/-- So many further collections can be counted, and the bytes that they free. -/
def Counts (counters : Counters) (times freed : Nat) : Prop :=
  counters.collections + times < Size.limit ∧ counters.bytesFreed + freed < Size.limit

instance (counters : Counters) (times freed : Nat) : Decidable (counters.Counts times freed) :=
  inferInstanceAs (Decidable (_ ∧ _))

/-- Another slab, or another refusal, could not be counted. -/
def Spent (counters : Counters) : Prop :=
  Size.limit ≤ counters.growths + 1 ∨ Size.limit ≤ counters.outOfMemory + 1

instance (counters : Counters) : Decidable counters.Spent :=
  inferInstanceAs (Decidable (_ ∨ _))

/-- A counter fails only at the end of its range. -/
theorem collect_eq (counters : Counters) (freed : Nat) : counters.collect freed =
    if counters.Counts 1 freed then
      .ok { counters with
        collections := counters.collections + 1
        bytesFreed := counters.bytesFreed + freed }
    else .error .additionOverflow := by
  by_cases collections : counters.collections + 1 < Size.limit
  · by_cases bytes : counters.bytesFreed + freed < Size.limit
    · rw [collect, Size.add_eq_ok collections, Size.add_eq_ok bytes, if_pos ⟨collections, bytes⟩]
      rfl
    · rw [collect, Size.add_eq_ok collections, Size.add, if_neg bytes, if_neg fun counts => bytes counts.2]
      rfl
  · rw [collect, Size.add, if_neg collections, if_neg fun counts => collections counts.1]
    rfl

theorem grow_eq (counters : Counters) : counters.grow =
    if counters.growths + 1 < Size.limit then .ok { counters with growths := counters.growths + 1 }
    else .error .additionOverflow := by
  rw [grow, Size.add]
  split <;> rfl

theorem refuse_eq (counters : Counters) : counters.refuse =
    if counters.outOfMemory + 1 < Size.limit then .ok { counters with outOfMemory := counters.outOfMemory + 1 }
    else .error .additionOverflow := by
  rw [refuse, Size.add]
  split <;> rfl

/-- Whoever can count more can count less. -/
theorem Counts.mono {counters : Counters} {times fewer freed less : Nat} (counts : counters.Counts times freed)
    (times_le : fewer ≤ times) (freed_le : less ≤ freed) : counters.Counts fewer less :=
  ⟨Nat.lt_of_le_of_lt (Nat.add_le_add_left times_le _) counts.1,
    Nat.lt_of_le_of_lt (Nat.add_le_add_left freed_le _) counts.2⟩

/-- Further collections can be counted if the next one can be, and those that follow it. -/
theorem counts_succ {counters : Counters} {times freed left : Nat} :
    counters.Counts (times + 1) (freed + left) ↔ counters.Counts 1 freed ∧
      { counters with
        collections := counters.collections + 1
        bytesFreed := counters.bytesFreed + freed }.Counts times left := by
  simp only [Counts]
  omega

end Counters

end SlabHeap
