import SlabHeap.Memory.Padded
import SlabHeap.Memory.Trie

namespace SlabHeap

/-! Maps from natural numbers with a value everywhere, for numbers of which most are small.

Small numbers are divided into parts, each of which is an array that reaches as far as it was
written; to change a table that is kept elsewhere copies one part only. All other numbers go into a
trie. Main statements: `get_modify` and `get_clear`.
-/

/-- A map that differs from its default at finitely many numbers. -/
structure Table (α : Type) where
  /-- The values at small numbers, by parts. -/
  near : Array (Array α)
  /-- The values at all others. -/
  far : Trie α

namespace Table

variable {α : Type}

/-- Numbers below this one are small. -/
def nearLimit : Nat := 0x8000000

/-- How many numbers make a part. -/
def partSize : Nat := 512

def empty : Table α := ⟨#[], .leaf⟩

instance : Inhabited (Table α) := ⟨.empty⟩

/-- The value at `key`. -/
def get (default : α) (table : Table α) (key : Nat) : α :=
  if key < nearLimit then (table.near.getD (key / partSize) #[]).getD (key % partSize) default
  else table.far.get default key

/-- Changes the value at `key`. -/
def modify (default : α) (table : Table α) (key : Nat) (update : α → α) : Table α :=
  if key < nearLimit then
    { table with
      near := Padded.change #[] table.near (key / partSize) fun part =>
        Padded.change default part (key % partSize) update }
  else { table with far := table.far.modify default key update }

/-- Resets the numbers from `low` to `high` in `count` parts from number `index` on. -/
def resetParts (default : α) (parts : Array (Array α)) (low high index : Nat) :
    Nat → Array (Array α)
  | 0 => parts
  | count + 1 =>
      let reset := parts.modify index fun part =>
        Padded.reset default part (low - index * partSize) (high - index * partSize)
      resetParts default reset low high (index + 1) count

/-- Gives the numbers from `low` up to, but not including, `high` the default value again. -/
def clear (default : α) (table : Table α) (low high : Nat) : Table α :=
  let first := low / partSize
  let behind := min table.near.size (high / partSize + 1)
  { near := resetParts default table.near low high first (behind - first)
    far := table.far.clear default low high }

@[simp]
theorem get_empty (default : α) (key : Nat) : empty.get default key = default := by
  simp [get, empty]

theorem getD_modify_reset (default : α) (parts : Array (Array α))
    (low high index other place : Nat) :
    ((parts.modify index (Padded.reset default · low high)).getD other #[]).getD place default =
      if other = index ∧ low ≤ place ∧ place < high then default
      else (parts.getD other #[]).getD place default := by
  have part : (parts.modify index (Padded.reset default · low high)).getD other #[] =
      if other = index then Padded.reset default (parts.getD other #[]) low high
      else parts.getD other #[] := by
    simp only [Array.getD_eq_getD_getElem?, Array.getElem?_modify]
    by_cases inside : other < parts.size
    · grind
    · simp [inside]
  rw [part]
  by_cases same : other = index
  · simp only [same, if_true, true_and, Padded.getD_reset]
  · simp only [same, if_false, false_and]

theorem getD_resetParts (default : α) (parts : Array (Array α))
    (low high index count other place : Nat) :
    ((resetParts default parts low high index count).getD other #[]).getD place default =
      if index ≤ other ∧ other < index + count ∧ low ≤ other * partSize + place ∧
          other * partSize + place < high then default
      else (parts.getD other #[]).getD place default := by
  induction count generalizing parts index with
  | zero =>
      have outside : ¬ (index ≤ other ∧ other < index + 0 ∧ low ≤ other * partSize + place ∧
          other * partSize + place < high) := by
        omega
      simp only [resetParts, outside, if_false]
  | succ count ih =>
      simp only [resetParts, ih, getD_modify_reset]
      by_cases same : other = index
      · subst same
        grind
      · grind

theorem get_modify (default : α) (table : Table α) (key : Nat) (update : α → α) (other : Nat) :
    (table.modify default key update).get default other =
      if other = key then update (table.get default key) else table.get default other := by
  by_cases near : key < nearLimit
  · simp only [modify, get, near, if_true, Padded.getD_change, partSize]
    by_cases part : other / 512 = key / 512
    · by_cases same : other = key
      · subst same
        simp only [near, if_true, Padded.getD_change]
      · have place : other % 512 ≠ key % 512 := by omega
        simp only [part, place, same, if_true, if_false, Padded.getD_change]
    · have distinct : other ≠ key := fun equal => part (equal ▸ rfl)
      simp only [part, distinct, if_false]
  · simp only [modify, get, near, if_false, Trie.get_modify]
    grind

theorem get_clear (default : α) (table : Table α) (low high key : Nat) :
    (table.clear default low high).get default key =
      if low ≤ key ∧ key < high then default else table.get default key := by
  simp only [clear, get, getD_resetParts, Trie.get_clear]
  by_cases near : key < nearLimit
  · have place : key / partSize * partSize + key % partSize = key := Nat.div_add_mod' key partSize
    simp only [near, if_true, place]
    by_cases written : key / partSize < table.near.size
    · simp only [partSize] at *
      grind
    · simp [Array.getD_eq_getD_getElem?, written]
  · simp only [near, if_false]

end Table

end SlabHeap
