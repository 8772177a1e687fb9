namespace SlabHeap

/-! Finite maps from natural numbers with a value everywhere.

A number picks a path from the root by its binary digits, lowest first; numbers that were never set
have the default value. All recursion is structural, so a concrete map can be evaluated inside a
proof. Main statements: `get_modify` and `get_clear`.
-/

/-- A map that differs from its default at finitely many numbers: the value at 0, then the maps of
the odd and of the other even numbers. -/
inductive Trie (α : Type) where
  | leaf
  | node (here : α) (odd even : Trie α)

namespace Trie

variable {α : Type}

instance : Inhabited (Trie α) := ⟨.leaf⟩

/-- The value at `key`: 0 is here, `2 n + 1` is `n` on the odd side, `2 n + 2` is `n` on the even
side. -/
def get (default : α) : Trie α → Nat → α
  | .leaf, _ => default
  | .node here odd even, key =>
      if key = 0 then here
      else if key % 2 = 1 then odd.get default (key / 2)
      else even.get default (key / 2 - 1)

/-- Changes the value at `key`, which is below `fuel`. -/
def modifyWithin (default : α) (change : α → α) : Nat → Trie α → Nat → Trie α
  | 0, trie, _ => trie
  | fuel + 1, .leaf, key =>
      if key = 0 then .node (change default) .leaf .leaf
      else if key % 2 = 1 then
        .node default (modifyWithin default change fuel .leaf (key / 2)) .leaf
      else .node default .leaf (modifyWithin default change fuel .leaf (key / 2 - 1))
  | fuel + 1, .node here odd even, key =>
      if key = 0 then .node (change here) odd even
      else if key % 2 = 1 then .node here (modifyWithin default change fuel odd (key / 2)) even
      else .node here odd (modifyWithin default change fuel even (key / 2 - 1))

/-- Changes the value at `key`. -/
def modify (default : α) (trie : Trie α) (key : Nat) (change : α → α) : Trie α :=
  modifyWithin default change (key + 1) trie key

/-- Gives the numbers from `low` up to, but not including, `high` the default value again. Only what
was set below them is visited. -/
def clear (default : α) : Trie α → Nat → Nat → Trie α
  | .leaf, _, _ => .leaf
  | .node here odd even, low, high =>
      if high ≤ low then .node here odd even
      else
        .node (if low = 0 then default else here) (odd.clear default (low / 2) (high / 2))
          (even.clear default ((low - 1) / 2) ((high - 1) / 2))

@[simp]
theorem get_leaf (default : α) (key : Nat) : (leaf : Trie α).get default key = default := by
  simp [get]

theorem get_modifyWithin (default : α) (change : α → α) {fuel key : Nat} (enough : key < fuel)
    (trie : Trie α) (other : Nat) :
    (modifyWithin default change fuel trie key).get default other =
      if other = key then change (trie.get default key) else trie.get default other := by
  induction fuel generalizing trie key other with
  | zero => omega
  | succ fuel ih =>
      have odd : key % 2 = 1 → key / 2 < fuel := by omega
      have even : key ≠ 0 → key / 2 - 1 < fuel := by omega
      cases trie with
      | leaf =>
          by_cases zero : key = 0
          · simp [modifyWithin, zero, get]
          by_cases parity : key % 2 = 1
          · simp only [modifyWithin, zero, parity, if_true, if_false, get, ih (odd parity)]
            grind
          · simp only [modifyWithin, zero, parity, if_false, get, ih (even zero)]
            grind
      | node here left right =>
          by_cases zero : key = 0
          · subst zero
            simp only [modifyWithin, if_true, get]
            grind
          by_cases parity : key % 2 = 1
          · simp only [modifyWithin, zero, parity, if_true, if_false, get, ih (odd parity)]
            grind
          · simp only [modifyWithin, zero, parity, if_false, get, ih (even zero)]
            grind

theorem get_modify (default : α) (trie : Trie α) (key : Nat) (change : α → α) (other : Nat) :
    (trie.modify default key change).get default other =
      if other = key then change (trie.get default key) else trie.get default other :=
  get_modifyWithin default change (Nat.lt_succ_self key) trie other

theorem get_clear (default : α) (trie : Trie α) (low high key : Nat) :
    (trie.clear default low high).get default key =
      if low ≤ key ∧ key < high then default else trie.get default key := by
  induction trie generalizing low high key with
  | leaf => simp [clear]
  | node here left right ihLeft ihRight =>
      by_cases empty : high ≤ low
      · have outside : ¬ (low ≤ key ∧ key < high) := by omega
        simp only [clear, empty, outside, if_true, if_false]
      · simp only [clear, empty, if_false, get, ihLeft, ihRight]
        grind

end Trie

end SlabHeap
