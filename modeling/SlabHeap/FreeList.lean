import SlabHeap.Memory

namespace SlabHeap

/-! Free lists. A free block starts with a node of two words: the size of the block in bytes and the
address of the next free block, 0 at the end. The list starts at a sentinel of size 0 that is never
merged nor handed out.

`Chain` says which blocks a list holds; `Chain.blocks_eq` and `Chain.firstFit?_eq_none_iff` say what
the operations make of them.
-/

namespace FreeList

variable {memory : Memory} {node other bound : Nat} {listed : List (Nat × Nat)}

/-- The size in a node. -/
def size (memory : Memory) (node : Nat) : Nat := (memory.read node).toNat

/-- The address of the node behind a node. -/
def next (memory : Memory) (node : Nat) : Nat := (memory.read (node + 8)).toNat

def setSize (memory : Memory) (node size : Nat) : Memory := memory.write node (.ofNat size)

def setNext (memory : Memory) (node next : Nat) : Memory := memory.write (node + 8) (.ofNat next)

/-- Writes both words of a node. -/
def writeNode (memory : Memory) (node size next : Nat) : Memory :=
  setNext (setSize memory node size) node next

/-- The nodes from `node` on with their sizes, at most `bound` of them. -/
def blocks (memory : Memory) (node : Nat) : Nat → List (Nat × Nat)
  | 0 => []
  | bound + 1 =>
      if node = 0 then []
      else (node, size memory node) :: blocks memory (next memory node) bound

/-- Follows the list from `node`, whose predecessor is `before`, to the first node at or after
`limit`. The answer is that node, 0 if there is none, behind its own predecessor. -/
def seek (memory : Memory) (limit before node : Nat) : Nat → Nat × Nat
  | 0 => (before, node)
  | bound + 1 =>
      if node ≠ 0 ∧ node < limit then seek memory limit node (next memory node) bound
      else (before, node)

/-- The first node from `node` on that has room for `request` bytes, behind its predecessor. -/
def firstFit? (memory : Memory) (request before node : Nat) : Nat → Option (Nat × Nat)
  | 0 => none
  | bound + 1 =>
      if node = 0 then none
      else if request ≤ size memory node then some (before, node)
      else firstFit? memory request node (next memory node) bound

/-- The list that starts at `node` holds these blocks, in this order. -/
inductive Chain (memory : Memory) : Nat → List (Nat × Nat) → Prop
  | stop : Chain memory 0 []
  | link {node : Nat} {rest : List (Nat × Nat)} (present : node ≠ 0)
      (goesOn : Chain memory (next memory node) rest) :
      Chain memory node ((node, size memory node) :: rest)

theorem size_writeNode {size next : Nat} (aligned : node % 16 = 0) (otherAligned : other % 16 = 0)
    (isSize : size < Size.limit) :
    FreeList.size (writeNode memory node size next) other =
      if other = node then size else FreeList.size memory other := by
  have apart : other / 8 ≠ (node + 8) / 8 := by omega
  simp only [FreeList.size, writeNode, setNext, setSize, Memory.read_write, apart, if_false]
  by_cases same : other = node
  · simp only [same, if_true, UInt64.toNat_ofNat']
    exact Nat.mod_eq_of_lt isSize
  · have distinct : other / 8 ≠ node / 8 := by omega
    simp only [distinct, same, if_false]

theorem next_writeNode {size next : Nat} (aligned : node % 16 = 0) (otherAligned : other % 16 = 0)
    (isAddress : next < Size.limit) :
    FreeList.next (writeNode memory node size next) other =
      if other = node then next else FreeList.next memory other := by
  have apart : (other + 8) / 8 ≠ node / 8 := by omega
  simp only [FreeList.next, writeNode, setNext, setSize, Memory.read_write, apart, if_false]
  by_cases same : other = node
  · simp only [same, if_true, UInt64.toNat_ofNat']
    exact Nat.mod_eq_of_lt isAddress
  · have distinct : (other + 8) / 8 ≠ (node + 8) / 8 := by omega
    simp only [distinct, same, if_false]

theorem Chain.congr {after : Memory} (chain : Chain memory node listed)
    (kept : ∀ block ∈ listed, after.read block.1 = memory.read block.1 ∧
      after.read (block.1 + 8) = memory.read (block.1 + 8)) :
    Chain after node listed := by
  induction chain with
  | stop => exact .stop
  | @link node rest present goesOn ih =>
      obtain ⟨sizeKept, nextKept⟩ := kept _ List.mem_cons_self
      have sameSize : size memory node = size after node := by
        simp only [size, sizeKept]
      have sameNext : next memory node = next after node := by
        simp only [next, nextKept]
      rw [sameSize]
      refine .link present ?_
      rw [← sameNext]
      exact ih fun block member => kept block (List.mem_cons_of_mem _ member)

theorem Chain.unique {others : List (Nat × Nat)} (chain : Chain memory node listed)
    (again : Chain memory node others) : listed = others := by
  induction chain generalizing others with
  | stop =>
      cases again with
      | stop => rfl
      | link present => exact absurd rfl present
  | link present _ ih =>
      cases again with
      | stop => exact absurd rfl present
      | link _ goesOn => rw [ih goesOn]

theorem Chain.blocks_eq (chain : Chain memory node listed) (enough : listed.length ≤ bound) :
    blocks memory node bound = listed := by
  induction chain generalizing bound with
  | stop => cases bound <;> simp [blocks]
  | link present _ ih =>
      cases bound with
      | zero => simp at enough
      | succ bound =>
          simp only [blocks, present, if_false]
          rw [ih (by simpa using enough)]

theorem Chain.firstFit?_eq_none_iff {request before : Nat} (chain : Chain memory node listed)
    (enough : listed.length ≤ bound) :
    firstFit? memory request before node bound = none ↔ ∀ block ∈ listed, block.2 < request := by
  induction chain generalizing bound before with
  | stop => cases bound <;> simp [firstFit?]
  | @link node rest present _ ih =>
      cases bound with
      | zero => simp at enough
      | succ bound =>
          by_cases fits : request ≤ size memory node
          · simp [firstFit?, present, fits, Nat.not_lt_of_le fits]
          · simp [firstFit?, present, fits, ih (by simpa using enough), Nat.lt_of_not_le fits]

end FreeList

end SlabHeap
