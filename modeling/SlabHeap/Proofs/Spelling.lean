import SlabHeap.Proofs.Grounded

namespace SlabHeap

/-! Lists of pairs.

`Heap.Spells` says which values a list holds, as a program reads them. `Memory.Spine` also says in which
pairs: as long as these stay as they are, so does the list, and whoever can reach its first pair can reach
them all.
-/

open Block

/-- The value is a list, which has its elements in the pairs at some addresses. -/
inductive Memory.Spine (memory : Memory) : Value → List (Nat × Value) → Prop
  | nil : Spine memory .nil []
  | cons {cell : Nat} {value : Value} {items : List (Nat × Value)} (tag : memory.tag cell = Tag.pair)
      (car : memory.value (cell + Layout.Pair.car) = value)
      (rest : Spine memory (memory.value (cell + Layout.Pair.cdr)) items) :
      Spine memory (.reference cell) ((cell, value) :: items)

def Block.cell (start : Nat) : Block := ⟨start, 32, .object⟩

/-- A program reads these values from a list. -/
def Heap.Spells (heap : Heap) (memory : Memory) : List Value → Value → Prop
  | [], list => list = .nil
  | first :: others, list => heap.car? memory list = some first ∧
      ∃ rest, heap.cdr? memory list = some rest ∧ heap.Spells memory others rest

namespace Memory.Spine

variable {memory after : Memory} {list : Value} {items : List (Nat × Value)} {heap : Heap}
  {machine : Machine} {tiling : Slab → List Block} {roots : List Value} {address : Nat}

theorem keep (spine : memory.Spine list items)
    (kept : ∀ item ∈ items, (Block.cell item.1).Kept memory after) : after.Spine list items := by
  induction spine with
  | nil => exact .nil
  | @cons cell value items tag car _ ih =>
      have stays := kept (cell, value) List.mem_cons_self
      have word {offset : Nat} (inside : offset < 32) :
          after.read (cell + offset) = memory.read (cell + offset) :=
        stays _ ⟨Nat.le_add_right _ _, Nat.add_lt_add_left inside cell⟩
      have others := ih fun item member => kept item (List.mem_cons_of_mem _ member)
      refine .cons ?_ ?_ ?_
      · have first := stays cell ⟨Nat.le_refl cell, Nat.lt_add_of_pos_right (show 0 < 32 by decide)⟩
        rw [← tag, Memory.tag, Memory.header, first]
        rfl
      · rw [← car]
        exact congrArg Value.mk (word (by decide))
      · rwa [show after.value (cell + Layout.Pair.cdr) = memory.value (cell + Layout.Pair.cdr) from
          congrArg Value.mk (word (by decide))]

theorem refers (spine : memory.Spine list items) (found : list.address? = some address)
    (aligned : ∀ item ∈ items, item.1 % 8 = 0 ∧ item.1 < Size.limit) : address ∈ items.map Prod.fst := by
  cases spine with
  | nil => cases found
  | @cons cell value items =>
      obtain ⟨whole, bounded⟩ := aligned (cell, value) List.mem_cons_self
      rw [Value.address?_reference whole bounded] at found
      cases found
      exact List.mem_cons_self

/-- The pairs of a list refer to elements and to pairs of the list. -/
theorem slots (spine : memory.Spine list items)
    (aligned : ∀ item ∈ items, item.1 % 8 = 0 ∧ item.1 < Size.limit) {item : Nat × Value}
    (member : item ∈ items) : memory.tag item.1 = Tag.pair ∧
      memory.value (item.1 + Layout.Pair.car) = item.2 ∧ ∀ address,
        (memory.value (item.1 + Layout.Pair.cdr)).address? = some address →
          address ∈ items.map Prod.fst := by
  induction spine with
  | nil => cases member
  | @cons cell value items tag car rest ih =>
      have others := fun item member => aligned item (List.mem_cons_of_mem (cell, value) member)
      cases List.mem_cons.mp member with
      | inl first =>
          subst first
          exact ⟨tag, car, fun address found => List.mem_cons_of_mem _ (rest.refers found others)⟩
      | inr later =>
          obtain ⟨isPair, holds, next⟩ := ih others later
          exact ⟨isPair, holds, fun address found => List.mem_cons_of_mem _ (next address found)⟩

/-- Whoever reaches a list reaches its pairs. -/
theorem reachable (spine : machine.memory.Spine list items)
    (known : heap.shapes.get? Tag.pair = some .pair)
    (aligned : ∀ item ∈ items, item.1 % 8 = 0 ∧ item.1 < Size.limit)
    (reached : ∀ address, list.address? = some address → heap.Reachable machine roots address) :
    ∀ item ∈ items, heap.Reachable machine roots item.1 := by
  induction spine with
  | nil => simp
  | @cons cell value items tag car _ ih =>
      obtain ⟨whole, bounded⟩ := aligned (cell, value) List.mem_cons_self
      have first := reached cell (Value.address?_reference whole bounded)
      rw [List.forall_mem_cons]
      refine ⟨first, ih (fun item member => aligned item (List.mem_cons_of_mem _ member)) ?_⟩
      intro address found
      exact .slot first (tag ▸ known) ((Shape.slot_pair.mpr (.inr rfl)).strong rfl) found

/-- A program reads the elements of a list. -/
theorem spells (spine : memory.Spine list items) (tiled : heap.Tiled memory tiling)
    (inUse : ∀ item ∈ items, Block.cell item.1 ∈ heap.blocks tiling) :
    heap.Spells memory (items.map Prod.snd) list := by
  induction spine with
  | nil => rfl
  | @cons cell value items tag car _ ih =>
      have member := inUse (cell, value) List.mem_cons_self
      have found : heap.objectOf? memory Tag.pair (.reference cell) = some cell := by
        exact (tiled.objectOf?_reference Tag.pair member rfl).trans (if_pos tag)
      have read {offset : Nat} : heap.fieldOf? memory Tag.pair offset (.reference cell) =
          some (memory.value (cell + offset)) := by
        simp only [Heap.fieldOf?, Heap.fieldAddress?, found, Option.map_some]
      refine ⟨?_, _, read, ih fun item listed => inUse item (List.mem_cons_of_mem _ listed)⟩
      rw [← car]
      exact read

end Memory.Spine

end SlabHeap
