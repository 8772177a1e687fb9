import SlabHeap.Proofs.Budgets

namespace SlabHeap

/-! Rings of pairs.

The fork job strings pairs together, each behind the last one, and puts a vector that refers back to the first
pair into each of the others. `Memory.Strung` says what it has made so far: whoever can reach the first pair
can reach all of it, `Memory.Strung.mem_of_closed`, and nothing of it refers to anything else.
-/

open Block

namespace Memory

variable {memory after : Memory} {cell back head : Nat} {car cdr first second next new : Value}
  {nodes : List (Nat × Option Nat)}

/-- A pair that holds two values. -/
structure IsPair (memory : Memory) (cell : Nat) (car cdr : Value) : Prop where
  tag : memory.tag cell = Tag.pair
  car : memory.value (cell + Layout.Pair.car) = car
  cdr : memory.value (cell + Layout.Pair.cdr) = cdr

/-- A vector that holds two values. -/
structure IsDouble (memory : Memory) (cell : Nat) (first second : Value) : Prop where
  tag : memory.tag cell = Tag.vector
  length : memory.value (cell + Layout.Sequence.length) = .fixnum 2
  first : memory.value (cell + (Layout.Sequence.contents + 0 * wordBytes)) = first
  second : memory.value (cell + (Layout.Sequence.contents + 1 * wordBytes)) = second

section Keeping

variable (kept : (Block.cell cell).Kept memory after)

include kept

theorem read_kept {offset : Nat} (inside : offset < 32) :
    after.read (cell + offset) = memory.read (cell + offset) :=
  kept _ ⟨Nat.le_add_right _ _, Nat.add_lt_add_left inside cell⟩

theorem IsPair.keep (pair : memory.IsPair cell car cdr) : after.IsPair cell car cdr where
  tag := pair.tag ▸ congrArg (Header.tag ∘ Header.ofWord) (read_kept kept (show 0 < 32 by decide))
  car := pair.car ▸ congrArg Value.mk (read_kept kept (by decide))
  cdr := pair.cdr ▸ congrArg Value.mk (read_kept kept (by decide))

theorem IsDouble.keep (double : memory.IsDouble cell first second) : after.IsDouble cell first second where
  tag := double.tag ▸ congrArg (Header.tag ∘ Header.ofWord) (read_kept kept (show 0 < 32 by decide))
  length := double.length ▸ congrArg Value.mk (read_kept kept (by decide))
  first := double.first ▸ congrArg Value.mk (read_kept kept (by decide))
  second := double.second ▸ congrArg Value.mk (read_kept kept (by decide))

end Keeping

theorem IsPair.setCar (pair : memory.IsPair cell car cdr) :
    (memory.write (cell + Layout.Pair.car) new.bits).IsPair cell new cdr where
  tag := by
    rw [← pair.tag]
    exact congrArg (Header.tag ∘ Header.ofWord) (read_write_ne (by simp only [Layout.Pair.car]; omega))
  car := congrArg Value.mk (read_write_same _ _ _)
  cdr := by
    rw [← pair.cdr]
    exact congrArg Value.mk (read_write_ne (by simp only [Layout.Pair.car, Layout.Pair.cdr]; omega))

theorem IsPair.setCdr (pair : memory.IsPair cell car cdr) :
    (memory.write (cell + Layout.Pair.cdr) new.bits).IsPair cell car new where
  tag := by
    rw [← pair.tag]
    exact congrArg (Header.tag ∘ Header.ofWord) (read_write_ne (by simp only [Layout.Pair.cdr]; omega))
  car := by
    rw [← pair.car]
    exact congrArg Value.mk (read_write_ne (by simp only [Layout.Pair.car, Layout.Pair.cdr]; omega))
  cdr := congrArg Value.mk (read_write_same _ _ _)

theorem IsDouble.setFirst (double : memory.IsDouble cell first second) :
    (memory.write (cell + (Layout.Sequence.contents + 0 * wordBytes)) new.bits).IsDouble cell new second where
  tag := by
    rw [← double.tag]
    exact congrArg (Header.tag ∘ Header.ofWord)
      (read_write_ne (by simp only [Layout.Sequence.contents, wordBytes]; omega))
  length := by
    rw [← double.length]
    exact congrArg Value.mk (read_write_ne (by
      simp only [Layout.Sequence.length, Layout.Sequence.contents, wordBytes]; omega))
  first := congrArg Value.mk (read_write_same _ _ _)
  second := by
    rw [← double.second]
    exact congrArg Value.mk (read_write_ne (by simp only [Layout.Sequence.contents, wordBytes]; omega))

/-- Pairs that are strung together, the last one first, with their vectors. The last pair goes on with a value. -/
inductive Strung (memory : Memory) (head : Nat) : Value → List (Nat × Option Nat) → Prop
  | nil : Strung memory head (.reference head) []
  | cons {cell : Nat} {back : Option Nat} {next : Value} {nodes : List (Nat × Option Nat)}
      (rest : Strung memory head (.reference cell) nodes)
      (pair : memory.IsPair cell (back.elim .nil .reference) next)
      (double : ∀ vector ∈ back, ∃ number, memory.IsDouble vector (.reference head) (.fixnum number)) :
      Strung memory head next ((cell, back) :: nodes)

def cellsOf (nodes : List (Nat × Option Nat)) : List Nat := nodes.flatMap fun node => node.1 :: node.2.toList

namespace Strung

theorem keep (strung : memory.Strung head next nodes)
    (kept : ∀ cell ∈ cellsOf nodes, (Block.cell cell).Kept memory after) : after.Strung head next nodes := by
  induction strung with
  | nil => exact .nil
  | @cons cell back next nodes rest pair double ih =>
      have own : ∀ place ∈ cell :: back.toList, (Block.cell place).Kept memory after := fun place member =>
        kept place (List.mem_append_left _ member)
      refine .cons (ih fun place member => kept place (List.mem_append_right _ member))
        (pair.keep (own cell List.mem_cons_self)) fun vector isBack => ?_
      obtain ⟨number, double⟩ := double vector isBack
      exact ⟨number, double.keep (own vector (List.mem_cons_of_mem _ (Option.mem_toList.mpr isBack)))⟩

/-- What holds of the first pair, and of all that pairs refer to if it holds of these, holds everywhere. -/
theorem mem_of_closed {holds : Nat → Prop} (strung : memory.Strung head next nodes)
    (aligned : ∀ cell ∈ head :: cellsOf nodes, cell % 8 = 0 ∧ cell < Size.limit) (first : holds head)
    (closed : ∀ cell ∈ cellsOf nodes, ∀ car cdr, holds cell → memory.IsPair cell car cdr →
      car.Refers holds ∧ cdr.Refers holds) :
    next.Refers holds ∧ ∀ cell ∈ cellsOf nodes, holds cell := by
  induction strung with
  | nil =>
      refine ⟨fun address found => ?_, by simp [cellsOf]⟩
      obtain ⟨whole, bounded⟩ := aligned head List.mem_cons_self
      rw [Value.address?_reference whole bounded] at found
      exact Option.some.inj found ▸ first
  | @cons cell back next nodes rest pair double ih =>
      have place : ∀ other ∈ cell :: back.toList, other % 8 = 0 ∧ other < Size.limit := fun other member =>
        aligned other (List.mem_cons_of_mem _ (List.mem_append_left _ member))
      obtain ⟨refers, others⟩ := ih (fun other member => aligned other (by
        rcases List.mem_cons.mp member with rfl | later
        · exact List.mem_cons_self
        · exact List.mem_cons_of_mem _ (List.mem_append_right _ later)))
        fun other member => closed other (List.mem_append_right _ member)
      have own : holds cell := by
        obtain ⟨whole, bounded⟩ := place cell List.mem_cons_self
        exact refers cell (Value.address?_reference whole bounded)
      obtain ⟨car, cdr⟩ := closed cell List.mem_cons_self _ _ own pair
      refine ⟨cdr, fun other member => ?_⟩
      rcases List.mem_append.mp member with here | later
      · rcases List.mem_cons.mp here with rfl | isBack
        · exact own
        · obtain rfl := Option.mem_toList.mp isBack
          obtain ⟨whole, bounded⟩ := place other (List.mem_cons_of_mem _ isBack)
          exact car other (Value.address?_reference whole bounded)
      · exact others other later

theorem tags (strung : memory.Strung head next nodes) (member : cell ∈ cellsOf nodes) :
    memory.tag cell = Tag.pair ∨ memory.tag cell = Tag.vector := by
  induction strung with
  | nil => cases member
  | @cons last back next nodes rest pair double ih =>
      rcases List.mem_append.mp member with own | later
      · rcases List.mem_cons.mp own with rfl | isBack
        · exact .inl pair.tag
        · obtain ⟨number, isDouble⟩ := double cell (Option.mem_toList.mp isBack)
          exact .inr isDouble.tag
      · exact ih later

/-- What a cell of the string is. It refers to cells of the string, and to what the last pair goes on with. -/
theorem describes {holds : Nat → Prop} (strung : memory.Strung head next nodes)
    (aligned : ∀ cell ∈ head :: cellsOf nodes, cell % 8 = 0 ∧ cell < Size.limit)
    (inside : ∀ cell ∈ head :: cellsOf nodes, holds cell) (goesOn : next.Refers holds) (member : cell ∈ cellsOf nodes) :
    (∃ car cdr, memory.IsPair cell car cdr ∧ car.Refers holds ∧ cdr.Refers holds) ∨
      ∃ first second, memory.IsDouble cell first second ∧ first.Refers holds ∧ second.Refers holds := by
  have refers {other : Nat} (isCell : other ∈ head :: cellsOf nodes) : (Value.reference other).Refers holds :=
    fun address found => by
      obtain ⟨whole, bounded⟩ := aligned other isCell
      rw [Value.address?_reference whole bounded] at found
      exact Option.some.inj found ▸ inside other isCell
  induction strung with
  | nil => cases member
  | @cons last back next nodes rest pair double ih =>
      have here {other : Nat} (member : other ∈ last :: back.toList) :
          other ∈ head :: cellsOf ((last, back) :: nodes) :=
        List.mem_cons_of_mem _ (List.mem_append_left _ member)
      have earlier : ∀ other ∈ head :: cellsOf nodes, other ∈ head :: cellsOf ((last, back) :: nodes) :=
        fun other member => (List.mem_cons.mp member).elim (fun same => same ▸ List.mem_cons_self)
          fun later => List.mem_cons_of_mem _ (List.mem_append_right _ later)
      rcases List.mem_append.mp member with own | later
      · rcases List.mem_cons.mp own with rfl | isBack
        · refine .inl ⟨_, next, pair, ?_, goesOn⟩
          cases back with
          | none => exact fun _ found => nomatch found
          | some vector => exact refers (here (by simp))
        · obtain ⟨number, isDouble⟩ := double cell (Option.mem_toList.mp isBack)
          refine .inr ⟨_, _, isDouble, refers List.mem_cons_self, fun address found => ?_⟩
          rw [Value.address?_fixnum] at found
          cases found
      · exact ih (fun other member => aligned other (earlier other member))
          (fun other member => inside other (earlier other member)) (refers (here List.mem_cons_self)) later
          fun member => refers (earlier _ member)

end Strung

end Memory

end SlabHeap
