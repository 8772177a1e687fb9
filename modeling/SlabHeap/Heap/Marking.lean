import SlabHeap.Context

namespace SlabHeap

/-! Marking: every object that can be reached from given values gets its MARKED flag.

Reached objects wait on a work list as the values of their slots. Objects that carry a mark already
are not looked into again. One step marks one object; since references hold multiples of
eight, no run can take more steps than there are such addresses.
-/

namespace Heap

/-- The object behind a value that marking met, and reports on values that cannot be followed. Only
a validating heap looks whether a reference is one of its own. -/
def resolve (heap : Heap) (value : Value) : Action (Option Nat) := do
  match value.address? with
  | none => return none
  | some address =>
      if heap.features.validating then
        if address % blockUnit ≠ 0 then
          Action.note (.misalignedReference address)
          return none
        else if ¬ heap.contains address then
          Action.note (.foreignReference address)
          return none
        else
          let header := (← Action.memory).header address
          if header.isValid then return some address
          else
            Action.note (.badMagic address header.magic)
            return none
      else if address = 0 then return none
      else return some address

/-- The values that an object keeps alive, in the order in which they are put on the work list. -/
def children (heap : Heap) (object : Nat) : Action (List Value) := do
  let machine ← get
  let tag := machine.memory.tag object
  let saved := if tag = Tag.context then (Context.mk object).savedValues machine else []
  match heap.shapes.get? tag with
  | none =>
      reportBadObject object
      return saved
  | some shape => return saved ++ (← shape.strongValues machine.memory object)

/-- The first object on a work list that has no mark, and the work behind it. -/
def nextUnmarked (heap : Heap) : List Value → Action (Option (Nat × List Value))
  | [] => return none
  | value :: rest => do
      match ← heap.resolve value with
      | none => heap.nextUnmarked rest
      | some object =>
          if ((← Action.memory).header object).isMarked then heap.nextUnmarked rest
          else return some (object, rest)

/-- Marks what can be reached from the values on the work list, in at most `bound` steps. -/
def markWork (heap : Heap) (work : List Value) : Nat → Action Unit
  | 0 => return
  | bound + 1 => do
      match ← heap.nextUnmarked work with
      | none => return
      | some (object, rest) =>
          Action.onHeader object .mark
          let children ← heap.children object
          heap.markWork (children.reverseAux rest) bound

/-- Marks everything that can be reached from the roots. -/
def mark (heap : Heap) (roots : List Value) : Action Unit := heap.markWork roots Size.wordLimit

/-- The values that a collection starts from. -/
def roots (heap : Heap) (context : Option Context) : List Value :=
  heap.scratch ++ heap.globals.getD [] ++ (context.map Context.toValue).toList

end Heap

end SlabHeap
