import SlabHeap.Heap.Marking

namespace SlabHeap

/-! Weak slots. Between marking and sweeping, a weak slot of a marked object whose referent has no
mark is set to `#f`, and its owner is flagged BROKEN. Once all weak slots of an object are cleared
in one pass, so are the dependent slots behind them. -/

namespace Heap

/-- Whether a weak slot holds a reference to an object of this heap that is about to die. -/
def losesReferent (heap : Heap) (value : Value) : Action Bool := do
  match value.address? with
  | none => return false
  | some address =>
      if heap.contains address then
        match ← heap.resolve value with
        | none => return false
        | some referent => return !((← Action.memory).header referent).isMarked
      else return false

/-- Clears those of `count` weak slots from `offset` on that lose their referents, and adds their
number to `cleared`. -/
def clearWeakSlots (heap : Heap) (object offset cleared : Nat) : Nat → Action Nat
  | 0 => return cleared
  | count + 1 => do
      let word ← (← Action.memory).field object offset
      if ← heap.losesReferent ⟨word⟩ then
        Action.storeValue (object + offset) .no
        Action.onHeader object (·.add .broken)
        heap.clearWeakSlots object (offset + wordBytes) (cleared + 1) count
      else heap.clearWeakSlots object (offset + wordBytes) cleared count

/-- Sets `count` slots from `offset` on to `#f`. -/
def clearSlots (object offset : Nat) : Nat → Action Unit
  | 0 => return
  | count + 1 => do
      let _ ← (← Action.memory).field object offset
      Action.storeValue (object + offset) .no
      clearSlots object (offset + wordBytes) count

/-- Clears the weak slots of one object, and its dependent slots if all of them went. The number of
both kinds together must be a size by then. -/
def breakWeakSlots (heap : Heap) (object : Nat) : Action Unit := do
  let memory ← Action.memory
  match heap.shapes.get? (memory.tag object) with
  | none => return
  | some shape =>
      match shape.weak with
      | none => return
      | some run =>
          let count ← run.slots memory object
          let cleared ← heap.clearWeakSlots object run.offset 0 count
          if cleared = count then
            let _ ← (Size.add count shape.dependent : Action Nat)
            clearSlots object (run.offset + wordBytes * count) shape.dependent

/-- Clears the weak slots of all marked objects. -/
def breakWeakReferences (heap : Heap) : Action Unit :=
  Slab.foldAll heap.slabs heap.shapes heap.scrutiny
    (fun _ object => do
      if ((← Action.memory).header object).isMarked then heap.breakWeakSlots object)
    ()

end Heap

end SlabHeap
