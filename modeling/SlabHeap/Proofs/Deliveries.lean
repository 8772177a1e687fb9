import SlabHeap.Proofs.Conduct
import SlabHeap.Proofs.Supplies

namespace SlabHeap

/-! Orders in two steps.

Whatever an order is for, `Order.perform_eq` says that it asks for a block while it holds its values, and
that the block is delivered then: it gets a header and contents, and the heap forgets the values. Only the
first step can collect the heap.
-/

open SlabHeap.Action

namespace Order

/-- What is put into the block behind the header. -/
def write (identity : Nat) : Order → Nat → Action Unit
  | .context parent, start => do
      Action.store (start + Layout.Context.heap) (.ofNat identity)
      Action.store (start + Layout.Context.saves) 0
      Action.storeValue (start + Layout.Context.parent) ((parent.map Context.toValue).getD .no)
      Action.storeValue (start + Layout.Context.environment) .nil
  | .pair _ car cdr, start => do
      Action.storeValue (start + Layout.Pair.car) car
      Action.storeValue (start + Layout.Pair.cdr) cdr
  | .vector _ length value, start => do
      Action.storeValue (start + Layout.Sequence.length) (← Value.ofInt length)
      Action.onMemory (·.fillWords value.bits (start + Layout.Sequence.contents) length)
  | .bytes _ contents, start => do
      Action.storeValue (start + Layout.Sequence.length) (← Value.ofInt contents.length)
      Action.onMemory (·.writeBytes (start + Layout.Sequence.contents) contents)
  | .weakBox _ target, start => Action.storeValue (start + Layout.WeakBox.target) target
  | .ephemeron _ key value, start => do
      Action.storeValue (start + Layout.Ephemeron.key) key
      Action.storeValue (start + Layout.Ephemeron.value) value
  | .object _ _ _, _ | .storage _ _, _ => return

/-- The heap with the roots that it had before it held the values of the order. -/
def settle (heap prepared : Heap) : Order → Heap
  | .context _ | .object _ _ _ | .storage _ _ => prepared
  | _ => { prepared with scratch := prepared.scratch.take heap.scratch.length }

def refer : Order → Nat → Except Fault Value
  | .context _, start | .object _ _ _, start => .ok (.reference start)
  | _, start => Value.ofAddress start

/-- What follows when a block was given or refused. -/
def deliver (heap : Heap) (order : Order) :
    Heap × Except HeapError Nat → Action (Heap × Except HeapError Value)
  | (prepared, .error refusal) => return (order.settle heap prepared, .error refusal)
  | (prepared, .ok start) => do
      if let some tag := order.tag? then Action.onMemory (·.setHeader start (.fresh tag))
      order.write prepared.identity start
      return (order.settle heap prepared, .ok (← order.refer start))

/-- The order is refused because its bytes cannot be counted. -/
def Oversized : Order → Prop
  | .vector _ length _ => Size.limit ≤ Layout.Sequence.contents + length * wordBytes
  | .bytes _ contents => Size.limit ≤ Layout.Sequence.contents + contents.length
  | _ => False

instance (order : Order) : Decidable order.Oversized := by
  cases order <;> unfold Oversized <;> infer_instance

variable {heap prepared : Heap} {order : Order}

/-- An object that holds values is a block that was asked for while the heap held them. -/
theorem allocateHolding_eq (order : Order) {root : Context} {tag : UInt8} {held : List Value}
    (registered : heap.shapes.isRegistered tag = true) (tagged : order.tag? = some tag)
    (settles : ∀ prepared, order.settle heap prepared =
      { prepared with scratch := prepared.scratch.take heap.scratch.length })
    (refers : ∀ start, order.refer start = Value.ofAddress start) (write : Nat → Action Unit)
    (writes : ∀ identity, order.write identity = write) :
    heap.allocateHolding root tag order.size held write =
      (heap.holding held).allocateBlock (some root) order.size >>= order.deliver heap := by
  unfold Heap.allocateHolding Heap.withScratch Heap.allocateObject Heap.allocateTagged
  have known : (heap.holding held).shapes.isRegistered tag = true := registered
  change ((if (heap.holding held).shapes.isRegistered tag = true then _ else _) >>= _) >>= _ = _
  rw [if_pos known]
  simp only [bind_assoc, pure_bind]
  refine bind_congr fun answer => ?_
  obtain ⟨prepared, given⟩ := answer
  cases given with
  | error refusal => simp [deliver, settles]
  | ok start => simp [deliver, tagged, settles, refers, writes]

theorem allocateSequence_eq (order : Order) {root : Context} {tag : UInt8} {held : List Value}
    {write : Nat → Action Unit} (holds : heap.allocateHolding root tag order.size held write =
      (heap.holding held).allocateBlock (some root) order.size >>= order.deliver heap)
    (oversized : order.Oversized ↔ Size.limit ≤ order.size) :
    heap.allocateSequence root tag order.size held write =
      if order.Oversized then do return (← heap.countRefusal, .error (.outOfMemory (Size.limit - 1)))
      else (heap.holding held).allocateBlock (some root) order.size >>= order.deliver heap := by
  unfold Heap.allocateSequence
  by_cases large : Size.limit ≤ order.size
  · rw [if_pos large, if_pos (oversized.mpr large)]
  · rw [if_neg large, if_neg fun exceeds => large (oversized.mp exceeds)]
    exact holds

/-- An order asks for a block and delivers it. -/
theorem perform_eq (registered : ∀ tag ∈ order.tag?, heap.shapes.isRegistered tag = true) :
    order.perform heap =
      if order.Oversized then do return (← heap.countRefusal, .error (.outOfMemory (Size.limit - 1)))
      else (heap.holding order.held).allocateBlock order.root order.size >>= order.deliver heap := by
  cases order with
  -- Objects that are made around values differ in what is written alone.
  | pair root car cdr =>
      exact allocateHolding_eq (.pair root car cdr) (registered _ rfl) rfl (fun _ => rfl)
        (fun _ => rfl) _ fun _ => rfl
  | weakBox root target =>
      exact allocateHolding_eq (.weakBox root target) (registered _ rfl) rfl (fun _ => rfl)
        (fun _ => rfl) _ fun _ => rfl
  | ephemeron root key value =>
      exact allocateHolding_eq (.ephemeron root key value) (registered _ rfl) rfl (fun _ => rfl)
        (fun _ => rfl) _ fun _ => rfl
  | vector root length value =>
      refine allocateSequence_eq (.vector root length value) ?_ .rfl
      exact allocateHolding_eq (.vector root length value) (registered _ rfl) rfl (fun _ => rfl)
        (fun _ => rfl) _ fun _ => rfl
  | bytes root contents =>
      refine allocateSequence_eq (.bytes root contents) ?_ .rfl
      exact allocateHolding_eq (.bytes root contents) (registered _ rfl) rfl (fun _ => rfl)
        (fun _ => rfl) _ fun _ => rfl
  | context parent =>
      have known : heap.shapes.isRegistered Tag.context = true := registered _ rfl
      unfold perform Heap.makeContext Heap.allocateTagged
      simp only [held, Heap.holding_nil, if_pos known, bind_assoc]
      refine bind_congr fun answer => ?_
      obtain ⟨prepared, given⟩ := answer
      cases given with
      | error refusal => rfl
      | ok start => rfl
  | object root tag size =>
      have known : heap.shapes.isRegistered tag = true := registered _ rfl
      unfold perform Heap.allocateObject Heap.allocateTagged
      simp only [held, Heap.holding_nil, if_pos known, bind_assoc]
      refine bind_congr fun answer => ?_
      obtain ⟨prepared, given⟩ := answer
      cases given with
      | error refusal => rfl
      | ok start => rfl
  | storage root size =>
      unfold perform Heap.allocate
      simp only [held, Heap.holding_nil]
      refine bind_congr fun answer => ?_
      obtain ⟨prepared, given⟩ := answer
      cases given with
      | error refusal => rfl
      | ok start => rfl

end Order

end SlabHeap
