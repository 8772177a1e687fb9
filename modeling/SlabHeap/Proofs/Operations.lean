import SlabHeap.Proofs.Framing

namespace SlabHeap

/-! Operations on one heap.

`Operation` lists what a program asks of one heap, and `Operation.perform` does it. `Operation.Apt` says
when an operation uses the heap as it is meant to be used: the references that it is given refer to
storage in use, and what it writes to is a slot.
-/

def Value.Refers (allocated : Nat → Prop) (value : Value) : Prop :=
  ∀ address, value.address? = some address → allocated address

theorem Value.untagged_eq {value : Value} {address : Nat} (found : value.address? = some address) :
    value.untagged = address := by
  simp only [address?] at found
  split at found
  · exact Option.some.inj found
  · contradiction

inductive Operation where
  | make (order : Order)
  | collect (context : Context)
  | scan (context : Context) (snapshot : Snapshot)
  | append (request : Nat)
  | register (shape : Shape)
  | slot (object : Value) (offset : Nat)
  | setSlot (object : Value) (offset : Nat) (value : Value)
  | field (tag : UInt8) (offset : Nat) (object : Value)
  | setField (tag : UInt8) (offset : Nat) (object value : Value)
  | vectorLength (vector : Value)
  | element (vector : Value) (index : Nat)
  | setElement (vector : Value) (index : Nat) (value : Value)
  | contents (bytes : Value)
  | environment (context : Context)
  | parent (context : Context)
  | setEnvironment (context : Context) (value : Value)
  | openFrame (context : Context)
  | save (number : Nat) (value : Value)
  | saved (number index : Nat)
  | replace (number index : Nat) (value : Value)
  | dropFrame (number : Nat)

/-- What an operation answers. -/
inductive Answer where
  | made (answer : Except HeapError Value)
  | stats (stats : SweepStats)
  | tag (tag : Option UInt8)
  | value (value : Value)
  | found (value : Option Value)
  | count (number : Option Nat)
  | bytes (contents : Option (List UInt8))
  | done (success : Bool)
  | number (number : Nat)
  | nothing

namespace Operation

/-- Does something with a frame, unless it was dropped. -/
def onFrame (heap : Heap) (number : Nat) (action : Frame → Action Answer) :
    Action (Heap × Answer) := do
  match ← Action.frame? number with
  | none => return (heap, .nothing)
  | some frame => return (heap, ← action frame)

/-- A frame that was dropped is left alone. -/
theorem of_onFrame {heap after : Heap} {number : Nat} {action : Frame → Action Answer} {answer : Answer}
    {machine final : Machine}
    (ran : (onFrame heap number action).run machine = .ok (after, answer) final) : after = heap ∧
      (machine.frame? number = none ∧ final = machine ∨ ∃ frame, machine.frame? number = some frame ∧
        (action frame).run machine = .ok answer final) := by
  unfold onFrame at ran
  rw [Action.run_bind (show (Action.frame? number).run machine =
    .ok (machine.frame? number) machine from rfl)] at ran
  cases found : machine.frame? number with
  | none =>
      rw [found] at ran
      cases ran
      exact ⟨rfl, .inl ⟨rfl, rfl⟩⟩
  | some frame =>
      rw [found, EStateM.run_bind] at ran
      cases acts : (action frame).run machine with
      | error fault later =>
          rw [acts] at ran
          cases ran
      | ok result later =>
          rw [acts] at ran
          cases ran
          exact ⟨rfl, .inr ⟨frame, rfl, acts⟩⟩

def perform (heap : Heap) : Operation → Action (Heap × Answer)
  | make order => do
      let (heap, answer) ← order.perform heap
      return (heap, .made answer)
  | collect context => do
      let (heap, stats) ← heap.collect context
      return (heap, .stats stats)
  | scan context snapshot => do
      let (heap, stats) ← heap.collectWithSnapshot context snapshot
      return (heap, .stats stats)
  | append request => do
      let (heap, grown) ← heap.appendSlab request
      return (heap, .done grown)
  | register shape =>
      let (heap, tag) := heap.register shape
      return (heap, .tag tag)
  | slot object offset => do
      return (heap, .value ((← Action.memory).value (object.untagged + offset)))
  | setSlot object offset value => do
      Action.storeValue (object.untagged + offset) value
      return (heap, .nothing)
  | field tag offset object => do
      return (heap, .found (heap.fieldOf? (← Action.memory) tag offset object))
  | setField tag offset object value => do
      return (heap, .done (← heap.setFieldOf tag offset object value))
  | vectorLength vector => do
      return (heap, .count (heap.vectorLength? (← Action.memory) vector))
  | element vector index => do
      return (heap, .found (← heap.vectorRef? (← Action.memory) vector index))
  | setElement vector index value => do
      return (heap, .done (← heap.vectorSet vector index value))
  | contents bytes => do
      return (heap, .bytes (heap.bytes? (← Action.memory) bytes))
  | environment context => do
      return (heap, .value (context.environment (← Action.memory)))
  | parent context => do
      return (heap, .found ((context.parent? (← Action.memory)).map Context.toValue))
  | setEnvironment context value => do
      Action.onMemory (context.setEnvironment · value)
      return (heap, .nothing)
  | openFrame context => do
      return (heap, .number (← Action.openFrame context))
  | save number value => onFrame heap number fun frame => do
      return .number (← Action.saveValue number frame value)
  | saved number index => onFrame heap number fun frame => do
      return .value (← frame.get index)
  | replace number index value => do
      Action.replaceValue number index value
      return (heap, .nothing)
  | dropFrame number => onFrame heap number fun frame => do
      Action.dropFrame number frame
      return .nothing

section Found

open Machine

variable {heap : Heap} {machine : Machine} {number index : Nat} {frame : Frame} {value old : Value}
  (found : machine.frame? number = some frame)

include found

theorem run_onFrame (heap : Heap) (action : Frame → Action Answer) :
    (onFrame heap number action).run machine =
      (do return (heap, ← action frame) : Action (Heap × Answer)).run machine := by
  unfold onFrame
  rw [Action.run_bind (show (Action.frame? number).run machine = .ok (some frame) machine from
    congrArg (EStateM.Result.ok · machine) found)]

theorem run_onFrame_ok {action : Frame → Action Answer} {answer : Answer} {final : Machine}
    (ran : (action frame).run machine = .ok answer final) :
    (onFrame heap number action).run machine = .ok (heap, answer) final := by
  rw [run_onFrame found, Action.run_bind ran]
  rfl

theorem run_onFrame_error {action : Frame → Action Answer} {fault : Fault} {final : Machine}
    (ran : (action frame).run machine = .error fault final) :
    (onFrame heap number action).run machine = .error fault final := by
  rw [run_onFrame found, EStateM.run_bind, ran]

theorem run_saved (got : frame.get index = .ok value) :
    ((saved number index).perform heap).run machine = .ok (heap, .value value) machine := by
  refine run_onFrame_ok found ?_
  rw [got]
  rfl

theorem ensures_save : ((save number value).perform heap).Ensures machine fun answer final =>
    answer = (heap, .number frame.size) ∧ final.memory = machine.linkingMemory number frame ∧
      machine.Reframed final number (some ((machine.linking frame).save value)) := by
  have saves : (Action.saveValue number frame value).Ensures machine _ := ensures_saveValue found
  obtain ⟨_, final, ran, rfl, same⟩ := saves
  exact ⟨_, final, run_onFrame_ok found (Action.run_bind ran), rfl, same⟩

theorem ensures_replace (got : frame.get index = .ok old) :
    ((replace number index value).perform heap).Ensures machine fun answer final =>
      answer = (heap, .nothing) ∧ final.memory = machine.memory ∧
        machine.Reframed final number (some (frame.set index value)) := by
  have replaces : (Action.replaceValue number index value).Ensures machine _ := ensures_replaceValue found got
  obtain ⟨_, final, ran, same⟩ := replaces
  exact ⟨_, final, Action.run_bind ran, rfl, same⟩

theorem refuses_replace {fault : Fault} (fails : frame.get index = .error fault) :
    ((replace number index value).perform heap).run machine = .error fault machine := by
  rw [perform, EStateM.run_bind, refuses_replaceValue found fails]

theorem ensures_drop
    (innermost : frame.linked = true → frame.context.saves machine.memory = frameAddress number) :
    ((dropFrame number).perform heap).Ensures machine fun answer final => answer = (heap, .nothing) ∧
      final.memory = (if frame.linked then frame.context.setSaves machine.memory frame.outer
        else machine.memory) ∧ machine.Reframed final number none := by
  obtain ⟨_, final, ran, same⟩ := ensures_dropFrame found innermost
  exact ⟨_, final, run_onFrame_ok found (Action.run_bind ran), rfl, same⟩

theorem refuses_drop (linked : frame.linked = true)
    (buried : frame.context.saves machine.memory ≠ frameAddress number) :
    ((dropFrame number).perform heap).run machine = .error .framesOutOfOrder machine := by
  refine run_onFrame_error found ?_
  rw [EStateM.run_bind, refuses_dropFrame linked buried]

end Found

/-- An operation uses a heap as it is meant to be used. What it is given refers to what is allocated, it
saves in frames of contexts, and it writes into slots. -/
def Apt (heap : Heap) (machine : Machine) (allocated : Nat → Prop) : Operation → Prop
  | make order => order.Apt heap.shapes ∧ (∀ root ∈ order.root, allocated root.address) ∧
      ∀ value ∈ order.held, value.Refers allocated
  | collect context | scan context _ => allocated context.address
  | register shape => shape.Confined
  | setSlot object offset value => value.Refers allocated ∧ ∃ address, object.address? = some address ∧
      allocated address ∧ ∃ shape, heap.shapes.get? (machine.memory.tag address) = some shape ∧
        shape.Slot machine.memory address offset
  | setField tag offset object value => object.Refers allocated ∧ value.Refers allocated ∧
      ∃ shape, heap.shapes.get? tag = some shape ∧ ∀ memory object, shape.Slot memory object offset
  | setElement vector _ value => vector.Refers allocated ∧ value.Refers allocated ∧
      heap.shapes.get? Tag.vector = some .vector
  | setEnvironment context value => allocated context.address ∧
      machine.memory.tag context.address = Tag.context ∧ value.Refers allocated
  | openFrame _ => Machine.frameAddress (machine.frames.size + 1) ≤ Size.limit
  | save number value => value.Refers allocated ∧ ∀ frame, machine.frame? number = some frame →
      allocated frame.context.address ∧ machine.memory.tag frame.context.address = Tag.context
  | replace number _ value => value.Refers allocated ∧ ∀ frame, machine.frame? number = some frame →
      allocated frame.context.address
  | dropFrame number => ∀ frame, machine.frame? number = some frame →
      allocated frame.context.address ∧ machine.memory.tag frame.context.address = Tag.context
  | append _ | slot _ _ | field _ _ _ | vectorLength _ | element _ _ | contents _ | environment _
  | parent _ | saved _ _ => True

end Operation

end SlabHeap
