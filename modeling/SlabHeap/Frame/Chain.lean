import SlabHeap.Context

namespace SlabHeap

/-! The life of save frames: a frame is opened for a context, joins its chain with the first value,
and leaves it when it is dropped. Linked frames must be dropped innermost first. -/

namespace Action

/-- Opens a frame, which is not linked yet. The answer is its number. -/
def openFrame (context : Context) : Action Nat := do
  let number := (← get).frames.size
  modify fun machine => { machine with frames := machine.frames.push (some { context }) }
  return number

/-- The frame with a number, unless it was dropped. -/
def frame? (number : Nat) : Action (Option Frame) := do return ((← get).frames[number]?).join

def setFrame (number : Nat) (frame : Option Frame) : Action Unit :=
  modify fun machine =>
    { machine with frames := machine.frames.setIfInBounds number frame }

/-- Makes a frame the innermost one of its context, if it is not linked yet. -/
def linkFrame (number : Nat) (frame : Frame) : Action Unit := do
  unless frame.linked do
    let outer := frame.context.saves (← memory)
    onMemory (frame.context.setSaves · (Machine.frameAddress number))
    setFrame number (some { frame with outer, linked := true })

/-- Changes the values of a frame. -/
def changeFrame (number : Nat) (change : Frame → Frame) : Action Unit :=
  modify fun machine => { machine with frames := machine.frames.modify number (·.map change) }

/-- Saves a value in a frame. The answer is the index under which it is found again. -/
def saveValue (number : Nat) (frame : Frame) (value : Value) : Action Nat := do
  linkFrame number frame
  let index := frame.size
  changeFrame number (·.save value)
  return index

/-- Replaces a value that a frame holds. A dropped frame holds none. -/
def replaceValue (number index : Nat) (value : Value) : Action Unit := do
  let some frame ← frame? number | return
  let _ ← frame.get index
  changeFrame number (·.set index value)

/-- Ends a frame. If it is linked, it must be the innermost one of its context. -/
def dropFrame (number : Nat) (frame : Frame) : Action Unit := do
  if frame.linked then
    if frame.context.saves (← memory) = Machine.frameAddress number then
      onMemory (frame.context.setSaves · frame.outer)
    else throw .framesOutOfOrder
  setFrame number none

end Action

end SlabHeap
