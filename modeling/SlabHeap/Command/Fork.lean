import SlabHeap.Command.Churn
import SlabHeap.Heap.Duplication

namespace SlabHeap.Command

/-! The fork job: a ring of pairs is built, the heap is forked, and the copy is checked to be
self-contained. -/

/-- Adds nodes behind `last`: each is a pair whose car is a vector that points back at `head`. The
answer is the last node. -/
def buildNodes (context : Context) (head last : Value) (index : Nat) : Nat → Step Value
  | 0 => return last
  | count + 1 => do
      let node ← Step.call (·.allocPair context .nil .nil)
      Step.write (·.setCdr last node)
      let number ← Step.act (Value.ofInt index : Action Value)
      let back ← Step.call (·.allocVector context 2 number)
      Step.write (·.vectorSet back 0 head)
      Step.write (·.setCar node back)
      buildNodes context head node (index + 1) count

/-- Builds a ring of pairs and keeps it in the environment of the context. -/
def buildRing (context : Context) (nodes : Nat) : Step Value := do
  let head ← Step.call (·.allocPair context .nil .nil)
  Step.act (Action.onMemory (context.setEnvironment · head))
  let last ← buildNodes context head head 1 (nodes - 1)
  Step.write (·.setCdr last head)
  return head

/-- The values that pairs and vectors of a heap hold. -/
def contents (heap : Heap) (memory : Memory) (value : Value) : Except Fault (List Value) :=
  match heap.object? memory value with
  | none => .ok []
  | some object =>
      if memory.tag object = Tag.pair then
        .ok ((heap.car? memory value).toList ++ (heap.cdr? memory value).toList)
      else if memory.tag object = Tag.vector then do
        let length := (heap.vectorLength? memory value).getD 0
        let elements ← (List.range length).mapM (heap.vectorRef? memory value)
        return elements.filterMap id
      else .ok []

/-- What a survey has met. -/
structure Survey where
  /-- What was met: a one stands at each address that was referred to. -/
  seen : Memory := .empty
  /-- How many they are. -/
  references : Nat := 0
  /-- How many of them are no objects of the heap. -/
  escaped : Nat := 0

namespace Survey

def contains (survey : Survey) (value : Value) : Bool :=
  survey.seen.read value.bits.toNat = 1

/-- Counts a new reference. -/
def add (survey : Survey) (value : Value) (inHeap : Bool) : Survey :=
  { seen := survey.seen.write value.bits.toNat 1
    references := survey.references + 1
    escaped := if inHeap then survey.escaped else survey.escaped + 1 }

/-- The first reference on a work list that is new, and the work behind it. -/
def nextUnseen (survey : Survey) : List Value → Option (Value × List Value)
  | [] => none
  | value :: rest =>
      if value.isReference && !survey.contains value then some (value, rest)
      else survey.nextUnseen rest

/-- Follows the references on a work list, each one once, in at most `bound` steps. -/
def follow (heap : Heap) (memory : Memory) (work : List Value) (survey : Survey) :
    Nat → Except Fault Survey
  | 0 => .ok survey
  | bound + 1 =>
      match survey.nextUnseen work with
      | none => .ok survey
      | some (value, rest) => do
          let survey := survey.add value (heap.object? memory value).isSome
          follow heap memory ((← contents heap memory value).reverseAux rest) survey bound

end Survey

/-- Surveys what can be reached from a value. Every step meets a new reference. -/
def survey (heap : Heap) (memory : Memory) (root : Value) : Except Fault Survey :=
  Survey.follow heap memory [root] {} Size.wordLimit

/-- What the fork job reports. -/
structure ForkReport where
  sourceReferences : Nat
  copyReferences : Nat
  escaped : Nat
  freed : Nat
  deriving DecidableEq, Repr

/-- The whole job. -/
def fork (nodes : Nat) (keepOwnership : Bool) (context : Context) : Step ForkReport := do
  let ring ← buildRing context (max nodes 1)
  let (copy, copyContext) ← Step.call fun heap => do
    return (heap, ← heap.fork context keepOwnership)
  let source ← Step.heap
  let memory ← Step.act Action.memory
  let ofSource ← Step.act (survey source memory ring : Action Survey)
  let ofCopy ← Step.act (survey copy memory (copyContext.environment memory) : Action Survey)
  let (_, swept) ← Step.act (copy.collect copyContext)
  return {
    sourceReferences := ofSource.references
    copyReferences := ofCopy.references
    escaped := ofCopy.escaped
    freed := swept.sumFreed }

/-- Whether the copy refers to nothing outside itself and to as much as its source. -/
def ForkReport.selfContained (report : ForkReport) : Bool :=
  report.escaped = 0 && report.copyReferences = report.sourceReferences

/-- The report as it is printed. -/
def ForkReport.render (report : ForkReport) : String :=
  s!"source references: {report.sourceReferences}\n" ++
    s!"copy references:   {report.copyReferences}\n" ++
    s!"escaping the copy: {report.escaped}\n" ++
    s!"copy collection freed {report.freed} bytes\n"

end SlabHeap.Command
