import SlabHeap.Heap.Objects

namespace SlabHeap.Command

/-! The churn job: lists of pairs are built, most are dropped, and the collector is asked what it
did. -/

/-- An operation on a heap that may be refused. -/
abbrev Step (α : Type) := ExceptT HeapError (StateT Heap Action) α

namespace Step

/-- Runs an operation that hands back the heap. -/
def call {α : Type} (operation : Heap → Action (Heap × Except HeapError α)) : Step α :=
  ExceptT.mk fun heap => do
    let (heap, result) ← operation heap
    return (result, heap)

/-- Runs an action on the machine. -/
def act {α : Type} (action : Action α) : Step α :=
  ExceptT.mk fun heap => do return (.ok (← action), heap)

/-- The heap as it is now. -/
def heap : Step Heap := ExceptT.mk fun heap => return (.ok heap, heap)

/-- Applies a checked write; a refused write changes nothing. -/
def write (change : Heap → Action Bool) : Step Unit := do
  let _ ← act (change (← heap))

end Step

/-- Runs a job on a new heap with one context. -/
def withHeap {α : Type} (settings : Settings) (job : Context → Step α) :
    Action (Except HeapError α) := do
  match ← Heap.new settings .standard {} with
  | .error refusal => return .error refusal
  | .ok heap =>
      let whole : Step α := do job (← Step.call (·.makeContext none))
      let (result, _) ← whole heap
      return result

/-- Puts the numbers from `index` on in front of a list, `count` of them. -/
def buildList (context : Context) (index : Nat) (list : Value) : Nat → Step Value
  | 0 => return list
  | count + 1 => do
      let number ← Step.act (Value.ofInt index : Action Value)
      let list ← Step.call (·.allocPair context number list)
      buildList context (index + 1) list count

/-- Builds a list in each round and keeps every `keepEvery`-th one in the environment. -/
def churnRounds (context : Context) (listLength keepEvery round : Nat) : Nat → Step Unit
  | 0 => return
  | count + 1 => do
      let list ← buildList context 0 .nil listLength
      if round % keepEvery = 0 then
        let environment := context.environment (← Step.act Action.memory)
        let kept ← Step.call (·.allocPair context list environment)
        Step.act (Action.onMemory (context.setEnvironment · kept))
      churnRounds context listLength keepEvery (round + 1) count

/-- What the churn job reports. -/
structure ChurnReport where
  counters : Counters
  swept : SweepStats
  totalSize : Nat
  slabs : Nat
  freeBytes : Nat
  deriving DecidableEq, Repr

/-- The whole job. -/
def churn (rounds listLength keepEvery : Nat) (context : Context) : Step ChurnReport := do
  churnRounds context listLength (max keepEvery 1) 0 rounds
  let swept ← Step.call fun heap => do
    let (heap, swept) ← heap.collect context
    return (heap, .ok swept)
  let heap ← Step.heap
  let memory ← Step.act Action.memory
  let freeBytes ← Step.act (heap.freeBytes memory : Action Nat)
  return {
    counters := heap.counters
    swept
    totalSize := heap.totalSize
    slabs := heap.slabs.length
    freeBytes }

/-- The report as it is printed. -/
def ChurnReport.render (report : ChurnReport) : String :=
  s!"collections:   {report.counters.collections}\n" ++
    s!"bytes freed:   {report.counters.bytesFreed}\n" ++
    s!"growths:       {report.counters.growths}\n" ++
    s!"last sweep:    {report.swept.sumFreed} bytes, largest run {report.swept.maxFreed}\n" ++
    s!"heap:          {report.totalSize} bytes in {report.slabs} slab(s), " ++
    s!"{report.freeBytes} free\n"

end SlabHeap.Command
