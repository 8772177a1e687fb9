import SlabHeap.Heap.Collection

namespace SlabHeap

/-! Conservative roots. A snapshot is a list of words of which nobody knows whether they are values;
an object is a root if a word equals its address or the reference to it. -/

structure Snapshot where
  words : List UInt64
  deriving DecidableEq, Repr

namespace Snapshot

/-- Whether a word equals an address or the reference to it. -/
def names (snapshot : Snapshot) (address : Nat) : Bool :=
  snapshot.words.contains (.ofNat address) ||
    snapshot.words.contains (Value.reference address).bits

end Snapshot

namespace Heap

/-- Whether the settings let a word keep an object of this tag. -/
def preserves (heap : Heap) (tag : UInt8) : Bool :=
  match heap.settings.preserveTag with
  | none => true
  | some preserved => preserved = tag

/-- Marks from the unmarked objects that a snapshot names. -/
def markNamed (heap : Heap) (snapshot : Snapshot) : Action Unit := do
  unless snapshot.words.isEmpty do
    Slab.foldAll heap.slabs heap.shapes heap.scrutiny
      (fun _ object => do
        let header := (← Action.memory).header object
        if !header.isMarked && snapshot.names object && heap.preserves header.tag then
          Action.note (.conservativeRoot object header.tag)
          heap.mark [.reference object])
      ()

/-- A collection from a context, the heap's own roots, and what a snapshot names. -/
def collectWithSnapshot (heap : Heap) (context : Context) (snapshot : Snapshot) :
    Action (Heap × SweepStats) := do
  heap.mark (heap.roots (some context))
  heap.markNamed snapshot
  heap.finishCollection (some context)

/-- The addresses of the contexts that name this heap. -/
def ownContexts (heap : Heap) : Action (List Nat) :=
  Slab.foldAll heap.slabs heap.shapes heap.scrutiny
    (fun found object => do
      let memory ← Action.memory
      let own := memory.tag object = Tag.context && (Context.mk object).isIn heap memory
      return if own then object :: found else found)
    []

/-- The context of this heap that the first word naming one names. -/
def findContext (heap : Heap) (snapshot : Snapshot) : Action (Option Context) := do
  let contexts ← heap.ownContexts
  let memory ← Action.memory
  return snapshot.words.findSome? fun word =>
    let address := (Value.mk word).address?.getD word.toNat
    if contexts.contains address then Context.ofValue? heap memory (.reference address) else none

end Heap

end SlabHeap
