import SlabHeap.Proofs.Operations

namespace SlabHeap

/-! Object stores that never reclaim anything.

A `Store` numbers its objects in the order in which they were made, and never takes one back. A `Request`
is what a program asks of it: `Store.reply` is what it is told, and `Store.after` what becomes of the
store. With an address for each object, `Request.operation` is the same request to a heap.
-/

/-- A value: an object by its number, or what refers to no object. -/
inductive Datum where
  | atom (value : Value)
  | object (number : Nat)

/-- What an object holds. Of a context, also its linked frames, innermost first. -/
inductive Record where
  | context (parent environment : Datum) (frames : List Nat)
  | pair (car cdr : Datum)
  | vector (elements : List Datum)
  | bytes (contents : List UInt8)

/-- A save frame: how many values were saved, and what is found under each index. -/
structure Saving where
  context : Nat
  size : Nat := 0
  slots : Nat → Datum := fun _ => .atom .no

structure Store where
  records : List Record := []
  globals : List Datum := []
  frames : Nat → Option Saving := fun _ => none
  /-- The number of the frame that is opened next. -/
  opened : Nat

/-- The two parts of a pair. -/
inductive Part where
  | car
  | cdr

inductive Request where
  | context (parent : Option Nat)
  | pair (root : Nat) (car cdr : Datum)
  | vector (root length : Nat) (value : Datum)
  | bytes (root : Nat) (contents : List UInt8)
  | collect (root : Nat)
  | append (size : Nat)
  | part (part : Part) (cell : Datum)
  | setPart (part : Part) (cell value : Datum)
  | length (vector : Datum)
  | element (vector : Datum) (index : Nat)
  | setElement (vector : Datum) (index : Nat) (value : Datum)
  | contents (bytes : Datum)
  | environment (context : Nat)
  | parent (context : Nat)
  | setEnvironment (context : Nat) (value : Datum)
  | openFrame (context : Nat)
  | save (frame : Nat) (value : Datum)
  | saved (frame index : Nat)
  | replace (frame index : Nat) (value : Datum)
  | dropFrame (frame : Nat)

/-- What a program is told: of a new object, its number. -/
inductive Reply where
  | made (number : Nat)
  | swept
  | grown
  | datum (datum : Datum)
  | found (datum : Option Datum)
  | count (number : Option Nat)
  | bytes (contents : Option (List UInt8))
  | done (success : Bool)
  | number (number : Nat)
  | nothing

namespace Datum

/-- An atom, or an object of a kind. -/
def Among (alive : Nat → Prop) : Datum → Prop
  | atom value => value.address? = none
  | object number => alive number

/-- The value that stands for a datum where objects have these addresses. -/
def value (names : Nat → Nat) : Datum → Value
  | atom value => value
  | object number => .reference (names number)

theorem Among.mono {alive more : Nat → Prop} {datum : Datum} (among : datum.Among alive)
    (include_ : ∀ number, alive number → more number) : datum.Among more := by
  cases datum with
  | atom value => exact among
  | object number => exact include_ number among

/-- The value depends on the addresses of objects of the kind alone. -/
theorem value_congr {alive : Nat → Prop} {names others : Nat → Nat} {datum : Datum}
    (among : datum.Among alive) (same : ∀ number, alive number → others number = names number) :
    datum.value others = datum.value names := by
  cases datum with
  | atom value => rfl
  | object number => exact congrArg Value.reference (same number among)

end Datum

namespace Part

def offset : Part → Nat
  | car => Layout.Pair.car
  | cdr => Layout.Pair.cdr

/-- One of two. -/
def of (car cdr : Datum) : Part → Datum
  | .car => car
  | .cdr => cdr

end Part

namespace Record

def tag : Record → UInt8
  | context _ _ _ => Tag.context
  | pair _ _ => Tag.pair
  | vector _ => Tag.vector
  | bytes _ => Tag.bytes

def shape : Record → Shape
  | context _ _ _ => .context
  | pair _ _ => .pair
  | vector _ => .vector
  | bytes _ => .bytes

def data : Record → List Datum
  | context parent environment _ => [parent, environment]
  | pair car cdr => [car, cdr]
  | vector elements => elements
  | bytes _ => []

def frames : Record → List Nat
  | context _ _ frames => frames
  | pair _ _ | vector _ | bytes _ => []

def environment? : Record → Option Datum
  | context _ environment _ => some environment
  | pair _ _ | vector _ | bytes _ => none

def parent? : Record → Option Datum
  | context (.object parent) _ _ => some (.object parent)
  | context (.atom _) _ _ | pair _ _ | vector _ | bytes _ => none

def part? (part : Part) : Record → Option Datum
  | pair car cdr => some (part.of car cdr)
  | context _ _ _ | vector _ | bytes _ => none

def elements? : Record → Option (List Datum)
  | vector elements => some elements
  | context _ _ _ | pair _ _ | bytes _ => none

def contents? : Record → Option (List UInt8)
  | bytes contents => some contents
  | context _ _ _ | pair _ _ | vector _ => none

def setPart (part : Part) (value : Datum) : Record → Record
  | pair car cdr => pair (match part with | .car => value | .cdr => car)
      (match part with | .car => cdr | .cdr => value)
  | record => record

def setElement (index : Nat) (value : Datum) : Record → Record
  | vector elements => vector (elements.set index value)
  | record => record

def setEnvironment (value : Datum) : Record → Record
  | context parent _ frames => context parent value frames
  | record => record

def relink (change : List Nat → List Nat) : Record → Record
  | context parent environment frames => context parent environment (change frames)
  | record => record

end Record

namespace Saving

def values (saving : Saving) : List Datum := (List.range saving.size).map saving.slots

def set (saving : Saving) (index : Nat) (value : Datum) : Saving :=
  { saving with slots := Function.update saving.slots index value }

/-- A value can be read under the index. The fixed slots can always be read. -/
def Has (saving : Saving) (index : Nat) : Prop := index < 16 ∨ index < saving.size

def save (saving : Saving) (value : Datum) : Saving :=
  { saving.set saving.size value with size := saving.size + 1 }

end Saving

namespace Store

def look (store : Store) : Datum → Option Record
  | .atom _ => none
  | .object number => store.records[number]?

def modify (store : Store) (number : Nat) (change : Record → Record) : Store :=
  { store with records := store.records.modify number change }

def modifyAt (store : Store) (change : Record → Record) : Datum → Store
  | .atom _ => store
  | .object number => store.modify number change

def putFrame (store : Store) (number : Nat) (saving : Option Saving) : Store :=
  { store with frames := Function.update store.frames number saving }

/-- The object is a context with these frames, innermost first. -/
def IsContext (store : Store) (number : Nat) : Prop :=
  ∃ record, store.records[number]? = some record ∧ record.tag = Tag.context

def saved (store : Store) (frame : Nat) : List Datum :=
  ((store.frames frame).map Saving.values).getD []

/-- What an object with the record keeps alive. -/
def held (store : Store) (record : Record) : List Datum :=
  record.data ++ record.frames.flatMap store.saved

/-- The objects that can be reached from some values. -/
inductive Reach (store : Store) (roots : List Datum) : Nat → Prop
  | root {number : Nat} (listed : .object number ∈ roots) : Reach store roots number
  | held {owner number : Nat} {record : Record} (reached : Reach store roots owner)
      (found : store.records[owner]? = some record) (listed : .object number ∈ store.held record) :
      Reach store roots number

/-- What a request tells the program. -/
def reply (store : Store) : Request → Reply
  | .context _ | .pair _ _ _ | .vector _ _ _ | .bytes _ _ => .made store.records.length
  | .collect _ => .swept
  | .append _ => .grown
  | .part part cell => .found ((store.look cell).bind (Record.part? part))
  | .setPart part cell _ => .done ((store.look cell).bind (Record.part? part)).isSome
  | .length vector => .count (((store.look vector).bind Record.elements?).map List.length)
  | .element vector index => .found (((store.look vector).bind Record.elements?).bind (·[index]?))
  | .setElement vector index _ =>
      .done (((store.look vector).bind Record.elements?).bind (·[index]?)).isSome
  | .contents bytes => .bytes ((store.look bytes).bind Record.contents?)
  | .environment context =>
      .datum (((store.records[context]?).bind Record.environment?).getD (.atom .no))
  | .parent context => .found ((store.records[context]?).bind Record.parent?)
  | .openFrame _ => .number store.opened
  | .save frame _ => .number (((store.frames frame).map Saving.size).getD 0)
  | .saved frame index => .datum (((store.frames frame).map (·.slots index)).getD (.atom .no))
  | .setEnvironment _ _ | .replace _ _ _ | .dropFrame _ => .nothing

/-- What becomes of the store, but for new objects. -/
def update (store : Store) : Request → Store
  | .setPart part cell value => store.modifyAt (Record.setPart part value) cell
  | .setElement vector index value => store.modifyAt (Record.setElement index value) vector
  | .setEnvironment context value => store.modify context (Record.setEnvironment value)
  | .openFrame context =>
      { store.putFrame store.opened (some { context }) with opened := store.opened + 1 }
  | .save frame value =>
      match store.frames frame with
      | some saving =>
          -- A frame joins those of its context with the first value.
          (if saving.size = 0 then store.modify saving.context (Record.relink (frame :: ·))
            else store).putFrame frame (some (saving.save value))
      | none => store
  | .replace frame index value =>
      match store.frames frame with
      | some saving => store.putFrame frame (some (saving.set index value))
      | none => store
  | .dropFrame frame =>
      match store.frames frame with
      | some saving =>
          (if saving.size = 0 then store
            else store.modify saving.context (Record.relink List.tail)).putFrame frame none
      | none => store
  | _ => store

end Store

namespace Request

/-- What a request makes, if it is granted. -/
def record? : Request → Option Record
  | context origin => some (.context ((origin.map Datum.object).getD (.atom .no)) (.atom .nil) [])
  | pair _ car cdr => some (.pair car cdr)
  | vector _ count value => some (.vector (List.replicate count value))
  | bytes _ stored => some (.bytes stored)
  | _ => none

/-- The object that a request made, and its address. -/
def made? (request : Request) : Answer → Option (Record × Nat)
  | .made (.ok value) => request.record?.map fun record => (record, value.untagged)
  | _ => none

def roots : Request → List Datum
  | context origin => (origin.map Datum.object).toList
  | pair root car cdr => [car, cdr, .object root]
  | vector root _ value => [value, .object root]
  | bytes root _ | collect root => [.object root]
  | _ => []

/-- A request that reads an object. -/
def Reads : Request → Prop
  | part _ _ | length _ | element _ _ | contents _ | environment _ | parent _ => True
  | _ => False

/-- The request to a heap where objects have these addresses. -/
def operation (names : Nat → Nat) : Request → Operation
  | context origin => .make (.context (origin.map fun origin => ⟨names origin⟩))
  | pair root car cdr => .make (.pair ⟨names root⟩ (car.value names) (cdr.value names))
  | vector root count value => .make (.vector ⟨names root⟩ count (value.value names))
  | bytes root stored => .make (.bytes ⟨names root⟩ stored)
  | collect root => .collect ⟨names root⟩
  | append size => .append size
  | part side cell => .field Tag.pair side.offset (cell.value names)
  | setPart side cell value => .setField Tag.pair side.offset (cell.value names) (value.value names)
  | length sequence => .vectorLength (sequence.value names)
  | element sequence index => .element (sequence.value names) index
  | setElement sequence index value => .setElement (sequence.value names) index (value.value names)
  | contents sequence => .contents (sequence.value names)
  | environment handle => .environment ⟨names handle⟩
  | parent handle => .parent ⟨names handle⟩
  | setEnvironment handle value => .setEnvironment ⟨names handle⟩ (value.value names)
  | openFrame handle => .openFrame ⟨names handle⟩
  | save frame value => .save frame (value.value names)
  | saved frame index => .saved frame index
  | replace frame index value => .replace frame index (value.value names)
  | dropFrame frame => .dropFrame frame

/-- A program may make the request: the objects in it are alive, contexts are contexts, an index is one
that a frame has, and linked frames are dropped innermost first. -/
def Apt (store : Store) (alive : Nat → Prop) : Request → Prop
  | context origin => ∀ handle ∈ origin, alive handle ∧ store.IsContext handle
  | pair root car cdr => (alive root ∧ store.IsContext root) ∧ car.Among alive ∧ cdr.Among alive
  | vector root _ value => (alive root ∧ store.IsContext root) ∧ value.Among alive
  | bytes handle _ | collect handle | environment handle | parent handle =>
      alive handle ∧ store.IsContext handle
  | append _ => True
  | part _ object | length object | element object _ | contents object => object.Among alive
  | setPart _ object value | setElement object _ value => object.Among alive ∧ value.Among alive
  | setEnvironment handle value => (alive handle ∧ store.IsContext handle) ∧ value.Among alive
  | openFrame handle => (alive handle ∧ store.IsContext handle) ∧
      Machine.frameAddress (store.opened + 1) ≤ Size.limit
  | save frame value => value.Among alive ∧ ∃ saving, store.frames frame = some saving ∧
      (saving.size = 0 → alive saving.context ∧ store.IsContext saving.context)
  | saved frame index => ∃ saving, store.frames frame = some saving ∧ saving.Has index
  | replace frame index value => value.Among alive ∧ ∃ saving, store.frames frame = some saving ∧
      saving.Has index
  | dropFrame frame => ∃ saving, store.frames frame = some saving ∧ (saving.size ≠ 0 →
      alive saving.context ∧ ∃ record, store.records[saving.context]? = some record ∧
        record.tag = Tag.context ∧ record.frames.head? = some frame)

end Request

namespace Store

/-- The store once a request was answered. -/
def after (store : Store) (request : Request) (answer : Answer) : Store :=
  match request.made? answer with
  | some (record, _) => { store with records := store.records ++ [record] }
  | none => store.update request

def naming (store : Store) (names : Nat → Nat) (request : Request) (answer : Answer) : Nat → Nat :=
  match request.made? answer with
  | some (_, address) => Function.update names store.records.length address
  | none => names

/-- The objects that are known then: a new one, and those that a collection on the way could reach. -/
def Known (store : Store) (known : Nat → Prop) (request : Request) (answer : Answer) (heap later : Heap)
    (number : Nat) : Prop :=
  (request.made? answer).isSome ∧ number = store.records.length ∨
    known number ∧ (later.counters.collections = heap.counters.collections ∨
      store.Reach (store.globals ++ request.roots) number)

end Store

/-- A heap answers what the store replies, where objects have these addresses. A request for a new
object may be refused. -/
def Reply.Shown (names : Nat → Nat) : Reply → Answer → Prop
  | made fresh, .made answer => ∀ value, answer = .ok value → value = .reference (names fresh)
  | swept, .stats _ | grown, .done _ | nothing, .nothing => True
  | datum held, .value value => value = held.value names
  | found held, .found value => value = held.map (Datum.value names)
  | count total, .count length => length = total
  | bytes contents, .bytes stored => stored = contents
  | done success, .done performed => performed = success
  | number total, .number answered => answered = total
  | _, _ => False

end SlabHeap
