import SlabHeap.Proofs.PairedFrames
import SlabHeap.Proofs.Provisions

namespace SlabHeap

/-! Operations that stand for each other.

`Operation.counterpart` asks of a parallel heap what an operation asks of a heap. Both answer alike and stay
parallel, `Operation.accords`, if the operation uses its heap as it is meant to be used, reads what a heap is for,
and finds as much room on both machines.
-/

namespace Answer

def map (move : Value → Value) : Answer → Answer
  | made answer => made (answer.map move)
  | value held => value (move held)
  | found held => found (held.map move)
  | answer => answer

end Answer

namespace Operation

def map (move : Value → Value) (seat : Context → Context) (frame : Nat → Nat) : Operation → Operation
  | make order => make (order.map move seat)
  | collect context => collect (seat context)
  | scan context snapshot => scan (seat context) snapshot
  | append request => append request
  | register shape => register shape
  | slot object offset => slot (move object) offset
  | setSlot object offset value => setSlot (move object) offset (move value)
  | field tag offset object => field tag offset (move object)
  | setField tag offset object value => setField tag offset (move object) (move value)
  | vectorLength vector => vectorLength (move vector)
  | element vector index => element (move vector) index
  | setElement vector index value => setElement (move vector) index (move value)
  | contents bytes => contents (move bytes)
  | environment context => environment (seat context)
  | parent context => parent (seat context)
  | setEnvironment context value => setEnvironment (seat context) (move value)
  | openFrame context => openFrame (seat context)
  | save number value => save (frame number) (move value)
  | saved number index => saved (frame number) index
  | replace number index value => replace (frame number) index (move value)
  | dropFrame number => dropFrame (frame number)

/-- The operation that asks of a copy what this one asks of a heap. Links pair the frames of both. -/
def counterpart (op : Operation) (heap copy : Heap) (links : List (Nat × Nat)) : Operation :=
  op.map (heap.carry copy) (heap.carryContext copy) fun number => (links.lookup number).getD 0

/-- The links of frames after an operation and its counterpart. -/
def relink (machine image : Machine) (links : List (Nat × Nat)) : Operation → List (Nat × Nat)
  | openFrame _ => links ++ [(machine.frames.size, image.frames.size)]
  | dropFrame number => links.filter fun link => link.1 ≠ number
  | _ => links

/-- What an operation reads is a slot, a length, or the contents of bytes, and its frame is linked. It neither
looks for pointers by chance nor grows the heap by itself. -/
def Legible (heap : Heap) (machine : Machine) (allocated : Nat → Prop) (links : List (Nat × Nat)) :
    Operation → Prop
  | scan _ _ | append _ => False
  | slot object offset => ∃ address, object.address? = some address ∧ allocated address ∧
      ∃ shape, heap.shapes.get? (machine.memory.tag address) = some shape ∧ shape.Slot machine.memory address offset
  | field tag offset object => object.Refers allocated ∧
      ∃ shape, heap.shapes.get? tag = some shape ∧ ∀ memory object, shape.Slot memory object offset
  | vectorLength vector | element vector _ =>
      vector.Refers allocated ∧ heap.shapes.get? Tag.vector = some .vector
  | contents bytes => bytes.Refers allocated ∧ heap.shapes.get? Tag.bytes = some .bytes
  | environment context | parent context =>
      allocated context.address ∧ machine.memory.tag context.address = Tag.context
  | openFrame context => allocated context.address
  | save number _ | saved number _ | dropFrame number => ∃ other, (number, other) ∈ links
  | replace number _ _ => (∃ other, (number, other) ∈ links) ∧ ∀ frame, machine.frame? number = some frame →
      machine.memory.tag frame.context.address = Tag.context
  | _ => True

/-- Both machines have room for what an operation needs, or neither has. -/
def Accommodated (heap : Heap) (machine image : Machine) : Operation → Prop
  | make order => ∀ request, Size.alignUp? (max order.size blockUnit) blockUnit = some request →
      heap.RoomsAlike request machine image
  | openFrame _ => Machine.frameAddress (image.frames.size + 1) ≤ Size.limit
  | _ => True

/-- An operation and its counterpart are answered alike: values correspond, and new frames are linked. -/
def AnswersAlike (heap copy : Heap) (links : List (Nat × Nat)) : Operation → Answer → Answer → Prop
  | openFrame _, answer, other =>
      ∃ link ∈ links, answer = .number link.1 ∧ other = .number link.2
  | _, answer, other => other = answer.map (heap.carry copy)

end Operation

namespace Heap

variable {heap copy : Heap} {machine image final copyFinal : Machine} {links : List (Nat × Nat)}
  {tiling copied : Slab → List Block} {op : Operation} {answer copyAnswer : Heap × Answer}

/-- An operation and its counterpart were answered alike, and left heaps that are parallel again. -/
structure Accords (heap copy : Heap) (op : Operation) (links : List (Nat × Nat)) (answer : Heap × Answer)
    (final : Machine) (copyAnswer : Heap × Answer) (copyFinal : Machine) : Prop where
  parallel : ∃ taken copyTaken, answer.1.Parallel copyAnswer.1 links taken copyTaken final copyFinal
  prolongs : heap.Prolongs copy answer.1 copyAnswer.1
  alike : op.AnswersAlike answer.1 copyAnswer.1 links answer.2 copyAnswer.2

namespace Parallel

variable (parallel : heap.Parallel copy links tiling copied machine image)

include parallel

/-- A frame that is linked is taken for the one that it is linked to. -/
theorem lookup_eq {number other : Nat} (listed : (number, other) ∈ links) : links.lookup number = some other := by
  have apart := parallel.apart
  obtain ⟨front, back, rfl⟩ := List.append_of_mem listed
  refine List.lookup_eq_some_iff.mpr ⟨front, back, rfl, fun link before => ?_⟩
  exact bne_iff_ne.mpr ((List.pairwise_append.mp apart).2.2 link before _ List.mem_cons_self).1.symm

/-- Heaps that answered without changing. -/
theorem settled {answer other : Answer} (alike : op.AnswersAlike heap copy links answer other) :
    heap.Accords copy op links (heap, answer) machine (copy, other) image :=
  ⟨⟨tiling, copied, parallel⟩, .of_slabs rfl rfl, alike⟩

theorem registers {shape : Shape} (confined : shape.Confined) :
    (heap.register shape).1.Parallel (copy.register shape).1 links tiling copied machine image := by
  have retains {heap : Heap} {machine : Machine} {tiling : Slab → List Block} (isSealed : heap.Sealed tiling machine)
      (orderly : machine.Orderly) : heap.Retains (heap.register shape).1 tiling tiling machine machine :=
    ⟨isSealed.register confined, fun _ _ _ _ _ => rfl, fun _ _ found _ => found, orderly⟩
  have siblings : (heap.register shape).1.Siblings (copy.register shape).1 :=
    { parallel.toSiblings with shapes := by simp only [register, parallel.shapes] }
  exact parallel.extend (retains parallel.isSealed parallel.orderly) (retains parallel.copySealed parallel.copyOrderly)
    (.of_slabs rfl rfl) siblings parallel.carries parallel.scratch (fun _ _ known => ShapeTable.get?_register known)
    fun _ member _ => .inl member

end Parallel

end Heap

namespace Operation

open Heap Machine

variable {heap copy : Heap} {machine image : Machine} {links : List (Nat × Nat)} {tiling copied : Slab → List Block}
  {op : Operation} {number other : Nat} {frame copyFrame : Frame} {value : Value}

/-- The operation only looks at a heap. -/
def Reads : Operation → Prop
  | slot _ _ | field _ _ _ | vectorLength _ | element _ _ | contents _ | environment _ | parent _ | saved _ _ => True
  | _ => False

/-- The operation writes into slots. -/
def Writes : Operation → Prop
  | setSlot _ _ _ | setField _ _ _ _ | setElement _ _ _ | setEnvironment _ _ => True
  | _ => False

variable (parallel : heap.Parallel copy links tiling copied machine image)

include parallel

/-- What is read corresponds. -/
theorem accords_of_reads (reads : op.Reads) (legible : op.Legible heap machine (heap.Object tiling) links) :
    (op.perform heap).Abreast ((op.counterpart heap copy links).perform copy) machine image
      (heap.Accords copy op links) False := by
  have looks {answer other : Answer} (ran : (op.perform heap).run machine = .ok (heap, answer) machine)
      (copyRan : ((op.counterpart heap copy links).perform copy).run image = .ok (copy, other) image)
      (alike : op.AnswersAlike heap copy links answer other) :
      (op.perform heap).Abreast ((op.counterpart heap copy links).perform copy) machine image
        (heap.Accords copy op links) False := .answers ran copyRan (parallel.settled alike)
  cases op with
  | slot object offset =>
      obtain ⟨address, found, isObject, shape, known, slot⟩ := legible
      have refers : heap.RefersToObject tiling object := fun _ again => Option.some.inj (found.symm.trans again) ▸ isObject
      have moved : (heap.carry copy object).address? = some (heap.place copy address) := by
        rw [parallel.address?_carry refers, found, Option.map_some]
      refine looks rfl rfl (congrArg Answer.value ?_)
      rw [Value.untagged_eq found, Value.untagged_eq moved]
      exact parallel.value_eq isObject known slot
  | field tag offset object =>
      obtain ⟨refers, shape, known, slot⟩ := legible
      exact looks rfl rfl (congrArg Answer.found (parallel.fieldOf?_eq refers known slot))
  | vectorLength vector =>
      exact looks rfl rfl (congrArg Answer.count (parallel.vectorLength?_eq legible.1 legible.2))
  | element vector index =>
      have same := parallel.vectorRef?_eq legible.1 legible.2 index
      have reads (heap : Heap) (machine : Machine) (vector : Value) :
          ((element vector index).perform heap).run machine =
            (do return (heap, .found (← heap.vectorRef? machine.memory vector index)) :
              Action (Heap × Answer)).run machine := rfl
      cases got : heap.vectorRef? machine.memory vector index with
      | error fault =>
          rw [got] at same
          exact .fails ((reads heap machine vector).trans (by rw [got]; rfl))
            ((reads copy image (heap.carry copy vector)).trans (by rw [same]; rfl))
      | ok held =>
          rw [got] at same
          exact looks ((reads heap machine vector).trans (by rw [got]; rfl))
            ((reads copy image (heap.carry copy vector)).trans (by rw [same]; rfl)) rfl
  | contents bytes => exact looks rfl rfl (congrArg Answer.bytes (parallel.bytes?_eq legible.1 legible.2))
  | environment context => exact looks rfl rfl (congrArg Answer.value (parallel.environment_eq legible.1 legible.2))
  | parent context =>
      exact looks rfl rfl (congrArg Answer.found (parallel.parent?_eq legible.1 legible.2))
  | saved number index =>
      obtain ⟨other, listed⟩ := legible
      obtain ⟨frame, found, copyFrame, copyFound, echoed⟩ := parallel.echoed _ listed
      have same := echoed.get_eq index
      simp only [counterpart, map, parallel.lookup_eq listed, Option.getD_some] at looks ⊢
      cases got : frame.get index with
      | error fault =>
          rw [got] at same
          exact .fails (run_onFrame_error found (by rw [got]; rfl)) (run_onFrame_error copyFound (by rw [same]; rfl))
      | ok held =>
          rw [got] at same
          exact looks (run_saved found got) (run_saved copyFound same) rfl
  | _ => exact reads.elim

/-- What is written corresponds, and so does the heap then. -/
theorem accords_of_writes (writes : op.Writes) (apt : op.Apt heap machine (heap.Object tiling)) :
    (op.perform heap).Abreast ((op.counterpart heap copy links).perform copy) machine image
      (heap.Accords copy op links) False := by
  cases op with
  | setSlot object offset value =>
      obtain ⟨refers, address, found, isObject, shape, known, slot⟩ := apt
      have leads : heap.RefersToObject tiling object := fun _ again => Option.some.inj (found.symm.trans again) ▸ isObject
      have moved : (heap.carry copy object).address? = some (heap.place copy address) := by
        rw [parallel.address?_carry leads, found, Option.map_some]
      have stores := parallel.stores isObject known slot refers
      rw [← Value.untagged_eq moved, ← Value.untagged_eq found] at stores
      exact .answers rfl rfl (stores.settled rfl)
  | setField tag offset object value =>
      obtain ⟨owner, refers, shape, known, slot⟩ := apt
      have same := parallel.objectOf?_eq owner tag
      have writes (heap : Heap) (machine : Machine) (object value : Value) :
          ((setField tag offset object value).perform heap).run machine =
            (do return (heap, .done (← Action.storeIfPresent
              ((heap.objectOf? machine.memory tag object).map (· + offset)) value)) :
                Action (Heap × Answer)).run machine := rfl
      cases found : heap.objectOf? machine.memory tag object with
      | none =>
          rw [found] at same
          exact .answers ((writes heap machine object value).trans (by rw [found]; rfl))
            ((writes copy image _ _).trans (by rw [same]; rfl)) (parallel.settled rfl)
      | some address =>
          rw [found] at same
          obtain ⟨leads, tagged⟩ := Upheld.objectOf?_eq_some found
          exact .answers ((writes heap machine object value).trans (by rw [found]; rfl))
            ((writes copy image _ _).trans (by rw [same]; rfl))
            ((parallel.stores (owner address leads) (tagged.symm ▸ known) (slot _ _) refers).settled rfl)
  | setElement vector index value =>
      obtain ⟨owner, refers, known⟩ := apt
      have writes (heap : Heap) (machine : Machine) (vector value : Value) :
          ((setElement vector index value).perform heap).run machine =
            (do
              let done ← (do Action.storeIfPresent (← heap.elementAddress? machine.memory vector index) value :
                Action Bool)
              return (heap, .done done) : Action (Heap × Answer)).run machine := rfl
      rcases parallel.elementAddress?_alike owner known index with
        ⟨fault, fails, copyFails⟩ | ⟨none, copyNone⟩ | ⟨object, offset, isObject, tagged, slot, found, copyFound⟩
      · exact .fails ((writes heap machine vector value).trans (by rw [fails]; rfl))
          ((writes copy image _ _).trans (by rw [copyFails]; rfl))
      · exact .answers ((writes heap machine vector value).trans (by rw [none]; rfl))
          ((writes copy image _ _).trans (by rw [copyNone]; rfl)) (parallel.settled rfl)
      · exact .answers ((writes heap machine vector value).trans (by rw [found]; rfl))
          ((writes copy image _ _).trans (by rw [copyFound]; rfl))
          ((parallel.stores isObject (tagged.symm ▸ known) slot refers).settled rfl)
  | setEnvironment context value =>
      obtain ⟨isObject, tagged, refers⟩ := apt
      have known : heap.shapes.get? (machine.memory.tag context.address) = some .context := tagged.symm ▸ rfl
      exact .answers rfl rfl
        ((parallel.stores isObject known (Shape.slot_context.mpr (.inr rfl)) refers).settled rfl)
  | _ => exact writes.elim

omit parallel in
/-- An operation that neither takes nor gives storage alters a sealed heap. -/
theorem alters_of_sealed {final : Machine} {answer : Answer}
    (ran : (op.perform heap).run machine = .ok (heap, answer) final) (isSealed : heap.Sealed tiling machine)
    (orderly : machine.Orderly) (only : op.Edits) (apt : op.Apt heap machine (heap.Object tiling)) :
    heap.Alters (heap.RefersToObject tiling) tiling machine final :=
  (op.alters only isSealed.toUpheld orderly isSealed.counted (fun _ isObject => isObject.node) (fun _ refers => refers)
    apt ran).2

section Frames

variable (found : machine.frame? number = some frame) (copyFound : image.frame? other = some copyFrame)
  (listed : (number, other) ∈ links) (isContext : heap.IsContext tiling machine.memory frame.context)

include found copyFound listed isContext

theorem isContext_image : copy.IsContext copied image.memory copyFrame.context := by
  rw [(parallel.frame_echoed listed found copyFound).context]
  exact ⟨parallel.mirrors.object isContext.1, (parallel.tag_eq isContext.1).trans isContext.2⟩

theorem accords_of_save (refers : heap.RefersToObject tiling value) :
    ((save number value).perform heap).Abreast ((save other (heap.carry copy value)).perform copy) machine image
      (heap.Accords copy (save number value) links) False := by
  have copyContext := isContext_image parallel found copyFound listed isContext
  have echoed := parallel.frame_echoed listed found copyFound
  have saves : ((save number value).perform heap).Ensures machine _ := ensures_save found
  have copySaves : ((save other (heap.carry copy value)).perform copy).Ensures image _ := ensures_save copyFound
  obtain ⟨_, final, ran, rfl, memory, reframed⟩ := saves
  obtain ⟨_, copyFinal, copyRan, rfl, copyMemory, copyReframed⟩ := copySaves
  have alters := alters_of_sealed ran parallel.isSealed parallel.orderly trivial
    ⟨refers, fun _ again => Option.some.inj (found.symm.trans again) ▸ isContext⟩
  have copyAlters := alters_of_sealed copyRan parallel.copySealed parallel.copyOrderly trivial
    ⟨parallel.refers refers, fun _ again => Option.some.inj (copyFound.symm.trans again) ▸ copyContext⟩
  have words {machine final : Machine} {number : Nat} {frame : Frame}
      (memory : final.memory = machine.linkingMemory number frame) : final.memory = machine.memory ∨
        ∃ link, final.memory = frame.context.setSaves machine.memory link := by
    rw [Machine.linkingMemory] at memory
    split at memory
    · exact .inl memory
    · exact .inr ⟨_, memory⟩
  -- The frame goes in front of the chain of its context on both sides, or is on it already.
  have chains : ∃ chain : List (Nat × Nat), chain ⊆ links ∧
      final.Chained frame.context (frame.context.saves final.memory) (chain.map Prod.fst) ∧
        copyFinal.Chained copyFrame.context (copyFrame.context.saves copyFinal.memory) (chain.map Prod.snd) := by
    obtain ⟨chain, inLinks, chained, copyChained⟩ := parallel.chains listed found copyFound isContext
    have joins := chained.saves found parallel.orderly memory reframed
    have copyJoins := copyChained.saves copyFound parallel.copyOrderly copyMemory copyReframed
    rw [echoed.linked] at copyJoins
    cases linked : frame.linked with
    | true =>
        rw [linked, if_pos rfl] at joins copyJoins
        exact ⟨chain, inLinks, joins, copyJoins⟩
    | false =>
        rw [linked, if_neg Bool.false_ne_true] at joins copyJoins
        exact ⟨(number, other) :: chain, List.cons_subset.mpr ⟨listed, inLinks⟩, joins, copyJoins⟩
  have linking := parallel.toLinking.refill listed alters.orderly copyAlters.orderly reframed copyReframed rfl rfl
    (echoed.linking.save (parallel.upheld.tiled.refersInside refers))
  have still := parallel.reframes listed found copyFound isContext alters copyAlters (words memory) (words copyMemory)
    reframed copyReframed linking (fun _ inLinks _ => inLinks) chains
  refine .answers ran copyRan (still.settled ?_)
  rw [echoed.size_eq]
  rfl

theorem accords_of_replace (refers : heap.RefersToObject tiling value) (index : Nat) :
    ((replace number index value).perform heap).Abreast ((replace other index (heap.carry copy value)).perform copy)
      machine image (heap.Accords copy (replace number index value) links) False := by
  have copyContext := isContext_image parallel found copyFound listed isContext
  have echoed := parallel.frame_echoed listed found copyFound
  have same := echoed.get_eq index
  cases got : frame.get index with
  | error fault =>
      rw [got] at same
      exact .fails (refuses_replace found got) (refuses_replace copyFound same)
  | ok old =>
      rw [got] at same
      have replaces : ((replace number index value).perform heap).Ensures machine _ := ensures_replace found got
      have copyReplaces : ((replace other index (heap.carry copy value)).perform copy).Ensures image _ :=
        ensures_replace copyFound same
      obtain ⟨_, final, ran, rfl, memory, reframed⟩ := replaces
      obtain ⟨_, copyFinal, copyRan, rfl, copyMemory, copyReframed⟩ := copyReplaces
      have alters := alters_of_sealed ran parallel.isSealed parallel.orderly trivial
        ⟨refers, fun _ again => Option.some.inj (found.symm.trans again) ▸ isContext.1⟩
      have copyAlters := alters_of_sealed copyRan parallel.copySealed parallel.copyOrderly trivial
        ⟨parallel.refers refers, fun _ again => Option.some.inj (copyFound.symm.trans again) ▸ copyContext.1⟩
      obtain ⟨chain, inLinks, chained, copyChained⟩ := parallel.chains listed found copyFound isContext
      have linking := parallel.toLinking.refill listed alters.orderly copyAlters.orderly reframed copyReframed rfl rfl
        (echoed.set (parallel.upheld.tiled.refersInside refers) index)
      have still : heap.Parallel copy links tiling copied final copyFinal := by
        refine parallel.reframes listed found copyFound isContext alters copyAlters (.inl memory) (.inl copyMemory)
          reframed copyReframed linking (fun _ inLinks _ => inLinks) ⟨chain, inLinks, ?_, ?_⟩
        · rw [memory]
          exact chained.refill found reframed Frame.links_set
        · rw [copyMemory]
          exact copyChained.refill copyFound copyReframed Frame.links_set
      exact .answers ran copyRan (still.settled rfl)

theorem accords_of_dropFrame : ((dropFrame number).perform heap).Abreast ((dropFrame other).perform copy) machine image
    (heap.Accords copy (dropFrame number) (links.filter fun link => link.1 ≠ number)) False := by
  have copyContext := isContext_image parallel found copyFound listed isContext
  have echoed := parallel.frame_echoed listed found copyFound
  have innermost := parallel.innermost_iff listed found copyFound isContext
  by_cases buried : frame.linked = true ∧ frame.context.saves machine.memory ≠ frameAddress number
  · exact .fails (refuses_drop found buried.1 buried.2)
      (refuses_drop copyFound (echoed.linked.trans buried.1) (mt innermost.mp buried.2))
  -- The frame is dropped in order, or both sides refuse to drop it.
  have ordered : frame.linked = true → frame.context.saves machine.memory = frameAddress number :=
    fun linked => not_not.mp fun other => buried ⟨linked, other⟩
  have copyOrdered : copyFrame.linked = true → copyFrame.context.saves image.memory = frameAddress other :=
    fun linked => innermost.mpr (ordered (echoed.linked.symm.trans linked))
  have drops : ((dropFrame number).perform heap).Ensures machine _ := ensures_drop found ordered
  have copyDrops : ((dropFrame other).perform copy).Ensures image _ := ensures_drop copyFound copyOrdered
  obtain ⟨_, final, ran, rfl, memory, reframed⟩ := drops
  obtain ⟨_, copyFinal, copyRan, rfl, copyMemory, copyReframed⟩ := copyDrops
  have alters := alters_of_sealed ran parallel.isSealed parallel.orderly trivial
    (fun _ again => Option.some.inj (found.symm.trans again) ▸ isContext)
  have copyAlters := alters_of_sealed copyRan parallel.copySealed parallel.copyOrderly trivial
    (fun _ again => Option.some.inj (copyFound.symm.trans again) ▸ copyContext)
  have words {machine final : Machine} {frame : Frame} (memory : final.memory =
      if frame.linked then frame.context.setSaves machine.memory frame.outer else machine.memory) :
      final.memory = machine.memory ∨ ∃ link, final.memory = frame.context.setSaves machine.memory link := by
    split at memory
    · exact .inr ⟨_, memory⟩
    · exact .inl memory
  have chains : ∃ chain : List (Nat × Nat), chain ⊆ links.filter (fun link => link.1 ≠ number) ∧
      final.Chained frame.context (frame.context.saves final.memory) (chain.map Prod.fst) ∧
        copyFinal.Chained copyFrame.context (copyFrame.context.saves copyFinal.memory) (chain.map Prod.snd) := by
    obtain ⟨chain, inLinks, chained, copyChained⟩ := parallel.chains listed found copyFound isContext
    have leaves := chained.drops found parallel.orderly ordered memory reframed
    have copyLeaves := copyChained.drops copyFound parallel.copyOrderly copyOrdered copyMemory copyReframed
    rw [echoed.linked] at copyLeaves
    -- Nothing is found under the number of the frame any more.
    have gone {rest : List (Nat × Nat)} {address : Nat} (within : rest ⊆ links)
        (further : final.Chained frame.context address (rest.map Prod.fst)) :
        rest ⊆ links.filter fun link => link.1 ≠ number := by
      intro link isLink
      refine List.mem_filter.mpr ⟨within isLink, decide_eq_true fun same => ?_⟩
      obtain ⟨_, still, _⟩ := further.present (List.mem_map_of_mem isLink)
      cases (same ▸ still).symm.trans reframed.frame
    cases linked : frame.linked with
    | true =>
        rw [linked, if_pos rfl, ← List.map_tail] at leaves copyLeaves
        exact ⟨chain.tail, gone (fun _ isLink => inLinks (List.mem_of_mem_tail isLink)) leaves, leaves, copyLeaves⟩
    | false =>
        rw [linked, if_neg Bool.false_ne_true] at leaves copyLeaves
        exact ⟨chain, gone inLinks leaves, leaves, copyLeaves⟩
  have linking := parallel.toLinking.drops listed alters.orderly copyAlters.orderly reframed copyReframed
  have still := parallel.reframes listed found copyFound isContext alters copyAlters (words memory) (words copyMemory)
    reframed copyReframed linking
    (fun link inLinks distinct => List.mem_filter.mpr ⟨inLinks, decide_eq_true distinct⟩) chains
  exact .answers ran copyRan (still.settled rfl)

end Frames

/-- An operation on a frame is put to the frame that is linked to it. -/
theorem accords_of_frames (frames : op.Frames) (apt : op.Apt heap machine (heap.Object tiling))
    (legible : op.Legible heap machine (heap.Object tiling) links) (accommodated : op.Accommodated heap machine image) :
    (op.perform heap).Abreast ((op.counterpart heap copy links).perform copy) machine image
      (heap.Accords copy op (op.relink machine image links)) False := by
  cases op with
  | openFrame context =>
      refine .answers rfl rfl ((parallel.opens legible apt accommodated).settled ?_)
      exact ⟨_, List.mem_append_right _ List.mem_cons_self, rfl, rfl⟩
  | save number value =>
      obtain ⟨other, listed⟩ := legible
      obtain ⟨frame, found, copyFrame, copyFound, _⟩ := parallel.echoed _ listed
      simp only [counterpart, map, parallel.lookup_eq listed, Option.getD_some]
      exact accords_of_save parallel found copyFound listed (apt.2 frame found) apt.1
  | replace number index value =>
      obtain ⟨⟨other, listed⟩, tagged⟩ := legible
      obtain ⟨frame, found, copyFrame, copyFound, _⟩ := parallel.echoed _ listed
      simp only [counterpart, map, parallel.lookup_eq listed, Option.getD_some]
      exact accords_of_replace parallel found copyFound listed ⟨apt.2 frame found, tagged frame found⟩ apt.1 index
  | dropFrame number =>
      obtain ⟨other, listed⟩ := legible
      obtain ⟨frame, found, copyFrame, copyFound, _⟩ := parallel.echoed _ listed
      simp only [counterpart, map, parallel.lookup_eq listed, Option.getD_some]
      exact accords_of_dropFrame parallel found copyFound listed (apt frame found)
  | _ => exact frames.elim

/-- An operation and its counterpart are answered alike and leave heaps that are parallel, whatever the operation
is. Only the first heap may be unable to count what it ever freed. -/
theorem accords (apt : op.Apt heap machine (heap.Object tiling))
    (legible : op.Legible heap machine (heap.Object tiling) links) (accommodated : op.Accommodated heap machine image) :
    (op.perform heap).Abreast ((op.counterpart heap copy links).perform copy) machine image
      (heap.Accords copy op (op.relink machine image links)) (heap.Exhausted tiling) := by
  cases op with
  | make order =>
      refine (parallel.perform apt.1 apt.2.1 apt.2.2 accommodated).bind ?_
      rintro _ final _ copyFinal ⟨taken, copyTaken, still, prolongs, same⟩
      exact .pure ⟨⟨taken, copyTaken, still⟩, prolongs, congrArg Answer.made same⟩
  | collect context =>
      have named : ∀ handle ∈ some context, heap.Object tiling handle.address := fun handle same =>
        Option.mem_some.mp same ▸ apt
      refine (parallel.collects named).bind ?_
      rintro _ final _ copyFinal ⟨stats, swept, copySwept, rfl, rfl, collects, _⟩
      exact .pure ⟨⟨swept, copySwept, collects.toParallel⟩, collects.prolongs, rfl⟩
  | register shape =>
      refine .answers rfl rfl ⟨⟨tiling, copied, parallel.registers apt⟩, .of_slabs rfl rfl, ?_⟩
      exact congrArg (fun shapes : ShapeTable => Answer.tag (shapes.register shape).2) parallel.shapes
  | scan | append => exact legible.elim
  | openFrame | save | replace | dropFrame =>
      refine Action.Abreast.certain ?_
      exact accords_of_frames parallel trivial apt legible accommodated
  | setSlot | setField | setElement | setEnvironment =>
      refine Action.Abreast.certain ?_
      exact accords_of_writes parallel trivial apt
  | slot | field | vectorLength | element | contents | environment | parent | saved =>
      refine Action.Abreast.certain ?_
      exact accords_of_reads parallel trivial legible

end Operation

end SlabHeap
