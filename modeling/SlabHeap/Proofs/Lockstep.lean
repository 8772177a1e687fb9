import SlabHeap.Proofs.Builds
import SlabHeap.Proofs.Deliveries
import SlabHeap.Proofs.Departures

namespace SlabHeap

/-! Builds of a heap in lockstep.

Whatever is asked of a heap as it is meant to be used, another build of it does the same: it allocates where the
heap does, `Heap.concurs_allocateBlock`, and answers as it does, `Operation.concurs`.
-/

open SlabHeap.Action Block

namespace Action

theorem deaf_create (size maxSize : Nat) : Deaf (Slab.create size maxSize) := by
  unfold Slab.create
  split
  · split
    · refine (deaf_reserve _).bind fun start => ?_
      cases start with
      | none => exact deaf_pure none
      | some start => exact (deaf_onMemory _).bind fun _ => deaf_pure _
    · exact deaf_pure none
  · exact deaf_pure none

theorem deaf_takeFrom (request : Nat) (slabs : List Slab) : Deaf (Heap.takeFrom request slabs) := by
  induction slabs with
  | nil => exact deaf_pure none
  | cons slab rest ih =>
      refine deaf_memory.bind fun memory => (deaf_check _).bind fun found => ?_
      cases found with
      | none => exact ih
      | some fit => exact (deaf_onMemory _).bind fun _ => deaf_pure _

end Action

namespace Heap

variable {heap : Heap} {machine image : Machine} {tiling : Slab → List Block} {terms : Terms} {features : Features}
  {origin : Memory} {context : Option Context}

/-- All builds count what they refuse alike. -/
theorem concurs_countRefusal (agrees : machine.Agrees terms image) :
    (liftM heap.countRefusal : Action Heap).Concurs terms (fun result answer _ => answer = result.built features)
      (liftM (heap.built features).countRefusal) machine image := by
  rw [countRefusal_eq, countRefusal_eq, show (heap.built features).counters = heap.counters from rfl]
  split
  · exact .answers rfl rfl rfl agrees
  · exact .fails rfl rfl agrees

theorem concurs_appendSlab (request : Nat) (agrees : machine.Agrees terms image) :
    (heap.appendSlab request).Concurs terms (Rebuilt features)
      ((heap.built features).appendSlab request) machine image := by
  unfold appendSlab
  have size : nextSlabSize? (heap.built features).lastSlab.size request (heap.built features).totalSize
      (heap.built features).settings.maxSize =
        nextSlabSize? heap.lastSlab.size request heap.totalSize heap.settings.maxSize := rfl
  dsimp only
  rw [size]
  cases nextSlabSize? heap.lastSlab.size request heap.totalSize heap.settings.maxSize with
  | none => exact .answers rfl rfl rfl (agrees.noting fun _ => nofun)
  | some size =>
      refine (deaf_create size heap.settings.maxSize).first agrees fun made mid later agrees => ?_
      cases made with
      | none => exact .answers rfl rfl rfl (agrees.noting fun _ => nofun)
      | some slab =>
          dsimp only
          rw [show (heap.built features).totalSize = heap.totalSize from rfl,
            show (heap.built features).counters = heap.counters from rfl]
          refine (deaf_check _).first agrees fun total mid later agrees => ?_
          have notes : Deaf (note (.grown size total)) := deaf_note nofun
          refine notes.first agrees fun _ mid later agrees => ?_
          exact (deaf_check _).first agrees fun counters mid later agrees => .pure rfl agrees

theorem concurs_growFor (swept : SweepStats) (request : Nat) (agrees : machine.Agrees terms image) :
    (heap.growFor swept request).Concurs terms (fun result answer _ => answer = result.built features)
      ((heap.built features).growFor swept request) machine image := by
  unfold growFor
  refine deaf_memory.first agrees fun memory mid later agrees => ?_
  refine (deaf_check (heap.freeBytes memory)).first agrees fun free mid later agrees => ?_
  refine (deaf_check (Size.sub heap.totalSize free)).first agrees fun live mid later agrees => ?_
  have wants : wantsGrowth (heap.built features).settings swept live (heap.built features).totalSize request =
    wantsGrowth heap.settings swept live heap.totalSize request := rfl
  rw [wants]
  split
  · have settings : (heap.built features).settings = heap.settings := rfl
    have total : (heap.built features).totalSize = heap.totalSize := rfl
    dsimp only
    rw [settings, total]
    split
    · exact .answers rfl rfl rfl (agrees.noting fun _ => nofun)
    · exact (concurs_appendSlab request agrees).bind fun _ _ _ _ same agrees => .pure (congrArg Prod.fst same) agrees
  · exact .pure rfl agrees

theorem concurs_allocateBlock (weak : heap.features.weakReferences = true) (firm : heap.Firm tiling origin machine)
    (comparable : heap.Comparable terms features tiling origin)
    (rooted : ∀ value ∈ heap.roots context, heap.RefersToObject tiling value) (size : Nat)
    (agrees : machine.Agrees terms image) :
    (heap.allocateBlock context size).Concurs terms (Rebuilt features)
      ((heap.built features).allocateBlock context size) machine image := by
  unfold allocateBlock
  cases Size.alignUp? (max size blockUnit) blockUnit with
  | none =>
      refine (concurs_countRefusal agrees).bind ?_
      rintro refused _ mid later rfl agrees
      exact .answers rfl rfl rfl (agrees.noting fun _ => nofun)
  | some request =>
      dsimp only
      rw [show (heap.built features).slabs = heap.slabs from rfl]
      refine (deaf_takeFrom request heap.slabs).observed agrees fun found mid later ran still => ?_
      cases found with
      | some block => exact .pure rfl still
      | none =>
          obtain rfl := of_takeFrom_none ran
          refine (concurs_collectFrom weak firm comparable rooted still).bind ?_
          rintro ⟨swept, stats⟩ _ mid later rfl agrees
          refine (concurs_growFor stats request agrees).bind ?_
          rintro grown _ mid later rfl agrees
          rw [show (grown.built features).slabs = grown.slabs from rfl]
          refine (deaf_takeFrom request grown.slabs).first agrees fun found mid later agrees => ?_
          cases found with
          | some block => exact .pure rfl agrees
          | none =>
              refine (concurs_countRefusal agrees).bind ?_
              rintro refused _ mid later rfl agrees
              exact .answers rfl rfl rfl (agrees.noting fun _ => nofun)

section Forks

variable {source target : Slab} {blocks : List Block} {copyIdentity : Nat} {keepOwnership : Bool} {root : Context}

theorem deaf_relocateSlots (source target : Slab) (object offset count : Nat) :
    Deaf (Slab.relocateSlots source target object offset count) := by
  induction count generalizing offset with
  | zero => exact deaf_pure ()
  | succ count ih =>
      refine deaf_memory.bind fun memory => (deaf_check _).bind fun word => ?_
      cases (Value.mk word).address? with
      | none => exact ih _
      | some address =>
          refine Deaf.ite ?_ (ih _)
          exact (deaf_check _).bind fun moved => (deaf_storeValue _ _).bind fun _ => ih _

theorem deaf_adaptCopy (heap : Heap) (copyIdentity : Nat) (source target : Slab) (keepOwnership : Bool) (object : Nat) :
    Deaf (heap.adaptCopy copyIdentity source target keepOwnership object) := by
  refine (deaf_check _).bind fun copy => deaf_memory.bind fun memory => (deaf_check _).bind fun runs => ?_
  refine (deaf_forM (fun run => deaf_relocateSlots source target copy run.1 run.2) runs).bind fun _ => ?_
  have copied : Deaf (note (.copied object copy)) := deaf_note nofun
  have cleaned : Deaf (do
      let now ← Action.memory
      if now.tag copy = Tag.context then
        onMemory ((Context.mk copy).setSaves · 0)
        if (Context.mk copy).heapWord now = heap.identity then
          store (copy + Layout.Context.heap) (.ofNat copyIdentity)
      note (.copied object copy)) := by
    refine deaf_memory.bind fun now => Deaf.ite ((deaf_onMemory _).bind fun _ => ?_) copied
    exact Deaf.ite ((deaf_store _ _).bind fun _ => copied) copied
  cases keepOwnership with
  | true => exact cleaned
  | false => exact (deaf_onHeader _ _).bind fun _ => cleaned

theorem concurs_copySlab (beside : source.Beside target) (layout : source.Layout heap.shapes machine.memory blocks)
    (valid : ∀ block ∈ blocks, block.kind = .object → (machine.memory.header block.start).isValid = true)
    (calm : terms.alarms.isSome → ∀ block ∈ blocks, block.kind ≠ .bare) (agrees : machine.Agrees terms image) :
    (heap.copySlab root copyIdentity source target keepOwnership).Concurs terms (fun result answer _ => answer = result)
      ((heap.built features).copySlab root copyIdentity source target keepOwnership) machine image := by
  obtain ⟨copied, after, ran, transferred, laid, untouched, _⟩ := copyBytes_eq_ok layout beside
  generalize told : Notice.duplicating source.start source.size target.start target.size = notice
  have harmless : notice.level ≠ .error := by
    rw [← told]
    nofun
  have raw : Raw source target blocks machine.memory ((machine.logging (.notice notice)).withMemory after) :=
    raw_of_transferred layout beside transferred untouched
  have sound {mid : Machine} {rest : List Block} (adapting : heap.Adapting source target blocks keepOwnership
      copyIdentity machine.memory ((machine.logging (.notice notice)).withMemory after) mid rest) (block : Block)
      (member : block ∈ blocks) (isObject : block.kind = .object) :
      (mid.memory.header block.start).isValid = true := by
    have bounds := layout.bounds member
    rw [Memory.header, adapting.same layout beside raw block.start (by omega) (by omega)]
    exact valid block member isObject
  unfold copySlab
  rw [told]
  refine .after (show (note notice).run machine = .ok () (machine.logging (.notice notice)) from rfl)
    (show (note notice).run image = .ok () (image.logging (.notice notice)) from rfl) ?_
  refine .after (show Action.memory.run _ = .ok machine.memory _ from rfl)
    (show Action.memory.run _ = .ok image.memory _ from rfl) ?_
  rw [agrees.memory, ran]
  simp only [check_ok, pure_bind]
  refine .after (show (onMemory fun _ => after).run _ = .ok () _ from rfl)
    (show (onMemory fun _ => after).run _ = .ok () _ from rfl) ?_
  have agrees := (agrees.noting fun _ => harmless).withMemory after
  refine (Slab.concurs_foldObjects (fun _ rest mid => heap.Adapting source target blocks keepOwnership copyIdentity
      machine.memory ((machine.logging (.notice notice)).withMemory after) mid rest)
    (fun _ _ _ adapting => layout.keep (adapting.same layout beside raw))
    (fun _ block _ _ adapting suffix => sound adapting block (suffix.mem List.mem_cons_self))
    (fun _ _ _ _ adapting quiet => adapting.quiet quiet) (fun _ _ _ _ adapting _ other => adapting.passOver other)
    (fun _ block rest mid later adapting suffix isObject agrees => ?_) calm (.start raw) agrees).bind ?_
  · exact ((deaf_adaptCopy heap copyIdentity source target keepOwnership block.start _ _ _ agrees).ensuring
      (adapting.visit layout beside raw suffix isObject)).weaken fun _ _ _ both => ⟨rfl, both.2⟩
  · rintro _ _ mid later _ agrees
    refine ((deaf_check _).bind fun copy => deaf_memory.bind fun now => ?_) _ _ _ agrees
    exact Deaf.ite (deaf_pure _) (deaf_throw _)

theorem concurs_fork (isSealed : heap.Sealed tiling machine)
    (calm : terms.alarms.isSome → ∀ block ∈ heap.blocks tiling, block.kind ≠ .bare) (agrees : machine.Agrees terms image) :
    (heap.fork root keepOwnership).Concurs terms
      (fun result answer _ => answer = result.map fun made => (made.1.built features, made.2))
      ((heap.built features).fork root keepOwnership) machine image := by
  unfold fork
  refine .after (show Action.memory.run machine = .ok machine.memory machine from rfl)
    (show Action.memory.run image = .ok image.memory image from rfl) ?_
  rw [agrees.memory, show (heap.built features).checkSource root machine.memory =
    heap.checkSource root machine.memory from rfl]
  cases checked : heap.checkSource root machine.memory with
  | error refusal => exact .pure rfl agrees
  | ok source =>
      obtain ⟨single, _⟩ := of_checkSource checked
      have inHeap : source ∈ heap.slabs := by simp [single]
      have layout := isSealed.tiled.layout source inHeap
      refine (deaf_create source.size source.maxSize).before agrees (Slab.ensures_create heap.shapes) ?_
      rintro made mid later (⟨rfl, _⟩ | ⟨target, rfl, sized, _, _, created⟩) agrees
      · exact .pure rfl agrees
      have size : target.size = source.size :=
        Option.some.inj (sized.symm.trans (roundedSize?_of_placed layout.placed))
      have hosted := isSealed.hosted source inHeap
      have beside : source.Beside target :=
        ⟨layout.placed, created.layout.placed, Nat.le_of_eq size.symm, (created.vacant.apart hosted).symm⟩
      have same : ∀ address, source.start ≤ address → address < source.stop →
          mid.memory.read address = machine.memory.read address :=
        fun address above below => created.outside address (hosted.reserved above below)
      have inBlocks {block : Block} (member : block ∈ tiling source) : block ∈ heap.blocks tiling :=
        mem_blocks.mpr ⟨source, inHeap, member⟩
      simp only [ofSlab, bind_assoc, pure_bind]
      refine deaf_newIdentity.observed agrees fun identity final last ran agrees => ?_
      have unchanged : final.memory = mid.memory := by
        cases ran
        rfl
      refine (concurs_copySlab beside (unchanged ▸ layout.keep same) (fun block member isObject => ?_)
        (fun asked block member => calm asked block (inBlocks member)) agrees).bind ?_
      · have bounds := layout.bounds member
        rw [unchanged, Memory.header, same block.start (by omega) (by omega)]
        exact (isSealed.objects block (inBlocks member) isObject).valid
      · rintro moved _ _ _ rfl agrees
        exact .pure rfl agrees

end Forks

end Heap

namespace Order

open Heap

variable {heap : Heap} {machine image : Machine} {tiling : Slab → List Block} {terms : Terms} {features : Features}
  {order : Order}

theorem deaf_write (order : Order) (identity start : Nat) : Deaf (order.write identity start) := by
  cases order with
  | context parent =>
      refine (deaf_store _ _).bind fun _ => (deaf_store _ _).bind fun _ => ?_
      exact (deaf_storeValue _ _).bind fun _ => deaf_storeValue _ _
  | pair root car cdr => exact (deaf_storeValue _ _).bind fun _ => deaf_storeValue _ _
  | vector root length value =>
      exact (deaf_check _).bind fun _ => (deaf_storeValue _ _).bind fun _ => deaf_onMemory _
  | bytes root contents => exact (deaf_check _).bind fun _ => (deaf_storeValue _ _).bind fun _ => deaf_onMemory _
  | weakBox root target => exact deaf_storeValue _ _
  | ephemeron root key value => exact (deaf_storeValue _ _).bind fun _ => deaf_storeValue _ _
  | object root tag size | storage root size => exact deaf_pure ()

theorem settle_built (order : Order) (heap prepared : Heap) (features : Features) :
    order.settle (heap.built features) (prepared.built features) = (order.settle heap prepared).built features := by
  cases order <;> rfl

theorem concurs_deliver (answer : Heap × Except HeapError Nat) (agrees : machine.Agrees terms image) :
    (order.deliver heap answer).Concurs terms (Rebuilt features)
      (order.deliver (heap.built features) (answer.1.built features, answer.2)) machine image := by
  obtain ⟨prepared, given⟩ := answer
  cases given with
  | error refusal =>
      simp only [deliver, settle_built]
      exact .pure rfl agrees
  | ok start =>
      simp only [deliver, settle_built]
      have fills {mid later : Machine} (agrees : mid.Agrees terms later) :
          (do
            order.write prepared.identity start
            return (order.settle heap prepared, .ok (← order.refer start)) :
              Action (Heap × Except HeapError Value)).Concurs terms (Rebuilt features) (do
            order.write prepared.identity start
            return ((order.settle heap prepared).built features, .ok (← order.refer start))) mid later := by
        refine (deaf_write order _ _).first agrees fun _ _ _ agrees => ?_
        exact (deaf_check _).first agrees fun _ _ _ agrees => .pure rfl agrees
      cases order.tag? with
      | none => exact fills agrees
      | some tag => exact (deaf_onMemory _).first agrees fun _ _ _ agrees => fills agrees

/-- All builds meet the same orders, and refuse the same ones. -/
theorem concurs (isSealed : heap.Sealed tiling machine) (weak : heap.features.weakReferences = true)
    (comparable : heap.Comparable terms features tiling machine.memory) (apt : order.Apt heap.shapes)
    (roots : ∀ root ∈ order.root, heap.Object tiling root.address)
    (held : ∀ value ∈ order.held, heap.RefersToObject tiling value) (agrees : machine.Agrees terms image) :
    (order.perform heap).Concurs terms (Rebuilt features) (order.perform (heap.built features)) machine image := by
  have registered : ∀ tag ∈ order.tag?, (heap.built features).shapes.isRegistered tag = true := apt.registered
  rw [order.perform_eq apt.registered, order.perform_eq registered]
  split
  · refine (concurs_countRefusal agrees).bind ?_
    rintro refused _ mid later rfl agrees
    exact .pure rfl agrees
  · have holds := isSealed.holding held
    have weak : (heap.holding order.held).features.weakReferences = true := weak
    refine (concurs_allocateBlock weak (holds.firm weak) ⟨comparable.calm, comparable.weak⟩ (holds.rooted roots)
      order.size agrees).bind ?_
    rintro answer _ mid later rfl agrees
    exact concurs_deliver answer agrees

end Order

namespace Operation

open Heap

variable {heap : Heap} {machine image : Machine} {tiling : Slab → List Block} {terms : Terms} {features : Features}

/-- What leaves the heap as it is answers alike in all builds. -/
theorem concurs_answer {α : Type} {action : Action α} (deaf : action.Deaf) (answer : α → Answer)
    (agrees : machine.Agrees terms image) :
    (do return (heap, answer (← action)) : Action (Heap × Answer)).Concurs terms (Rebuilt features)
      (do return (heap.built features, answer (← action))) machine image :=
  deaf.first agrees fun _ _ _ agrees => .pure rfl agrees

theorem concurs_onFrame {action : Frame → Action Answer} (deaf : ∀ frame, (action frame).Deaf) (number : Nat)
    (agrees : machine.Agrees terms image) :
    (onFrame heap number action).Concurs terms (Rebuilt features) (onFrame (heap.built features) number action)
      machine image := by
  refine (deaf_frame? number).first agrees fun found mid later agrees => ?_
  cases found with
  | none => exact .pure rfl agrees
  | some frame => exact concurs_answer (deaf frame) id agrees

/-- All builds answer alike, and stay alike, when they are used as they are meant to be. -/
theorem concurs (op : Operation) (isSealed : heap.Sealed tiling machine) (weak : heap.features.weakReferences = true)
    (comparable : heap.Comparable terms features tiling machine.memory) (apt : op.Apt heap machine (heap.Object tiling))
    (agrees : machine.Agrees terms image) :
    (op.perform heap).Concurs terms (Rebuilt features) (op.perform (heap.built features)) machine image := by
  have firm := isSealed.firm weak
  have rooted {context : Context} (isObject : heap.Object tiling context.address) :
      ∀ value ∈ heap.roots (some context), heap.RefersToObject tiling value :=
    isSealed.rooted fun handle same => by
      cases same
      exact isObject
  cases op with
  | make order =>
      refine (order.concurs isSealed weak comparable apt.1 apt.2.1 apt.2.2 agrees).bind ?_
      rintro answer _ mid later rfl agrees
      exact .pure rfl agrees
  | collect context =>
      refine (concurs_collectFrom weak firm comparable (rooted apt) agrees).bind ?_
      rintro answer _ mid later rfl agrees
      exact .pure rfl agrees
  | scan context snapshot =>
      refine (concurs_collectWithSnapshot weak firm comparable (rooted apt) snapshot agrees).bind ?_
      rintro answer _ mid later rfl agrees
      exact .pure rfl agrees
  | append request =>
      refine (concurs_appendSlab request agrees).bind ?_
      rintro answer _ mid later rfl agrees
      exact .pure rfl agrees
  | register shape => exact .pure rfl agrees
  | slot object offset => exact concurs_answer deaf_memory _ agrees
  | setSlot object offset value => exact concurs_answer (deaf_storeValue _ _) (fun _ => .nothing) agrees
  | field tag offset object => exact concurs_answer deaf_memory _ agrees
  | setField tag offset object value =>
      exact concurs_answer (deaf_memory.bind fun memory => deaf_storeIfPresent _ value) .done agrees
  | vectorLength vector => exact concurs_answer deaf_memory _ agrees
  | element vector index =>
      exact deaf_memory.first agrees fun memory _ _ agrees => concurs_answer (deaf_check _) .found agrees
  | setElement vector index value =>
      refine concurs_answer (deaf_memory.bind fun memory => ?_) .done agrees
      exact (deaf_check (heap.elementAddress? memory vector index)).bind fun _ => deaf_storeIfPresent _ value
  | contents bytes => exact concurs_answer deaf_memory _ agrees
  | environment context => exact concurs_answer deaf_memory _ agrees
  | parent context => exact concurs_answer deaf_memory _ agrees
  | setEnvironment context value => exact concurs_answer (deaf_onMemory _) (fun _ => .nothing) agrees
  | openFrame context => exact concurs_answer (deaf_openFrame context) .number agrees
  | save number value => exact concurs_onFrame (fun frame => (deaf_saveValue _ _ _).bind fun _ => deaf_pure _) number agrees
  | saved number index => exact concurs_onFrame (fun frame => (deaf_check _).bind fun _ => deaf_pure _) number agrees
  | replace number index value => exact concurs_answer (deaf_replaceValue _ _ _) (fun _ => .nothing) agrees
  | dropFrame number => exact concurs_onFrame (fun frame => (deaf_dropFrame _ _).bind fun _ => deaf_pure _) number agrees

end Operation

end SlabHeap
