import SlabHeap.Proofs.Histories
import SlabHeap.Proofs.Lockstep
import SlabHeap.Proofs.Tandem

namespace SlabHeap

/-! Several heaps in several builds.

A program asks heaps for operations and for forks, errand by errand. `Heap.Sealed.builds_agree`: whatever it does with
sealed heaps, builds that check references and objects do the same and have nothing to report, and so do builds that
do not know of weak slots, as long as there are none.
-/

open SlabHeap.Action Block

namespace Heap

/-- No storage is in use without a header. -/
def WithHeaders (heap : Heap) (memory : Memory) : Prop :=
  ∀ tiling, heap.Tiled memory tiling → ∀ block ∈ heap.blocks tiling, block.kind ≠ .bare

/-- No allocated object has a slot of the kind. -/
def Lacks (heap : Heap) (kind : Shape → Memory → Nat → Nat → Prop) (memory : Memory) : Prop :=
  ∀ object, heap.Allocated memory object → ∀ shape, heap.shapes.get? (memory.tag object) = some shape →
    ∀ offset, ¬ kind shape memory object offset

theorem Tiled.weakless {heap : Heap} {memory : Memory} {tiling : Slab → List Block} (tiled : heap.Tiled memory tiling)
    (weak : heap.Lacks Shape.WeakSlot memory) (dependent : heap.Lacks Shape.DependentSlot memory) :
    heap.Weakless tiling memory := by
  intro block member isObject shape known offset
  have allocated : heap.Allocated memory block.start := ⟨tiling, tiled, block, member, isObject, rfl⟩
  exact ⟨weak _ allocated shape known offset, dependent _ allocated shape known offset⟩

end Heap

/-- What a program asks of its heaps, which it numbers. A fork joins them at the end. -/
inductive Errand where
  | ask (index : Nat) (op : Operation)
  | fork (index : Nat) (context : Context) (keepOwnership : Bool)

/-- What comes of an errand. -/
inductive Errand.Outcome where
  | answered (answer : Answer)
  | forked (context : Context)
  | refused (refusal : HeapError)
  | missing

namespace Errand

variable {heaps later : List Heap} {machine image final : Machine} {errand : Errand} {outcome : Outcome} {terms : Terms}
  {features : Features}

def perform (heaps : List Heap) : Errand → Action (List Heap × Outcome)
  | ask index op => do
      match heaps[index]? with
      | none => return (heaps, .missing)
      | some heap =>
          let (after, answer) ← op.perform heap
          return (heaps.set index after, .answered answer)
  | fork index context keepOwnership => do
      match heaps[index]? with
      | none => return (heaps, .missing)
      | some heap =>
          match ← heap.fork context keepOwnership with
          | .error refusal => return (heaps, .refused refusal)
          | .ok (copy, moved) => return (heaps ++ [copy], .forked moved)

/-- An errand uses its heap as it is meant to be used. -/
def Apt (heaps : List Heap) (machine : Machine) : Errand → Prop
  | ask index op => ∀ heap, heaps[index]? = some heap → op.Apt heap machine (heap.Allocated machine.memory)
  | fork index context _ => ∀ heap, heaps[index]? = some heap →
      heap.Allocated machine.memory context.address ∧ machine.memory.tag context.address = Tag.context

def performAll (heaps : List Heap) : List Errand → Action (List Heap × List Outcome)
  | [] => return (heaps, [])
  | errand :: rest => do
      let (heaps, outcome) ← errand.perform heaps
      let (heaps, outcomes) ← performAll heaps rest
      return (heaps, outcome :: outcomes)

/-- Something holds of each errand where it is done. -/
def Along (holds : List Heap → Machine → Errand → Prop) : List Errand → List Heap → Machine → Prop
  | [], _, _ => True
  | errand :: rest, heaps, machine => holds heaps machine errand ∧
      ∀ later outcome final, (errand.perform heaps).run machine = .ok (later, outcome) final →
        Along holds rest later final

/-- Sealed heaps that clear weak slots, apart from each other. -/
structure Fleet (heaps : List Heap) (machine : Machine) : Prop where
  orderly : machine.Orderly
  still : ∀ (index : Nat) (heap : Heap), heaps[index]? = some heap → ∃ tiling, heap.Sealed tiling machine
  weak : ∀ (index : Nat) (heap : Heap), heaps[index]? = some heap → heap.features.weakReferences = true
  apart : ∀ (index place : Nat) (heap other : Heap), heaps[index]? = some heap → heaps[place]? = some other →
    index ≠ place → heap.Apart other

namespace Fleet

variable {heap after copy : Heap} {index : Nat} (fleet : Fleet heaps machine)

include fleet

theorem change (listed : heaps[index]? = some heap) (seals : heap.Seals after machine final) :
    Fleet (heaps.set index after) final := by
  have aside {place : Nat} {found : Heap} (there : heaps[place]? = some found) (elsewhere : place ≠ index) :
      after.Apart found := by
    obtain ⟨tiling, before⟩ := fleet.still place found there
    exact seals.within.apart (fleet.apart index place heap found listed there (Ne.symm elsewhere)) before.hosted
  refine ⟨seals.orderly, fun place found there => ?_, fun place found there => ?_,
    fun place other found another there alsoThere distinct => ?_⟩
  · rcases getElem?_set_cases listed there with ⟨rfl, rfl⟩ | ⟨elsewhere, old⟩
    · exact seals.still
    · obtain ⟨tiling, before⟩ := fleet.still place found old
      exact ⟨tiling, before.elsewhere seals.within
        (fleet.apart place index found heap old listed elsewhere).symm⟩
  · rcases getElem?_set_cases listed there with ⟨rfl, rfl⟩ | ⟨_, old⟩
    · rw [seals.features]
      exact fleet.weak place heap listed
    · exact fleet.weak place found old
  · rcases getElem?_set_cases listed there with ⟨rfl, rfl⟩ | ⟨elsewhere, old⟩ <;>
      rcases getElem?_set_cases listed alsoThere with ⟨rfl, rfl⟩ | ⟨alsoElsewhere, alsoOld⟩
    · exact absurd rfl distinct
    · exact aside alsoOld alsoElsewhere
    · exact (aside old elsewhere).symm
    · exact fleet.apart place other found another old alsoOld distinct

theorem add (reserved : machine.Extended final) (still : ∃ tiling, copy.Sealed tiling final)
    (weak : copy.features.weakReferences = true)
    (vacant : ∀ slab ∈ copy.slabs, machine.Vacant slab) : Fleet (heaps ++ [copy]) final := by
  have aside {place : Nat} {found : Heap} (there : heaps[place]? = some found) : found.Apart copy := by
    obtain ⟨tiling, before⟩ := fleet.still place found there
    exact fun slab inHeap image inCopy => ((vacant image inCopy).apart (before.hosted slab inHeap)).symm
  refine ⟨fleet.orderly.congr reserved.frames, fun place found there => ?_, fun place found there => ?_,
    fun place other found another there alsoThere distinct => ?_⟩
  · rcases getElem?_concat_cases there with old | ⟨_, rfl⟩
    · obtain ⟨tiling, before⟩ := fleet.still place found old
      exact ⟨tiling, before.extended reserved⟩
    · exact still
  · rcases getElem?_concat_cases there with old | ⟨_, rfl⟩
    · exact fleet.weak place found old
    · exact weak
  · rcases getElem?_concat_cases there with old | ⟨rfl, rfl⟩ <;>
      rcases getElem?_concat_cases alsoThere with alsoOld | ⟨rfl, rfl⟩
    · exact fleet.apart place other found another old alsoOld distinct
    · exact aside old
    · exact (aside alsoOld).symm
    · exact absurd rfl distinct

theorem step (apt : errand.Apt heaps machine)
    (ran : (errand.perform heaps).run machine = .ok (later, outcome) final) : Fleet later final := by
  cases errand with
  | ask index op =>
      unfold perform at ran
      cases listed : heaps[index]? with
      | none =>
          simp only [listed] at ran
          cases ran
          exact fleet
      | some heap =>
          simp only [listed] at ran
          obtain ⟨⟨after, answer⟩, same, acts⟩ := Action.of_run_map ran
          cases same
          obtain ⟨tiling, still⟩ := fleet.still index heap listed
          -- Memory determines the blocks, so that what is allocated is what the invariant speaks
          -- of.
          have objects : heap.Allocated machine.memory = heap.Object tiling :=
            funext fun address => propext still.tiled.allocated_iff
          exact fleet.change listed (op.seals still fleet.orderly (objects ▸ apt heap listed) acts)
  | fork index context keepOwnership =>
      unfold perform at ran
      cases listed : heaps[index]? with
      | none =>
          simp only [listed] at ran
          cases ran
          exact fleet
      | some heap =>
          simp only [listed] at ran
          obtain ⟨answer, mid, acts, goesOn⟩ := Action.of_run_bind ran
          obtain ⟨tiling, still⟩ := fleet.still index heap listed
          obtain ⟨allocated, tagged⟩ := apt heap listed
          have isObject := still.tiled.allocated_iff.mp allocated
          rcases (still.toUpheld.ensures_fork ⟨isObject, tagged⟩).of_run acts with
            ⟨refusal, rfl, rfl⟩ | ⟨source, target, made, forks, rfl⟩
          · cases goesOn
            exact fleet
          · cases goesOn
            refine fleet.add forks.extended ⟨_, forks.seals still _⟩ (fleet.weak index heap listed)
              fun slab inCopy => ?_
            obtain rfl : slab = target := by simpa [Heap.forkOf] using inCopy
            exact forks.created.vacant

end Fleet

def Refitted {α : Type} (features : Features) (result answer : List Heap × α) (_ : Machine) : Prop :=
  answer = (result.1.map (·.built features), result.2)

/-- What the terms ask of the heaps where an errand is done. -/
structure Suits (terms : Terms) (features : Features) (heaps : List Heap) (machine : Machine)
    (errand : Errand) : Prop where
  apt : errand.Apt heaps machine
  calm : terms.alarms.isSome → ∀ heap ∈ heaps, heap.WithHeaders machine.memory
  weak : features.weakReferences = true ∨ ¬ terms.exact ∧ terms.alarms = none ∧ ∀ heap ∈ heaps,
    heap.Lacks Shape.WeakSlot machine.memory ∧ heap.Lacks Shape.DependentSlot machine.memory

/-- All builds do an errand alike. -/
theorem concurs (fleet : Fleet heaps machine) (suits : Suits terms features heaps machine errand)
    (agrees : machine.Agrees terms image) :
    (errand.perform heaps).Concurs terms (Refitted features) (errand.perform (heaps.map (·.built features))) machine
      image := by
  have comparable {heap : Heap} {tiling : Slab → List Block} (member : heap ∈ heaps)
      (tiled : heap.Tiled machine.memory tiling) : heap.Comparable terms features tiling machine.memory := by
    refine ⟨fun asked => suits.calm asked heap member tiling tiled, suits.weak.imp_right fun without => ?_⟩
    obtain ⟨inexact, calm, lacks⟩ := without
    exact ⟨inexact, calm, tiled.weakless (lacks heap member).1 (lacks heap member).2⟩
  cases errand with
  | ask index op =>
      unfold perform
      simp only [List.getElem?_map]
      cases listed : heaps[index]? with
      | none => exact .pure rfl agrees
      | some heap =>
          obtain ⟨tiling, still⟩ := fleet.still index heap listed
          have objects : heap.Allocated machine.memory = heap.Object tiling :=
            funext fun address => propext still.tiled.allocated_iff
          have apt := objects ▸ suits.apt heap listed
          refine (op.concurs still (fleet.weak index heap listed)
            (comparable (List.mem_of_getElem? listed) still.tiled) apt agrees).bind ?_
          rintro ⟨after, answer⟩ _ mid later rfl agrees
          refine .pure ?_ agrees
          simp [Refitted, List.map_set]
  | fork index context keepOwnership =>
      unfold perform
      simp only [List.getElem?_map]
      cases listed : heaps[index]? with
      | none => exact .pure rfl agrees
      | some heap =>
          obtain ⟨tiling, still⟩ := fleet.still index heap listed
          refine (Heap.concurs_fork still (comparable (List.mem_of_getElem? listed) still.tiled).calm agrees).bind ?_
          rintro answer _ mid later rfl agrees
          cases answer with
          | error refusal => exact .pure rfl agrees
          | ok made =>
              refine .pure ?_ agrees
              simp [Refitted]

/-- All builds do all errands alike. -/
theorem concurs_all {errands : List Errand} (fleet : Fleet heaps machine)
    (suit : Along (Suits terms features) errands heaps machine) (agrees : machine.Agrees terms image) :
    (performAll heaps errands).Concurs terms (Refitted features) (performAll (heaps.map (·.built features)) errands)
      machine image := by
  induction errands generalizing heaps machine image with
  | nil => exact .pure rfl agrees
  | cons errand rest ih =>
      refine (concurs fleet suit.1 agrees).observed.bind ?_
      rintro ⟨later, outcome⟩ _ mid midImage ⟨rfl, ran⟩ agrees
      refine (ih (fleet.step suit.1.apt ran) (suit.2 later outcome mid ran) agrees).bind ?_
      rintro ⟨last, outcomes⟩ _ final finalImage rfl agrees
      exact .pure rfl agrees

section Along

variable {first second third : List Heap → Machine → Errand → Prop} {errands : List Errand}

theorem Along.both (left : Along first errands heaps machine) (right : Along second errands heaps machine)
    (combine : ∀ heaps machine errand,
      first heaps machine errand → second heaps machine errand → third heaps machine errand) :
    Along third errands heaps machine := by
  induction errands generalizing heaps machine with
  | nil => trivial
  | cons errand rest ih =>
      refine ⟨combine _ _ _ left.1 right.1, fun later outcome final ran => ?_⟩
      exact ih (left.2 later outcome final ran) (right.2 later outcome final ran)

theorem Along.mono (along : Along first errands heaps machine)
    (weaker : ∀ heaps machine errand, first heaps machine errand → second heaps machine errand) :
    Along second errands heaps machine :=
  along.both along fun _ _ _ holds _ => weaker _ _ _ holds

end Along

end Errand

namespace Heap

open Errand

variable {heap : Heap} {machine : Machine} {tiling : Slab → List Block} {errands : List Errand}

/-- Builds of a heap do the same while errands are done with it and its forks. -/
structure BuildsAgree (heap : Heap) (machine : Machine) (errands : List Errand) : Prop where
  /-- Checks of references and objects change nothing, and add nothing to the journal. -/
  validating : (performAll [heap.built { validating := true }] errands).run machine =
    (Prod.map (List.map (·.built { validating := true })) id <$> performAll [heap] errands).run machine
  /-- As long as all storage has headers, there is no corruption to report either. -/
  calm : Along (fun heaps machine _ => ∀ heap ∈ heaps, heap.WithHeaders machine.memory) errands [heap] machine →
    (performAll [heap] errands).Concurs ⟨True, some machine.alarms⟩ (Refitted { validating := true })
      (performAll [heap.built { validating := true }] errands) machine machine
  /-- As long as there is nothing to clear, memory, answers and calls of finalizers are the same without weak slots. -/
  weakless : Along (fun heaps machine _ => ∀ heap ∈ heaps, heap.Lacks Shape.WeakSlot machine.memory ∧
      heap.Lacks Shape.DependentSlot machine.memory) errands [heap] machine →
    (performAll [heap] errands).Concurs ⟨False, none⟩ (Refitted { weakReferences := false })
      (performAll [heap.built { weakReferences := false }] errands) machine machine

theorem Sealed.fleet (isSealed : heap.Sealed tiling machine) (orderly : machine.Orderly)
    (weak : heap.features.weakReferences = true) : Fleet [heap] machine := by
  have only {index : Nat} {found : Heap} (listed : [heap][index]? = some found) : index = 0 ∧ found = heap := by
    cases index with
    | zero => exact ⟨rfl, (Option.some.inj listed).symm⟩
    | succ index => cases listed
  refine ⟨orderly, fun index found listed => ?_, fun index found listed => ?_,
    fun index place found other listed alsoListed distinct => ?_⟩
  · obtain ⟨_, rfl⟩ := only listed
    exact ⟨tiling, isSealed⟩
  · obtain ⟨_, rfl⟩ := only listed
    exact weak
  · exact absurd ((only listed).1.trans (only alsoListed).1.symm) distinct

/-- Builds of a sealed heap agree whatever is done with it as it is meant to be used. -/
theorem Sealed.builds_agree (isSealed : heap.Sealed tiling machine) (orderly : machine.Orderly)
    (standard : heap.features = {}) (apt : Along Apt errands [heap] machine) : heap.BuildsAgree machine errands := by
  have fleet := isSealed.fleet orderly (by rw [standard])
  refine ⟨?_, fun headers => ?_, fun lacks => ?_⟩
  · have suit : Along (Suits ⟨True, none⟩ { validating := true }) errands [heap] machine :=
      apt.mono fun _ _ _ apt => ⟨apt, nofun, .inl rfl⟩
    have concurs := concurs_all fleet suit (.refl machine nofun)
    rw [← bind_pure_comp, EStateM.run_bind]
    cases concurs with
    | answers ran otherRan same agrees =>
        cases agrees.eq trivial
        rw [ran]
        exact otherRan.trans (by rw [same]; rfl)
    | fails failed otherFailed agrees =>
        cases agrees.eq trivial
        rw [failed]
        exact otherFailed
  · exact concurs_all fleet (apt.both headers fun _ _ _ apt calm => ⟨apt, fun _ => calm, .inl rfl⟩)
      (.refl machine fun _ listed => Option.mem_some.mp listed)
  · exact concurs_all fleet (apt.both lacks fun _ _ _ apt lacks => ⟨apt, nofun, .inr ⟨not_false, rfl, lacks⟩⟩)
      (.refl machine nofun)

section Ring

/-- A frame is opened for the context of the ring, and the ring is collected. -/
def ringErrands : List Errand := [.ask 0 (.openFrame ⟨0x3ffffffff010⟩), .ask 0 (.collect ⟨0x3ffffffff010⟩)]

/-- Until the ring is collected, memory does not change. -/
theorem along_ring {holds : List Heap → Machine → Errand → Prop}
    (first : holds [heap] ringMachine (.ask 0 (.openFrame ⟨0x3ffffffff010⟩)))
    (second : ∀ machine, machine.memory = ringMachine.memory →
      holds [heap] machine (.ask 0 (.collect ⟨0x3ffffffff010⟩))) : Along holds ringErrands [heap] ringMachine := by
  refine ⟨first, fun later outcome final ran => ?_⟩
  cases ran
  exact ⟨second _ rfl, fun _ _ _ _ => trivial⟩

/-- What holds of the heap at first holds all along. -/
theorem along_ring_memory (holds : Heap → Memory → Prop) (start : holds heap ringMachine.memory) :
    Along (fun heaps machine _ => ∀ heap ∈ heaps, holds heap machine.memory) ringErrands [heap] ringMachine := by
  have always (machine : Machine) (same : machine.memory = ringMachine.memory) (found : Heap)
      (listed : found ∈ [heap]) : holds found machine.memory := by
    obtain rfl := List.mem_singleton.mp listed
    rwa [same]
  exact along_ring (always _ rfl) always

/-- What holds of the context and of the object in its environment holds of all objects. -/
theorem allocated_ring {holds : Nat → Prop} (slabs : heap.slabs = [ringSlab])
    (tiled : heap.Tiled ringMachine.memory fun _ => ringBlocks) (context : holds 0x3ffffffff010)
    (pair : holds 0x3ffffffff040) (object : Nat) (allocated : heap.Allocated ringMachine.memory object) :
    holds object := by
  obtain ⟨block, member, isObject, rfl⟩ := tiled.allocated_iff.mp allocated
  have inRing : block ∈ ringHeap.blocks fun _ => ringBlocks := by
    rw [Heap.blocks, slabs] at member
    exact member
  have both : ∀ block ∈ ringHeap.blocks fun _ => ringBlocks, block.kind = .object → holds block.start :=
    forall_objects_ring context pair
  exact both block inRing isObject

theorem shapes_ring : ringHeap.shapes.get? (ringMachine.memory.tag 0x3ffffffff010) = some .context ∧
    ringHeap.shapes.get? (ringMachine.memory.tag 0x3ffffffff040) = some .pair := by
  simp only [Memory.tag, header_ring]
  exact ⟨rfl, rfl⟩

theorem orderly_ring : ringMachine.Orderly :=
  ⟨by decide, fun number frame found => by simp [Machine.frame?, ringMachine] at found⟩

/-- The errands use the ring as it is meant to be used. -/
theorem apt_ring (slabs : heap.slabs = [ringSlab]) (tiled : heap.Tiled ringMachine.memory fun _ => ringBlocks) :
    Along Apt ringErrands [heap] ringMachine := by
  refine along_ring (fun found listed => ?_) fun machine same found listed => ?_
  · exact show Machine.frameAddress 1 ≤ Size.limit by decide
  · cases listed
    rw [same]
    refine tiled.allocated_iff.mpr ⟨⟨0x3ffffffff010, 48, .object⟩, ?_, rfl, rfl⟩
    simp [Heap.blocks, slabs, ringBlocks]

/-- The ring has nothing but objects with headers, and no weak slots, so that its builds do the same. -/
theorem builds_agree_ring : ringHeap.BuildsAgree ringMachine ringErrands ∧
    Along (fun heaps machine _ => ∀ heap ∈ heaps, heap.WithHeaders machine.memory) ringErrands [ringHeap] ringMachine ∧
    Along (fun heaps machine _ => ∀ heap ∈ heaps, heap.Lacks Shape.WeakSlot machine.memory ∧
      heap.Lacks Shape.DependentSlot machine.memory) ringErrands [ringHeap] ringMachine := by
  have tiled := atRest_ring.tiled
  have headers : ringHeap.WithHeaders ringMachine.memory := by
    intro tiling also block member
    rw [← tiled.blocks_eq also, blocks_ring] at member
    exact (show ∀ block ∈ ringBlocks, block.kind ≠ .bare by decide) block member
  have unweak : ∀ object, ringHeap.Allocated ringMachine.memory object → ∀ shape,
      ringHeap.shapes.get? (ringMachine.memory.tag object) = some shape → shape.weak = none := by
    refine allocated_ring rfl tiled (fun shape known => ?_) fun shape known => ?_
    · cases shapes_ring.1.symm.trans known
      rfl
    · cases shapes_ring.2.symm.trans known
      rfl
  have lacks : ringHeap.Lacks Shape.WeakSlot ringMachine.memory ∧
      ringHeap.Lacks Shape.DependentSlot ringMachine.memory := by
    constructor <;> rintro object allocated shape known offset ⟨run, found, _⟩ <;>
      cases (unweak object allocated shape known).symm.trans found
  exact ⟨atRest_ring.isSealed.builds_agree orderly_ring rfl (apt_ring rfl tiled), along_ring_memory _ headers,
    along_ring_memory (fun heap memory => heap.Lacks Shape.WeakSlot memory ∧ heap.Lacks Shape.DependentSlot memory)
      lacks⟩

/-- A shape with two slots that are cleared with its weak ones, of which it has none. -/
def husk : Shape :=
  { name := "HUSK", size := { base := 24 }, strong := .none, weak := some { offset := 8, count := 0 }, dependent := 2 }

/-- The ring in a heap where its pair is a husk. -/
def huskHeap : Heap := { ringHeap with shapes := (ShapeTable.basic.register husk).1 }

section Husks

variable {memory : Memory} {object offset : Nat}

theorem not_followed_husk {weak : Bool} : ¬ husk.Followed weak memory object offset := by
  rintro (⟨index, bound, _⟩ | ⟨_, run, found, index, bound, _⟩)
  · exact Nat.not_lt_zero index bound
  · cases found
    exact Nat.not_lt_zero index bound

theorem slot_husk (slot : husk.Slot memory object offset) : offset = 8 ∨ offset = 16 := by
  rcases slot with strong | weak | ⟨run, found, index, bound, rfl⟩
  · have never : ¬ husk.Followed true memory object offset := not_followed_husk
    exact absurd (.inl strong) never
  · exact absurd (.inr ⟨rfl, weak⟩) not_followed_husk
  · cases found
    have small : index < 2 := bound
    have count : SlotRun.slotCount { offset := 8, count := 0 } memory object = 0 := rfl
    rw [count, wordBytes]
    dsimp only
    omega

theorem confined_husk : husk.Confined := by
  intro memory object size sized
  have bytes : husk.size.byteCount memory object = 24 := rfl
  obtain ⟨large, _⟩ := Shape.byteCount_le sized
  refine ⟨sized, by simp [Shape.lengths, husk, SlotRun.none], fun offset slot => ?_⟩
  have place := slot_husk slot
  exact ⟨by omega, by omega, by omega, by simp [Shape.lengths, husk, SlotRun.none]⟩

end Husks

theorem shapes_husk : huskHeap.shapes.get? (ringMachine.memory.tag 0x3ffffffff010) = some .context ∧
    huskHeap.shapes.get? (ringMachine.memory.tag 0x3ffffffff040) = some husk := by
  simp only [Memory.tag, header_ring]
  exact ⟨rfl, rfl⟩

theorem layout_husk : ringSlab.Layout huskHeap.shapes ringMachine.memory ringBlocks where
  placed := layout_ring.placed
  tiles := layout_ring.tiles
  sentinel := layout_ring.sentinel
  listed := layout_ring.listed
  fits := by
    obtain ⟨context, pair⟩ := header_ring
    simp only [ringBlocks, List.forall_mem_cons, Block.Fits, Memory.tag, context, pair]
    exact ⟨⟨.context, rfl, Shape.describes_context _ _⟩, ⟨husk, rfl, confined_husk _ _ _ rfl⟩, trivial, by simp⟩

theorem sealed_husk : huskHeap.Sealed (fun _ => ringBlocks) ringMachine := by
  have isSealed := atRest_ring.isSealed
  have slots : ∀ block ∈ ringHeap.blocks fun _ => ringBlocks, block.kind = .object → ∀ shape,
      huskHeap.shapes.get? (ringMachine.memory.tag block.start) = some shape → ∀ offset,
        shape.Followed true ringMachine.memory block.start offset → ringHeap.RefersToObject (fun _ => ringBlocks)
          (ringMachine.memory.value (block.start + offset)) := by
    refine forall_objects_ring (fun shape known offset followed => ?_) fun shape known offset followed => ?_
    · cases shapes_husk.1.symm.trans known
      have member : ⟨0x3ffffffff010, 48, .object⟩ ∈ ringHeap.blocks fun _ => ringBlocks := by
        rw [blocks_ring]
        simp [ringBlocks]
      exact (isSealed.objects _ member rfl).slots _ shapes_ring.1 offset followed
    · cases shapes_husk.2.symm.trans known
      exact absurd followed not_followed_husk
  refine ⟨⟨⟨fun slab listed => ?_, isSealed.tiled.apart⟩, isSealed.hosted, isSealed.upper,
    fun block member isObject => ?_⟩, ShapeTable.confined_register (fun tag shape known => ?_) confined_husk,
    forall_objects_ring (fun known => ?_) fun known => ?_, isSealed.globals, isSealed.scratch⟩
  · obtain rfl := List.mem_singleton.mp listed
    exact layout_husk
  · have sound := isSealed.objects block member isObject
    exact ⟨sound.valid, sound.unmarked, slots block member isObject, sound.chain⟩
  · simp only [ShapeTable.get?] at known
    split at known
    · contradiction
    · cases known
      exact Shape.confined_context
    · contradiction
  · exact absurd (shapes_husk.1.symm.trans known) (by decide)
  · exact absurd (shapes_husk.2.symm.trans known) (by decide)

/-- A build without weak slots keeps what the standard one clears, although no object has a weak slot. -/
theorem builds_differ_husk : huskHeap.Sealed (fun _ => ringBlocks) ringMachine ∧ ringMachine.Orderly ∧
    huskHeap.features = {} ∧ Along Apt ringErrands [huskHeap] ringMachine ∧
    Along (fun heaps machine _ => ∀ heap ∈ heaps, heap.Lacks Shape.WeakSlot machine.memory) ringErrands [huskHeap]
      ringMachine ∧
    ¬ (performAll [huskHeap] ringErrands).Concurs ⟨False, none⟩ (Refitted { weakReferences := false })
      (performAll [huskHeap.built { weakReferences := false }] ringErrands) ringMachine ringMachine := by
  have tiled := sealed_husk.tiled
  have lacks : huskHeap.Lacks Shape.WeakSlot ringMachine.memory := by
    refine allocated_ring rfl tiled (fun shape known => ?_) fun shape known => ?_
    · cases shapes_husk.1.symm.trans known
      rintro offset ⟨run, found, _⟩
      cases found
    · cases shapes_husk.2.symm.trans known
      exact fun offset slot => not_followed_husk (.inr ⟨rfl, slot⟩)
  refine ⟨sealed_husk, orderly_ring, rfl, apt_ring rfl tiled, along_ring_memory _ lacks, fun concurs => ?_⟩
  have cleared : (performAll [huskHeap] ringErrands).leaves ringMachine
    (fun final => decide (final.memory.value 0x3ffffffff048 = .no)) = true := by decide +kernel
  have kept : (performAll [huskHeap.built { weakReferences := false }] ringErrands).leaves ringMachine
    (fun final => decide (final.memory.value 0x3ffffffff048 = .reference 0x3ffffffff040)) = true := by
    decide +kernel
  cases concurs with
  | answers ran otherRan _ agrees =>
      rw [Action.leaves_eq ran, decide_eq_true_eq] at cleared
      rw [Action.leaves_eq otherRan, decide_eq_true_eq, agrees.memory, cleared] at kept
      contradiction
  | fails failed _ _ =>
      rw [Action.leaves, failed] at cleared
      contradiction

end Ring

end Heap

end SlabHeap
