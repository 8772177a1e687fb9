import SlabHeap.Proofs.Concurrence
import SlabHeap.Proofs.Sealing

namespace SlabHeap

/-! Builds of a heap that collect alike.

`Heap.built` is a heap as it is in another build. A heap is `Heap.Firm` if its objects are valid and all that a
collection follows refers to them; then no build has anything to report.
-/

open SlabHeap.Action Block

/-- The first value whose object has no mark, as that object, and the values behind it. -/
def Memory.pending (memory : Memory) : List Value → Option (Nat × List Value)
  | [] => none
  | value :: rest =>
      match value.address? with
      | none => memory.pending rest
      | some object => if (memory.header object).isMarked then memory.pending rest else some (object, rest)

theorem Memory.of_pending {memory : Memory} {work rest : List Value} {object : Nat}
    (found : memory.pending work = some (object, rest)) :
    ∃ value, value.address? = some object ∧ value :: rest <:+ work := by
  induction work with
  | nil => cases found
  | cons value work ih =>
      rw [pending] at found
      split at found
      · obtain ⟨other, refers, suffix⟩ := ih found
        exact ⟨other, refers, suffix.trans (List.suffix_cons _ _)⟩
      · next refers =>
        split at found
        · obtain ⟨other, refers, suffix⟩ := ih found
          exact ⟨other, refers, suffix.trans (List.suffix_cons _ _)⟩
        · cases found
          exact ⟨value, refers, List.suffix_refl _⟩

namespace Heap

def built (heap : Heap) (features : Features) : Heap := { heap with features }

def Rebuilt {α : Type} (features : Features) (result answer : Heap × α) (_ : Machine) : Prop :=
  answer = (result.1.built features, result.2)

variable {heap : Heap} {machine image after : Machine} {tiling : Slab → List Block} {block : Block} {object : Nat}
  {value : Value} {work roots : List Value} {terms : Terms} {features : Features} {origin : Memory}

/-- Only memory and frames matter for what an object keeps alive. -/
theorem keptValues_alike (frames : after.frames = machine.frames) (memory : after.memory = machine.memory)
    (object : Nat) : heap.keptValues after object = heap.keptValues machine object := by
  have saved := Context.savedValues_congr frames
    (show (Context.mk object).saves after.memory = (Context.mk object).saves machine.memory by rw [memory])
  simp only [keptValues, memory, saved]

/-- Slabs are tiled, objects are valid, and what a collection follows from object to object refers to objects. They
may be marked, but have the tags and lengths that they had in `origin`. -/
structure Firm (heap : Heap) (tiling : Slab → List Block) (origin : Memory) (machine : Machine) : Prop where
  tiled : heap.Tiled machine.memory tiling
  valid : ∀ block ∈ heap.blocks tiling, block.kind = .object →
    (machine.memory.header block.start).isValid = true
  kept : ∀ block ∈ heap.blocks tiling, block.kind = .object → ∀ value ∈ heap.keptValues machine block.start,
    heap.RefersToObject tiling value
  weak : ∀ block ∈ heap.blocks tiling, block.kind = .object → ∀ shape,
    heap.shapes.get? (machine.memory.tag block.start) = some shape → ∀ offset,
      shape.WeakSlot machine.memory block.start offset →
        heap.RefersToObject tiling (machine.memory.value (block.start + offset))
  alike : ∀ block ∈ heap.blocks tiling, block.kind = .object → block.Alike heap.shapes origin machine.memory

theorem Sealed.firm (isSealed : heap.Sealed tiling machine) (weak : heap.features.weakReferences = true) :
    heap.Firm tiling machine.memory machine where
  tiled := isSealed.tiled
  valid block member isObject := (isSealed.objects block member isObject).valid
  kept block member isObject value held := by
    have sound := isSealed.objects block member isObject
    rcases mem_keptValues.mp held with ⟨isContext, frame, linked, held⟩ | ⟨shape, known, offset, slot, rfl⟩
    · obtain ⟨numbers, chained, values⟩ := sound.chain isContext
      obtain ⟨number, listed, found⟩ := chained.linked_iff.mp linked
      exact values number listed frame found value held
    · exact sound.slots shape known offset (.inl slot)
  weak block member isObject shape known offset slot :=
    (isSealed.objects block member isObject).slots shape known offset (.inr ⟨weak, slot⟩)
  alike _ _ _ := .refl _ _ _

section Resolving

variable {memory : Memory} (tiled : heap.Tiled memory tiling)
  (valid : ∀ block ∈ heap.blocks tiling, block.kind = .object →
    (machine.memory.header block.start).isValid = true)
  (refers : heap.RefersToObject tiling value)

include tiled valid refers

theorem Tiled.run_resolve : (heap.resolve value).run machine = .ok value.address? machine := by
  unfold resolve
  cases found : value.address? with
  | none => rfl
  | some address =>
      obtain ⟨block, member, isObject, rfl⟩ := refers address found
      obtain ⟨positive, aligned, _⟩ := tiled.bounds member
      have unit : block.start % blockUnit = 0 := aligned
      have present : block.start ≠ 0 := by omega
      have inHeap := tiled.contains member
      have sound := valid block member isObject
      cases heap.features.validating with
      | true =>
          simp only [if_true, ne_eq, unit, not_true_eq_false, if_false, inHeap]
          rw [run_bind (show Action.memory.run machine = .ok machine.memory machine from rfl)]
          simp only [sound, if_true]
          rfl
      | false =>
          simp only [Bool.false_eq_true, if_false, present]
          rfl

theorem Tiled.run_losesReferent : (heap.losesReferent value).run machine =
    .ok (value.address?.any fun object => !(machine.memory.header object).isMarked) machine := by
  have resolves := tiled.run_resolve valid refers
  unfold losesReferent
  cases found : value.address? with
  | none => rfl
  | some address =>
      rw [found] at resolves
      simp only [tiled.contains_of_refers refers address found, if_true]
      rw [run_bind resolves]
      rfl

end Resolving

namespace Firm

variable (firm : heap.Firm tiling origin machine)

include firm

/-- Builds make no difference. -/
theorem built (features : Features) : (heap.built features).Firm tiling origin machine :=
  ⟨⟨firm.tiled.layout, firm.tiled.apart⟩, firm.valid, firm.kept, firm.weak, firm.alike⟩

theorem quiet (quiet : machine.Quiet after) : heap.Firm tiling origin after := by
  have memory := quiet.memory
  refine ⟨memory ▸ firm.tiled, memory ▸ firm.valid, fun block member isObject value held => ?_, memory ▸ firm.weak,
    memory ▸ firm.alike⟩
  exact firm.kept block member isObject value (keptValues_alike quiet.frames memory block.start ▸ held)

theorem mark (isObject : heap.Object tiling object) :
    heap.Firm tiling origin (machine.withMemory (machine.memory.setHeader object (machine.memory.header object).mark)) := by
  obtain ⟨chosen, inHeap, kind, rfl⟩ := isObject
  have aligned := (firm.tiled.bounds inHeap).2.1
  have steady := machine.steady_withMemory (machine.memory.setHeader chosen.start
    (machine.memory.header chosen.start).mark)
  generalize changes : machine.withMemory _ = after at steady
  have marked : machine.memory.MarkedOn after.memory (· = chosen.start) := by
    rw [← changes]
    refine ⟨?_, fun address outside => ?_⟩
    · rintro _ rfl
      exact Memory.header_setHeader _ _ _
    · exact Memory.read_setHeader (by omega) (outside _ rfl)
  have nodes : ∀ object, object = chosen.start → heap.Node tiling object := by
    rintro _ rfl
    exact ⟨chosen, inHeap, by simp [kind], rfl⟩
  have alike (block : Block) (member : block ∈ heap.blocks tiling) :=
    firm.tiled.alike_marked nodes marked member
  refine ⟨firm.tiled.of_marked nodes marked, fun block member isObject => ?_, fun block member isObject value held => ?_,
    fun block member isObject shape known offset slot => ?_,
    fun block member isObject => (firm.alike block member isObject).trans (alike block member)⟩
  · by_cases same : block.start = chosen.start
    · rw [same, marked.marked _ rfl]
      exact firm.valid chosen inHeap kind
    · rw [firm.tiled.header_unmarked nodes marked member same]
      exact firm.valid block member isObject
  · rw [firm.tiled.keptValues_marked nodes marked steady member (by simp [isObject])] at held
    exact firm.kept block member isObject value held
  · rw [(alike block member).tag] at known
    rw [Shape.weakSlot_congr ((alike block member).lengths isObject shape known)] at slot
    have place := (firm.tiled.describes member (by simp [isObject]) known).2.slotInside offset (.inr (.inl slot))
    rw [Memory.value, firm.tiled.contents_marked nodes marked member (show block.start + 8 ≤ block.start + offset by omega)
      (by simp only [Block.stop]; omega)]
    exact firm.weak block member isObject shape known offset slot

theorem run_nextUnmarked (refer : ∀ value ∈ work, heap.RefersToObject tiling value) :
    (heap.nextUnmarked work).run machine = .ok (machine.memory.pending work) machine := by
  induction work with
  | nil => rfl
  | cons value rest ih =>
      have refers := refer value List.mem_cons_self
      have ih := ih fun other listed => refer other (List.mem_cons_of_mem _ listed)
      rw [nextUnmarked, run_bind (firm.tiled.run_resolve firm.valid refers), Memory.pending]
      cases value.address? with
      | none => exact ih
      | some object =>
          dsimp only
          rw [run_bind (show memory.run machine = .ok machine.memory machine from rfl)]
          split
          · exact ih
          · rfl

theorem run_children (isObject : heap.Object tiling object) :
    (heap.children object).run machine = .ok (heap.keptValues machine object) machine := by
  obtain ⟨block, member, kind, rfl⟩ := isObject
  obtain ⟨slab, inHeap, inSlab⟩ := mem_blocks.mp member
  obtain ⟨shape, known, describes⟩ := (firm.tiled.layout slab inHeap).object inSlab kind
  exact Heap.run_children known describes

omit firm in
theorem concurs_markWork {bound : Nat} (firm : heap.Firm tiling origin machine)
    (refer : ∀ value ∈ work, heap.RefersToObject tiling value) (agrees : machine.Agrees terms image) :
    (heap.markWork work bound).Concurs terms (fun _ _ final => heap.Firm tiling origin final)
      ((heap.built features).markWork work bound) machine image := by
  induction bound generalizing work machine image with
  | zero => exact .pure firm agrees
  | succ bound ih =>
      have also := (firm.quiet agrees.toQuiet).built features
      rw [markWork, markWork]
      refine .after (firm.run_nextUnmarked refer) (also.run_nextUnmarked refer) ?_
      rw [agrees.memory]
      cases found : machine.memory.pending work with
      | none => exact .pure firm agrees
      | some both =>
          obtain ⟨object, rest⟩ := both
          obtain ⟨value, refers, suffix⟩ := Memory.of_pending found
          have isObject := refer value (suffix.mem List.mem_cons_self) object refers
          have ran (start : Machine) : (onHeader object Header.mark).run start = .ok ()
            (start.withMemory (start.memory.setHeader object (start.memory.header object).mark)) := rfl
          have marked := firm.mark isObject
          refine .after (ran machine) (ran image) ?_
          rw [agrees.memory]
          have agrees : Machine.Agrees terms _ _ := agrees.withMemory
            (machine.memory.setHeader object (machine.memory.header object).mark)
          have also := ((marked.quiet agrees.toQuiet).built features).run_children isObject
          rw [keptValues_alike agrees.frames agrees.memory] at also
          refine .after (marked.run_children isObject) also ?_
          refine ih marked (fun other listed => ?_) agrees
          rw [List.reverseAux_eq, List.mem_append, List.mem_reverse] at listed
          rcases listed with held | later
          · obtain ⟨block, member, kind, rfl⟩ := isObject
            exact marked.kept block member kind other held
          · exact refer other (suffix.mem (List.mem_cons_of_mem _ later))

theorem concurs_mark (refer : ∀ value ∈ roots, heap.RefersToObject tiling value)
    (agrees : machine.Agrees terms image) :
    (heap.mark roots).Concurs terms (fun _ _ final => heap.Firm tiling origin final) ((heap.built features).mark roots)
      machine image := concurs_markWork firm refer agrees

theorem concurs_markNamed (snapshot : Snapshot)
    (calm : terms.alarms.isSome → ∀ block ∈ heap.blocks tiling, block.kind ≠ .bare)
    (agrees : machine.Agrees terms image) :
    (heap.markNamed snapshot).Concurs terms (fun _ _ final => heap.Firm tiling origin final)
      ((heap.built features).markNamed snapshot) machine image := by
  unfold markNamed
  split
  · exact .pure firm agrees
  · refine (concurs_foldAll (fun _ _ mid => heap.Firm tiling origin mid) (fun _ _ _ firm => firm.tiled)
      (fun _ block _ _ firm suffix => firm.valid block (suffix.mem List.mem_cons_self))
      (fun _ _ _ _ firm quiet => firm.quiet quiet) (fun _ _ _ _ firm _ _ => firm)
      (fun _ block _ mid later firm suffix isObject agrees => ?_) calm firm agrees).weaken fun _ _ _ both => both.2
    have isObject : heap.Object tiling block.start := ⟨block, suffix.mem List.mem_cons_self, isObject, rfl⟩
    refine .after (show memory.run mid = .ok mid.memory mid from rfl)
      (show memory.run later = .ok later.memory later from rfl) ?_
    rw [agrees.memory, show (heap.built features).preserves = heap.preserves from rfl]
    dsimp only
    split
    · generalize root : Notice.conservativeRoot block.start _ = notice
      have harmless : notice.level ≠ .error := by
        rw [← root]
        nofun
      refine .after (show (note notice).run mid = .ok () (mid.logging (.notice notice)) from rfl)
        (show (note notice).run later = .ok () (later.logging (.notice notice)) from rfl) ?_
      refine ((firm.quiet (mid.quiet_logging _)).concurs_mark (fun value listed => ?_)
        (agrees.noting fun _ => harmless)).weaken fun _ _ _ firm => ⟨rfl, firm⟩
      obtain rfl := List.mem_singleton.mp listed
      exact firm.tiled.refersToObject isObject
    · exact .pure ⟨rfl, firm⟩ agrees

end Firm

section WeakSlots

variable {memory : Memory} {start : Machine} {breaks : Prop} {drops : Nat → Prop} {offset total done count cleared : Nat}
  {rest : List Block}

theorem Tiled.built (tiled : heap.Tiled memory tiling) (features : Features) :
    (heap.built features).Tiled memory tiling := ⟨tiled.layout, tiled.apart⟩

/-- All builds clear the weak slots of a run alike; those before number `done` are behind them. -/
theorem Tiled.concurs_clearWeakSlots (tiled : heap.Tiled memory tiling) (member : block ∈ heap.blocks tiling)
    (valid : ∀ block ∈ heap.blocks tiling, block.kind = .object →
      (start.memory.header block.start).isValid = true)
    (slots : ∀ index < total, (offset + wordBytes * index) % 8 = 0 ∧
      8 ≤ offset + wordBytes * index ∧ offset + wordBytes * index + 8 ≤ block.size)
    (refer : ∀ index < total, heap.RefersToObject tiling
      (start.memory.value (block.start + (offset + wordBytes * index))))
    (split : done + count = total) (weakening : Weakening start machine block breaks drops)
    (passed : ∀ place, drops place → ∃ index < done, place = offset + wordBytes * index)
    (agrees : machine.Agrees terms image) :
    (heap.clearWeakSlots block.start (offset + wordBytes * done) cleared count).Concurs terms
      (fun result answer _ => answer = result)
      ((heap.built features).clearWeakSlots block.start (offset + wordBytes * done) cleared count) machine image := by
  induction count generalizing done cleared machine image breaks drops with
  | zero => exact .pure rfl agrees
  | succ count ih =>
      have slot := slots done (by omega)
      obtain ⟨_, aligned, large, _⟩ := tiled.bounds member
      have further : offset + wordBytes * done + wordBytes = offset + wordBytes * (done + 1) := by
        rw [Nat.mul_succ, Nat.add_assoc]
      -- The slot at hand has not been cleared, so that it holds what it held at the start.
      have word : machine.memory.read (block.start + (offset + wordBytes * done)) =
          start.memory.read (block.start + (offset + wordBytes * done)) := by
        refine weakening.weakened.kept _ (by omega) (by simp only [Block.stop]; omega) fun place drops inside => ?_
        obtain ⟨index, before, rfl⟩ := passed place drops
        simp only [wordBytes] at inside
        omega
      have refers := refer done (by omega)
      rw [Memory.value, ← word] at refers
      -- Clearing slots makes no object invalid, so that no build reports anything.
      have sound : ∀ block ∈ heap.blocks tiling, block.kind = .object →
          (machine.memory.header block.start).isValid = true := fun other inHeap isObject =>
        ((weakening.sameMarks tiled member _ ⟨other, inHeap, by simp [isObject], rfl⟩).2).trans
          (valid other inHeap isObject)
      have behind : ∀ place, drops place → 8 ≤ place := by
        intro place drops
        obtain ⟨index, before, rfl⟩ := passed place drops
        exact (slots index (by omega)).2.1
      rw [clearWeakSlots, clearWeakSlots]
      refine .after (show Action.memory.run machine = .ok machine.memory machine from rfl)
        (show Action.memory.run image = .ok image.memory image from rfl) ?_
      rw [agrees.memory]
      simp only [Memory.field_eq_ok slot.1, check_ok, pure_bind]
      refine .after (tiled.run_losesReferent sound refers)
        ((tiled.built features).run_losesReferent (agrees.memory ▸ sound) refers) ?_
      rw [agrees.memory, further]
      split
      · have stored (start : Machine) (place : Nat) : (storeValue place .no).run start =
          .ok () (start.withMemory (start.memory.write place Value.no.bits)) := rfl
        have flagged (start : Machine) (object : Nat) : (onHeader object (·.add .broken)).run start =
          .ok () (start.withMemory (start.memory.setHeader object ((start.memory.header object).add .broken))) := rfl
        refine .after (stored machine _) (stored image _) (.after (flagged _ _) (flagged _ _) ?_)
        rw [agrees.memory]
        refine ih (by omega) ((weakening.drop aligned slot).flag aligned large ?_) ?_
          ((agrees.withMemory _).withMemory _)
        · rintro place (drops | rfl)
          · exact behind place drops
          · exact slot.2.1
        · rintro place (drops | rfl)
          · obtain ⟨index, before, same⟩ := passed place drops
            exact ⟨index, by omega, same⟩
          · exact ⟨done, by omega, rfl⟩
      · refine ih (by omega) weakening (fun place drops => ?_) agrees
        obtain ⟨index, before, same⟩ := passed place drops
        exact ⟨index, by omega, same⟩

theorem deaf_clearSlots (object offset count : Nat) : Deaf (clearSlots object offset count) := by
  induction count generalizing offset with
  | zero => exact deaf_pure ()
  | succ count ih =>
      refine deaf_memory.bind fun memory => (deaf_check _).bind fun _ => ?_
      exact (deaf_storeValue _ _).bind fun _ => ih _

theorem Tiled.concurs_breakWeakSlots (tiled : heap.Tiled machine.memory tiling) (member : block ∈ heap.blocks tiling)
    (isObject : block.kind = .object) (valid : ∀ block ∈ heap.blocks tiling, block.kind = .object →
      (machine.memory.header block.start).isValid = true)
    (refer : ∀ shape, heap.shapes.get? (machine.memory.tag block.start) = some shape → ∀ offset,
      shape.WeakSlot machine.memory block.start offset →
        heap.RefersToObject tiling (machine.memory.value (block.start + offset)))
    (agrees : machine.Agrees terms image) :
    (heap.breakWeakSlots block.start).Concurs terms (fun _ _ _ => True)
      ((heap.built features).breakWeakSlots block.start) machine image := by
  obtain ⟨slab, inHeap, inSlab⟩ := mem_blocks.mp member
  obtain ⟨shape, known, describes⟩ := (tiled.layout slab inHeap).object inSlab isObject
  unfold breakWeakSlots
  refine .after (show Action.memory.run machine = .ok machine.memory machine from rfl)
    (show Action.memory.run image = .ok image.memory image from rfl) ?_
  rw [agrees.memory, show (heap.built features).shapes = heap.shapes from rfl]
  simp only [known]
  cases weak : shape.weak with
  | none => exact .pure trivial agrees
  | some run =>
      have slot (index : Nat) (inRun : index < run.slotCount machine.memory block.start) :
          shape.WeakSlot machine.memory block.start (run.offset + wordBytes * index) := ⟨run, weak, index, inRun, rfl⟩
      simp only [describes.weakSlots weak, check_ok, pure_bind]
      refine (tiled.concurs_clearWeakSlots member valid (fun index inRun => ?_)
        (fun index inRun => refer shape known _ (slot index inRun)) (Nat.zero_add _)
        ⟨.refl machine, .refl machine.memory block, fun _ _ => rfl⟩ (by simp) agrees).bind ?_
      · have inside := describes.slotInside _ (.inr (.inl (slot index inRun)))
        exact ⟨inside.1, inside.2.1, inside.2.2.1⟩
      · rintro cleared _ mid later rfl agrees
        refine (Deaf.ite ((deaf_check _).bind fun _ => ?_) (deaf_pure ()) _ _ _ agrees).weaken fun _ _ _ _ => trivial
        exact deaf_clearSlots _ _ _

/-- All builds that clear weak slots do so alike, and objects stay valid. -/
theorem Firm.concurs_breakWeakReferences (firm : heap.Firm tiling origin machine)
    (calm : terms.alarms.isSome → ∀ block ∈ heap.blocks tiling, block.kind ≠ .bare)
    (agrees : machine.Agrees terms image) :
    heap.breakWeakReferences.Concurs terms (fun _ _ final => heap.WeakPass tiling machine final [])
      (heap.built features).breakWeakReferences machine image := by
  have sound {mid : Machine} {rest : List Block} (pass : heap.WeakPass tiling machine mid rest) (block : Block)
      (member : block ∈ heap.blocks tiling) (isObject : block.kind = .object) :
      (mid.memory.header block.start).isValid = true :=
    ((pass.sameMarks _ ⟨block, member, by simp [isObject], rfl⟩).2).trans (firm.valid block member isObject)
  refine (concurs_foldAll (fun _ rest mid => heap.WeakPass tiling machine mid rest)
    (fun _ _ _ pass => pass.stillTiled firm.tiled)
    (fun _ block _ _ pass suffix => sound pass block (suffix.mem List.mem_cons_self))
    (fun _ _ _ _ pass quiet => pass.quiet quiet)
    (fun _ _ _ _ pass _ other => pass.passOver fun isObject => absurd isObject other)
    (fun _ block rest mid later pass suffix isObject agrees => ?_) calm (.start machine) agrees).weaken
    fun _ _ _ both => both.2
  have member : block ∈ heap.blocks tiling := suffix.mem List.mem_cons_self
  have once := (List.nodup_cons.mp (firm.tiled.nodup_blocks.sublist suffix.sublist)).1
  have sameMark := (pass.weakened block member (by simp [isObject])).isMarked
  have refer := firm.weak block member isObject
  refine .after (show Action.memory.run mid = .ok mid.memory mid from rfl)
    (show Action.memory.run later = .ok later.memory later from rfl) ?_
  rw [agrees.memory, sameMark]
  split
  · next marked =>
    have ahead := pass.weakSlots firm.tiled member isObject List.mem_cons_self refer
    have visits := pass.ensures_visit firm.tiled member isObject once
      (fun shape known offset slot => (refer shape known offset slot).denotes.within) marked
    refine (((pass.stillTiled firm.tiled).concurs_breakWeakSlots member isObject (sound pass) ahead
      agrees).ensuring visits).weaken fun _ _ _ both => ⟨rfl, both.2⟩
  · next unmarked =>
    exact .pure ⟨rfl, pass.passOver fun _ => Bool.eq_false_of_not_eq_true unmarked⟩ agrees

end WeakSlots

/-- No object has a weak slot, nor one that depends on weak ones. -/
def Weakless (heap : Heap) (tiling : Slab → List Block) (memory : Memory) : Prop :=
  ∀ block ∈ heap.blocks tiling, block.kind = .object → ∀ shape,
    heap.shapes.get? (memory.tag block.start) = some shape → ∀ offset,
      ¬ shape.WeakSlot memory block.start offset ∧ ¬ shape.DependentSlot memory block.start offset

theorem Weakless.congr {memory after : Memory} (weakless : heap.Weakless tiling memory)
    (alike : ∀ block ∈ heap.blocks tiling, block.kind = .object → block.Alike heap.shapes memory after) :
    heap.Weakless tiling after := by
  intro block member isObject shape known offset
  have alike := alike block member isObject
  rw [alike.tag] at known
  have lengths := alike.lengths isObject shape known
  rw [Shape.weakSlot_congr lengths, Shape.dependentSlot_congr lengths]
  exact weakless block member isObject shape known offset

/-- Where there are no weak slots, none is cleared. -/
theorem Tiled.ensures_breakWeakSlots_weakless (tiled : heap.Tiled machine.memory tiling)
    (weakless : heap.Weakless tiling machine.memory) (member : block ∈ heap.blocks tiling)
    (isObject : block.kind = .object) :
    (heap.breakWeakSlots block.start).Ensures machine fun _ final => machine.Quiet final := by
  obtain ⟨slab, inHeap, inSlab⟩ := mem_blocks.mp member
  obtain ⟨shape, known, describes⟩ := (tiled.layout slab inHeap).object inSlab isObject
  have none := weakless block member isObject shape known
  unfold breakWeakSlots
  rw [ensures_memory]
  simp only [known]
  cases weak : shape.weak with
  | none => exact ensures_pure.mpr (.refl machine)
  | some run =>
      have counted : run.slotCount machine.memory block.start = 0 :=
        Nat.eq_zero_of_not_pos fun some => (none _).1 ⟨run, weak, 0, some, rfl⟩
      have dependent : shape.dependent = 0 :=
        Nat.eq_zero_of_not_pos fun some => (none _).2 ⟨run, weak, 0, some, rfl⟩
      have slots := describes.weakSlots weak
      rw [counted] at slots
      simp only [dependent]
      rw [ensures_check slots]
      exact ensures_pure.mpr (.refl machine)

theorem Tiled.ensures_breakWeakReferences_weakless (tiled : heap.Tiled machine.memory tiling)
    (weakless : heap.Weakless tiling machine.memory) :
    heap.breakWeakReferences.Ensures machine fun _ final => machine.Quiet final := by
  refine ensures_foldAll (fun _ _ mid => machine.Quiet mid) (fun _ _ mid quiet => quiet.memory ▸ tiled)
    (fun _ _ _ _ quiet more => quiet.trans more) (fun _ _ _ _ quiet _ _ => quiet)
    (fun _ block rest mid quiet suffix isObject => ?_) (.refl machine)
  rw [ensures_memory]
  split
  · exact (Tiled.ensures_breakWeakSlots_weakless (quiet.memory ▸ tiled) (quiet.memory ▸ weakless)
      (suffix.mem List.mem_cons_self) isObject).weaken fun _ _ more => quiet.trans more
  · exact ensures_pure.mpr quiet

/-- What the terms ask of a heap, if another build of it is to agree: that nothing is reported, and that weak slots are
cleared in that build as well. -/
structure Comparable (heap : Heap) (terms : Terms) (features : Features) (tiling : Slab → List Block)
    (memory : Memory) : Prop where
  calm : terms.alarms.isSome → ∀ block ∈ heap.blocks tiling, block.kind ≠ .bare
  weak : features.weakReferences = true ∨ ¬ terms.exact ∧ terms.alarms = none ∧ heap.Weakless tiling memory

section Collecting

variable (weak : heap.features.weakReferences = true) (firm : heap.Firm tiling origin machine)
  (comparable : heap.Comparable terms features tiling origin) (agrees : machine.Agrees terms image)

include weak firm comparable agrees

/-- Builds without weak slots need not clear any. -/
theorem concurs_weakPhase :
    (if heap.features.weakReferences then heap.breakWeakReferences else pure () : Action Unit).Concurs terms
      (fun _ _ final => heap.Tiled final.memory tiling ∧ ∀ block ∈ heap.blocks tiling, block.kind = .object →
        (final.memory.header block.start).isValid = true)
      (if features.weakReferences then (heap.built features).breakWeakReferences else pure ()) machine image := by
  rw [if_pos weak]
  by_cases also : features.weakReferences = true
  · rw [if_pos also]
    refine (firm.concurs_breakWeakReferences comparable.calm agrees).weaken fun _ _ final pass =>
      ⟨pass.stillTiled firm.tiled, fun block member isObject => ?_⟩
    exact ((pass.sameMarks _ ⟨block, member, by simp [isObject], rfl⟩).2).trans (firm.valid block member isObject)
  · rw [if_neg also]
    obtain ⟨inexact, calm, weakless⟩ := comparable.weak.resolve_left also
    obtain ⟨_, final, ran, quiet⟩ :=
      firm.tiled.ensures_breakWeakReferences_weakless (weakless.congr firm.alike)
    have silent : machine.Silent final := heap.respects_breakWeakReferences.of_run ran
    refine .answers ran rfl ⟨quiet.memory ▸ firm.tiled, quiet.memory ▸ firm.valid⟩
      ⟨?_, agrees.calls.trans silent.symm, fun exact => absurd exact inexact, by simp [calm]⟩
    exact ⟨⟨agrees.frames.trans quiet.frames.symm, agrees.identities.trans quiet.identities.symm,
      agrees.pages.trans quiet.pages.symm⟩, agrees.memory.trans quiet.memory.symm⟩

/-- What follows the mark phase is the same in all builds. -/
theorem concurs_finishCollection (context : Option Context) :
    (heap.finishCollection context).Concurs terms (Rebuilt features)
      ((heap.built features).finishCollection context) machine image := by
  have told (notice : Notice) (start : Machine) : (note notice).run start = .ok () (start.logging (.notice notice)) := rfl
  unfold finishCollection
  refine .after (told _ machine) (told _ image) ?_
  dsimp only
  rw [ite_bind, ite_bind]
  have begun : machine.Quiet (machine.logging (.notice (.collecting context heap.identity heap.totalSize))) :=
    machine.quiet_logging _
  refine (concurs_weakPhase weak (firm.quiet begun) comparable (agrees.noting fun _ => nofun)).bind ?_
  rintro _ _ mid later ⟨tiled, valid⟩ agrees
  have sweeps := tiled.concurs_sweep valid comparable.calm
    (show (heap.built features).slabs = heap.slabs from rfl) rfl agrees
  refine sweeps.bind ?_
  rintro _ swept mid later rfl agrees
  refine .after (told _ mid) (told _ later) ?_
  have agrees := agrees.logging (.notice (.collected context swept.sumFreed swept.maxFreed)) fun _ => rfl
  rw [show (heap.built features).counters = heap.counters from rfl]
  cases heap.counters.collect swept.sumFreed with
  | error fault => exact .fails rfl rfl agrees
  | ok counters => exact .answers rfl rfl rfl agrees

end Collecting

theorem concurs_collectFrom (weak : heap.features.weakReferences = true) (firm : heap.Firm tiling origin machine)
    (comparable : heap.Comparable terms features tiling origin) {context : Option Context}
    (rooted : ∀ value ∈ heap.roots context, heap.RefersToObject tiling value) (agrees : machine.Agrees terms image) :
    (heap.collectFrom context).Concurs terms (Rebuilt features)
      ((heap.built features).collectFrom context) machine image :=
  (firm.concurs_mark rooted agrees).bind fun _ _ _ _ firm agrees =>
    concurs_finishCollection weak firm comparable agrees context

/-- Snapshots name the same objects in all builds. -/
theorem concurs_collectWithSnapshot (weak : heap.features.weakReferences = true)
    (firm : heap.Firm tiling origin machine) (comparable : heap.Comparable terms features tiling origin)
    {context : Context} (rooted : ∀ value ∈ heap.roots (some context), heap.RefersToObject tiling value)
    (snapshot : Snapshot) (agrees : machine.Agrees terms image) :
    (heap.collectWithSnapshot context snapshot).Concurs terms
      (Rebuilt features)
      ((heap.built features).collectWithSnapshot context snapshot) machine image :=
  (firm.concurs_mark rooted agrees).bind fun _ _ _ _ firm agrees =>
    (firm.concurs_markNamed snapshot comparable.calm agrees).bind fun _ _ _ _ firm agrees =>
      concurs_finishCollection weak firm comparable agrees _

end Heap

end SlabHeap
