import SlabHeap.Proofs.Writing

namespace SlabHeap

/-! Saving in frames.

What the actions on frames do to the chains of contexts, and that heaps stay consistent through them:
`Heap.Consistent.save` for a value that is saved, `Heap.Consistent.refill` for one that is replaced, and
`Heap.Consistent.unlink` for the innermost frame that is dropped.
-/

open Block

namespace Frame

variable {frame : Frame} {value other old : Value} {index place : Nat}

theorem mem_values_save (held : other ∈ (frame.save value).values) :
    other ∈ frame.values ∨ other = value := by
  unfold save at held
  split at held
  · next room =>
    simp only [values, List.mem_append] at held ⊢
    rcases held with inFixed | spilled
    · rw [Vector.toList_set, List.mem_iff_getElem?] at inFixed
      obtain ⟨position, at_⟩ := inFixed
      rw [List.getElem?_take, List.getElem?_set] at at_
      split at at_
      · next before =>
        split at at_
        · split at at_
          · exact .inr (Option.some.inj at_).symm
          · contradiction
        · refine .inl (.inl (List.mem_iff_getElem?.mpr ⟨position, ?_⟩))
          rw [List.getElem?_take, if_pos (by omega)]
          exact at_
      · contradiction
    · exact .inl (.inr spilled)
  · simp only [values, List.mem_append, Array.toList_push, List.mem_singleton] at held ⊢
    rcases held with inFixed | spilled | last
    · exact .inl (.inl inFixed)
    · exact .inl (.inr spilled)
    · exact .inr last

theorem mem_values_set (held : other ∈ (frame.set index value).values) :
    other ∈ frame.values ∨ other = value := by
  unfold set at held
  split at held
  · simp only [values, List.mem_append] at held ⊢
    rcases held with inFixed | spilled
    · rw [Vector.toList_set, List.take_set] at inFixed
      exact (List.mem_or_eq_of_mem_set inFixed).imp_left .inl
    · exact .inl (.inr spilled)
  · simp only [values, List.mem_append] at held ⊢
    rcases held with inFixed | spilled
    · exact .inl (.inl inFixed)
    · rw [Array.toList_setIfInBounds] at spilled
      exact (List.mem_or_eq_of_mem_set spilled).imp_left .inr

@[simp]
theorem links_save : (frame.save value).linked = frame.linked ∧
    (frame.save value).context = frame.context ∧ (frame.save value).outer = frame.outer := by
  unfold save
  split <;> exact ⟨rfl, rfl, rfl⟩

@[simp]
theorem links_set : (frame.set index value).linked = frame.linked ∧
    (frame.set index value).context = frame.context ∧ (frame.set index value).outer = frame.outer := by
  unfold set
  split <;> exact ⟨rfl, rfl, rfl⟩

theorem values_eq_nil (empty : frame.size = 0) : frame.values = [] := by
  simp only [size, Nat.add_eq_zero_iff, Array.size_eq_zero_iff] at empty
  simp [values, empty.1, empty.2]

@[simp]
theorem size_set : (frame.set index value).size = frame.size := by
  unfold set size
  split <;> simp

theorem size_save : (frame.save value).size = frame.size + 1 := by
  unfold save size
  split
  · simp only
    omega
  · simp only [Array.size_push]
    omega

theorem get_set (got : frame.get index = .ok old) :
    (frame.set index value).get place = if place = index then .ok value else frame.get place := by
  unfold set
  split
  · next fits =>
    unfold get
    by_cases same : place = index
    · simp [same, fits]
    · simp [same, Ne.symm same]
  · next beyond =>
    unfold get at got ⊢
    rw [dif_neg beyond] at got
    split at got
    · next inside =>
      by_cases same : place = index
      · subst same
        simp [beyond, inside]
      · simp only [same, if_false]
        split
        · rfl
        · have distinct : index - 16 ≠ place - 16 := by omega
          simp only [Array.size_setIfInBounds]
          split
          · rw [Array.getElem_setIfInBounds_ne]
            exact distinct
          · rfl
    · cases got

theorem wellFormed_set (wellFormed : frame.WellFormed) : (frame.set index value).WellFormed := by
  obtain ⟨few, spill⟩ := wellFormed
  unfold set
  split
  · exact ⟨few, spill⟩
  · refine ⟨few, fun room => ?_⟩
    simp [spill room]

section WellFormed

variable (wellFormed : frame.WellFormed)

include wellFormed

theorem length_values : frame.values.length = frame.size := by
  have few := wellFormed.1
  simp only [values, size, List.length_append, List.length_take, Vector.length_toList, Array.length_toList]
  omega

theorem values_save : (frame.save value).values = frame.values ++ [value] := by
  obtain ⟨few, spill⟩ := wellFormed
  unfold save
  split
  · next room =>
    have bound : frame.used < frame.fixed.toList.length := by simpa using room
    simp only [values, spill room, List.append_nil, Vector.toList_set]
    rw [List.take_succ_eq_append_getElem (by simpa using room), List.take_set_of_le (Nat.le_refl _)]
    simp
  · simp [values]

theorem values_set : (frame.set index value).values = frame.values.set index value := by
  obtain ⟨few, spill⟩ := wellFormed
  have length : (frame.fixed.toList.take frame.used).length = frame.used := by
    rw [List.length_take, Vector.length_toList]
    omega
  unfold set
  split
  · simp only [values, Vector.toList_set, List.take_set]
    by_cases inside : index < frame.used
    · rw [List.set_append_left _ _ (by omega)]
    · have beyond : frame.overflow = #[] := spill (by omega)
      rw [List.set_eq_of_length_le (by omega), beyond, List.append_nil,
        List.set_eq_of_length_le (by omega)]
  · next beyond =>
    simp only [values, Array.toList_setIfInBounds]
    rw [List.set_append_right _ _ (by omega), length]
    by_cases full : frame.used = 16
    · rw [full]
    · have empty : frame.overflow = #[] := spill (by omega)
      simp [empty]

theorem get_eq (inside : index < frame.values.length) : frame.get index = .ok frame.values[index] := by
  have length := length_values wellFormed
  obtain ⟨few, spill⟩ := wellFormed
  have taken : (frame.fixed.toList.take frame.used).length = frame.used := by
    rw [List.length_take, Vector.length_toList]
    omega
  unfold get
  split
  · next fits =>
    have inFixed : index < frame.used := by
      by_contra outside
      have empty : frame.overflow = #[] := spill (by omega)
      rw [length] at inside
      simp [size, empty] at inside
      omega
    simp only [values]
    rw [List.getElem_append_left (by omega), List.getElem_take, Vector.getElem_toList]
  · next beyond =>
    have full : frame.used = 16 := by
      by_contra room
      have empty : frame.overflow = #[] := spill (by omega)
      rw [length] at inside
      simp [size, empty] at inside
      omega
    have inList : index - 16 < frame.overflow.size := by
      rw [length] at inside
      simp only [size] at inside
      omega
    rw [dif_pos inList]
    simp only [values]
    rw [List.getElem_append_right (by omega)]
    simp [full]

end WellFormed

end Frame

theorem Context.saves_setSaves {context : Context} {memory : Memory} {link : Nat}
    (small : link < Size.limit) : context.saves (context.setSaves memory link) = link := by
  rw [Context.saves, Context.setSaves, Memory.read_write_same]
  exact Nat.mod_eq_of_lt small

namespace Machine

variable {machine final : Machine} {number other : Nat} {frame : Frame} {context : Context}
  {value : Value} {index : Nat}

/-- Every frame has an address that is a word, and holds nothing before it is linked. -/
structure Orderly (machine : Machine) : Prop where
  addressed : frameAddress machine.frames.size ≤ Size.limit
  unlinked : ∀ number frame, machine.frame? number = some frame → frame.linked = false →
    frame.size = 0

theorem Orderly.congr (orderly : machine.Orderly) (same : final.frames = machine.frames) :
    final.Orderly where
  addressed := by
    rw [same]
    exact orderly.addressed
  unlinked number frame found := by
    rw [frame?_congr same] at found
    exact orderly.unlinked number frame found

theorem Orderly.address_lt (orderly : machine.Orderly)
    (found : machine.frame? number = some frame) : frameAddress number < Size.limit := by
  have inside := frame?_lt found
  have addressed := orderly.addressed
  simp only [frameAddress] at *
  omega

/-- A chain starts at a word. -/
theorem Chained.address_lt {address : Nat} {numbers : List Nat}
    (chained : machine.Chained context address numbers) (orderly : machine.Orderly) :
    address < Size.limit := by
  cases numbers with
  | nil =>
      obtain rfl : address = 0 := chained
      decide
  | cons number rest =>
      obtain ⟨rfl, frame, found, _⟩ := chained
      exact orderly.address_lt found

theorem frame?_push : ({ machine with frames := machine.frames.push (some frame) } : Machine).frame?
    number = if number = machine.frames.size then some frame else machine.frame? number := by
  simp only [frame?, Array.getElem?_push]
  split <;> rfl

/-- One frame changed, and words perhaps. -/
structure Reframed (machine final : Machine) (number : Nat) (frame : Option Frame) : Prop where
  frame : final.frame? number = frame
  others : ∀ other, other ≠ number → final.frame? other = machine.frame? other
  count : final.frames.size = machine.frames.size
  pages : final.pages = machine.pages

theorem Reframed.orderly {changed : Option Frame} (reframed : machine.Reframed final number changed)
    (orderly : machine.Orderly)
    (empty : ∀ frame ∈ changed, frame.linked = false → frame.size = 0) : final.Orderly where
  addressed := by
    rw [reframed.count]
    exact orderly.addressed
  unlinked other frame found := by
    by_cases same : other = number
    · subst same
      exact empty frame (reframed.frame.symm.trans found)
    · exact orderly.unlinked other frame ((reframed.others other same).symm.trans found)

theorem reframed_set {replacement : Option Frame} (memory : Memory)
    (found : machine.frame? number = some frame) :
    machine.Reframed { machine with
      memory
      frames := machine.frames.setIfInBounds number replacement } number replacement := by
  have inside := frame?_lt found
  refine ⟨?_, fun other distinct => ?_, Array.size_setIfInBounds, rfl⟩
  · simp [frame?, inside]
  · rw [frame?, frame?, Array.getElem?_setIfInBounds_ne (Ne.symm distinct)]

theorem reframed_modify (change : Frame → Frame) (found : machine.frame? number = some frame) :
    machine.Reframed { machine with
      frames := machine.frames.modify number (·.map change) } number (some (change frame)) := by
  refine ⟨?_, fun other distinct => ?_, Array.size_modify, rfl⟩
  · rw [frame?, Array.getElem?_modify, if_pos rfl]
    simp only [frame?] at found
    cases listed : machine.frames[number]? with
    | none => simp [listed] at found
    | some entry =>
        rw [listed] at found
        obtain rfl : entry = some frame := found
        rfl
  · rw [frame?, frame?, Array.getElem?_modify, if_neg (Ne.symm distinct)]

def linking (machine : Machine) (frame : Frame) : Frame :=
  if frame.linked then frame
  else { frame with outer := frame.context.saves machine.memory, linked := true }

theorem linking_values (machine : Machine) (frame : Frame) :
    (machine.linking frame).context = frame.context ∧ (machine.linking frame).size = frame.size ∧
      ((machine.linking frame).WellFormed ↔ frame.WellFormed) ∧
        ∀ index, (machine.linking frame).get index = frame.get index := by
  unfold linking
  split
  · exact ⟨rfl, rfl, Iff.rfl, fun _ => rfl⟩
  · exact ⟨rfl, rfl, Iff.rfl, fun _ => rfl⟩

theorem linked_linking (machine : Machine) (frame : Frame) :
    (machine.linking frame).linked = true := by
  unfold linking
  split
  · assumption
  · rfl

def linkingMemory (machine : Machine) (number : Nat) (frame : Frame) : Memory :=
  if frame.linked then machine.memory
  else frame.context.setSaves machine.memory (frameAddress number)

theorem ensures_saveValue (found : machine.frame? number = some frame) :
    (Action.saveValue number frame value).Ensures machine fun index final => index = frame.size ∧
      final.memory = machine.linkingMemory number frame ∧
        machine.Reframed final number (some ((machine.linking frame).save value)) := by
  unfold Action.saveValue Action.linkFrame
  cases linked : frame.linked with
  | true =>
      simp only [linking, linkingMemory, linked, if_true]
      exact ⟨_, _, rfl, rfl, rfl, reframed_modify (·.save value) found⟩
  | false =>
      simp only [linking, linkingMemory, linked, Bool.false_eq_true, if_false]
      refine ⟨_, _, rfl, rfl, rfl, ?_⟩
      let linkedFrame : Frame := { frame with
        outer := frame.context.saves machine.memory
        linked := true }
      have set : machine.Reframed _ number (some linkedFrame) :=
        reframed_set (frame.context.setSaves machine.memory (frameAddress number)) found
      have again := reframed_modify (·.save value) set.frame
      refine ⟨again.frame, fun other distinct => ?_, again.count.trans set.count, rfl⟩
      exact (again.others other distinct).trans (set.others other distinct)

theorem ensures_replaceValue {old : Value} (found : machine.frame? number = some frame)
    (got : frame.get index = .ok old) : (Action.replaceValue number index value).Ensures machine
      fun _ final => final.memory = machine.memory ∧
        machine.Reframed final number (some (frame.set index value)) := by
  refine ⟨(), { machine with frames := machine.frames.modify number (·.map (·.set index value)) },
    ?_, rfl, reframed_modify (·.set index value) found⟩
  have reads : (Action.frame? number).run machine = .ok (some frame) machine :=
    congrArg (EStateM.Result.ok · machine) found
  unfold Action.replaceValue
  rw [Action.run_bind reads]
  simp only [got]
  rfl

theorem refuses_replaceValue {fault : Fault} (found : machine.frame? number = some frame)
    (fails : frame.get index = .error fault) :
    (Action.replaceValue number index value).run machine = .error fault machine := by
  have reads : (Action.frame? number).run machine = .ok (some frame) machine :=
    congrArg (EStateM.Result.ok · machine) found
  unfold Action.replaceValue
  rw [Action.run_bind reads]
  simp only [fails]
  rfl

theorem ensures_dropFrame (found : machine.frame? number = some frame)
    (ordered : frame.linked = true → frame.context.saves machine.memory = frameAddress number) :
    (Action.dropFrame number frame).Ensures machine fun _ final =>
      final.memory = (if frame.linked then frame.context.setSaves machine.memory frame.outer
        else machine.memory) ∧ machine.Reframed final number none := by
  unfold Action.dropFrame
  cases linked : frame.linked with
  | true =>
      simp only [if_true]
      rw [Action.ensures_memory, if_pos (ordered linked), Action.ensures_onMemory]
      exact ⟨(), _, rfl, rfl, reframed_set _ found⟩
  | false => exact ⟨(), _, rfl, rfl, reframed_set _ found⟩

/-- A linked frame is not dropped unless it is the innermost one of its context. -/
theorem refuses_dropFrame (linked : frame.linked = true)
    (buried : frame.context.saves machine.memory ≠ frameAddress number) :
    (Action.dropFrame number frame).run machine = .error .framesOutOfOrder machine := by
  unfold Action.dropFrame
  rw [if_pos linked, Action.run_bind (show Action.memory.run machine = .ok machine.memory machine from rfl),
    if_neg buried]
  rfl

theorem innermost_of_dropFrame (ran : (Action.dropFrame number frame).run machine = .ok () final)
    (linked : frame.linked = true) : frame.context.saves machine.memory = frameAddress number := by
  by_contra buried
  cases ran.symm.trans (refuses_dropFrame linked buried)

end Machine

namespace Heap

variable {heap : Heap} {machine final : Machine} {tiling : Slab → List Block} {block : Block}
  {frame : Frame} {context : Context} {number index : Nat} {value : Value}

def IsContext (heap : Heap) (tiling : Slab → List Block) (memory : Memory) (context : Context) : Prop :=
  heap.Object tiling context.address ∧ memory.tag context.address = Tag.context

theorem Tiled.size_of_context {memory : Memory} (tiled : heap.Tiled memory tiling)
    (member : block ∈ heap.blocks tiling) (isObject : block.kind = .object)
    (isContext : memory.tag block.start = Tag.context) : block.size = 48 := by
  have known : heap.shapes.get? Tag.context = some .context := rfl
  exact Shape.size_of_context known (tiled.describes member (by simp [isObject]) (isContext ▸ known)).2

namespace Upheld

variable {denotes : Value → Prop} (upheld : heap.Upheld denotes tiling machine)

include upheld

/-- The links of contexts may change as long as all chains are of the kind. -/
theorem rechain (words : ∀ address, final.memory.read address = machine.memory.read address ∨
      ∃ block ∈ heap.blocks tiling, block.kind = .object ∧
        machine.memory.tag block.start = Tag.context ∧
          block.start + Layout.Context.saves ≤ address ∧
            address < block.start + Layout.Context.saves + 8)
    (chains : ∀ block ∈ heap.blocks tiling, block.kind = .object →
      machine.memory.tag block.start = Tag.context →
        final.Holds denotes ⟨block.start⟩)
    (pages : final.pages = machine.pages) : heap.Upholds denotes tiling machine final := by
  -- Of all words only links of contexts change.
  have inside {block : Block} (member : block ∈ heap.blocks tiling) {address : Nat}
      (covers : block.Covers address) (clear : machine.memory.tag block.start = Tag.context →
        ¬ (block.start + Layout.Context.saves ≤ address ∧
          address < block.start + Layout.Context.saves + 8)) :
      final.memory.read address = machine.memory.read address := by
    refine (words address).resolve_right ?_
    rintro ⟨other, otherMember, isObject, isContext, link⟩
    have large := upheld.tiled.size_of_context otherMember isObject isContext
    have both : other.Covers address := by
      simp only [Block.Covers, Block.stop, Layout.Context.saves] at *
      omega
    obtain rfl := upheld.tiled.eq_of_covers otherMember member both covers
    exact clear isContext link
  have alike {block : Block} (member : block ∈ heap.blocks tiling) :
      block.Alike heap.shapes machine.memory final.memory := by
    have large := (upheld.tiled.bounds member).2.2.1
    refine ⟨congrArg (Header.tag ∘ Header.ofWord) (inside member
      (upheld.tiled.start_covers member) fun _ => ?_), fun isObject shape known length listed => ?_⟩
    · simp only [Layout.Context.saves]
      omega
    · have describes := (upheld.tiled.describes member (by simp [isObject]) known).2
      have place := describes.lengthInside length listed
      refine inside member ⟨by omega, by simp only [Block.stop]; omega⟩ fun isContext => ?_
      have none := Shape.lengths_of_context (isContext ▸ known)
      simp [none] at listed
  refine ⟨⟨?_, ?_, upheld.upper, ?_⟩, fun block member _ => alike member⟩
  · refine upheld.tiled.congr_used (fun address free => (words address).resolve_right ?_)
      fun block member _ => alike member
    rintro ⟨block, member, isObject, isContext, link⟩
    have large := upheld.tiled.size_of_context member isObject isContext
    refine free block member (by simp [isObject]) ?_
    simp only [Block.Covers, Block.stop, Layout.Context.saves] at *
    omega
  · exact fun slab inHeap => (upheld.hosted slab inHeap).congr pages
  · intro block member isObject
    exact (upheld.objects block member isObject).rechain isObject (upheld.fits member)
      (upheld.tiled.bounds member).2.2.1 (fun _ => inside member) (chains block member isObject)
      fun _ => id

/-- Frames may change as long as those on chains keep their links. -/
theorem reframe (memory : final.memory = machine.memory) (pages : final.pages = machine.pages)
    (frames : ∀ number frame, machine.frame? number = some frame → frame.linked = true →
      ∃ changed, final.frame? number = some changed ∧
        (changed.linked = true ∧ changed.context = frame.context ∧ changed.outer = frame.outer) ∧
          ∀ value ∈ changed.values, value ∈ frame.values ∨ denotes value) :
    heap.Upholds denotes tiling machine final := by
  refine upheld.rechain (fun address => .inl (by rw [memory])) (fun block member isObject
    isContext => ?_) pages
  refine ((upheld.objects block member isObject).chain isContext).change (by rw [memory])
    (fun number frame found linked owned => ?_) fun _ => id
  obtain ⟨changed, still, ⟨stillLinked, stillOwned, outer⟩, values⟩ := frames number frame found linked
  exact ⟨changed, still, ⟨stillLinked, stillOwned.trans owned, outer⟩, values⟩

theorem push (frame : Frame) :
    heap.Upholds denotes tiling machine
      { machine with frames := machine.frames.push (some frame) } := by
  refine upheld.reframe rfl rfl fun number frame found linked => ⟨frame, ?_, ⟨linked, rfl, rfl⟩,
    fun _ => .inl⟩
  rw [Machine.frame?_push, if_neg (Nat.ne_of_lt (Machine.frame?_lt found))]
  exact found

theorem refill {changed : Frame} (found : machine.frame? number = some frame)
    (memory : final.memory = machine.memory)
    (reframed : machine.Reframed final number (some changed))
    (links : changed.linked = frame.linked ∧ changed.context = frame.context ∧
      changed.outer = frame.outer)
    (values : ∀ value ∈ changed.values, value ∈ frame.values ∨ denotes value) :
    heap.Upholds denotes tiling machine final := by
  refine upheld.reframe memory reframed.pages fun other otherFrame otherFound linked => ?_
  by_cases same : other = number
  · subst same
    obtain rfl := Option.some.inj (found.symm.trans otherFound)
    exact ⟨changed, reframed.frame, ⟨links.1.trans linked, links.2⟩, values⟩
  · exact ⟨otherFrame, (reframed.others other same).trans otherFound, ⟨linked, rfl, rfl⟩,
      fun _ => .inl⟩

theorem relink {link : Nat} (isContext : heap.IsContext tiling machine.memory context)
    (memory : final.memory = context.setSaves machine.memory link)
    (chain : final.Holds denotes context)
    (others : ∀ number frame, machine.frame? number = some frame → frame.linked = true →
      frame.context ≠ context → final.frame? number = some frame)
    (pages : final.pages = machine.pages) : heap.Upholds denotes tiling machine final := by
  obtain ⟨⟨block, member, isObject, starts⟩, tagged⟩ := isContext
  have aligned := (upheld.tiled.bounds member).2.1
  refine upheld.rechain (fun address => ?_) (fun other otherMember otherObject otherContext => ?_) pages
  · rw [memory, Context.setSaves, Memory.read_write, ← starts]
    split
    · next same =>
      refine .inr ⟨block, member, isObject, starts ▸ tagged, ?_⟩
      simp only [Layout.Context.saves] at *
      omega
    · exact .inl rfl
  · by_cases here : other.start = context.address
    · rw [here]
      exact chain
    · have otherAligned := (upheld.tiled.bounds otherMember).2.1
      refine ((upheld.objects other otherMember otherObject).chain otherContext).change ?_
        (fun number frame found linked owned => ⟨frame, others number frame found linked ?_,
          ⟨linked, owned, rfl⟩, fun _ => .inl⟩) fun _ => id
      · rw [Context.saves, Context.saves, memory, Context.setSaves, Memory.read_write_ne]
        simp only [Layout.Context.saves]
        omega
      · rw [owned]
        exact fun same => here (congrArg Context.address same)

theorem holds (isContext : heap.IsContext tiling machine.memory context) :
    machine.Holds denotes context := by
  obtain ⟨⟨block, member, isObject, starts⟩, tagged⟩ := isContext
  have holds := (upheld.objects block member isObject).chain (starts ▸ tagged)
  rwa [show (⟨block.start⟩ : Context) = context from congrArg Context.mk starts] at holds

variable (found : machine.frame? number = some frame) (orderly : machine.Orderly)
  (isContext : heap.IsContext tiling machine.memory frame.context)

include found orderly isContext

omit isContext orderly in
theorem discard (linked : frame.linked = false) (memory : final.memory = machine.memory)
    (reframed : machine.Reframed final number none) : heap.Upholds denotes tiling machine final := by
  refine upheld.reframe memory reframed.pages fun other otherFrame otherFound otherLinked =>
    ⟨otherFrame, (reframed.others other fun same => ?_).trans otherFound, ⟨otherLinked, rfl, rfl⟩,
      fun _ => .inl⟩
  subst same
  obtain rfl := Option.some.inj (found.symm.trans otherFound)
  simp [linked] at otherLinked

/-- A value is saved in a frame, which joins the chain of its context if it was not on it. -/
theorem save (memory : final.memory = machine.linkingMemory number frame)
    (reframed : machine.Reframed final number (some ((machine.linking frame).save value)))
    (holds : denotes value) : heap.Upholds denotes tiling machine final := by
  cases linked : frame.linked with
  | true =>
      simp only [Machine.linkingMemory, Machine.linking, linked, if_true] at memory reframed
      exact upheld.refill found memory reframed Frame.links_save fun other held =>
        (Frame.mem_values_save held).imp_right fun same => by rwa [same]
  | false =>
      simp only [Machine.linkingMemory, Machine.linking, linked, Bool.false_eq_true, if_false]
        at memory reframed
      -- The frame was not linked, so that the linked ones are others.
      have still {other : Nat} {otherFrame : Frame} (otherFound : machine.frame? other = some otherFrame)
          (otherLinked : otherFrame.linked = true) : final.frame? other = some otherFrame := by
        refine (reframed.others other fun equal => ?_).trans otherFound
        subst equal
        obtain rfl := Option.some.inj (found.symm.trans otherFound)
        simp [linked] at otherLinked
      obtain ⟨numbers, chain, values⟩ := upheld.holds isContext
      refine upheld.relink isContext memory ⟨number :: numbers, ⟨?_, _, reframed.frame,
        Frame.links_save.1, Frame.links_save.2.1, ?_⟩, fun later listed laterFrame laterFound other
          held => ?_⟩ (fun _ _ laterFound laterLinked _ => still laterFound laterLinked)
        reframed.pages
      · rw [memory, Context.saves_setSaves (orderly.address_lt found)]
      · rw [Frame.links_save.2.2]
        refine chain.congr fun later listed => ?_
        obtain ⟨laterFrame, laterFound, laterLinked, _⟩ := chain.present listed
        rw [still laterFound laterLinked, laterFound]
      · by_cases new : later = number
        · subst new
          obtain rfl := Option.some.inj (reframed.frame.symm.trans laterFound)
          rcases Frame.mem_values_save held with old | rfl
          · have none : frame.values = [] :=
              Frame.values_eq_nil (orderly.unlinked later frame found linked)
            exact absurd (none ▸ old : other ∈ []) (by simp)
          · exact holds
        · have before := (reframed.others later new).symm.trans laterFound
          exact values later ((List.mem_cons.mp listed).resolve_left new) laterFrame before other held

theorem unlink
    (innermost : frame.context.saves machine.memory = Machine.frameAddress number)
    (memory : final.memory = frame.context.setSaves machine.memory frame.outer)
    (reframed : machine.Reframed final number none) : heap.Upholds denotes tiling machine final := by
  obtain ⟨numbers, chain, values⟩ := upheld.holds isContext
  cases numbers with
  | nil => exact absurd (innermost.symm.trans chain) (Machine.frameAddress_ne_zero number)
  | cons head rest =>
      have distinct := (List.nodup_cons.mp chain.nodup).1
      obtain ⟨starts, inner, innerFound, _, _, further⟩ := chain
      obtain rfl := Machine.frameAddress_inj.mp (innermost.symm.trans starts)
      obtain rfl := Option.some.inj (found.symm.trans innerFound)
      have same : ∀ later ∈ rest, final.frame? later = machine.frame? later := fun later listed =>
        reframed.others later fun equal => distinct (equal ▸ listed)
      have small := further.address_lt orderly
      refine upheld.relink isContext memory ⟨rest, ?_, fun later listed laterFrame laterFound => ?_⟩
        (fun later laterFrame laterFound laterLinked foreign => ?_) reframed.pages
      · rw [memory, Context.saves_setSaves small]
        exact further.congr same
      · rw [same later listed] at laterFound
        exact values later (List.mem_cons_of_mem _ listed) laterFrame laterFound
      · refine (reframed.others later fun equal => ?_).trans laterFound
        subst equal
        exact foreign (congrArg Frame.context (Option.some.inj (laterFound.symm.trans found)))

end Upheld

end Heap

end SlabHeap
