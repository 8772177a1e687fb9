import SlabHeap.Proofs.Accounts

namespace SlabHeap

/-! What a program knows of its frames.

`RootStacks` holds the values that a program saved in its frames, and for every context the order in which it
did so first. `RootStacks.Shown` says that the frames of a machine are as the program knows them.
-/

open Block Machine

/-- What a program knows of one of its frames. -/
structure RootFrame where
  context : Context
  /-- The values that were saved, in the places of which others may have been put since. -/
  saved : List Value := []
  /-- The link of the context before the first value was saved. -/
  before : Nat := 0

/-- What a program knows of its frames. -/
structure RootStacks where
  /-- Those that were opened and not dropped, by number. -/
  frames : Nat → Option RootFrame
  /-- Those of a context that hold values, in the order of their first values, the last one first. -/
  linked : Context → List Nat

namespace RootFrame

variable {root : RootFrame} {frame : Frame}

/-- The frame is as the program knows it. -/
structure Shown (root : RootFrame) (frame : Frame) : Prop where
  context : frame.context = root.context
  wellFormed : frame.WellFormed
  values : frame.values = root.saved
  linked : frame.linked = true ↔ root.saved ≠ []
  outer : root.saved ≠ [] → frame.outer = root.before

theorem Shown.unlinked (shown : root.Shown frame) (empty : root.saved = []) : frame.linked = false := by
  cases linked : frame.linked with
  | true => exact absurd empty (shown.linked.mp linked)
  | false => rfl

theorem Shown.get (shown : root.Shown frame) {index : Nat} {value : Value}
    (holds : root.saved[index]? = some value) : frame.get index = .ok value := by
  rw [← shown.values] at holds
  obtain ⟨inside, same⟩ := List.getElem?_eq_some_iff.mp holds
  rw [frame.get_eq shown.wellFormed inside, same]

theorem shown_new (context : Context) : (RootFrame.mk context [] 0).Shown { context } where
  context := rfl
  wellFormed := ⟨Nat.zero_le _, fun _ => rfl⟩
  values := rfl
  linked := by simp
  outer := by simp

theorem Shown.save (shown : root.Shown frame) (machine : Machine) (value : Value) {before : Nat}
    (known : before = if root.saved = [] then frame.context.saves machine.memory else root.before) :
    (RootFrame.mk root.context (root.saved ++ [value]) before).Shown
      ((machine.linking frame).save value) where
  context := Frame.links_save.2.1.trans ((machine.linking_values frame).1.trans shown.context)
  wellFormed := Frame.wellFormed_save ((machine.linking_values frame).2.2.1.mpr shown.wellFormed) value
  values := by
    have same : (machine.linking frame).values = frame.values := by
      unfold Machine.linking
      split <;> rfl
    rw [Frame.values_save ((machine.linking_values frame).2.2.1.mpr shown.wellFormed), same, shown.values]
  linked := by simp [machine.linked_linking]
  outer _ := by
    rw [Frame.links_save.2.2, known, Machine.linking]
    split
    · next linked =>
      have nonempty := shown.linked.mp linked
      rw [if_neg nonempty, shown.outer nonempty]
    · next unlinked =>
      rw [if_pos]
      by_contra nonempty
      exact unlinked (shown.linked.mpr nonempty)

theorem Shown.replace (shown : root.Shown frame) (index : Nat) (value : Value) :
    { root with saved := root.saved.set index value }.Shown (frame.set index value) where
  context := Frame.links_set.2.1.trans shown.context
  wellFormed := Frame.wellFormed_set shown.wellFormed
  values := by rw [Frame.values_set shown.wellFormed, shown.values]
  linked := by
    rw [Frame.links_set.1, shown.linked, ne_eq, ne_eq, List.set_eq_nil_iff]
  outer nonempty := by
    rw [ne_eq, List.set_eq_nil_iff] at nonempty
    exact Frame.links_set.2.2.trans (shown.outer nonempty)

/-- The frame holds what it held, or other values in its places, and perhaps further values behind them. -/
structure Grows (root next : RootFrame) : Prop where
  context : next.context = root.context
  grows : root.saved.length ≤ next.saved.length
  before : root.saved ≠ [] → next.before = root.before

theorem Grows.refl (root : RootFrame) : root.Grows root := ⟨rfl, Nat.le_refl _, fun _ => rfl⟩

theorem Grows.trans {mid next : RootFrame} (first : root.Grows mid) (second : mid.Grows next) :
    root.Grows next where
  context := second.context.trans first.context
  grows := Nat.le_trans first.grows second.grows
  before full := by
    have longer := List.length_pos_of_ne_nil full
    exact (second.before (List.ne_nil_of_length_pos (Nat.lt_of_lt_of_le longer first.grows))).trans
      (first.before full)

end RootFrame

namespace RootStacks

variable {roots : RootStacks} {heap after : Heap} {machine final : Machine} {tiling : Slab → List Block}
  {entries : List Block} {op : Operation} {answer : Answer} {context : Context} {number : Nat}
  {root : RootFrame}

/-- No frame was opened. -/
def empty : RootStacks := ⟨fun _ => none, fun _ => []⟩

def put (roots : RootStacks) (number : Nat) (root : Option RootFrame) : RootStacks :=
  { roots with frames := Function.update roots.frames number root }

def relink (roots : RootStacks) (context : Context) (numbers : List Nat) : RootStacks :=
  { roots with linked := Function.update roots.linked context numbers }

/-- A value is saved in a frame, which joins the stack of its context if it is the first one. -/
def save (roots : RootStacks) (memory : Memory) (number : Nat) (root : RootFrame) (value : Value) :
    RootStacks :=
  if root.saved = [] then
    (roots.put number (some ⟨root.context, [value], root.context.saves memory⟩)).relink root.context
      (number :: roots.linked root.context)
  else roots.put number (some { root with saved := root.saved ++ [value] })

/-- What a program knows after an operation. -/
def operated (roots : RootStacks) (memory : Memory) : Operation → Answer → RootStacks
  | .openFrame context, .number number => roots.put number (some { context })
  | .save number value, _ => (roots.frames number).elim roots fun root => roots.save memory number root value
  | .replace number index value, _ => (roots.frames number).elim roots fun root =>
      roots.put number (some { root with saved := root.saved.set index value })
  | .dropFrame number, _ => (roots.frames number).elim roots fun root =>
      (roots.put number none).relink root.context ((roots.linked root.context).erase number)
  | _, _ => roots

/-- The operation uses frames only that were opened and not dropped. -/
def Knows (roots : RootStacks) : Operation → Prop
  | .save number _ | .saved number _ | .replace number _ _ | .dropFrame number =>
      (roots.frames number).isSome = true
  | _ => True

/-- The frames are as the program knows them, and the links of the contexts lead through its stacks. -/
structure Shown (roots : RootStacks) (machine : Machine) (entries : List Block) : Prop where
  frames : ∀ number root, roots.frames number = some root →
    ∃ frame, machine.frame? number = some frame ∧ root.Shown frame
  chained : ∀ context : Context, Listed entries context.address →
    machine.memory.tag context.address = Tag.context →
      machine.Chained context (context.saves machine.memory) (roots.linked context)
  linked : ∀ (context : Context) (number : Nat), number ∈ roots.linked context ↔
    ∃ root, roots.frames number = some root ∧ root.context = context ∧ root.saved ≠ []
  living : ∀ context : Context, roots.linked context ≠ [] →
    Listed entries context.address ∧ machine.memory.tag context.address = Tag.context

@[simp]
theorem frames_put {known : Option RootFrame} (other : Nat) : (roots.put number known).frames other =
    if other = number then known else roots.frames other := Function.update_apply ..

@[simp]
theorem frames_relink {numbers : List Nat} : (roots.relink context numbers).frames = roots.frames := rfl

@[simp]
theorem linked_put {known : Option RootFrame} : (roots.put number known).linked = roots.linked := rfl

@[simp]
theorem linked_relink {numbers : List Nat} (other : Context) : (roots.relink context numbers).linked other =
    if other = context then numbers else roots.linked other := Function.update_apply ..

theorem relink_self : roots.relink context (roots.linked context) = roots := by
  rw [relink, Function.update_eq_self]

namespace Shown

variable {later : List Block} {known : Option RootFrame} {changed : Option Frame} {numbers : List Nat}
  {frame : Frame} {value : Value} {index : Nat} (shown : roots.Shown machine entries)

include shown

/-- The program is told nothing of what does not touch its frames and the links of its contexts. -/
theorem stays (frames : ∀ number root, roots.frames number = some root →
      final.frame? number = machine.frame? number)
    (links : ∀ context : Context, Listed later context.address →
      final.memory.tag context.address = Tag.context →
        (Listed entries context.address ∧ machine.memory.tag context.address = Tag.context ∧
          context.saves final.memory = context.saves machine.memory) ∨
        context.saves final.memory = 0 ∧ roots.linked context = [])
    (living : ∀ context : Context, roots.linked context ≠ [] →
      Listed later context.address ∧ final.memory.tag context.address = Tag.context) :
    roots.Shown final later where
  frames number root opened := by
    rw [frames number root opened]
    exact shown.frames number root opened
  chained context listed tagged := by
    obtain ⟨before, isContext, same⟩ | ⟨ends, none⟩ := links context listed tagged
    · rw [same]
      refine (shown.chained context before isContext).congr fun number member => ?_
      obtain ⟨root, opened, _⟩ := (shown.linked context number).mp member
      exact frames number root opened
    · rw [none]
      exact ends
  linked := shown.linked
  living := living

/-- One frame changed, and the stack of its context perhaps. -/
theorem changes (opened : roots.frames number = some root)
    (reframed : machine.Reframed final number changed)
    (tags : ∀ address, Listed entries address → final.memory.tag address = machine.memory.tag address)
    (others : ∀ other : Context, other ≠ root.context → Listed entries other.address →
      machine.memory.tag other.address = Tag.context →
        other.saves final.memory = other.saves machine.memory)
    (told : ∀ next, known = some next → next.context = root.context ∧
      ∃ frame, changed = some frame ∧ next.Shown frame)
    (chain : Listed entries root.context.address → machine.memory.tag root.context.address = Tag.context →
      final.Chained root.context (root.context.saves final.memory) numbers)
    (linked : ∀ other, other ∈ numbers ↔
      if other = number then ∃ next, known = some next ∧ next.saved ≠ [] else other ∈ roots.linked root.context)
    (living : numbers ≠ [] →
      Listed entries root.context.address ∧ machine.memory.tag root.context.address = Tag.context) :
    ((roots.put number known).relink root.context numbers).Shown final entries where
  frames other next held := by
    by_cases same : other = number
    · subst same
      rw [frames_relink, frames_put, if_pos rfl] at held
      obtain ⟨_, frame, found, isShown⟩ := told next held
      exact ⟨frame, reframed.frame.trans found, isShown⟩
    · rw [frames_relink, frames_put, if_neg same] at held
      rw [reframed.others other same]
      exact shown.frames other next held
  chained context listed tagged := by
    have isContext := (tags context.address listed).symm.trans tagged
    -- A context other than that of the frame keeps its chain.
    by_cases here : context = root.context
    · subst here
      rw [linked_relink, if_pos rfl]
      exact chain listed isContext
    · rw [linked_relink, if_neg here, linked_put, others context here listed isContext]
      refine (shown.chained context listed isContext).congr fun other member => ?_
      refine reframed.others other fun same => ?_
      obtain ⟨next, held, owned, _⟩ := (shown.linked context other).mp member
      rw [same, opened] at held
      exact here (owned.symm.trans (congrArg RootFrame.context (Option.some.inj held).symm))
  linked context other := by
    by_cases same : other = number
    · subst same
      rw [frames_relink, frames_put, if_pos rfl, linked_relink, linked_put]
      by_cases here : context = root.context
      · subst here
        rw [if_pos rfl, linked, if_pos rfl]
        constructor
        · intro ⟨next, held, nonempty⟩
          exact ⟨next, held, (told next held).1, nonempty⟩
        · intro ⟨next, held, _, nonempty⟩
          exact ⟨next, held, nonempty⟩
      · rw [if_neg here, shown.linked, opened]
        constructor
        · intro ⟨next, held, owned, _⟩
          exact absurd (owned.symm.trans (congrArg RootFrame.context (Option.some.inj held).symm)) here
        · intro ⟨next, held, owned, _⟩
          exact absurd (owned.symm.trans (told next held).1) here
    · rw [frames_relink, frames_put, if_neg same, linked_relink, linked_put, ← shown.linked]
      by_cases here : context = root.context
      · subst here
        rw [if_pos rfl, linked, if_neg same]
      · rw [if_neg here]
  living context nonempty := by
    by_cases here : context = root.context
    · subst here
      rw [linked_relink, if_pos rfl] at nonempty
      have lives := living nonempty
      exact ⟨lives.1, (tags _ lives.1).trans lives.2⟩
    · rw [linked_relink, if_neg here, linked_put] at nonempty
      have lives := shown.living context nonempty
      exact ⟨lives.1, (tags _ lives.1).trans lives.2⟩

theorem opens (context : Context) : (roots.put machine.frames.size (some { context })).Shown
    { machine with frames := machine.frames.push (some { context }) } entries := by
  -- A new frame has a number that no frame had.
  have fresh {number : Nat} {root : RootFrame} (opened : roots.frames number = some root) :
      number ≠ machine.frames.size := by
    obtain ⟨frame, found, _⟩ := shown.frames number root opened
    exact Nat.ne_of_lt (frame?_lt found)
  have same {number : Nat} (old : number ≠ machine.frames.size) :
      ({ machine with frames := machine.frames.push (some { context }) } : Machine).frame? number =
        machine.frame? number := by
    rw [frame?_push, if_neg old]
  have put_ne {number : Nat} (old : number ≠ machine.frames.size) :
      (roots.put machine.frames.size (some { context })).frames number = roots.frames number := by
    rw [frames_put, if_neg old]
  have put_self : (roots.put machine.frames.size (some { context })).frames machine.frames.size =
      some { context } := by rw [frames_put, if_pos rfl]
  refine ⟨fun number root held => ?_, fun other listed tagged => ?_, fun other number => ?_, shown.living⟩
  · by_cases new : number = machine.frames.size
    · subst new
      cases put_self.symm.trans held
      exact ⟨{ context }, by rw [frame?_push, if_pos rfl], RootFrame.shown_new context⟩
    · rw [put_ne new] at held
      rw [same new]
      exact shown.frames number root held
  · refine (shown.chained other listed tagged).congr fun number member => ?_
    obtain ⟨root, opened, _⟩ := (shown.linked other number).mp member
    exact same (fresh opened)
  · refine (shown.linked other number).trans ?_
    by_cases new : number = machine.frames.size
    · subst new
      rw [put_self]
      constructor
      · intro ⟨root, opened, _⟩
        exact absurd rfl (fresh opened)
      · intro ⟨root, held, _, nonempty⟩
        cases held
        exact absurd rfl nonempty
    · rw [put_ne new]

section Opened

variable (opened : roots.frames number = some root) (found : machine.frame? number = some frame)

include opened

theorem notLinked (empty : root.saved = []) : number ∉ roots.linked root.context := by
  intro member
  obtain ⟨next, held, _, nonempty⟩ := (shown.linked root.context number).mp member
  cases opened.symm.trans held
  exact nonempty empty

include found

/-- A frame holds other values, and is on the stack of its context as before. -/
theorem refills {next : RootFrame} {refilled : Frame} (memory : final.memory = machine.memory)
    (reframed : machine.Reframed final number (some refilled)) (owned : next.context = root.context)
    (links : refilled.linked = frame.linked ∧ refilled.context = frame.context ∧
      refilled.outer = frame.outer) (again : next.Shown refilled)
    (nonempty : next.saved ≠ [] ↔ root.saved ≠ []) :
    (roots.put number (some next)).Shown final entries := by
  have still : (roots.put number (some next)).relink root.context (roots.linked root.context) =
      roots.put number (some next) := relink_self
  rw [← still]
  refine shown.changes opened reframed (fun _ _ => by rw [memory]) (fun _ _ _ _ => by rw [memory])
    (fun other same => ?_) (fun listed tagged => ?_) (fun other => ?_) (shown.living root.context)
  · cases same
    exact ⟨owned, refilled, rfl, again⟩
  · rw [memory]
    refine (shown.chained root.context listed tagged).change fun other member old before => ?_
    by_cases same : other = number
    · subst same
      cases found.symm.trans before
      exact ⟨refilled, reframed.frame, links⟩
    · exact ⟨old, (reframed.others other same).trans before, rfl, rfl, rfl⟩
  · split
    · next same =>
      subst same
      rw [shown.linked]
      constructor
      · intro ⟨old, held, _, full⟩
        cases opened.symm.trans held
        exact ⟨next, rfl, nonempty.mpr full⟩
      · intro ⟨other, held, full⟩
        cases held
        exact ⟨root, opened, rfl, nonempty.mp full⟩
    · rfl

/-- A context whose link changes has a place of its own. -/
def Alone (machine final : Machine) (entries : List Block) (context : Context) : Prop :=
  (∀ address, Listed entries address → final.memory.tag address = machine.memory.tag address) ∧
    ∀ other : Context, other ≠ context → Listed entries other.address →
      machine.memory.tag other.address = Tag.context →
        other.saves final.memory = other.saves machine.memory

variable (isShown : root.Shown frame) (alone : Alone machine final entries root.context)

include isShown alone

/-- A frame joins the stack of its context with its first value. -/
theorem joins (orderly : machine.Orderly) (first : root.saved = [])
    (isContext : Listed entries root.context.address ∧
      machine.memory.tag root.context.address = Tag.context)
    (memory : final.memory = machine.linkingMemory number frame)
    (reframed : machine.Reframed final number (some ((machine.linking frame).save value))) :
    (roots.save machine.memory number root value).Shown final entries := by
  have unlinked := isShown.unlinked first
  have off := shown.notLinked opened first
  rw [Machine.linkingMemory, if_neg (by simp [unlinked]), isShown.context] at memory
  rw [save, if_pos first]
  refine shown.changes opened reframed alone.1 alone.2 (fun next same => ?_) (fun listed tagged => ?_)
    (fun other => ?_) fun _ => isContext
  · cases same
    refine ⟨rfl, _, rfl, ?_⟩
    have again := isShown.save machine value (if_pos first).symm
    rwa [first, List.nil_append, isShown.context] at again
  · rw [memory, Context.saves_setSaves (orderly.address_lt found)]
    refine ⟨rfl, _, reframed.frame, ?_, ?_, ?_⟩
    · exact Frame.links_save.1.trans (machine.linked_linking frame)
    · exact Frame.links_save.2.1.trans ((machine.linking_values frame).1.trans isShown.context)
    · rw [Frame.links_save.2.2, Machine.linking, if_neg (by simp [unlinked]), isShown.context]
      refine (shown.chained root.context listed tagged).congr fun other member => ?_
      exact reframed.others other fun same => off (same ▸ member)
  · rw [List.mem_cons]
    split
    · next same =>
      exact iff_of_true (.inl same) ⟨_, rfl, by simp⟩
    · next differs => rw [or_iff_right differs]

theorem leaves {rest : List Nat} (orderly : machine.Orderly)
    (top : roots.linked root.context = number :: rest)
    (memory : final.memory = frame.context.setSaves machine.memory frame.outer)
    (reframed : machine.Reframed final number none) :
    ((roots.put number none).relink root.context ((roots.linked root.context).erase number)).Shown final
      entries := by
  have isContext := shown.living root.context (by simp [top])
  have chain := shown.chained root.context isContext.1 isContext.2
  rw [top] at chain
  have distinct := (List.nodup_cons.mp chain.nodup).1
  obtain ⟨_, inner, innerFound, _, _, further⟩ := chain
  cases found.symm.trans innerFound
  rw [top, List.erase_cons_head]
  refine shown.changes opened reframed alone.1 alone.2 (by simp) (fun listed tagged => ?_) (fun other => ?_)
    fun _ => isContext
  · rw [memory, isShown.context, Context.saves_setSaves (further.address_lt orderly)]
    exact further.congr fun later listed => reframed.others later fun equal => distinct (equal ▸ listed)
  · split
    · next same =>
      subst same
      exact iff_of_false distinct (by simp)
    · next differs => rw [top, List.mem_cons, or_iff_right differs]

end Opened

/-- A frame that is on no stack is dropped. -/
theorem discards (opened : roots.frames number = some root) (empty : root.saved = [])
    (memory : final.memory = machine.memory) (reframed : machine.Reframed final number none) :
    ((roots.put number none).relink root.context ((roots.linked root.context).erase number)).Shown final
      entries := by
  have off := shown.notLinked opened empty
  rw [List.erase_of_not_mem off]
  refine shown.changes opened reframed (fun _ _ => by rw [memory]) (fun _ _ _ _ => by rw [memory]) (by simp)
    (fun listed tagged => ?_) (fun other => ?_) (shown.living root.context)
  · rw [memory]
    refine (shown.chained root.context listed tagged).congr fun other member => ?_
    exact reframed.others other fun same => off (same ▸ member)
  · split
    · next same =>
      subst same
      exact iff_of_false off (by simp)
    · rfl

end Shown

/-- An operation that does not drop a frame lets it grow. -/
theorem operated_grows (memory : Memory) (opened : roots.frames number = some root)
    (present : op ≠ .dropFrame number)
    (fresh : ∀ context, op = .openFrame context → answer ≠ .number number) :
    ∃ next, (roots.operated memory op answer).frames number = some next ∧ root.Grows next ∧
      ∀ index < root.saved.length, (∀ value, op ≠ .replace number index value) →
        next.saved[index]? = root.saved[index]? := by
  -- Whatever leaves the entry of the frame alone leaves all that is said of it.
  have still {other : RootStacks} (same : other.frames number = roots.frames number) : ∃ next,
      other.frames number = some next ∧ root.Grows next ∧ ∀ index < root.saved.length,
        (∀ value, op ≠ .replace number index value) → next.saved[index]? = root.saved[index]? :=
    ⟨root, same.trans opened, .refl root, fun _ _ _ => rfl⟩
  cases op with
  | openFrame context =>
      cases answer with
      | number given =>
          refine still ((frames_put number).trans (if_neg fun same => ?_))
          exact fresh context rfl (same ▸ rfl)
      | _ => exact still rfl
  | save other value =>
      by_cases same : number = other
      · subst same
        rw [operated, opened, Option.elim_some, save]
        split
        · next first =>
          rw [frames_relink, frames_put, if_pos rfl]
          refine ⟨_, rfl, ⟨rfl, ?_, fun full => absurd first full⟩, fun index inside => ?_⟩
          · simp [first]
          · simp [first] at inside
        · rw [frames_put, if_pos rfl]
          refine ⟨_, rfl, ⟨rfl, by simp, fun _ => rfl⟩, fun index inside _ => ?_⟩
          exact List.getElem?_append_left inside
      · rw [operated]
        cases held : roots.frames other with
        | none => exact still rfl
        | some held =>
            rw [Option.elim_some, save]
            split
            · exact still (by rw [frames_relink, frames_put, if_neg same])
            · exact still (by rw [frames_put, if_neg same])
  | replace other index value =>
      by_cases same : number = other
      · subst same
        rw [operated, opened, Option.elim_some, frames_put, if_pos rfl]
        refine ⟨_, rfl, ⟨rfl, by simp, fun _ => rfl⟩, fun place inside spared => ?_⟩
        exact List.getElem?_set_ne fun (equal : index = place) => spared value (equal ▸ rfl)
      · rw [operated]
        cases held : roots.frames other with
        | none => exact still rfl
        | some held => exact still (by rw [Option.elim_some, frames_put, if_neg same])
  | dropFrame other =>
      have differs : number ≠ other := fun same => present (same ▸ rfl)
      rw [operated]
      cases held : roots.frames other with
      | none => exact still rfl
      | some held => exact still (by rw [Option.elim_some, frames_relink, frames_put, if_neg differs])
  | _ => exact still rfl

theorem operated_of_not_frames (other : ¬ op.Frames) (memory : Memory) :
    roots.operated memory op answer = roots := by
  cases op with
  | openFrame | save | replace | dropFrame => exact absurd trivial other
  | _ => rfl

end RootStacks

end SlabHeap
