import SlabHeap.Proofs.Histories
import SlabHeap.Proofs.RootStacks
import SlabHeap.Proofs.Staying

namespace SlabHeap

/-! Save frames are a faithful root stack.

A `Scene` is a heap together with what a program knows of its frames, and `Scene.Run` lets the program work
with the heap. `Scene.Run.faithful` says that the machine shows at any time just what the program knows.
-/

open Block Machine

/-- A heap with its ledger, and what the program knows of its frames. -/
structure Scene where
  machine : Machine
  heap : Heap
  entries : List Block
  roots : RootStacks

namespace Scene

variable {scene start later : Scene} {ops more : List Operation} {op : Operation} {after : Heap}
  {answer : Answer} {final : Machine} {context : Context} {number index : Nat} {root : RootFrame}

noncomputable def operated (scene : Scene) (op : Operation) (after : Heap) (answer : Answer)
    (final : Machine) : Scene :=
  ⟨final, after, op.ledger scene.heap after scene.machine scene.entries answer,
    scene.roots.operated scene.machine.memory op answer⟩

/-- No frame is linked for a context of the heap, and none was opened by the program. -/
structure Begins (scene : Scene) : Prop where
  accounted : ∃ tiling, scene.heap.Accounted tiling scene.machine scene.entries
  orderly : scene.machine.Orderly
  unlinked : ∀ context : Context, Listed scene.entries context.address →
    scene.machine.memory.tag context.address = Tag.context → context.saves scene.machine.memory = 0
  fresh : scene.roots = .empty

/-- Nothing happens to the heap, nor to the frames of its contexts and those of the program. -/
structure Elsewhere (scene : Scene) (final : Machine) : Prop where
  untouched : scene.heap.Untouched scene.machine final
  frames : ∀ number frame, scene.machine.frame? number = some frame →
    scene.heap.contains frame.context.address = true ∨ (scene.roots.frames number).isSome = true →
      final.frame? number = some frame
  pages : scene.machine.pages.taken ⊆ final.pages.taken
  orderly : final.Orderly

/-- The program lets the heap do operations, one after the other. Contexts with linked frames stay in use, and
nothing is copied into the heap. -/
inductive Run : Scene → List Operation → Scene → Prop
  | start {scene : Scene} : Run scene [] scene
  | operate {start scene : Scene} {ops : List Operation} {op : Operation} {after : Heap} {answer : Answer}
      {final : Machine} (run : Run start ops scene)
      (apt : op.Apt scene.heap scene.machine (Listed scene.entries)) (knows : scene.roots.Knows op)
      (stays : ∀ block ∈ scene.entries, scene.roots.linked ⟨block.start⟩ ≠ [] →
        op.Keeps scene.heap after scene.machine scene.entries block)
      (ran : (op.perform scene.heap).run scene.machine = .ok (after, answer) final) :
      Run start (ops ++ [op]) (scene.operated op after answer final)
  | elsewhere {start scene : Scene} {ops : List Operation} {final : Machine} (run : Run start ops scene)
      (elsewhere : scene.Elsewhere final) : Run start ops { scene with machine := final }

/-- The heap keeps its books, and the program knows its frames. -/
structure Kept (scene : Scene) : Prop where
  accounted : ∃ tiling, scene.heap.Accounted tiling scene.machine scene.entries
  orderly : scene.machine.Orderly
  shown : scene.roots.Shown scene.machine scene.entries

theorem Begins.kept (begins : scene.Begins) : scene.Kept where
  accounted := begins.accounted
  orderly := begins.orderly
  shown := by
    rw [begins.fresh]
    refine ⟨?_, begins.unlinked, ?_, ?_⟩
    all_goals simp [RootStacks.empty]

namespace Kept

variable (kept : scene.Kept)

include kept

theorem elsewhere (elsewhere : scene.Elsewhere final) : Kept { scene with machine := final } := by
  obtain ⟨tiling, accounted⟩ := kept.accounted
  have still : scene.heap.Accounted tiling final scene.entries :=
    ⟨accounted.consistent.keep elsewhere.untouched
      (fun number frame found owned => elsewhere.frames number frame found (.inl owned)) elsewhere.pages,
      accounted.records⟩
  have words {block : Block} (member : block ∈ scene.heap.blocks tiling) {address : Nat}
      (covers : block.Covers address) : final.memory.read address = scene.machine.memory.read address := by
    obtain ⟨slab, inHeap, inSlab⟩ := Heap.mem_blocks.mp member
    have within := accounted.consistent.tiled.slab_covers inHeap inSlab covers
    exact elsewhere.untouched slab inHeap address within.1 within.2
  have tags {address : Nat} (listed : Listed scene.entries address) :
      final.memory.tag address = scene.machine.memory.tag address := by
    obtain ⟨block, member, _, rfl⟩ := accounted.node listed
    exact congrArg (Header.tag ∘ Header.ofWord)
      (words member (accounted.consistent.tiled.start_covers member))
  refine ⟨⟨tiling, still⟩, elsewhere.orderly, kept.shown.stays (fun number root opened => ?_)
    (fun context listed tagged => .inl ⟨listed, (tags listed).symm.trans tagged, ?_⟩)
    fun context linked => ?_⟩
  · obtain ⟨frame, found, _⟩ := kept.shown.frames number root opened
    rw [found]
    exact elsewhere.frames number frame found (.inr (by rw [opened]; rfl))
  · have isContext := (tags listed).symm.trans tagged
    obtain ⟨⟨block, member, isObject, starts⟩, _⟩ := accounted.isContext listed isContext
    have size := accounted.consistent.tiled.size_of_context member isObject (starts ▸ isContext)
    refine congrArg UInt64.toNat (words member ⟨?_, ?_⟩)
    · exact starts ▸ Nat.le_add_right ..
    · simp only [Block.stop, size, starts, Layout.Context.saves]
      omega
  · have lives := kept.shown.living context linked
    exact ⟨lives.1, (tags lives.1).trans lives.2⟩

section Operate

variable (apt : op.Apt scene.heap scene.machine (Listed scene.entries))
  (stays : ∀ block ∈ scene.entries, scene.roots.linked ⟨block.start⟩ ≠ [] →
    op.Keeps scene.heap after scene.machine scene.entries block)
  (ran : (op.perform scene.heap).run scene.machine = .ok (after, answer) final)

include apt stays ran

/-- What is not about frames lets contexts last, and makes them without frames. -/
theorem operates (other : ¬ op.Frames) : (scene.operated op after answer final).roots.Shown final
    (scene.operated op after answer final).entries := by
  obtain ⟨tiling, accounted⟩ := kept.accounted
  obtain ⟨frames, lasts⟩ := op.lasts accounted kept.orderly apt ran other
  obtain ⟨⟨taken, again⟩, _⟩ := op.keeps accounted kept.orderly apt ran
  rw [operated, RootStacks.operated_of_not_frames other]
  have block {context : Context} (listed : Listed scene.entries context.address)
      (isContext : scene.machine.memory.tag context.address = Tag.context) : ∃ block ∈ scene.entries,
        block.kind = .object ∧ block.size = 48 ∧ block.start = context.address := by
    obtain ⟨⟨block, member, isObject, starts⟩, _⟩ := accounted.isContext listed isContext
    exact ⟨block, (accounted.records.mem_iff_of_object isObject).mpr member, isObject,
      accounted.consistent.tiled.size_of_context member isObject (starts ▸ isContext), starts⟩
  -- A context with linked frames is a root of the operation and keeps its place.
  have living (context : Context) (linked : scene.roots.linked context ≠ []) :
      ∃ block ∈ op.ledger scene.heap after scene.machine scene.entries answer, block ∈ scene.entries ∧
        op.Keeps scene.heap after scene.machine scene.entries block ∧ block.start = context.address ∧
        final.memory.tag context.address = Tag.context := by
    obtain ⟨listed, isContext⟩ := kept.shown.living context linked
    obtain ⟨block, inUse, isObject, _, starts⟩ := block listed isContext
    have same : (⟨block.start⟩ : Context) = context := congrArg Context.mk starts
    have keeps := stays block inUse (same ▸ linked)
    have tag := (lasts block inUse isObject keeps).tag
    rw [starts] at tag
    refine ⟨block, ?_, inUse, keeps, starts, tag.trans isContext⟩
    exact Operation.mem_ledger.mpr (.inl ⟨inUse, keeps⟩)
  refine kept.shown.stays (fun number _ _ => frame?_congr frames number) (fun context listed tagged => ?_)
    fun context linked => ?_
  · obtain ⟨⟨block, member, isObject, starts⟩, _⟩ := again.isContext listed tagged
    have inLedger := (again.records.mem_iff_of_object isObject).mpr member
    rw [← starts] at tagged
    obtain ⟨inUse, keeps⟩ | isNew := Operation.mem_ledger.mp inLedger
    · have lasting := lasts block inUse isObject keeps
      have isContext := lasting.tag.symm.trans tagged
      have present := (accounted.records.mem_iff_of_object isObject).mp inUse
      have size := accounted.consistent.tiled.size_of_context present isObject isContext
      have same := lasting.saves (by omega) isContext
      rw [show (⟨block.start⟩ : Context) = context from congrArg Context.mk starts] at same
      exact .inl ⟨⟨block, inUse, starts⟩, starts ▸ isContext, same⟩
    · obtain ⟨tag, _, _, _, furnished⟩ := op.furnished_made accounted apt ran isNew isObject
      have isContext : tag = Tag.context := by
        rw [← tagged, Memory.tag, furnished.header]
        rfl
      have ends := congrArg UInt64.toNat (furnished.saves isContext)
      rw [starts] at ends
      refine .inr ⟨ends, ?_⟩
      -- a context with linked frames is still in use, so that nothing new starts there
      by_contra linked
      obtain ⟨old, _, inUse, keeps, oldStarts, _⟩ := living context linked
      have apart := again.records.disjoint again.consistent.tiled
      rw [op.ledger_eq, List.pairwise_append] at apart
      have disjoint := apart.2.2 old (List.mem_filter.mpr ⟨inUse, by simpa using keeps⟩) block
        (by simp [isNew])
      have large := (accounted.records.whole old inUse).1
      have positive := (again.records.whole block inLedger).1
      simp only [Block.Disjoint, Block.stop, blockUnit] at *
      omega
  · obtain ⟨block, inLedger, _, _, starts, tagged⟩ := living context linked
    exact ⟨⟨block, inLedger, starts⟩, tagged⟩

end Operate

/-- The link of a context is in no other context, nor in a header. -/
theorem alone {link : Nat} (edits : ∀ tiling, scene.heap.Accounted tiling scene.machine scene.entries →
      scene.heap.Edits tiling scene.machine final scene.entries)
    (isContext : Listed scene.entries context.address ∧
      scene.machine.memory.tag context.address = Tag.context)
    (memory : final.memory = context.setSaves scene.machine.memory link) :
    RootStacks.Shown.Alone scene.machine final scene.entries context := by
  obtain ⟨tiling, accounted⟩ := kept.accounted
  have tiled := accounted.consistent.tiled
  constructor
  · intro address listed
    obtain ⟨block, member, _, rfl⟩ := accounted.node listed
    exact congrArg (Header.tag ∘ Header.ofWord) ((edits tiling accounted).read_start tiled member)
  · intro other differs listed tagged
    obtain ⟨⟨block, member, _, starts⟩, _⟩ := accounted.isContext isContext.1 isContext.2
    obtain ⟨⟨otherBlock, otherMember, _, otherStarts⟩, _⟩ := accounted.isContext listed tagged
    have aligned := (tiled.bounds member).2.1
    have otherAligned := (tiled.bounds otherMember).2.1
    have apart : other.address ≠ context.address := fun same => differs (congrArg Context.mk same)
    rw [Context.saves, Context.saves, memory, Context.setSaves, Memory.read_write_ne]
    simp only [Layout.Context.saves, ← starts, ← otherStarts] at *
    omega

section Frames

variable {number : Nat} {value : Value} {root : RootFrame} {frame : Frame}
  (edits : ∀ tiling, scene.heap.Accounted tiling scene.machine scene.entries →
    scene.heap.Edits tiling scene.machine final scene.entries)
  (opened : scene.roots.frames number = some root) (found : scene.machine.frame? number = some frame)
  (isShown : root.Shown frame)

include edits opened found isShown

/-- A frame joins those of its context with the first value. -/
theorem frames_save (apt : (Operation.save number value).Apt scene.heap scene.machine (Listed scene.entries))
    (memory : final.memory = scene.machine.linkingMemory number frame)
    (reframed : scene.machine.Reframed final number (some ((scene.machine.linking frame).save value))) :
    (scene.roots.save scene.machine.memory number root value).Shown final scene.entries := by
  by_cases first : root.saved = []
  · have isContext := apt.2 frame found
    rw [isShown.context] at isContext
    have linking := memory
    rw [Machine.linkingMemory, if_neg (by simp [isShown.unlinked first]), isShown.context] at linking
    exact kept.shown.joins opened found isShown (kept.alone edits isContext linking) kept.orderly first isContext
      memory reframed
  · rw [RootStacks.save, if_neg first]
    have linked := isShown.linked.mpr first
    rw [Machine.linkingMemory, if_pos linked] at memory
    have again := isShown.save scene.machine value (if_neg first).symm
    rw [Machine.linking, if_pos linked] at reframed again
    exact kept.shown.refills opened found memory reframed rfl Frame.links_save again (by simp [first])

/-- A frame that is dropped was the innermost one of its context, or in no list of frames. -/
theorem frames_drop
    (innermost : frame.linked = true → frame.context.saves scene.machine.memory = frameAddress number)
    (memory : final.memory = if frame.linked then frame.context.setSaves scene.machine.memory frame.outer
      else scene.machine.memory) (reframed : scene.machine.Reframed final number none) :
    ((scene.roots.put number none).relink root.context ((scene.roots.linked root.context).erase number)).Shown final
      scene.entries := by
  have shown := kept.shown
  by_cases empty : root.saved = []
  · rw [if_neg (by simp [isShown.unlinked empty])] at memory
    exact shown.discards opened empty memory reframed
  · have linked := isShown.linked.mpr empty
    have member := (shown.linked root.context number).mpr ⟨root, opened, rfl, empty⟩
    have isContext := shown.living root.context (List.ne_nil_of_mem member)
    have chain := shown.chained root.context isContext.1 isContext.2
    rw [if_pos linked] at memory
    have starts := innermost linked
    rw [isShown.context] at starts
    obtain ⟨rest, top⟩ := List.head?_eq_some_iff.mp (chain.head?_eq starts)
    have alone := kept.alone edits isContext (isShown.context ▸ memory)
    exact shown.leaves opened found isShown alone kept.orderly top memory reframed

end Frames

/-- The program knows what an operation on frames makes of them. -/
theorem frames (frames : op.Frames) (apt : op.Apt scene.heap scene.machine (Listed scene.entries))
    (knows : scene.roots.Knows op)
    (ran : (op.perform scene.heap).run scene.machine = .ok (after, answer) final) :
    (scene.roots.operated scene.machine.memory op answer).Shown final scene.entries := by
  have shown := kept.shown
  have only : op.Edits := by
    cases op with
    | make | collect | scan | append | register => exact frames.elim
    | _ => trivial
  have edits (tiling : Slab → List Block)
      (accounted : scene.heap.Accounted tiling scene.machine scene.entries) :=
    (Operation.edits only accounted kept.orderly apt ran).2
  cases op with
  | openFrame context =>
      cases ran
      exact shown.opens context
  | save number value =>
      obtain ⟨root, opened⟩ := Option.isSome_iff_exists.mp knows
      obtain ⟨frame, found, isShown⟩ := shown.frames number root opened
      rw [RootStacks.operated, opened, Option.elim_some]
      obtain ⟨_, memory, reframed⟩ := (Operation.ensures_save found).of_run ran
      exact kept.frames_save edits opened found isShown apt memory reframed
  | replace number index value =>
      obtain ⟨root, opened⟩ := Option.isSome_iff_exists.mp knows
      obtain ⟨frame, found, isShown⟩ := shown.frames number root opened
      rw [RootStacks.operated, opened, Option.elim_some]
      cases got : frame.get index with
      | error fault => cases ran.symm.trans (Operation.refuses_replace found got)
      | ok old =>
          obtain ⟨_, memory, reframed⟩ := (Operation.ensures_replace found got).of_run ran
          exact shown.refills opened found memory reframed rfl Frame.links_set (isShown.replace index value)
            (by simp)
  | dropFrame number =>
      obtain ⟨root, opened⟩ := Option.isSome_iff_exists.mp knows
      obtain ⟨frame, found, isShown⟩ := shown.frames number root opened
      rw [RootStacks.operated, opened, Option.elim_some]
      have innermost (linked : frame.linked = true) :
          frame.context.saves scene.machine.memory = frameAddress number := by
        by_contra buried
        cases ran.symm.trans (Operation.refuses_drop found linked buried)
      obtain ⟨_, memory, reframed⟩ := (Operation.ensures_drop found innermost).of_run ran
      exact kept.frames_drop edits opened found isShown innermost memory reframed
  | _ => exact frames.elim

end Kept

/-- A program always knows its frames. -/
theorem Run.kept (run : Run start ops scene) (kept : start.Kept) : scene.Kept := by
  induction run with
  | start => exact kept
  | elsewhere _ elsewhere ih => exact ih.elsewhere elsewhere
  | @operate scene ops op after answer final _ apt knows stays ran kept =>
      obtain ⟨tiling, accounted⟩ := kept.accounted
      have proceeds := op.keeps accounted kept.orderly apt ran
      refine ⟨proceeds.accounted, proceeds.orderly, ?_⟩
      by_cases frames : op.Frames
      · have only : op.Edits := by
          cases op with
          | make | collect | scan | append | register => exact frames.elim
          | _ => trivial
        have same : (scene.operated op after answer final).entries = scene.entries :=
          Operation.ledger_of_edits only
        rw [same]
        exact kept.frames frames apt knows ran
      · exact kept.operates apt stays ran frames

/-- The frames are a faithful root stack. -/
structure Faithful (scene : Scene) : Prop where
  /-- The link of a context leads through its linked frames and no others, last linked first. -/
  visits : ∀ context : Context, Listed scene.entries context.address →
    scene.machine.memory.tag context.address = Tag.context →
      context.frames scene.machine = (scene.roots.linked context).filterMap scene.machine.frame? ∧
      (scene.roots.linked context).Nodup ∧
      ∀ number, number ∈ scene.roots.linked context ↔
        ∃ root, scene.roots.frames number = some root ∧ root.context = context ∧ root.saved ≠ []
  /-- Every frame holds what was saved in it. -/
  shows : ∀ number root, scene.roots.frames number = some root →
    ∃ frame, scene.machine.frame? number = some frame ∧ root.Shown frame
  gets : ∀ number root index value, scene.roots.frames number = some root →
    root.saved[index]? = some value →
      ((Operation.saved number index).perform scene.heap).run scene.machine =
      .ok (scene.heap, .value value) scene.machine
  saves : ∀ number root value, scene.roots.frames number = some root →
    ((Operation.save number value).perform scene.heap).Ensures scene.machine fun answer final =>
      answer = (scene.heap, .number root.saved.length) ∧
        ((Operation.saved number root.saved.length).perform scene.heap).run final =
          .ok (scene.heap, .value value) final
  sets : ∀ number root index value, scene.roots.frames number = some root → index < root.saved.length →
    ((Operation.replace number index value).perform scene.heap).Ensures scene.machine fun answer final =>
      answer = (scene.heap, .nothing) ∧ final.memory = scene.machine.memory ∧
        ((Operation.saved number index).perform scene.heap).run final = .ok (scene.heap, .value value) final
  /-- Whatever reaches a context reaches what is saved for it. -/
  reaches : ∀ handles context number root value object, number ∈ scene.roots.linked context →
    scene.roots.frames number = some root → value ∈ root.saved → value.address? = some object →
      scene.heap.Reachable scene.machine handles context.address →
        scene.heap.Reachable scene.machine handles object
  /-- Whatever keeps a context keeps it as well. -/
  spares : ∀ (op : Operation) after block other number root value, block.kind = .object →
    number ∈ scene.roots.linked ⟨block.start⟩ → scene.roots.frames number = some root →
      value ∈ root.saved → value.address? = some other.start →
        op.Keeps scene.heap after scene.machine scene.entries block →
          op.Keeps scene.heap after scene.machine scene.entries other
  /-- A linked frame on top of its stack is dropped, and the link is what it was before. -/
  unlinks : ∀ context number rest root, scene.roots.linked context = number :: rest →
    scene.roots.frames number = some root →
      ((Operation.dropFrame number).perform scene.heap).Ensures scene.machine fun answer final =>
        answer = (scene.heap, .nothing) ∧ context.saves final.memory = root.before ∧
          final.memory = context.setSaves scene.machine.memory root.before ∧ final.frame? number = none
  /-- One that holds nothing is dropped, and nothing else changes. -/
  discards : ∀ number root, scene.roots.frames number = some root → root.saved = [] →
    ((Operation.dropFrame number).perform scene.heap).run scene.machine = .ok (scene.heap, .nothing)
      { scene.machine with frames := scene.machine.frames.setIfInBounds number none }
  /-- One below the top of its stack is not dropped. -/
  refuses : ∀ context number, number ∈ scene.roots.linked context →
    (scene.roots.linked context).head? ≠ some number →
      ((Operation.dropFrame number).perform scene.heap).run scene.machine =
        .error .framesOutOfOrder scene.machine

namespace Kept

variable (kept : scene.Kept)

include kept

theorem chained (linked : number ∈ scene.roots.linked context) :
    scene.machine.Chained context (context.saves scene.machine.memory) (scene.roots.linked context) := by
  have isContext := kept.shown.living context (List.ne_nil_of_mem linked)
  exact kept.shown.chained context isContext.1 isContext.2

theorem reaches {handles : List Value} {value : Value} {object : Nat}
    (linked : number ∈ scene.roots.linked context) (opened : scene.roots.frames number = some root)
    (saved : value ∈ root.saved) (refers : value.address? = some object)
    (reached : scene.heap.Reachable scene.machine handles context.address) :
    scene.heap.Reachable scene.machine handles object := by
  obtain ⟨frame, found, isShown⟩ := kept.shown.frames number root opened
  have isContext := kept.shown.living context (List.ne_nil_of_mem linked)
  have onChain := (kept.chained linked).linked_iff.mpr ⟨number, linked, found⟩
  refine .saved reached isContext.2 onChain ?_ refers
  rwa [isShown.values]

theorem toFaithful : scene.Faithful where
  visits context listed tagged := by
    have chain := kept.shown.chained context listed tagged
    exact ⟨chain.frameChain_eq chain.length_le, chain.nodup, kept.shown.linked context⟩
  shows := kept.shown.frames
  gets number root index value opened holds := by
    obtain ⟨frame, found, isShown⟩ := kept.shown.frames number root opened
    exact Operation.run_saved found (isShown.get holds)
  saves number root value opened := by
    obtain ⟨frame, found, isShown⟩ := kept.shown.frames number root opened
    refine (Operation.ensures_save found).weaken fun answer final ⟨same, _, reframed⟩ => ?_
    have length := Frame.length_values isShown.wellFormed
    rw [isShown.values] at length
    have again := isShown.save scene.machine value rfl
    refine ⟨length ▸ same, Operation.run_saved reframed.frame (again.get ?_)⟩
    exact List.getElem?_concat_length
  sets number root index value opened inside := by
    obtain ⟨frame, found, isShown⟩ := kept.shown.frames number root opened
    have got := isShown.get (List.getElem?_eq_getElem inside)
    refine (Operation.ensures_replace found got).weaken fun answer final ⟨same, memory, reframed⟩ => ?_
    refine ⟨same, memory, Operation.run_saved reframed.frame ((isShown.replace index value).get ?_)⟩
    exact List.getElem?_set_self inside
  reaches _ _ _ _ _ _ linked opened saved refers := kept.reaches linked opened saved refers
  -- What keeps the owner of a frame keeps what the frame holds.
  spares op after block other number root value isObject linked opened saved refers keeps := by
    have spares {handles : List Value} (spared : scene.heap.Spares scene.machine handles block) :
        scene.heap.Spares scene.machine handles other :=
      fun _ => kept.reaches linked opened saved refers (spared isObject)
    cases op with
    | make order => exact keeps.imp_right spares
    | collect | scan => exact spares keeps
    | _ => trivial
  unlinks context number rest root top opened := by
    obtain ⟨frame, found, isShown⟩ := kept.shown.frames number root opened
    have linked : number ∈ scene.roots.linked context := by simp [top]
    obtain ⟨_, again, rfl, full⟩ := (kept.shown.linked context number).mp linked
    cases opened.symm.trans again
    have chain := kept.chained linked
    rw [top] at chain
    obtain ⟨starts, _, same, _, _, further⟩ := chain
    cases found.symm.trans same
    have small := further.address_lt kept.orderly
    rw [← isShown.context] at starts
    refine (Operation.ensures_drop found fun _ => starts).weaken fun answer final dropped => ?_
    obtain ⟨same, memory, reframed⟩ := dropped
    rw [if_pos (isShown.linked.mpr full), isShown.context, isShown.outer full] at memory
    rw [isShown.outer full] at small
    exact ⟨same, by rw [memory, Context.saves_setSaves small], memory, reframed.frame⟩
  discards number root opened empty := by
    obtain ⟨frame, found, isShown⟩ := kept.shown.frames number root opened
    refine Operation.run_onFrame_ok found ?_
    unfold Action.dropFrame
    rw [if_neg (by simp [isShown.unlinked empty])]
    rfl
  refuses context number linked buried := by
    obtain ⟨root, opened, owned, full⟩ := (kept.shown.linked context number).mp linked
    obtain ⟨frame, found, isShown⟩ := kept.shown.frames number root opened
    refine Operation.refuses_drop found (isShown.linked.mpr full) fun starts => buried ?_
    have chain := kept.chained linked
    rw [isShown.context, owned] at starts
    exact chain.head?_eq starts

end Kept

/-- A frame that is not dropped grows, and a value in it that is not replaced stays where it is. -/
theorem Run.grows (run : Run start ops scene) (kept : start.Kept)
    (opened : start.roots.frames number = some root) (present : .dropFrame number ∉ ops) :
    ∃ next, scene.roots.frames number = some next ∧ root.Grows next ∧ ∀ index < root.saved.length,
      (∀ value, .replace number index value ∉ ops) → next.saved[index]? = root.saved[index]? := by
  induction run with
  | start => exact ⟨root, opened, .refl root, fun _ _ _ => rfl⟩
  | elsewhere _ _ ih => exact ih present
  | @operate scene ops op after answer final run apt knows stays ran ih =>
      simp only [List.mem_append, List.mem_singleton, not_or] at present
      obtain ⟨mid, held, grows, same⟩ := ih present.1
      have fresh (context : Context) (opens : op = .openFrame context) : answer ≠ .number number := by
        subst opens
        cases ran
        intro numbers
        obtain ⟨frame, found, _⟩ := (run.kept kept).shown.frames number mid held
        exact absurd (frame?_lt found) (Nat.not_lt.mpr (Nat.le_of_eq (Answer.number.inj numbers)))
      obtain ⟨next, again, more, still⟩ :=
        RootStacks.operated_grows scene.machine.memory held (Ne.symm present.2) fresh
      refine ⟨next, again, grows.trans more, fun index inside spared => ?_⟩
      simp only [List.mem_append, List.mem_singleton, not_or] at spared
      rw [still index (Nat.lt_of_lt_of_le inside grows.grows) fun value => Ne.symm (spared value).2]
      exact same index inside fun value => (spared value).1

/-- Along every run that drops each context's linked frames in the reverse order of their linking, the frames
are a faithful root stack, and what was saved in them stays where it is until it is replaced. -/
theorem Run.faithful (begins : start.Begins) (run : Run start ops scene) : scene.Faithful ∧
    ∀ more later, Run scene more later → ∀ number root, scene.roots.frames number = some root →
      .dropFrame number ∉ more → ∃ next, later.roots.frames number = some next ∧ root.Grows next ∧
        ∀ index < root.saved.length, (∀ value, .replace number index value ∉ more) →
          next.saved[index]? = root.saved[index]? := by
  have kept := run.kept begins.kept
  refine ⟨kept.toFaithful, fun more later further number root opened present => ?_⟩
  exact further.grows kept opened present

def settle : Action (Except HeapError (Heap × Answer) × Machine) := do
  return (← Account.begin, ← get)

def settles : Except HeapError (Heap × Answer) × Machine → Bool
  | (.ok (_, .made (.ok context)), machine) =>
      machine.memory.tag context.untagged = Tag.context && machine.frames.size = 0
  | _ => false

section Steps

variable {start scene : Scene} {ops : List Operation} {context : Context} {number : Nat} {root : RootFrame}
  {value : Value} (run : Run start ops scene)

include run

theorem Run.opens (context : Context)
    (addressed : frameAddress (scene.machine.frames.size + 1) ≤ Size.limit) :
    ∃ later, Run start (ops ++ [.openFrame context]) later ∧
      later.roots = scene.roots.put scene.machine.frames.size (some { context }) ∧
      later.machine.frames.size = scene.machine.frames.size + 1 ∧ later.entries = scene.entries ∧
      later.machine.memory = scene.machine.memory :=
  ⟨_, run.operate addressed trivial (fun _ _ _ => trivial) rfl, rfl, Array.size_push .., rfl, rfl⟩

theorem Run.saves (kept : start.Kept) (opened : scene.roots.frames number = some root)
    (atom : value.address? = none) (isContext : Listed scene.entries root.context.address ∧
      scene.machine.memory.tag root.context.address = Tag.context) :
    ∃ later, Run start (ops ++ [.save number value]) later ∧
      later.roots = scene.roots.save scene.machine.memory number root value := by
  obtain ⟨frame, found, isShown⟩ := (run.kept kept).shown.frames number root opened
  have saves : ((Operation.save number value).perform scene.heap).Ensures scene.machine _ :=
    Operation.ensures_save found
  obtain ⟨_, final, ran, rfl, _⟩ := saves
  have apt : (Operation.save number value).Apt scene.heap scene.machine (Listed scene.entries) := by
    refine ⟨fun address refers => by simp [atom] at refers, fun other same => ?_⟩
    cases found.symm.trans same
    rwa [isShown.context]
  refine ⟨_, run.operate apt (by rw [RootStacks.Knows, opened]; rfl) (fun _ _ _ => trivial) ran, ?_⟩
  simp only [operated, RootStacks.operated, opened, Option.elim_some]

end Steps

/-- Two frames are linked in the order opposite to the one in which they were opened. -/
theorem faithful_nested : ∃ start ops scene context, Begins start ∧ Run start ops scene ∧
    scene.roots.linked context = [0, 1] ∧
      ((Operation.dropFrame 1).perform scene.heap).run scene.machine =
        .error .framesOutOfOrder scene.machine := by
  have made : settle.passes {} settles = true := by decide +kernel
  obtain ⟨⟨answer, _⟩, final, ran, outcome⟩ := Action.ensures_of_passes made
  unfold settle at ran
  obtain ⟨answer, machine, began, ran⟩ := Action.of_run_bind ran
  cases ran
  unfold settles at outcome
  split at outcome
  swap
  · exact absurd outcome Bool.false_ne_true
  next heap value machine same =>
  cases same
  simp only [Bool.and_eq_true, decide_eq_true_eq] at outcome
  obtain ⟨tagged, unopened⟩ := outcome
  unfold Account.begin at began
  obtain ⟨founded, first, founds, began⟩ := Action.of_run_bind began
  cases founded with
  | error refusal => cases began
  | ok heap =>
      obtain ⟨_, same, makes⟩ := Action.of_run_map began
      cases same
      have born := (Heap.new_arises fun _ _ known => ShapeTable.confined_standard known).of_run founds
      obtain ⟨_, absent, _⟩ | ⟨_, found, _, arises⟩ := born
      · cases absent
      cases found
      have orderly := Account.orderly_fresh.congr arises.reserved.frames
      have begins : Begins ⟨first, heap, [], .empty⟩ :=
        ⟨arises.accounted, orderly, by simp [Listed], rfl⟩
      have apt : (Operation.make (.context Option.none)).Apt heap first (Listed []) :=
        ⟨⟨fun typed => typed.elim, by simp⟩, by simp [Order.root], by simp [Order.held]⟩
      obtain ⟨settled, hasContext, inUse, isContext, unopened, unknown⟩ : ∃ scene,
          Run ⟨first, heap, [], .empty⟩ [.make (.context Option.none)] scene ∧
          Listed scene.entries value.untagged ∧ scene.machine.memory.tag value.untagged = Tag.context ∧
          scene.machine.frames.size = 0 ∧ scene.roots = .empty :=
        ⟨_, Run.start.operate apt trivial (by simp) makes,
          ⟨_, List.mem_append_right _ (List.mem_singleton_self _), rfl⟩, tagged, unopened, rfl⟩
      obtain ⟨one, hasOne, knowsOne, countOne, listsOne, memoryOne⟩ :=
        hasContext.opens ⟨value.untagged⟩ (by rw [unopened]; decide)
      obtain ⟨both, hasBoth, knowsBoth, _, listsBoth, memoryBoth⟩ :=
        hasOne.opens ⟨value.untagged⟩ (by rw [countOne, unopened]; decide)
      rw [knowsOne, unknown, countOne, unopened] at knowsBoth
      obtain ⟨inner, savesInner, knowsInner⟩ := hasBoth.saves begins.kept
        (show both.roots.frames 1 = some { context := ⟨value.untagged⟩ } by rw [knowsBoth]; rfl)
        (show Value.no.address? = none by decide)
        ⟨by rw [listsBoth, listsOne]; exact inUse, by rw [memoryBoth, memoryOne]; exact isContext⟩
      rw [knowsBoth, RootStacks.save, if_pos rfl] at knowsInner
      have linked : inner.roots.linked ⟨value.untagged⟩ = [1] := by
        rw [knowsInner, RootStacks.linked_relink, if_pos rfl]
        rfl
      obtain ⟨outer, savesOuter, knowsOuter⟩ := savesInner.saves begins.kept
        (show inner.roots.frames 0 = some { context := ⟨value.untagged⟩ } by rw [knowsInner]; rfl)
        (show Value.no.address? = none by decide)
        ((savesInner.kept begins.kept).shown.living _ (by simp [linked]))
      rw [RootStacks.save, if_pos rfl] at knowsOuter
      have order : outer.roots.linked ⟨value.untagged⟩ = [0, 1] := by
        rw [knowsOuter, RootStacks.linked_relink, if_pos rfl, linked]
      have faithful := (savesOuter.faithful begins).1
      exact ⟨_, _, outer, ⟨value.untagged⟩, begins, savesOuter, order,
        faithful.refuses ⟨value.untagged⟩ 1 (by simp [order]) (by simp [order])⟩

end Scene

end SlabHeap
