import Mathlib.Data.Finset.Card
import SlabHeap.Proofs.Flags
import SlabHeap.Proofs.Reach

namespace SlabHeap

/-! The work list of the marker.

Of a heap, marking needs no more than blocks that lie apart, `Scattered`, in which whatever has a shape
fits, and that no reference that it can meet leads elsewhere: `Heap.Confined`. Nothing is said of what
lies between the blocks, nor of the marks there are at the start. The invariant is `Heap.Marking`: what
was marked can be reached, and what it keeps alive is marked or waits. Each step marks one block more, so
that the list runs dry, `Heap.Marking.run_markInOrder`, in whatever order it is worked off.
-/

/-- The second memory differs from the first by marks on objects of a kind alone. -/
structure Memory.MarkedOn (memory after : Memory) (fresh : Nat → Prop) : Prop where
  marked : ∀ object, fresh object → after.header object = (memory.header object).mark
  same : ∀ address, (∀ object, fresh object → ¬ (object ≤ address ∧ address < object + 8)) →
    after.read address = memory.read address

/-- The object carries no mark. -/
def Machine.Unmarked (machine : Machine) (object : Nat) : Prop :=
  (machine.memory.header object).isMarked = false

/-- Blocks that lie apart, in whole units. -/
structure Scattered (blocks : List Block) : Prop where
  bounds : ∀ block ∈ blocks,
    0 < block.start ∧ block.start % 16 = 0 ∧ 16 ≤ block.size ∧ block.stop < Size.limit
  unique : ∀ block ∈ blocks, ∀ other ∈ blocks, ∀ address, block.Covers address →
    other.Covers address → block = other

def StartsIn (blocks : List Block) (address : Nat) : Prop := ∃ block ∈ blocks, block.start = address

namespace Scattered

variable {heap : Heap} {blocks : List Block} {memory after : Memory} {fresh : Nat → Prop}
  {block other : Block} {address : Nat} (scattered : Scattered blocks)

include scattered

theorem start_covers (member : block ∈ blocks) : block.Covers block.start := by
  have := (scattered.bounds block member).2.2.1
  exact ⟨Nat.le_refl _, by simp only [Block.stop]; omega⟩

theorem eq_of_header (member : block ∈ blocks) (otherMember : other ∈ blocks)
    (covers : block.Covers address) (lower : other.start ≤ address) (upper : address < other.start + 8) :
    block = other := by
  have large := (scattered.bounds other otherMember).2.2.1
  exact scattered.unique block member other otherMember address covers
    ⟨lower, by simp only [Block.stop]; omega⟩

variable (nodes : ∀ object, fresh object → StartsIn blocks object)
  (marked : memory.MarkedOn after fresh)

include nodes marked

theorem contents_marked (member : block ∈ blocks) (lower : block.start + 8 ≤ address)
    (upper : address < block.stop) : after.read address = memory.read address := by
  refine marked.same address fun object isFresh inside => ?_
  obtain ⟨other, otherMember, rfl⟩ := nodes object isFresh
  obtain rfl := scattered.eq_of_header member otherMember ⟨by omega, upper⟩ inside.1 inside.2
  omega

theorem header_unmarked (member : block ∈ blocks) (old : ¬ fresh block.start) :
    after.header block.start = memory.header block.start := by
  refine congrArg Header.ofWord (marked.same _ fun object isFresh inside => ?_)
  obtain ⟨other, otherMember, rfl⟩ := nodes object isFresh
  obtain rfl := scattered.eq_of_header member otherMember (scattered.start_covers member) inside.1 inside.2
  exact old isFresh

theorem isMarked_iff (member : block ∈ blocks) : (after.header block.start).isMarked = true ↔
    fresh block.start ∨ (memory.header block.start).isMarked = true := by
  by_cases isFresh : fresh block.start
  · simp [isFresh, marked.marked _ isFresh, Header.isMarked_mark]
  · rw [scattered.header_unmarked nodes marked member isFresh]
    simp [isFresh]

theorem tag_marked (member : block ∈ blocks) : after.tag block.start = memory.tag block.start := by
  by_cases isFresh : fresh block.start
  · rw [Memory.tag, marked.marked _ isFresh]
    rfl
  · rw [Memory.tag, scattered.header_unmarked nodes marked member isFresh]
    rfl

theorem target?_marked (value : Value) : heap.target? after value = heap.target? memory value := by
  cases found : value.address? with
  | none => simp [Heap.target?, found]
  | some address =>
      have valid : (after.header address).isValid = (memory.header address).isValid := by
        by_cases first : ∃ object, fresh object ∧ object ≤ address ∧ address < object + 8
        · obtain ⟨object, isFresh, lower, upper⟩ := first
          obtain ⟨block, member, rfl⟩ := nodes object isFresh
          have aligned := (scattered.bounds block member).2.1
          have sameWord : address / 8 = block.start / 8 := by omega
          have here (memory : Memory) : memory.header address = memory.header block.start :=
            congrArg Header.ofWord (memory.read_congr sameWord)
          rw [here, here, marked.marked _ isFresh]
          rfl
        · refine congrArg (fun word => (Header.ofWord word).isValid) (marked.same address ?_)
          exact fun object isFresh inside => first ⟨object, isFresh, inside⟩
      simp only [Heap.target?, found, Option.filter_some, valid]

end Scattered

namespace Heap

variable {heap : Heap} {machine after : Machine} {memory : Memory} {blocks : List Block}
  {block : Block} {object : Nat} {value : Value} {roots work later : List Value}
  {arrange : Nat → List Value → List Value → List Value}

/-- What has a shape at a block fits the block. -/
def Fits (heap : Heap) (memory : Memory) (block : Block) : Prop :=
  ∀ shape, heap.shapes.get? (memory.tag block.start) = some shape →
    shape.Describes memory block.start block.size

theorem Fits.keptValues_congr (fits : heap.Fits machine.memory block) (frames : after.frames = machine.frames)
    (tag : after.memory.tag block.start = machine.memory.tag block.start)
    (contents : ∀ address, block.start + 8 ≤ address → address < block.stop →
      after.memory.read address = machine.memory.read address) :
    heap.keptValues after block.start = heap.keptValues machine block.start := by
  simp only [keptValues, tag]
  cases known : heap.shapes.get? (machine.memory.tag block.start) with
  | none =>
      have other : machine.memory.tag block.start ≠ Tag.context := fun isContext => by
        rw [isContext] at known
        cases known
      simp only [other, if_false]
  | some shape =>
      have describes := fits shape known
      have lengths : ∀ length ∈ shape.lengths, after.memory.read (block.start + length.offset) =
          machine.memory.read (block.start + length.offset) := by
        intro length listed
        have inside := describes.lengthInside length listed
        exact contents _ (by omega) (by simp only [Block.stop]; omega)
      have count := Shape.strongCount_congr lengths
      have words : after.memory.words (block.start + shape.strong.offset)
            (shape.strong.slotCount machine.memory block.start) =
          machine.memory.words (block.start + shape.strong.offset)
            (shape.strong.slotCount machine.memory block.start) := by
        refine List.map_congr_left fun index listed => ?_
        have inside := describes.slotInside (shape.strong.offset + wordBytes * index)
          (.inl ⟨index, List.mem_range.mp listed, rfl⟩)
        simp only [wordBytes] at inside
        exact contents _ (by omega) (by simp only [Block.stop]; omega)
      -- The link to saved values is behind the header of the context and inside it.
      have saved (isContext : machine.memory.tag block.start = Tag.context) :
          (Context.mk block.start).savedValues after =
            (Context.mk block.start).savedValues machine := by
        rw [isContext] at known
        obtain rfl : Shape.context = shape := Option.some.inj known
        have slots : Shape.context.strong.slotCount machine.memory block.start = 2 := rfl
        have inside := describes.slotInside Layout.Context.parent (.inl ⟨0, by rw [slots]; decide, rfl⟩)
        simp only [Layout.Context.parent] at inside
        refine Context.savedValues_congr frames (congrArg UInt64.toNat (contents _ ?_ ?_)) <;>
          simp only [Layout.Context.saves, Block.stop] <;> omega
      simp only [count, words]
      split
      · next isContext => rw [saved isContext]
      · rfl

section Fitting

variable {fresh : Nat → Prop} (fits : heap.Fits machine.memory block) (scattered : Scattered blocks)
  (nodes : ∀ object, fresh object → StartsIn blocks object)
  (marked : machine.memory.MarkedOn after.memory fresh) (member : block ∈ blocks)

include fits scattered nodes marked member

theorem Fits.of_marked : heap.Fits after.memory block := by
  intro shape known
  rw [scattered.tag_marked nodes marked member] at known
  have describes := fits shape known
  refine describes.congr fun length listed => ?_
  have inside := describes.lengthInside length listed
  exact scattered.contents_marked nodes marked member (by omega) (by simp only [Block.stop]; omega)

theorem Fits.keptValues_marked (steady : machine.Steady after) :
    heap.keptValues after block.start = heap.keptValues machine block.start :=
  fits.keptValues_congr steady.frames (scattered.tag_marked nodes marked member)
    fun _ lower upper => scattered.contents_marked nodes marked member lower upper

end Fitting

/-- All references that marking from some roots can meet lead to the blocks, and what has a shape fits
there. -/
structure Confined (heap : Heap) (machine : Machine) (blocks : List Block) (roots : List Value) :
    Prop where
  scattered : Scattered blocks
  fits : ∀ block ∈ blocks, heap.Fits machine.memory block
  kept : ∀ owner, heap.Reach machine machine.Unmarked roots owner → StartsIn blocks owner →
    ∀ value ∈ heap.keptValues machine owner, ∀ object,
      heap.target? machine.memory value = some object → StartsIn blocks object
  roots : ∀ value ∈ roots, ∀ object, heap.target? machine.memory value = some object →
    StartsIn blocks object

theorem Confined.node (confined : heap.Confined machine blocks roots)
    (reached : heap.Reach machine machine.Unmarked roots object) : StartsIn blocks object := by
  induction reached with
  | root listed found _ => exact confined.roots _ listed _ found
  | kept reached held found _ ih => exact confined.kept _ reached ih _ held _ found

/-- What a value leads to is marked. -/
def Settled (heap : Heap) (machine : Machine) (fresh : Finset Nat) (value : Value) : Prop :=
  ∀ object, heap.target? machine.memory value = some object →
    ¬ machine.Unmarked object ∨ object ∈ fresh

/-- The marker started on `machine` and has marked the objects in `fresh` since. -/
structure Marking (heap : Heap) (machine mid : Machine) (roots : List Value) (fresh : Finset Nat)
    (work : List Value) : Prop where
  steady : machine.Steady mid
  marked : machine.memory.MarkedOn mid.memory (· ∈ fresh)
  reached : ∀ object ∈ fresh, heap.Reach machine machine.Unmarked roots object
  waiting : ∀ value ∈ work, value ∈ roots ∨ ∃ owner ∈ fresh, value ∈ heap.keptValues machine owner
  roots : ∀ value ∈ roots, value ∈ work ∨ heap.Settled machine fresh value
  kept : ∀ owner ∈ fresh, ∀ value ∈ heap.keptValues machine owner,
    value ∈ work ∨ heap.Settled machine fresh value

theorem Marking.start (same : work = roots) : heap.Marking machine machine roots ∅ work where
  steady := .refl machine
  marked := ⟨by simp, fun _ _ => rfl⟩
  reached := by simp
  waiting _ listed := .inl (same ▸ listed)
  roots _ listed := .inl (same ▸ listed)
  kept := by simp

/-- A marker that has no more to do has marked all that can be reached. -/
theorem Marking.finished {mid : Machine} {fresh : Finset Nat}
    (marking : heap.Marking machine mid roots fresh work)
    (done : ∀ value ∈ work, heap.Settled machine fresh value) :
    machine.memory.MarkedOn mid.memory (heap.Reach machine machine.Unmarked roots) := by
  have complete : ∀ object, heap.Reach machine machine.Unmarked roots object → object ∈ fresh := by
    intro object reached
    induction reached with
    | root listed found passes =>
        have settled := (marking.roots _ listed).elim (done _) id
        exact (settled _ found).resolve_left (not_not_intro passes)
    | kept _ held found passes ih =>
        have settled := (marking.kept _ ih _ held).elim (done _) id
        exact (settled _ found).resolve_left (not_not_intro passes)
  have same : (· ∈ fresh) = heap.Reach machine machine.Unmarked roots :=
    funext fun object => propext ⟨marking.reached object, complete object⟩
  exact same ▸ marking.marked

theorem Marking.quiet {mid later : Machine} {fresh : Finset Nat}
    (marking : heap.Marking machine mid roots fresh work) (quiet : mid.Quiet later) :
    heap.Marking machine later roots fresh work where
  steady := marking.steady.trans quiet.toSteady
  marked := quiet.memory ▸ marking.marked
  reached := marking.reached
  waiting := marking.waiting
  roots := marking.roots
  kept := marking.kept

/-- Settled values may be taken off the work list. -/
theorem Marking.skip {mid : Machine} {fresh : Finset Nat} {rest : List Value}
    (marking : heap.Marking machine mid roots fresh work)
    (fewer : ∀ value ∈ rest, value ∈ work)
    (settled : ∀ value ∈ work, value ∈ rest ∨ heap.Settled machine fresh value) :
    heap.Marking machine mid roots fresh rest where
  steady := marking.steady
  marked := marking.marked
  reached := marking.reached
  waiting value listed := marking.waiting value (fewer value listed)
  roots value listed := (marking.roots value listed).elim (settled value) .inr
  kept owner isFresh value held := (marking.kept owner isFresh value held).elim (settled value) .inr

/-- Marking with an order of its own: `arrange` says where on the work list the values go that an object
keeps alive. -/
def markInOrder (heap : Heap) (arrange : Nat → List Value → List Value → List Value)
    (work : List Value) : Nat → Action Unit
  | 0 => return
  | bound + 1 => do
      match ← heap.nextUnmarked work with
      | none => return
      | some (object, rest) =>
          Action.onHeader object .mark
          let children ← heap.children object
          heap.markInOrder arrange (arrange object children rest) bound

/-- The order of the work list is all that is changed. -/
def Arranges (arrange : Nat → List Value → List Value → List Value) : Prop :=
  ∀ object children rest, (arrange object children rest).Perm (children ++ rest)

/-- The marker's own order: the last value first, and what waited before at the end. -/
theorem arranges_reverseAux : Arranges fun _ => List.reverseAux := by
  intro object children rest
  simp only [List.reverseAux_eq]
  exact children.reverse_perm.append_right rest

theorem markInOrder_reverseAux (heap : Heap) (work : List Value) (bound : Nat) :
    heap.markInOrder (fun _ => List.reverseAux) work bound = heap.markWork work bound := by
  induction bound generalizing work with
  | zero => rfl
  | succ bound ih =>
      rw [markInOrder, markWork]
      refine bind_congr fun answer => ?_
      cases answer with
      | none => rfl
      | some next =>
          dsimp only
          exact bind_congr fun _ => bind_congr fun children => ih _

section Work

variable {mid : Machine} {fresh : Finset Nat} (confined : heap.Confined machine blocks roots)

include confined

theorem Marking.freshNode (marking : heap.Marking machine mid roots fresh work)
    (isFresh : object ∈ fresh) : StartsIn blocks object :=
  confined.node (marking.reached object isFresh)

theorem Marking.waitingNode (marking : heap.Marking machine mid roots fresh work)
    (listed : value ∈ work) (found : heap.target? machine.memory value = some object) :
    StartsIn blocks object := by
  rcases marking.waiting value listed with isRoot | ⟨owner, isFresh, held⟩
  · exact confined.roots value isRoot object found
  · exact confined.kept owner (marking.reached owner isFresh) (marking.freshNode confined isFresh)
      value held object found

theorem Marking.target?_eq (marking : heap.Marking machine mid roots fresh work) (value : Value) :
    heap.target? mid.memory value = heap.target? machine.memory value :=
  confined.scattered.target?_marked (fun _ => marking.freshNode confined) marking.marked value

theorem Marking.isMarked_iff (marking : heap.Marking machine mid roots fresh work)
    (node : StartsIn blocks object) :
    (mid.memory.header object).isMarked = true ↔ ¬ machine.Unmarked object ∨ object ∈ fresh := by
  obtain ⟨block, member, rfl⟩ := node
  rw [confined.scattered.isMarked_iff (fun _ => marking.freshNode confined) marking.marked member,
    Machine.Unmarked, Bool.not_eq_false, or_comm]

/-- The search for work passes over what is settled. What waits behind the list is left to others. -/
theorem Marking.ensures_nextUnmarked (marking : heap.Marking machine mid roots fresh (work ++ later)) :
    (heap.nextUnmarked work).Ensures mid fun answer after =>
      (answer = none ∧ heap.Marking machine after roots fresh later) ∨
        ∃ object value rest, answer = some (object, rest) ∧
          heap.Marking machine after roots fresh (value :: rest ++ later) ∧
          heap.target? machine.memory value = some object ∧ machine.Unmarked object ∧
          object ∉ fresh := by
  induction work generalizing mid with
  | nil => exact Action.ensures_pure.mpr (.inl ⟨rfl, marking⟩)
  | cons value rest ih =>
      have pass (settled : heap.Settled machine fresh value) :
          heap.Marking machine mid roots fresh (rest ++ later) := by
        refine marking.skip (fun _ => List.mem_cons_of_mem _) fun other listed => ?_
        rcases List.mem_cons.mp listed with rfl | behind
        · exact .inr settled
        · exact .inl behind
      rw [nextUnmarked]
      refine (ensures_resolve value).bind ?_
      rintro _ after ⟨rfl, quiet⟩
      rw [marking.target?_eq confined]
      cases found : heap.target? machine.memory value with
      | none =>
          have settled : heap.Settled machine fresh value := by simp [Settled, found]
          exact ih ((pass settled).quiet quiet)
      | some object =>
          have node := marking.waitingNode confined List.mem_cons_self found
          simp only [Action.ensures_memory]
          rw [quiet.memory]
          split
          · next isMarked =>
            have settled : heap.Settled machine fresh value := by
              intro other same
              obtain rfl := Option.some.inj (found.symm.trans same)
              exact (marking.isMarked_iff confined node).mp isMarked
            exact ih ((pass settled).quiet quiet)
          · next notMarked =>
            rw [marking.isMarked_iff confined node, not_or, not_not] at notMarked
            exact Action.ensures_pure.mpr
              (.inr ⟨object, value, rest, rfl, marking.quiet quiet, found, notMarked⟩)

omit confined in
/-- What was waiting or settled before an object was marked still is. -/
theorem Marking.moved {rest next : List Value} {other : Value}
    (found : heap.target? machine.memory value = some object) (waits : ∀ other ∈ rest, other ∈ next)
    (before : other ∈ value :: rest ∨ heap.Settled machine fresh other) :
    other ∈ next ∨ heap.Settled machine (insert object fresh) other := by
  rcases before with listed | settled
  · rcases List.mem_cons.mp listed with rfl | behind
    · refine .inr fun target same => .inr ?_
      obtain rfl := Option.some.inj (found.symm.trans same)
      exact Finset.mem_insert_self _ _
    · exact .inl (waits other behind)
  · exact .inr fun target same => (settled target same).imp_right Finset.mem_insert_of_mem

/-- One step marks an object and puts what it keeps alive on the work list. -/
theorem Marking.mark {rest next : List Value}
    (marking : heap.Marking machine mid roots fresh (value :: rest))
    (found : heap.target? machine.memory value = some object) (unmarked : machine.Unmarked object)
    (old : object ∉ fresh)
    (arranged : ∀ other, other ∈ next ↔ other ∈ heap.keptValues machine object ∨ other ∈ rest) :
    heap.Marking machine
      (mid.withMemory (mid.memory.setHeader object (mid.memory.header object).mark)) roots
      (insert object fresh) next where
  steady := ⟨marking.steady.frames, marking.steady.identities, marking.steady.pages⟩
  marked := by
    obtain ⟨block, member, rfl⟩ := marking.waitingNode confined List.mem_cons_self found
    have aligned := (confined.scattered.bounds block member).2.1
    have header := confined.scattered.header_unmarked (fun _ => marking.freshNode confined)
      marking.marked member old
    refine ⟨fun other isFresh => ?_, fun address outside => ?_⟩
    · rcases Finset.mem_insert.mp isFresh with rfl | earlier
      · rw [Machine.memory_withMemory, Memory.header_setHeader, header]
      · obtain ⟨otherBlock, otherMember, rfl⟩ := marking.freshNode confined earlier
        have otherAligned := (confined.scattered.bounds otherBlock otherMember).2.1
        have distinct : otherBlock.start ≠ block.start := fun same => old (same ▸ earlier)
        rw [← marking.marked.marked _ earlier]
        exact congrArg Header.ofWord (Memory.read_setHeader (by omega) (by omega))
    · rw [Machine.memory_withMemory, Memory.read_setHeader (by omega)
        (outside _ (Finset.mem_insert_self _ _))]
      exact marking.marked.same address fun other earlier =>
        outside other (Finset.mem_insert_of_mem earlier)
  reached other isFresh := by
    rcases Finset.mem_insert.mp isFresh with rfl | earlier
    · rcases marking.waiting value List.mem_cons_self with isRoot | ⟨owner, isFresh, held⟩
      · exact .root isRoot found unmarked
      · exact .kept (marking.reached owner isFresh) held found unmarked
    · exact marking.reached other earlier
  waiting other listed := by
    rcases (arranged other).mp listed with held | behind
    · exact .inr ⟨object, Finset.mem_insert_self _ _, held⟩
    · refine (marking.waiting other (List.mem_cons_of_mem _ behind)).imp_right ?_
      rintro ⟨owner, earlier, held⟩
      exact ⟨owner, Finset.mem_insert_of_mem earlier, held⟩
  roots other listed :=
    moved found (fun _ behind => (arranged _).mpr (.inr behind)) (marking.roots other listed)
  kept owner isFresh other held := by
    rcases Finset.mem_insert.mp isFresh with rfl | earlier
    · exact .inl ((arranged other).mpr (.inl held))
    · exact moved found (fun _ behind => (arranged _).mpr (.inr behind))
        (marking.kept owner earlier other held)

def starts (blocks : List Block) : Finset Nat := (blocks.map Block.start).toFinset

omit confined in
theorem mem_starts : object ∈ starts blocks ↔ StartsIn blocks object := by
  simp [starts, StartsIn]

theorem Confined.card_starts_lt : (starts blocks).card < Size.wordLimit := by
  have places : ∀ object ∈ starts blocks, object / 16 ∈ Finset.range (Size.limit / 16) := by
    intro object member
    obtain ⟨block, inBlocks, rfl⟩ := mem_starts.mp member
    obtain ⟨_, _, large, bounded⟩ := confined.scattered.bounds block inBlocks
    simp only [Finset.mem_range, Size.limit, Block.stop] at *
    omega
  have apart : Set.InjOn (fun object => object / 16) (starts blocks : Set Nat) := by
    intro object member other otherMember same
    obtain ⟨block, inBlocks, rfl⟩ := mem_starts.mp (Finset.mem_coe.mp member)
    obtain ⟨otherBlock, otherInBlocks, rfl⟩ := mem_starts.mp (Finset.mem_coe.mp otherMember)
    have aligned := (confined.scattered.bounds block inBlocks).2.1
    have otherAligned := (confined.scattered.bounds otherBlock otherInBlocks).2.1
    simp only at same
    omega
  have few := Finset.card_le_card_of_injOn _ places apart
  rw [Finset.card_range] at few
  exact Nat.lt_of_le_of_lt few (by decide)

/-- Marking works its list off, and then stops: more steps make no difference. -/
theorem Marking.run_markInOrder (arranges : Arranges arrange) {bound : Nat}
    (marking : heap.Marking machine mid roots fresh (work ++ later))
    (enough : (starts blocks \ fresh).card < bound) : ∃ final more,
      (∀ extra, (heap.markInOrder arrange work (bound + extra)).run mid = .ok () final) ∧
        heap.Marking machine final roots more later := by
  induction bound generalizing mid fresh work with
  | zero => simp at enough
  | succ bound ih =>
      obtain ⟨answer, after, searched, outcome⟩ := marking.ensures_nextUnmarked confined
      have onward (extra : Nat) : heap.markInOrder arrange work (bound + 1 + extra) =
          heap.markInOrder arrange work (bound + extra + 1) := by rw [Nat.add_right_comm]
      rcases outcome with ⟨rfl, finished⟩ | ⟨object, value, rest, rfl, marking, found, unmarked, old⟩
      · refine ⟨after, fresh, fun extra => ?_, finished⟩
        rw [onward, markInOrder, Action.run_bind searched]
        rfl
      · have node := marking.waitingNode confined List.mem_cons_self found
        let next := arrange object (heap.keptValues machine object) rest
        have arranged (other : Value) : other ∈ next ++ later ↔
            other ∈ heap.keptValues machine object ∨ other ∈ rest ++ later := by
          rw [List.mem_append, (arranges object _ rest).mem_iff, List.mem_append, List.mem_append, or_assoc]
        have marked := marking.mark confined found unmarked old arranged
        -- Each step marks one more object, so that the bound is enough.
        have fewer : (starts blocks \ insert object fresh).card < bound := by
          have pending : object ∈ starts blocks \ fresh :=
            Finset.mem_sdiff.mpr ⟨mem_starts.mpr node, old⟩
          have smaller := Finset.card_erase_of_mem pending
          have some := Finset.card_pos.mpr ⟨object, pending⟩
          rw [Finset.sdiff_insert]
          omega
        obtain ⟨block, member, rfl⟩ := node
        have fits := confined.fits block member
        have nodes (object : Nat) (isFresh : object ∈ insert block.start fresh) := marked.freshNode confined isFresh
        have children := fits.keptValues_marked confined.scattered nodes marked.marked member marked.steady
        obtain ⟨_, last, read, rfl, quiet⟩ :=
          ensures_children (fits.of_marked confined.scattered nodes marked.marked member)
        rw [children] at read
        obtain ⟨final, more, ran, ended⟩ := ih (marked.quiet quiet) fewer
        refine ⟨final, more, fun extra => ?_, ended⟩
        rw [onward, markInOrder, Action.run_bind searched]
        dsimp only
        rw [Action.run_bind (show (Action.onHeader block.start .mark).run after = .ok () (after.withMemory
          (after.memory.setHeader block.start (after.memory.header block.start).mark)) from rfl),
          Action.run_bind read]
        exact ran extra

/-- Marking marks what can be reached without passing a mark, changes nothing else, and ends. -/
theorem Confined.run_markInOrder (arranges : Arranges arrange) : ∃ final,
    (∀ bound, Size.wordLimit ≤ bound →
      (heap.markInOrder arrange roots bound).run machine = .ok () final) ∧
    machine.Steady final ∧
      machine.memory.MarkedOn final.memory (heap.Reach machine machine.Unmarked roots) := by
  have few := confined.card_starts_lt
  have start : heap.Marking machine machine roots ∅ (roots ++ []) := .start (List.append_nil roots)
  have enough : (starts blocks \ ∅).card < (starts blocks).card + 1 := by simp
  obtain ⟨final, more, ran, ended⟩ := start.run_markInOrder confined arranges enough
  refine ⟨final, fun bound enough => ?_, ended.steady, ended.finished (by simp)⟩
  have same : (starts blocks).card + 1 + (bound - ((starts blocks).card + 1)) = bound := by omega
  rw [← ran, same]

/-- So does marking from one root after the other. -/
theorem Confined.run_forM (arranges : Arranges arrange) : ∃ final,
    (roots.forM fun root => heap.markInOrder arrange [root] Size.wordLimit).run machine =
      .ok () final ∧
    machine.Steady final ∧
      machine.memory.MarkedOn final.memory (heap.Reach machine machine.Unmarked roots) := by
  have each (pending : List Value) : ∀ {mid : Machine} {fresh : Finset Nat},
      heap.Marking machine mid roots fresh pending → ∃ final more,
        (pending.forM fun root => heap.markInOrder arrange [root] Size.wordLimit).run mid =
          .ok () final ∧ heap.Marking machine final roots more [] := by
    induction pending with
    | nil => exact fun marking => ⟨_, _, rfl, marking⟩
    | cons root rest ih =>
        intro mid fresh marking
        have enough : (starts blocks \ fresh).card < Size.wordLimit :=
          Nat.lt_of_le_of_lt (Finset.card_le_card Finset.sdiff_subset) confined.card_starts_lt
        have split : heap.Marking machine mid roots fresh ([root] ++ rest) := marking
        obtain ⟨after, more, ran, still⟩ := split.run_markInOrder confined arranges enough
        obtain ⟨final, last, onward, ended⟩ := ih still
        refine ⟨final, last, ?_, ended⟩
        exact (Action.run_bind (ran 0)).trans onward
  obtain ⟨final, more, ran, ended⟩ := each roots (.start rfl)
  exact ⟨final, ran, ended.steady, ended.finished (by simp)⟩

end Work

end Heap

end SlabHeap
