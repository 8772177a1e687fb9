import SlabHeap.Proofs.Action
import SlabHeap.Proofs.Tiling

namespace SlabHeap

/-! Walks meet the objects of a layout, each once, in address order.

`Slab.ensures_foldObjects` is the rule for all walks that leave the division of the slab alone: what
holds before a visit with an object still ahead must hold after it with the object behind.
-/

open FreeList Block

namespace Slab.Layout

variable {slab : Slab} {shapes : ShapeTable} {memory : Memory} {block : Block}
  {blocks done rest : List Block}

/-- Where the free list goes on, at any of its nodes. -/
theorem path_from (layout : slab.Layout shapes memory blocks) {before suffix : List (Nat × Nat)}
    (split : frees blocks = before ++ suffix) : Path memory (firstOr 0 suffix) suffix 0 := by
  have listed := layout.listed
  rw [split, path_append] at listed
  obtain ⟨mid, _, second⟩ := listed
  exact second.start_eq ▸ second

/-- The link that leads over the first part of the free list. -/
theorem next_behind (layout : slab.Layout shapes memory blocks) {before suffix : List (Nat × Nat)}
    (split : frees blocks = before ++ suffix) :
    FreeList.next memory (lastOr slab.start before) = firstOr 0 suffix := by
  have listed := layout.listed
  rw [split, path_append] at listed
  obtain ⟨mid, first, second⟩ := listed
  rw [second.start_eq] at first
  exact first.next_last

theorem split_tiles (layout : slab.Layout shapes memory blocks) (split : blocks = done ++ rest) :
    ∃ cursor, Tiles slab.objects done cursor ∧ Tiles cursor rest slab.stop :=
  Tiles.append_iff.mp (split ▸ layout.tiles)

/-- The first free block that a cursor has not passed. -/
theorem seek_eq (layout : slab.Layout shapes memory blocks) {cursor before : Nat}
    {left passed : List (Nat × Nat)} (split : blocks = done ++ rest)
    (behind : Tiles slab.objects done cursor) (ahead : Tiles cursor rest slab.stop)
    (listed : left ++ passed = frees done) :
    seek memory cursor before (firstOr 0 (passed ++ frees rest)) Size.wordLimit =
      (lastOr before passed, firstOr 0 (frees rest)) := by
  have all : frees blocks = left ++ (passed ++ frees rest) := by
    rw [split, frees_append, ← listed, List.append_assoc]
  have few := layout.frees_length_le
  rw [all, List.length_append, List.length_append] at few
  refine (layout.path_from all).seek ?_ ?_ (by omega)
  · intro entry member
    have inDone : entry ∈ frees done := listed ▸ List.mem_append_right _ member
    have := behind.frees_bounds inDone
    omega
  · intro entry member
    exact (ahead.frees_bounds member).1

/-- A free block at the cursor is the next one of the list. -/
theorem next_free_eq (isFree : block.kind = .free) :
    firstOr 0 (frees (block :: rest)) = block.start := by
  simp [frees, isFree, firstOr]

/-- At an allocated block, the next free block lies behind it. -/
theorem next_free_behind {cursor stop : Nat} (positive : 0 < cursor)
    (tiles : Tiles cursor (block :: rest) stop) (used : block.kind ≠ .free) :
    firstOr 0 (frees (block :: rest)) ≠ cursor ∧
      (firstOr 0 (frees (block :: rest)) = 0 ∨
        block.stop ≤ firstOr 0 (frees (block :: rest))) := by
  have large := tiles.2.1
  have begins := tiles.1
  simp only [frees, used, if_false]
  cases listed : frees rest with
  | nil => exact ⟨by simp only [firstOr]; omega, .inl rfl⟩
  | cons entry others =>
      have member : entry ∈ frees rest := by simp [listed]
      have := (tiles.2.2.2.frees_bounds member).1
      simp only [firstOr, Block.stop, blockUnit] at *
      omega

theorem cursor_bounds (layout : slab.Layout shapes memory blocks) {cursor : Nat}
    (behind : Tiles slab.objects done cursor) :
    0 < cursor ∧ cursor % 16 = 0 := by
  have positive := layout.placed.startPositive
  have aligned := layout.objectsAligned
  have lower := behind.le
  have whole := behind.whole
  simp only [Slab.objects] at *
  omega

/-- What memory shows at a block in front of the free block `after`: how far a step from it leads. -/
def Seen (shapes : ShapeTable) (memory : Memory) (block : Block) (after : Nat) : Prop :=
  match block.kind with
  | .free => after = block.start ∧ FreeList.size memory block.start = block.size
  | .bare => after ≠ block.start ∧ shapes.blockSize? memory block.start = .ok none ∧
      block.start + blockUnit = block.stop
  | .object => after ≠ block.start ∧ shapes.blockSize? memory block.start = .ok (some block.size)

theorem seen {cursor : Nat} (layout : slab.Layout shapes memory (done ++ block :: rest))
    (ahead : Tiles cursor (block :: rest) slab.stop) :
    Seen shapes memory block (firstOr 0 (frees (block :: rest))) := by
  have member : block ∈ done ++ block :: rest := List.mem_append_right _ List.mem_cons_self
  have bounds := layout.bounds member
  obtain rfl := ahead.1
  unfold Seen
  cases kind : block.kind with
  | free =>
      have entry : (block.start, block.size) ∈ frees (done ++ block :: rest) :=
        mem_frees.mpr (by rw [← kind]; exact member)
      exact ⟨next_free_eq kind, (layout.listed.present entry).2⟩
  | bare =>
      obtain ⟨unit, untagged⟩ := layout.bare member kind
      obtain ⟨elsewhere, _⟩ := next_free_behind (by omega) ahead (by simp [kind])
      exact ⟨elsewhere, ShapeTable.blockSize?_eq_none (by omega) (by simp [untagged]),
        by rw [Block.stop, unit]⟩
  | object =>
      obtain ⟨shape, known, describes⟩ := layout.object member kind
      obtain ⟨elsewhere, _⟩ := next_free_behind (by omega) ahead (by simp [kind])
      exact ⟨elsewhere, ShapeTable.blockSize?_eq_some (by omega) known describes⟩

end Slab.Layout

/-- Looking at an object leaves at most notices behind. -/
theorem Scrutiny.ensures_inspect {scrutiny : Scrutiny} {object size free : Nat} {machine : Machine}
    (sum : object + size < Size.limit) :
    (scrutiny.inspect object size free).Ensures machine fun _ after => machine.Quiet after := by
  have sized : ∀ after, machine.Quiet after →
      Action.Ensures (do
        if free ≠ 0 then
          if free < (← Size.add object size) then Action.note (.badSize object size free))
        after fun _ after => machine.Quiet after := by
    intro after quiet
    split
    · rw [Action.ensures_check (Size.add_eq_ok sum)]
      split
      · exact Action.ensures_last_note.mpr (quiet.trans (after.quiet_logging _))
      · exact Action.ensures_pure.mpr quiet
    · exact Action.ensures_pure.mpr quiet
  cases enabled : scrutiny.enabled with
  | false =>
      simp only [Scrutiny.inspect, enabled, Bool.false_eq_true, if_false]
      exact Action.ensures_pure.mpr (.refl machine)
  | true =>
      simp only [Scrutiny.inspect, enabled, if_true, Action.ensures_memory]
      cases valid : (machine.memory.header object).isValid with
      | true => exact sized machine (.refl machine)
      | false =>
          simp only [Bool.false_eq_true, if_false, Action.ensures_note]
          exact sized _ (machine.quiet_logging _)

theorem ensures_reportBadObject {object : Nat} {machine : Machine} :
    (reportBadObject object).Ensures machine fun _ after => machine.Quiet after := by
  unfold reportBadObject
  rw [Action.ensures_memory]
  exact Action.ensures_last_note.mpr (machine.quiet_logging _)

namespace Slab

/-- A walk stands at `cursor` with the blocks `done` behind it and `rest` ahead. What it still has of the free
list begins with `free`. -/
structure Walked (slab : Slab) (done rest : List Block) (cursor free : Nat) : Prop where
  behind : Tiles slab.objects done cursor
  ahead : Tiles cursor rest slab.stop
  listed : ∃ left skipped, left ++ skipped = frees done ∧ free = firstOr 0 (skipped ++ frees rest)

section Steps

variable {σ : Type} {slab : Slab} {shapes : ShapeTable} {scrutiny : Scrutiny} {visit : σ → Nat → Action σ}
  {block : Block} {blocks done rest : List Block} {memory : Memory} {machine : Machine} {cursor free bound : Nat}
  {state : σ}

/-- What a walk does with a block that it meets before the free block `free`. -/
def meet (scrutiny : Scrutiny) (visit : σ → Nat → Action σ) (state : σ) (block : Block) (free : Nat) :
    Action σ :=
  match block.kind with
  | .free => return state
  | .bare => do
      reportBadObject block.start
      return state
  | .object => do
      scrutiny.inspect block.start block.size free
      visit state block.start

theorem Layout.walked (layout : slab.Layout shapes memory blocks) :
    slab.Walked [] blocks slab.objects (slab.firstFree memory) :=
  ⟨rfl, layout.tiles, [], [], rfl, layout.listed.start_eq⟩

namespace Walked

theorem pass (walked : slab.Walked done (block :: rest) cursor free) :
    slab.Walked (done ++ [block]) rest block.stop (firstOr 0 (frees (block :: rest))) := by
  obtain ⟨begins, large, whole, later⟩ := walked.ahead
  exact ⟨walked.behind.append ⟨begins, large, whole, rfl⟩, later, frees done, frees [block],
    (frees_append _ _).symm, by rw [← frees_append, List.singleton_append]⟩

theorem run_end (walked : slab.Walked done [] cursor free) :
    (slab.foldFrom shapes scrutiny visit cursor free state (bound + 1)).run machine = .ok state machine := by
  have finished : slab.stop ≤ cursor := Nat.le_of_eq walked.ahead.symm
  rw [foldFrom, if_pos finished]
  rfl

section Ahead

variable (walked : slab.Walked done (block :: rest) cursor free)
  (layout : slab.Layout shapes memory (done ++ block :: rest))

include walked layout

theorem add_size : Size.add cursor block.size = .ok block.stop := by
  obtain ⟨_, inside, _, _, _, bounded⟩ := layout.bounds (List.mem_append_right _ List.mem_cons_self)
  rw [← walked.ahead.1]
  exact Size.add_eq_ok (by omega)

theorem unfinished : ¬ slab.stop ≤ cursor := by
  obtain ⟨_, inside, large, _⟩ := layout.bounds (List.mem_append_right _ List.mem_cons_self)
  have begins := walked.ahead.1
  omega

theorem sought : ∃ before, FreeList.seek memory cursor 0 free Size.wordLimit =
    (before, firstOr 0 (frees (block :: rest))) := by
  obtain ⟨behind, ahead, left, skipped, listed, rfl⟩ := walked
  exact ⟨_, layout.seek_eq rfl behind ahead listed⟩

end Ahead

/-- A walk meets the block ahead, and goes on behind it. -/
theorem run_cons (walked : slab.Walked done (block :: rest) cursor free)
    (layout : slab.Layout shapes machine.memory (done ++ block :: rest)) :
    (slab.foldFrom shapes scrutiny visit cursor free state (bound + 1)).run machine =
      (do
        let state ← meet scrutiny visit state block (firstOr 0 (frees (block :: rest)))
        slab.foldFrom shapes scrutiny visit block.stop (firstOr 0 (frees (block :: rest))) state
          bound).run machine := by
  have sum := walked.add_size layout
  have unfinished := walked.unfinished layout
  have seen := layout.seen walked.ahead
  obtain ⟨before, sought⟩ := walked.sought layout
  obtain rfl := walked.ahead.1
  rw [foldFrom, if_neg unfinished, Action.run_bind (show Action.memory.run machine = .ok machine.memory machine from rfl),
    sought]
  unfold Layout.Seen at seen
  cases kind : block.kind with
  | free =>
      obtain ⟨here, sized⟩ := kind ▸ seen
      simp only [meet, kind, here, if_true, sized, sum, Action.check_ok, pure_bind]
  | bare =>
      obtain ⟨elsewhere, unknown, passed⟩ := kind ▸ seen
      simp only [meet, kind, elsewhere, if_false, unknown, passed, Action.check_ok, bind_assoc, pure_bind]
  | object =>
      obtain ⟨elsewhere, sized⟩ := kind ▸ seen
      simp only [meet, kind, elsewhere, if_false, sized, sum, Action.check_ok, bind_assoc, pure_bind]

end Walked

end Steps

section Walks

variable {σ : Type} {slab : Slab} {shapes : ShapeTable} {scrutiny : Scrutiny}
  {visit : σ → Nat → Action σ} {blocks : List Block} (Inv : σ → List Block → Machine → Prop)
  (layout : ∀ state rest machine, Inv state rest machine →
    slab.Layout shapes machine.memory blocks)
  (quiet : ∀ state rest machine after, Inv state rest machine → machine.Quiet after →
    Inv state rest after)
  (passed : ∀ state block rest machine, Inv state (block :: rest) machine →
    block :: rest <:+ blocks → block.kind ≠ .object → Inv state rest machine)
  (visited : ∀ state block rest machine, Inv state (block :: rest) machine →
    block :: rest <:+ blocks → block.kind = .object →
      (visit state block.start).Ensures machine fun state after => Inv state rest after)

include layout quiet passed visited

theorem ensures_foldFrom {cursor free bound : Nat} {done rest : List Block} {state : σ} {machine : Machine}
    (walked : slab.Walked done rest cursor free) (split : blocks = done ++ rest) (enough : rest.length < bound)
    (holds : Inv state rest machine) :
    (slab.foldFrom shapes scrutiny visit cursor free state bound).Ensures machine
      fun state after => Inv state [] after := by
  induction rest generalizing cursor free bound done state machine with
  | nil =>
      cases bound with
      | zero => simp at enough
      | succ bound => exact ⟨_, _, walked.run_end, holds⟩
  | cons block rest ih =>
      cases bound with
      | zero => simp at enough
      | succ bound =>
          have suffix : block :: rest <:+ blocks := ⟨done, split.symm⟩
          have laid := split ▸ layout _ _ _ holds
          have bounds := laid.bounds (List.mem_append_right _ List.mem_cons_self)
          have onward {state : σ} {after : Machine} (holds : Inv state rest after) :
              (slab.foldFrom shapes scrutiny visit block.stop (firstOr 0 (frees (block :: rest))) state
                bound).Ensures after fun state after => Inv state [] after :=
            ih walked.pass (by rw [split, List.append_assoc, List.singleton_append])
              (by simpa using enough) holds
          rw [Action.Ensures, walked.run_cons laid]
          unfold meet
          cases kind : block.kind with
          | free => exact onward (passed _ _ _ _ holds suffix (by simp [kind]))
          | bare =>
              simp only [bind_assoc, pure_bind]
              refine ensures_reportBadObject.bind fun _ after same => ?_
              exact onward (passed _ _ _ _ (quiet _ _ _ _ holds same) suffix (by simp [kind]))
          | object =>
              simp only [bind_assoc]
              refine (Scrutiny.ensures_inspect (by omega)).bind fun _ after same => ?_
              exact (visited _ _ _ _ (quiet _ _ _ _ holds same) suffix kind).bind fun _ _ => onward

/-- A walk visits the objects of the slab in address order. -/
theorem ensures_foldObjects {state : σ} {machine : Machine} (holds : Inv state blocks machine) :
    (slab.foldObjects shapes scrutiny visit state).Ensures machine fun state after =>
      Inv state [] after := by
  have laid := layout _ _ _ holds
  rw [foldObjects, Action.ensures_memory]
  exact ensures_foldFrom Inv layout quiet passed visited laid.walked rfl laid.length_lt holds

end Walks

end Slab

namespace Heap

section Walks

variable {σ : Type} {heap : Heap} {tiling : Slab → List Block} {scrutiny : Scrutiny}
  {visit : σ → Nat → Action σ} {state : σ} {slab : Slab} {slabs : List Slab} {machine : Machine}

/-- A walk through a heap has come to the slabs `slabs`, and the invariant holds with their blocks ahead. -/
structure Walking (heap : Heap) (tiling : Slab → List Block) (Inv : σ → List Block → Machine → Prop) (state : σ)
    (slabs : List Slab) (machine : Machine) : Prop where
  suffix : slabs <:+ heap.slabs
  holds : Inv state (slabs.flatMap tiling) machine

variable {Inv : σ → List Block → Machine → Prop}

theorem Walking.inHeap (walking : heap.Walking tiling Inv state (slab :: slabs) machine) : slab ∈ heap.slabs :=
  walking.suffix.mem List.mem_cons_self

/-- What is ahead within a slab is ahead in the heap. -/
theorem Walking.within (walking : heap.Walking tiling Inv state (slab :: slabs) machine) {rest : List Block}
    (inSlab : rest <:+ tiling slab) : rest ++ slabs.flatMap tiling <:+ heap.blocks tiling := by
  obtain ⟨done, split⟩ := inSlab
  obtain ⟨earlier, all⟩ := walking.suffix
  refine ⟨earlier.flatMap tiling ++ done, ?_⟩
  simp [Heap.blocks, ← all, ← split]

variable (Inv)
  (tiled : ∀ state rest machine, Inv state rest machine → heap.Tiled machine.memory tiling)
  (quiet : ∀ state rest machine after, Inv state rest machine → machine.Quiet after →
    Inv state rest after)
  (passed : ∀ state block rest machine, Inv state (block :: rest) machine →
    block :: rest <:+ heap.blocks tiling → block.kind ≠ .object → Inv state rest machine)
  (visited : ∀ state block rest machine, Inv state (block :: rest) machine →
    block :: rest <:+ heap.blocks tiling → block.kind = .object →
      (visit state block.start).Ensures machine fun state after => Inv state rest after)

include tiled quiet passed visited

theorem Walking.ensures_foldObjects (walking : heap.Walking tiling Inv state (slab :: slabs) machine) :
    (slab.foldObjects heap.shapes scrutiny visit state).Ensures machine
      fun state after => heap.Walking tiling Inv state slabs after := by
  have holds := walking.holds
  rw [List.flatMap_cons] at holds
  refine (Slab.ensures_foldObjects (fun state rest machine =>
      Inv state (rest ++ slabs.flatMap tiling) machine) ?_ ?_ ?_ ?_ holds).weaken ?_
  · exact fun _ _ _ holds => (tiled _ _ _ holds).layout slab walking.inHeap
  · exact fun _ _ _ _ holds quiets => quiet _ _ _ _ holds quiets
  · exact fun _ _ _ _ holds inSlab other => passed _ _ _ _ holds (walking.within inSlab) other
  · exact fun _ _ _ _ holds inSlab isObject => visited _ _ _ _ holds (walking.within inSlab) isObject
  · exact fun _ _ holds => ⟨(List.suffix_cons _ _).trans walking.suffix, holds⟩

/-- A walk through all slabs visits the objects of the heap, slab by slab. -/
theorem ensures_foldAll (holds : Inv state (heap.blocks tiling) machine) :
    (Slab.foldAll heap.slabs heap.shapes scrutiny visit state).Ensures machine
      fun state after => Inv state [] after :=
  (Action.ensures_foldlM (heap.Walking tiling Inv)
    (fun _ _ _ _ => Walking.ensures_foldObjects Inv tiled quiet passed visited)
    ⟨List.suffix_refl _, holds⟩).weaken fun _ _ last => last.holds

end Walks

end Heap

end SlabHeap
