import SlabHeap.Frame.Chain
import SlabHeap.Heap.Duplication
import SlabHeap.Heap.Objects
import SlabHeap.Heap.Snapshot
import SlabHeap.Proofs.Action

namespace SlabHeap

/-! What actions leave alone, whichever way they end.

`Action.Respects` relates the machine that an action starts on to the one that it leaves behind, with an
answer or with a fault. A relation that is `Machine.Tolerant` puts up with everything but calls of
finalizers, so that all that heaps do respects it, except for sweeps. The rules follow the structure of
`do` blocks.
-/

/-- A relation between machines that only what stands in their journals makes a difference to, and
notices do not. -/
class Machine.Tolerant (related : Machine → Machine → Prop) : Prop where
  trans : ∀ {first second third}, related first second → related second third → related first third
  same : ∀ {machine final : Machine}, final.journal = machine.journal → related machine final
  notice : ∀ machine notice, related machine (machine.logging (.notice notice))

theorem Machine.Tolerant.refl {related : Machine → Machine → Prop} [Tolerant related] (machine : Machine) :
    related machine machine := same rfl

open Machine (Tolerant)

namespace Action

variable {α β σ : Type} {related : Machine → Machine → Prop} {action other : Action α}
  {next : α → Action β} {machine final : Machine}

def ending (action : Action α) (machine : Machine) : Machine :=
  match action.run machine with
  | .ok _ final | .error _ final => final

def Respects (related : Machine → Machine → Prop) (action : Action α) : Prop :=
  ∀ machine, related machine (action.ending machine)

theorem ending_eq {result : α} (ran : action.run machine = .ok result final) :
    action.ending machine = final := by
  rw [ending, ran]

/-- Whether a last check fails makes no difference to the machine. -/
theorem ending_of_ite {condition : Prop} [Decidable condition] {result : α} {fault : Fault}
    (ran : action.run machine = if condition then .ok result final else .error fault final) :
    action.ending machine = final := by
  rw [ending, ran]
  by_cases holds : condition
  · rw [if_pos holds]
  · rw [if_neg holds]

theorem Respects.of_run {result : α} (respects : action.Respects related)
    (ran : action.run machine = .ok result final) : related machine final :=
  ending_eq ran ▸ respects machine

theorem Ensures.respecting {post : α → Machine → Prop} (ensures : action.Ensures machine post)
    (respects : action.Respects related) :
    action.Ensures machine fun result final => post result final ∧ related machine final := by
  obtain ⟨result, final, ran, holds⟩ := ensures
  exact ⟨result, final, ran, holds, respects.of_run ran⟩

theorem Respects.ite {condition : Prop} [Decidable condition]
    (first : action.Respects related) (second : other.Respects related) :
    Respects related (if condition then action else other) := by
  split
  · exact first
  · exact second

theorem run_reserve (size : Nat) (machine : Machine) : (reserve size).run machine =
    match machine.reserve? size with
    | none => .ok none machine
    | some (start, after) => .ok (some start) after := by
  unfold reserve
  rw [EStateM.run_bind]
  change EStateM.run (match machine.reserve? size with
    | none => pure none
    | some (start, after) => do
        set after
        return some start) machine = _
  cases machine.reserve? size <;> rfl

section Rules

variable [Tolerant related]

theorem respects_pure (result : α) : Respects related (pure result) := Tolerant.refl

theorem respects_throw (fault : Fault) : Respects related (throw fault : Action α) := Tolerant.refl

theorem respects_get : Respects related (get : Action Machine) := Tolerant.refl

theorem respects_memory : Respects related memory := Tolerant.refl

theorem respects_check (check : Except Fault α) : Respects related (liftM check : Action α) := by
  cases check with
  | ok => exact Tolerant.refl
  | error => exact Tolerant.refl

theorem Respects.bind (first : action.Respects related) (rest : ∀ result, (next result).Respects related) :
    (action >>= next).Respects related := by
  intro machine
  have here := first machine
  rw [ending] at here ⊢
  rw [EStateM.run_bind]
  cases ran : action.run machine with
  | error fault final =>
      rw [ran] at here
      exact here
  | ok result mid =>
      rw [ran] at here
      exact Tolerant.trans here (rest result mid)

theorem respects_onMemory (change : Memory → Memory) : Respects related (onMemory change) :=
  fun _ => Tolerant.same rfl

theorem respects_store (address : Nat) (word : UInt64) : Respects related (store address word) :=
  respects_onMemory (·.write address word)

theorem respects_storeValue (address : Nat) (value : Value) :
    Respects related (storeValue address value) := respects_store address value.bits

theorem respects_onHeader (object : Nat) (change : Header → Header) :
    Respects related (onHeader object change) := respects_onMemory _

theorem respects_note (notice : Notice) : Respects related (note notice) :=
  fun machine => Tolerant.notice machine notice

theorem respects_storeIfPresent (address : Option Nat) (value : Value) :
    Respects related (storeIfPresent address value) := by
  cases address with
  | none => exact respects_pure false
  | some address => exact (respects_storeValue address value).bind fun _ => respects_pure true

theorem respects_reserve (size : Nat) : Respects related (reserve size) := by
  intro machine
  rw [ending, run_reserve]
  cases found : machine.reserve? size with
  | none => exact Tolerant.refl machine
  | some reservation =>
      obtain ⟨start, after⟩ := reservation
      obtain ⟨_, first, _, _, rfl⟩ := Machine.reserve?_eq_some.mp found
      exact Tolerant.same rfl

theorem respects_newIdentity : Respects related newIdentity := fun _ => Tolerant.same rfl

theorem respects_foldlM {step : σ → α → Action σ} (steps : ∀ state element, (step state element).Respects related)
    (elements : List α) (state : σ) : Respects related (elements.foldlM step state) := by
  induction elements generalizing state with
  | nil => exact respects_pure state
  | cons element rest ih =>
      rw [List.foldlM_cons]
      exact (steps state element).bind ih

theorem respects_forM {step : α → Action Unit} (steps : ∀ element, (step element).Respects related)
    (elements : List α) : Respects related (elements.forM step) := by
  induction elements with
  | nil => exact respects_pure ()
  | cons element rest ih => exact (steps element).bind fun _ => ih

end Rules

end Action

open SlabHeap.Action

variable {related : Machine → Machine → Prop} [Tolerant related]

theorem respects_reportBadObject (object : Nat) : (reportBadObject object).Respects related :=
  Respects.bind respects_memory fun _ => respects_note _

theorem Scrutiny.respects_inspect (scrutiny : Scrutiny) (object size free : Nat) :
    (scrutiny.inspect object size free).Respects related := by
  have sized : Respects related (if free ≠ 0 then do
      if free < (← Size.add object size) then note (.badSize object size free) else pure ()
      else pure ()) := by
    refine Respects.ite (Respects.bind (respects_check _) fun stop => ?_) (respects_pure ())
    exact Respects.ite (respects_note _) (respects_pure ())
  refine Respects.ite (Respects.bind respects_memory fun memory => ?_) (respects_pure ())
  dsimp only
  exact Respects.ite sized (Respects.bind (respects_note _) fun _ => sized)

namespace Slab

variable {σ : Type}

theorem respects_release (slab : Slab) (cursor size before after : Nat) :
    (slab.release cursor size before after).Respects related := by
  have touches {condition : Prop} [Decidable condition] {check : Except Fault Nat} {limit : Nat}
      {next : Bool → Action (Nat × Nat)} (rest : ∀ joins, (next joins).Respects related) :
      Respects related (if condition then pure false >>= next
        else liftM check >>= fun stop => pure (decide (stop = limit)) >>= next) := by
    refine Respects.ite (Respects.bind (respects_pure false) rest) ?_
    exact Respects.bind (respects_check check) fun stop => Respects.bind (respects_pure _) rest
  have grows {joins : Bool} {check : Except Fault Nat} {run : Nat} {next : Nat → Action (Nat × Nat)}
      (rest : ∀ run, (next run).Respects related) :
      Respects related (if joins = true then liftM check >>= next else pure run >>= next) :=
    Respects.ite (Respects.bind (respects_check check) rest) (Respects.bind (respects_pure run) rest)
  have answer {change : Memory → Memory} {answer : Nat × Nat} :
      Respects related (onMemory change >>= fun _ => pure answer) :=
    Respects.bind (respects_onMemory change) fun _ => respects_pure answer
  refine Respects.bind respects_memory fun memory => touches fun joinsAfter => touches fun joinsBefore => ?_
  apply Respects.ite
  · refine Respects.bind (respects_check _) fun run => grows fun run => ?_
    refine Respects.bind (respects_check _) fun stop => ?_
    exact Respects.ite (Respects.bind (respects_onMemory _) fun _ => answer) answer
  · refine grows fun run => Respects.bind (respects_onMemory _) fun _ => ?_
    refine Respects.bind (respects_onMemory _) fun _ => ?_
    exact Respects.bind (respects_check _) fun stop => respects_pure _

section Walks

variable {visit : σ → Nat → Action σ} (visits : ∀ state object, (visit state object).Respects related)

include visits

theorem respects_foldFrom (slab : Slab) (shapes : ShapeTable) (scrutiny : Scrutiny)
    (cursor free : Nat) (state : σ) (bound : Nat) :
    (slab.foldFrom shapes scrutiny visit cursor free state bound).Respects related := by
  induction bound generalizing cursor free state with
  | zero => exact respects_pure state
  | succ bound ih =>
      refine Respects.ite (respects_pure state) (Respects.bind respects_memory fun memory => ?_)
      refine Respects.ite (Respects.bind (respects_check _) fun next => ih _ _ _) ?_
      refine Respects.bind (respects_check _) fun size => ?_
      cases size with
      | none => exact Respects.bind (respects_reportBadObject _) fun _ => ih _ _ _
      | some size =>
          refine Respects.bind (scrutiny.respects_inspect _ _ _) fun _ => ?_
          refine Respects.bind (respects_check _) fun next => ?_
          exact Respects.bind (visits state cursor) fun state => ih _ _ _

theorem respects_foldAll (slabs : List Slab) (shapes : ShapeTable) (scrutiny : Scrutiny) (state : σ) :
    (foldAll slabs shapes scrutiny visit state).Respects related :=
  respects_foldlM (fun state slab => Respects.bind respects_memory fun _ =>
    slab.respects_foldFrom visits _ _ _ _ state _) slabs state

end Walks

theorem respects_create (size maxSize : Nat) : (create size maxSize).Respects related := by
  unfold create
  split
  · split
    · refine Respects.bind (respects_reserve _) fun start => ?_
      cases start with
      | none => exact respects_pure none
      | some start => exact Respects.bind (respects_onMemory _) fun _ => respects_pure _
    · exact respects_pure none
  · exact respects_pure none

end Slab

theorem respects_finalize (called : ∀ machine object memory,
    related machine (machine.logging (.finalized object memory))) (shapes : ShapeTable) (object : Nat) :
    (finalize shapes object).Respects related := by
  refine Respects.bind respects_memory fun memory => ?_
  dsimp only
  split
  · exact Respects.ite (fun machine => called machine object memory) (respects_pure ())
  · exact respects_pure ()

namespace Heap

variable (heap : Heap)

theorem respects_resolve (value : Value) : (heap.resolve value).Respects related := by
  unfold resolve
  split
  · exact respects_pure none
  · apply Respects.ite
    · apply Respects.ite
      · exact Respects.bind (respects_note _) fun _ => respects_pure none
      · apply Respects.ite
        · exact Respects.bind (respects_note _) fun _ => respects_pure none
        · refine Respects.bind respects_memory fun memory => ?_
          apply Respects.ite
          · exact respects_pure _
          · exact Respects.bind (respects_note _) fun _ => respects_pure none
    · exact Respects.ite (respects_pure none) (respects_pure _)

theorem respects_children (object : Nat) : (heap.children object).Respects related := by
  refine Respects.bind respects_get fun machine => ?_
  dsimp only
  split
  · exact Respects.bind (respects_reportBadObject object) fun _ => respects_pure _
  · exact Respects.bind (respects_check _) fun values => respects_pure _

theorem respects_nextUnmarked (work : List Value) : (heap.nextUnmarked work).Respects related := by
  induction work with
  | nil => exact respects_pure none
  | cons value rest ih =>
      refine Respects.bind (heap.respects_resolve value) fun found => ?_
      cases found with
      | none => exact ih
      | some object =>
          exact Respects.bind respects_memory fun memory => Respects.ite ih (respects_pure _)

theorem respects_mark (roots : List Value) : (heap.mark roots).Respects related := by
  unfold mark
  generalize Size.wordLimit = bound
  induction bound generalizing roots with
  | zero => exact respects_pure ()
  | succ bound ih =>
      refine Respects.bind (heap.respects_nextUnmarked roots) fun found => ?_
      cases found with
      | none => exact respects_pure ()
      | some found =>
          refine Respects.bind (respects_onHeader _ _) fun _ => ?_
          exact Respects.bind (heap.respects_children _) fun children => ih _

theorem respects_markNamed (snapshot : Snapshot) : (heap.markNamed snapshot).Respects related := by
  apply Respects.ite
  · exact respects_pure ()
  · refine Slab.respects_foldAll (fun _ object => ?_) _ _ _ _
    refine Respects.bind respects_memory fun memory => Respects.ite ?_ (respects_pure ())
    exact Respects.bind (respects_note _) fun _ => heap.respects_mark _

theorem respects_losesReferent (value : Value) : (heap.losesReferent value).Respects related := by
  unfold losesReferent
  split
  · exact respects_pure false
  · refine Respects.ite (Respects.bind (heap.respects_resolve value) fun found => ?_) (respects_pure false)
    cases found with
    | none => exact respects_pure false
    | some referent => exact Respects.bind respects_memory fun memory => respects_pure _

theorem respects_clearWeakSlots (object offset cleared count : Nat) :
    (heap.clearWeakSlots object offset cleared count).Respects related := by
  induction count generalizing offset cleared with
  | zero => exact respects_pure cleared
  | succ count ih =>
      refine Respects.bind respects_memory fun memory => Respects.bind (respects_check _) fun word => ?_
      refine Respects.bind (heap.respects_losesReferent _) fun loses => Respects.ite ?_ (ih _ _)
      refine Respects.bind (respects_storeValue _ _) fun _ => ?_
      exact Respects.bind (respects_onHeader _ _) fun _ => ih _ _

omit heap in
theorem respects_clearSlots (object offset count : Nat) :
    (clearSlots object offset count).Respects related := by
  induction count generalizing offset with
  | zero => exact respects_pure ()
  | succ count ih =>
      refine Respects.bind respects_memory fun memory => Respects.bind (respects_check _) fun _ => ?_
      exact Respects.bind (respects_storeValue _ _) fun _ => ih _

theorem respects_breakWeakSlots (object : Nat) : (heap.breakWeakSlots object).Respects related := by
  refine Respects.bind respects_memory fun memory => ?_
  split
  · exact respects_pure ()
  · split
    · exact respects_pure ()
    · refine Respects.bind (respects_check _) fun count => ?_
      refine Respects.bind (heap.respects_clearWeakSlots _ _ _ _) fun cleared => ?_
      refine Respects.ite (Respects.bind (respects_check _) fun _ => ?_) (respects_pure ())
      exact respects_clearSlots _ _ _

theorem respects_breakWeakReferences : heap.breakWeakReferences.Respects related := by
  refine Slab.respects_foldAll (fun _ object => ?_) _ _ _ _
  refine Respects.bind respects_memory fun memory => ?_
  exact Respects.ite (heap.respects_breakWeakSlots object) (respects_pure ())

theorem respects_takeFrom (request : Nat) (slabs : List Slab) :
    (takeFrom request slabs).Respects related := by
  induction slabs with
  | nil => exact respects_pure none
  | cons slab rest ih =>
      refine Respects.bind respects_memory fun memory => Respects.bind (respects_check _) fun found => ?_
      cases found with
      | none => exact ih
      | some fit => exact Respects.bind (respects_onMemory _) fun _ => respects_pure _

theorem respects_appendSlab (request : Nat) : (heap.appendSlab request).Respects related := by
  unfold appendSlab
  dsimp only
  split
  · exact Respects.bind (respects_note _) fun _ => respects_pure _
  · refine Respects.bind (Slab.respects_create _ _) fun created => ?_
    cases created with
    | none => exact Respects.bind (respects_note _) fun _ => respects_pure _
    | some slab =>
        refine Respects.bind (respects_check _) fun total => Respects.bind (respects_note _) fun _ => ?_
        exact Respects.bind (respects_check _) fun _ => respects_pure _

theorem respects_growFor (swept : SweepStats) (request : Nat) :
    (heap.growFor swept request).Respects related := by
  refine Respects.bind respects_memory fun memory => Respects.bind (respects_check _) fun free => ?_
  refine Respects.bind (respects_check _) fun live => Respects.ite (Respects.ite ?_ ?_) (respects_pure _)
  · exact Respects.bind (respects_note _) fun _ => respects_pure _
  · exact Respects.bind (heap.respects_appendSlab request) fun _ => respects_pure _

theorem respects_setFieldOf (tag : UInt8) (offset : Nat) (value new : Value) :
    (heap.setFieldOf tag offset value new).Respects related :=
  Respects.bind respects_memory fun _ => respects_storeIfPresent _ _

theorem respects_vectorSet (vector : Value) (index : Nat) (value : Value) :
    (heap.vectorSet vector index value).Respects related :=
  Respects.bind respects_memory fun _ => Respects.bind (respects_check _) fun _ => respects_storeIfPresent _ _

theorem respects_new (settings : Settings) (shapes : ShapeTable) (features : Features) :
    (new settings shapes features).Respects related := by
  unfold new
  split
  · exact respects_pure _
  · split
    · exact respects_pure _
    · refine Respects.bind (Slab.respects_create _ _) fun created => ?_
      cases created with
      | none => exact respects_pure _
      | some slab =>
          refine Respects.bind (Respects.bind respects_newIdentity fun _ => respects_pure _) ?_
          exact fun _ => respects_pure _

end Heap

namespace Slab

theorem respects_relocateSlots (source target : Slab) (object offset count : Nat) :
    (source.relocateSlots target object offset count).Respects related := by
  induction count generalizing offset with
  | zero => exact respects_pure ()
  | succ count ih =>
      refine Respects.bind respects_memory fun memory => Respects.bind (respects_check _) fun word => ?_
      have rest : Respects related (source.relocateSlots target object (offset + wordBytes) count) := ih _
      dsimp only
      split
      · refine Respects.ite (Respects.bind (respects_check _) fun moved => ?_) rest
        exact Respects.bind (respects_storeValue _ _) fun _ => rest
      · exact rest

end Slab

namespace Heap

variable (heap : Heap)

theorem respects_adaptCopy (target : Nat) (source place : Slab) (keepOwnership : Bool) (object : Nat) :
    (heap.adaptCopy target source place keepOwnership object).Respects related := by
  refine Respects.bind (respects_check _) fun copy => Respects.bind respects_memory fun memory => ?_
  refine Respects.bind (respects_check _) fun runs => Respects.bind ?_ fun _ => ?_
  · exact respects_forM (fun run => source.respects_relocateSlots _ _ _ _) runs
  have noted : Respects related (Action.note (.copied object copy)) := respects_note _
  have named : Respects related (do
      let memory ← Action.memory
      if memory.tag copy = Tag.context then
        Action.onMemory ((Context.mk copy).setSaves · 0)
        if (Context.mk copy).heapWord memory = heap.identity then
          Action.store (copy + Layout.Context.heap) (.ofNat target)
      Action.note (.copied object copy)) := by
    refine Respects.bind respects_memory fun memory => Respects.ite ?_ noted
    refine Respects.bind (respects_onMemory _) fun _ => Respects.ite ?_ noted
    exact Respects.bind (respects_store _ _) fun _ => noted
  exact Respects.ite named (Respects.bind (respects_onHeader _ _) fun _ => named)

theorem respects_copySlab (context : Context) (target : Nat) (source place : Slab) (keepOwnership : Bool) :
    (heap.copySlab context target source place keepOwnership).Respects related := by
  refine Respects.bind (respects_note _) fun _ => Respects.bind respects_memory fun memory => ?_
  refine Respects.bind (respects_check _) fun copied => Respects.bind (respects_onMemory _) fun _ => ?_
  refine Respects.bind (Respects.bind respects_memory fun memory => ?_) fun _ => ?_
  · exact source.respects_foldFrom (fun _ object => heap.respects_adaptCopy _ _ _ _ _) _ _ _ _ _ _
  · refine Respects.bind (respects_check _) fun copy => Respects.bind respects_memory fun memory => ?_
    exact Respects.ite (respects_pure _) (respects_throw _)

theorem respects_fork (context : Context) (keepOwnership : Bool) :
    (heap.fork context keepOwnership).Respects related := by
  refine Respects.bind respects_memory fun memory => ?_
  split
  · exact respects_pure _
  · refine Respects.bind (Slab.respects_create _ _) fun created => ?_
    cases created with
    | none => exact respects_pure _
    | some place =>
        refine Respects.bind (Respects.bind respects_newIdentity fun _ => respects_pure _) fun copy => ?_
        exact Respects.bind (heap.respects_copySlab _ _ _ _ _) fun _ => respects_pure _

theorem respects_copyInto (context : Context) (target : Heap) (inTarget : Value) (keepOwnership : Bool) :
    (heap.copyInto context target inTarget keepOwnership).Respects related := by
  refine Respects.bind respects_memory fun memory => ?_
  split
  · exact respects_pure _
  · have copies {source place : Slab} : Respects related (do
        let context ← heap.copySlab context target.identity source place keepOwnership
        return ({ target with globals := none, scratch := [] }, .ok context) :
          Action (Heap × Except HeapError Context)) :=
      Respects.bind (heap.respects_copySlab _ _ _ _ _) fun _ => respects_pure _
    exact Respects.ite (Respects.bind (respects_note _) fun _ => copies) copies

end Heap

namespace Action

theorem respects_openFrame (context : Context) : (openFrame context).Respects related :=
  fun _ => Tolerant.same rfl

theorem respects_setFrame (number : Nat) (frame : Option Frame) :
    (setFrame number frame).Respects related := fun _ => Tolerant.same rfl

theorem respects_changeFrame (number : Nat) (change : Frame → Frame) :
    (changeFrame number change).Respects related := fun _ => Tolerant.same rfl

theorem respects_saveValue (number : Nat) (frame : Frame) (value : Value) :
    (saveValue number frame value).Respects related := by
  refine Respects.bind (Respects.ite (respects_pure ()) ?_) fun _ => ?_
  · refine Respects.bind respects_memory fun memory => Respects.bind (respects_onMemory _) fun _ => ?_
    exact respects_setFrame _ _
  · exact Respects.bind (respects_changeFrame _ _) fun _ => respects_pure _

theorem respects_replaceValue (number index : Nat) (value : Value) :
    (replaceValue number index value).Respects related := by
  refine Respects.bind (Respects.bind respects_get fun _ => respects_pure _) fun found => ?_
  cases found with
  | none => exact respects_pure ()
  | some frame => exact Respects.bind (respects_check _) fun _ => respects_changeFrame _ _

theorem respects_dropFrame (number : Nat) (frame : Frame) :
    (dropFrame number frame).Respects related := by
  refine Respects.ite (Respects.bind respects_memory fun memory => Respects.ite ?_ ?_) ?_
  · exact Respects.bind (respects_onMemory _) fun _ => respects_setFrame _ _
  · exact Respects.bind (respects_throw _) fun _ => respects_setFrame _ _
  · exact respects_setFrame _ _

end Action

end SlabHeap
