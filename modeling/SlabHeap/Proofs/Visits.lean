import SlabHeap.Command.Fork
import SlabHeap.Proofs.Rings

namespace SlabHeap

/-! Surveys of a heap.

A survey follows each reference once. Where some objects refer to nothing but each other, and all of them can
be reached from the first one, it counts exactly these, and none of them as foreign: `Survey.survey_eq`.
-/

open Block Command

namespace Command.Survey

variable {heap : Heap} {memory : Memory} {all met : List Nat} {survey : Survey} {work values : List Value}
  {value : Value} {root : Nat}

/-- The objects refer to nothing but each other, and each can be reached from the first one. -/
structure Closed (heap : Heap) (memory : Memory) (root : Nat) (all : List Nat) : Prop where
  distinct : all.Nodup
  first : root ∈ all
  aligned : ∀ object ∈ all, object % 8 = 0 ∧ object < Size.limit
  inHeap : ∀ object ∈ all, (heap.object? memory (.reference object)).isSome = true
  holds : ∀ object ∈ all, ∃ values, contents heap memory (.reference object) = .ok values ∧
    ∀ value ∈ values, value.Refers (· ∈ all)
  reached : ∀ seen : Nat → Prop, seen root → (∀ object, seen object → ∀ values,
    contents heap memory (.reference object) = .ok values → ∀ value ∈ values, value.Refers seen) →
      ∀ object ∈ all, seen object

/-- The survey has met some of the objects. What they refer to it has met as well, or it is on the work list. -/
structure Progress (heap : Heap) (memory : Memory) (root : Nat) (all met : List Nat) (survey : Survey)
    (work : List Value) : Prop where
  distinct : met.Nodup
  among : ∀ object ∈ met, object ∈ all
  counts : survey.references = met.length
  escaped : survey.escaped = 0
  seen : ∀ value object, value.address? = some object → object ∈ all →
    (survey.contains value = true ↔ object ∈ met)
  waiting : ∀ value ∈ work, value.Refers (· ∈ all)
  pending : ∀ object ∈ met, ∀ values, contents heap memory (.reference object) = .ok values → ∀ value ∈ values,
    value.Refers fun object => object ∈ met ∨ ∃ waiting ∈ work, waiting.address? = some object
  start : root ∈ met ∨ ∃ waiting ∈ work, waiting.address? = some root

/-- The next reference to be followed. -/
theorem nextUnseen_spec (survey : Survey) (work : List Value) :
    (survey.nextUnseen work = none ∧
      ∀ value ∈ work, ∀ object, value.address? = some object → survey.contains value = true) ∨
    ∃ passed value rest, work = passed ++ value :: rest ∧ survey.nextUnseen work = some (value, rest) ∧
      (∀ value ∈ passed, ∀ object, value.address? = some object → survey.contains value = true) ∧
        value.isReference = true ∧ survey.contains value = false := by
  induction work with
  | nil => exact .inl ⟨rfl, fun _ member => (List.not_mem_nil member).elim⟩
  | cons value rest ih =>
      by_cases fresh : (value.isReference && !survey.contains value) = true
      · rw [Bool.and_eq_true, Bool.not_eq_true'] at fresh
        refine .inr ⟨[], value, rest, rfl, ?_, fun _ member => (List.not_mem_nil member).elim, fresh⟩
        rw [nextUnseen, fresh.1, fresh.2]
        rfl
      · have skips : survey.nextUnseen (value :: rest) = survey.nextUnseen rest := by
          rw [nextUnseen, if_neg fresh]
        have known : ∀ object, value.address? = some object → survey.contains value = true := fun object found => by
          have isReference : value.isReference = true := by
            by_contra other
            rw [Value.address?, if_neg other] at found
            cases found
          simpa [isReference] using fresh
        rcases ih with ⟨none, others⟩ | ⟨passed, next, later, rfl, found, others, isNew⟩
        · exact .inl ⟨skips.trans none, List.forall_mem_cons.mpr ⟨known, others⟩⟩
        · exact .inr ⟨value :: passed, next, later, rfl, skips.trans found,
            List.forall_mem_cons.mpr ⟨known, others⟩, isNew⟩

/-- A survey is done when all that is left on the work list is known. -/
theorem Progress.whole (progress : Progress heap memory root all met survey work) (closed : Closed heap memory root all)
    (known : ∀ value ∈ work, ∀ object, value.address? = some object → survey.contains value = true) :
    survey.references = all.length := by
  have met_of {object : Nat} (isObject : object ∈ all)
      (pending : object ∈ met ∨ ∃ waiting ∈ work, waiting.address? = some object) : object ∈ met := by
    rcases pending with isMet | ⟨waiting, member, found⟩
    · exact isMet
    · exact (progress.seen waiting object found isObject).mp (known waiting member object found)
  have every : ∀ object ∈ all, object ∈ met := by
    refine closed.reached (· ∈ met) (met_of closed.first progress.start) fun object isMet values same value member => ?_
    obtain ⟨others, read, inside⟩ := closed.holds object (progress.among object isMet)
    obtain rfl : values = others := Except.ok.inj (same.symm.trans read)
    exact fun target found => met_of (inside value member target found)
      (progress.pending object isMet values same value member target found)
  rw [progress.counts]
  exact le_antisymm (progress.distinct.subperm progress.among).length_le (closed.distinct.subperm every).length_le

/-- A reference that is followed is met, and what its object holds joins the work. -/
theorem Progress.visit {passed rest : List Value} {object : Nat}
    (progress : Progress heap memory root all met survey (passed ++ value :: rest))
    (closed : Closed heap memory root all)
    (known : ∀ value ∈ passed, ∀ object, value.address? = some object → survey.contains value = true)
    (found : value.address? = some object) (isNew : survey.contains value = false)
    (read : contents heap memory (.reference object) = .ok values) :
    Progress heap memory root all (object :: met) (survey.add value true) (values.reverseAux rest) := by
  have isObject : object ∈ all := progress.waiting value (by simp) object found
  have unmet : object ∉ met := fun isMet => by
    rw [(progress.seen value object found isObject).mpr isMet] at isNew
    cases isNew
  -- What was pending has been met now, or still waits.
  have covered {target : Nat} (inside : target ∈ all)
      (pending : target ∈ met ∨ ∃ waiting ∈ passed ++ value :: rest, waiting.address? = some target) :
      target ∈ object :: met ∨ ∃ waiting ∈ values.reverseAux rest, waiting.address? = some target := by
    rcases pending with isMet | ⟨waiting, member, leads⟩
    · exact .inl (List.mem_cons_of_mem _ isMet)
    · rcases List.mem_append.mp member with before | later
      · exact .inl (List.mem_cons_of_mem _ ((progress.seen waiting target leads inside).mp
          (known waiting before target leads)))
      · rcases List.mem_cons.mp later with rfl | behind
        · exact .inl (Option.some.inj (leads.symm.trans found) ▸ List.mem_cons_self)
        · exact .inr ⟨waiting, by simp [List.reverseAux_eq, behind], leads⟩
  obtain ⟨others, again, inside⟩ := closed.holds object isObject
  obtain rfl : values = others := Except.ok.inj (read.symm.trans again)
  refine ⟨List.nodup_cons.mpr ⟨unmet, progress.distinct⟩, List.forall_mem_cons.mpr ⟨isObject, progress.among⟩,
    congrArg (· + 1) progress.counts, progress.escaped, fun other target leads isTarget => ?_, fun other member => ?_,
    fun place isMet held same other member target leads => ?_, covered closed.first progress.start⟩
  · obtain ⟨_, place, _⟩ := Value.eq_reference found
    obtain ⟨_, otherPlace, _⟩ := Value.eq_reference leads
    have own := closed.aligned object isObject
    have others := closed.aligned target isTarget
    have word : (survey.add value true).seen.read other.bits.toNat =
        if other.bits.toNat / 8 = value.bits.toNat / 8 then 1 else survey.seen.read other.bits.toNat :=
      Memory.read_write _ _ _ _
    rw [contains, decide_eq_true_iff, word, List.mem_cons]
    by_cases same : target = object
    · simp [place, otherPlace, same]
    · have seen := progress.seen other target leads isTarget
      rw [contains, decide_eq_true_iff] at seen
      rw [if_neg (by omega), seen, or_iff_right same]
  · rw [List.reverseAux_eq, List.mem_append, List.mem_reverse] at member
    rcases member with isValue | behind
    · exact inside other isValue
    · exact progress.waiting other (by simp [behind])
  · rcases List.mem_cons.mp isMet with rfl | old
    · obtain rfl : held = values := Except.ok.inj (same.symm.trans read)
      exact .inr ⟨other, by simp [List.reverseAux_eq, member], leads⟩
    · obtain ⟨others, again, among⟩ := closed.holds place (progress.among place old)
      obtain rfl : held = others := Except.ok.inj (same.symm.trans again)
      exact covered (among other member target leads) (progress.pending place old held same other member target leads)

/-- A survey that has steps enough meets all that there is. -/
theorem Progress.follow (progress : Progress heap memory root all met survey work)
    (closed : Closed heap memory root all) (bound : Nat) (enough : all.length ≤ met.length + bound) :
    ∃ final, Survey.follow heap memory work survey bound = .ok final ∧ final.references = all.length ∧
      final.escaped = 0 := by
  induction bound generalizing met survey work with
  | zero =>
      refine ⟨survey, rfl, ?_, progress.escaped⟩
      rw [progress.counts]
      exact le_antisymm (progress.distinct.subperm progress.among).length_le enough
  | succ bound ih =>
      rcases survey.nextUnseen_spec work with
        ⟨none, known⟩ | ⟨passed, value, rest, rfl, next, known, isReference, isNew⟩
      · refine ⟨survey, ?_, progress.whole closed known, progress.escaped⟩
        rw [Survey.follow, none]
      · have found : value.address? = some value.untagged := if_pos isReference
        have isObject : value.untagged ∈ all := progress.waiting value (by simp) _ found
        obtain ⟨_, _, same⟩ := Value.eq_reference found
        obtain ⟨values, read, _⟩ := closed.holds _ isObject
        have inHeap : (heap.object? memory value).isSome = true := same ▸ closed.inHeap _ isObject
        obtain ⟨final, ran, counts⟩ := ih (progress.visit closed known found isNew read) (by
          rw [List.length_cons]
          omega)
        refine ⟨final, ?_, counts⟩
        rw [Survey.follow, next]
        dsimp only
        rw [inHeap, same, read, ← same]
        exact ran

/-- A survey counts the objects, and finds none of them foreign. -/
theorem survey_eq (closed : Closed heap memory root all) : ∃ final,
    Command.survey heap memory (.reference root) = .ok final ∧ final.references = all.length ∧ final.escaped = 0 := by
  have first := closed.aligned root closed.first
  have leads := Value.address?_reference first.1 first.2
  have start : Progress heap memory root all [] {} [.reference root] := by
    refine ⟨.nil, fun _ member => (List.not_mem_nil member).elim, rfl, rfl, fun value object found isObject => ?_,
      fun value member => ?_, fun _ member => (List.not_mem_nil member).elim,
      .inr ⟨_, List.mem_singleton_self _, leads⟩⟩
    · simp [contains]
    · obtain rfl := List.mem_singleton.mp member
      exact fun object found => Option.some.inj (leads.symm.trans found) ▸ closed.first
  exact start.follow closed Size.wordLimit
    ((Size.length_le_wordLimit closed.distinct closed.aligned).trans (Nat.le_add_left _ _))

end Command.Survey

namespace Memory

variable {heap : Heap} {memory : Memory} {cell head : Nat} {car cdr first second : Value}
  {nodes : List (Nat × Option Nat)}

section Contents

variable (found : heap.object? memory (.reference cell) = some cell)

include found

/-- A survey finds in a pair what is stored there. -/
theorem IsPair.contents_eq (pair : memory.IsPair cell car cdr) :
    contents heap memory (.reference cell) = .ok [car, cdr] := by
  have isObject : heap.objectOf? memory Tag.pair (.reference cell) = some cell := by
    simp only [Heap.objectOf?, found, Option.filter_some, pair.tag, decide_true, if_true]
  simp only [contents, found, pair.tag, if_true, Heap.car?, Heap.cdr?, Heap.fieldOf?, Heap.fieldAddress?, isObject,
    Option.map_some, pair.car, pair.cdr, Option.toList_some, List.singleton_append]

theorem IsDouble.contents_eq (double : memory.IsDouble cell first second) :
    contents heap memory (.reference cell) = .ok [first, second] := by
  have isObject : heap.objectOf? memory Tag.vector (.reference cell) = some cell := by
    simp only [Heap.objectOf?, found, Option.filter_some, double.tag, decide_true, if_true]
  have length := Heap.vectorLength?_eq isObject double.length (by decide)
  have element (index : Nat) (among : index < 2) : heap.vectorRef? memory (.reference cell) index =
      .ok (some (memory.value (cell + (Layout.Sequence.contents + index * wordBytes)))) := by
    rw [Heap.vectorRef?, Heap.elementAddress?_eq isObject double.length (by decide) among]
    rfl
  have elements : (List.range 2).mapM (heap.vectorRef? memory (.reference cell)) = .ok [some first, some second] := by
    have range : List.range 2 = [0, 1] := rfl
    rw [range, List.mapM_cons, List.mapM_cons, List.mapM_nil, element 0 (by decide), element 1 (by decide),
      double.first, double.second]
    rfl
  simp only [contents, found, double.tag, if_true, length, Option.getD_some, elements]
  rfl

end Contents

/-- A string that is led back to its start is all that a survey from there meets. -/
theorem Strung.closed (strung : memory.Strung head (.reference head) nodes) (distinct : (cellsOf nodes).Nodup)
    (started : head ∈ cellsOf nodes) (aligned : ∀ cell ∈ cellsOf nodes, cell % 8 = 0 ∧ cell < Size.limit)
    (found : ∀ cell ∈ cellsOf nodes, heap.object? memory (.reference cell) = some cell) :
    Survey.Closed heap memory head (cellsOf nodes) := by
  have places : ∀ cell ∈ head :: cellsOf nodes, cell % 8 = 0 ∧ cell < Size.limit :=
    List.forall_mem_cons.mpr ⟨aligned head started, aligned⟩
  have back : (Value.reference head).Refers (· ∈ cellsOf nodes) := fun address leads => by
    rw [Value.address?_reference (aligned head started).1 (aligned head started).2] at leads
    exact Option.some.inj leads ▸ started
  refine ⟨distinct, started, aligned, fun cell member => by rw [found cell member]; rfl, fun cell member => ?_,
    fun seen first closed => ?_⟩
  · rcases strung.describes places (List.forall_mem_cons.mpr ⟨started, fun _ member => member⟩) back member with
      ⟨car, cdr, pair, left, right⟩ | ⟨first, second, double, left, right⟩
    · exact ⟨_, pair.contents_eq (found cell member),
        List.forall_mem_cons.mpr ⟨left, List.forall_mem_singleton.mpr right⟩⟩
    · exact ⟨_, double.contents_eq (found cell member),
        List.forall_mem_cons.mpr ⟨left, List.forall_mem_singleton.mpr right⟩⟩
  · refine (strung.mem_of_closed places first fun cell member car cdr isSeen pair => ?_).2
    have holds := closed cell isSeen _ (pair.contents_eq (found cell member))
    exact ⟨holds car List.mem_cons_self, holds cdr (List.mem_cons_of_mem _ List.mem_cons_self)⟩

end Memory

end SlabHeap
