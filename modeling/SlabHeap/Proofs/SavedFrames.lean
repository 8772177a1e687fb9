import SlabHeap.Frame.Chain
import SlabHeap.Proofs.Action
import SlabHeap.Proofs.FrameChain

namespace SlabHeap

/-! The frames of a context.

`Machine.Chained` names the frames on the chain of a context by their numbers, innermost first. Frames
come onto a chain with their first value and leave it innermost first, so that a chain ends.
-/

namespace Frame

variable {find : Nat → Option Frame} {frame : Frame} {address bound : Nat}

theorem chain_of_some (found : find address = some frame) :
    chain find address (bound + 1) = frame :: chain find frame.outer bound := by
  rw [chain, found]

theorem chain_of_none (none : find address = none) : chain find address bound = [] := by
  cases bound with
  | zero => rfl
  | succ bound => rw [chain, none]

end Frame

namespace Machine

variable {machine after : Machine} {context other : Context} {address number : Nat}
  {numbers others : List Nat} {frame : Frame}

def frame? (machine : Machine) (number : Nat) : Option Frame := (machine.frames[number]?).join

theorem frame?_congr (same : after.frames = machine.frames) (number : Nat) :
    after.frame? number = machine.frame? number := by
  rw [frame?, frame?, same]

theorem frame?_lt (found : machine.frame? number = some frame) : number < machine.frames.size := by
  by_contra outside
  simp [frame?, Nat.not_lt.mp outside] at found

/-- Links lead from the address through frames with these numbers, all linked for the context, to the
end of the chain. -/
def Chained (machine : Machine) (context : Context) : Nat → List Nat → Prop
  | address, [] => address = 0
  | address, number :: rest => address = frameAddress number ∧ ∃ frame,
      machine.frame? number = some frame ∧ frame.linked = true ∧ frame.context = context ∧
        Chained machine context frame.outer rest

theorem frameAddress_inj : frameAddress number = frameAddress address ↔ number = address := by
  simp only [frameAddress]
  omega

theorem frameAddress_ne_zero (number : Nat) : frameAddress number ≠ 0 := by
  simp only [frameAddress]
  omega

theorem frameAt?_frameAddress (machine : Machine) (number : Nat) :
    machine.frameAt? (frameAddress number) = machine.frame? number := by
  have index : (frameAddress number - frameAddress 0) / 16 = number := by
    simp only [frameAddress]
    omega
  simp only [frameAt?, frameIndex?, index, true_and, frame?]
  by_cases inside : number < machine.frames.size
  · simp [inside]
  · simp [inside]

theorem frameAt?_zero (machine : Machine) : machine.frameAt? 0 = none := by
  cases found : machine.frameAt? 0 with
  | none => rfl
  | some frame =>
      obtain ⟨index, _, same⟩ := frameAt?_eq_some found
      exact absurd same (frameAddress_ne_zero index)

/-- Nothing is linked at the end of a chain. -/
theorem not_linked_zero (machine : Machine) (frame : Frame) : ¬ machine.Linked 0 frame := by
  intro linked
  cases linked with
  | here found => simp [frameAt?_zero] at found
  | outer found _ => simp [frameAt?_zero] at found

namespace Chained

theorem present (chained : machine.Chained context address numbers) (member : number ∈ numbers) :
    ∃ frame, machine.frame? number = some frame ∧ frame.linked = true ∧ frame.context = context := by
  induction numbers generalizing address with
  | nil => contradiction
  | cons head rest ih =>
      obtain ⟨_, frame, found, linked, owned, further⟩ := chained
      rcases List.mem_cons.mp member with rfl | later
      · exact ⟨frame, found, linked, owned⟩
      · exact ih further later

/-- A chain holds the frames with its numbers. -/
theorem linked_iff (chained : machine.Chained context address numbers) :
    machine.Linked address frame ↔ ∃ number ∈ numbers, machine.frame? number = some frame := by
  induction numbers generalizing address with
  | nil =>
      obtain rfl : address = 0 := chained
      simp only [List.not_mem_nil, false_and, exists_false, iff_false]
      exact machine.not_linked_zero frame
  | cons head rest ih =>
      obtain ⟨rfl, inner, found, _, _, further⟩ := chained
      have here := machine.frameAt?_frameAddress head
      simp only [List.mem_cons, or_and_right, exists_or, exists_eq_left, found, Option.some.injEq,
        ← ih further]
      constructor
      · intro linked
        cases linked with
        | here same => exact .inl (Option.some.inj (found.symm.trans (here.symm.trans same)))
        | outer same later =>
            obtain rfl := Option.some.inj (found.symm.trans (here.symm.trans same))
            exact .inr later
      · rintro (rfl | later)
        · exact .here (here.trans found)
        · exact .outer (here.trans found) later

theorem unique (chained : machine.Chained context address numbers)
    (again : machine.Chained other address others) : numbers = others := by
  induction numbers generalizing address others with
  | nil =>
      cases others with
      | nil => rfl
      | cons head rest => exact absurd (again.1.symm.trans chained) (frameAddress_ne_zero head)
  | cons head rest ih =>
      cases others with
      | nil => exact absurd (chained.1.symm.trans again) (frameAddress_ne_zero head)
      | cons otherHead otherRest =>
          obtain ⟨rfl, frame, found, _, _, further⟩ := chained
          obtain ⟨same, otherFrame, otherFound, _, _, otherFurther⟩ := again
          obtain rfl := frameAddress_inj.mp same
          obtain rfl := Option.some.inj (found.symm.trans otherFound)
          rw [ih further otherFurther]

theorem suffix {front back : List Nat}
    (chained : machine.Chained context address (front ++ number :: back)) :
    machine.Chained context (frameAddress number) (number :: back) := by
  induction front generalizing address with
  | nil => exact chained.1 ▸ chained
  | cons head rest ih =>
      obtain ⟨_, _, _, _, _, further⟩ := chained
      exact ih further

theorem nodup (chained : machine.Chained context address numbers) : numbers.Nodup := by
  induction numbers generalizing address with
  | nil => exact .nil
  | cons head rest ih =>
      have whole := chained
      obtain ⟨rfl, frame, found, _, _, further⟩ := chained
      refine List.nodup_cons.mpr ⟨fun again => ?_, ih further⟩
      obtain ⟨front, back, rfl⟩ := List.append_of_mem again
      have same := whole.unique further.suffix
      have := congrArg List.length same
      simp only [List.length_cons, List.length_append] at this
      omega

theorem congr (chained : machine.Chained context address numbers)
    (same : ∀ number ∈ numbers, after.frame? number = machine.frame? number) :
    after.Chained context address numbers := by
  induction numbers generalizing address with
  | nil => exact chained
  | cons head rest ih =>
      obtain ⟨start, frame, found, linked, owned, further⟩ := chained
      refine ⟨start, frame, (same head List.mem_cons_self).trans found, linked, owned, ?_⟩
      exact ih further fun number member => same number (List.mem_cons_of_mem _ member)

theorem subset_range (chained : machine.Chained context address numbers) :
    numbers ⊆ List.range machine.frames.size := by
  intro number listed
  obtain ⟨frame, found, _⟩ := chained.present listed
  exact List.mem_range.mpr (frame?_lt found)

theorem length_le (chained : machine.Chained context address numbers) :
    numbers.length ≤ machine.frames.size := by
  have bounded := (chained.nodup.subperm chained.subset_range).length_le
  rwa [List.length_range] at bounded

/-- The frames on a chain are all that is found on the way. -/
theorem frameChain_eq (chained : machine.Chained context address numbers)
    {bound : Nat} (enough : numbers.length ≤ bound) :
    machine.frameChain address bound = numbers.filterMap machine.frame? := by
  induction numbers generalizing address bound with
  | nil =>
      have ends : address = 0 := chained
      subst ends
      exact Frame.chain_of_none machine.frameAt?_zero
  | cons number rest ih =>
      obtain ⟨starts, frame, found, _, _, further⟩ := chained
      have here : machine.frameAt? address = some frame := by
        rw [starts, frameAt?_frameAddress, found]
      cases bound with
      | zero => cases enough
      | succ bound =>
          have others := ih further (Nat.le_of_succ_le_succ enough)
          rw [List.filterMap_cons_some found, ← others]
          exact Frame.chain_of_some here

/-- A chain that starts at a frame has it on top. -/
theorem head?_eq (chained : machine.Chained context address numbers) {number : Nat}
    (starts : address = frameAddress number) : numbers.head? = some number := by
  cases numbers with
  | nil => exact absurd (starts.symm.trans chained) (frameAddress_ne_zero number)
  | cons head rest => rw [List.head?_cons, frameAddress_inj.mp (chained.1.symm.trans starts)]

/-- The links alone matter. -/
theorem change (chained : machine.Chained context address numbers)
    (same : ∀ number ∈ numbers, ∀ frame, machine.frame? number = some frame →
      ∃ changed, after.frame? number = some changed ∧ changed.linked = frame.linked ∧
        changed.context = frame.context ∧ changed.outer = frame.outer) :
    after.Chained context address numbers := by
  induction numbers generalizing address with
  | nil => exact chained
  | cons head rest ih =>
      obtain ⟨start, frame, found, linked, owned, further⟩ := chained
      obtain ⟨changed, sameFrame, sameLinked, sameContext, sameOuter⟩ :=
        same head List.mem_cons_self frame found
      refine ⟨start, changed, sameFrame, sameLinked.trans linked, sameContext.trans owned, ?_⟩
      rw [sameOuter]
      exact ih further fun number member => same number (List.mem_cons_of_mem _ member)

end Chained

end Machine

end SlabHeap
