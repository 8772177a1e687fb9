import Mathlib.Data.Fintype.Pigeonhole
import SlabHeap.Context

namespace SlabHeap

/-! The frames that a context keeps linked.

`Machine.frameChain` stops after as many steps as there are frames. `Machine.mem_frameChain` says that
no linked frame is missed for this reason: a longer way comes twice to the same frame, and may be cut
short.
-/

namespace Frame

variable {find : Nat → Option Frame} {address : Nat} {frame : Frame}

/-- Links lead to the frame from the address. -/
inductive Linked (find : Nat → Option Frame) : Nat → Frame → Prop
  | here {address : Nat} {frame : Frame} (found : find address = some frame) :
      Linked find address frame
  | outer {address : Nat} {inner frame : Frame} (found : find address = some inner)
      (further : Linked find inner.outer frame) : Linked find address frame

def outwards (find : Nat → Option Frame) (address : Nat) : Nat → Option Nat
  | 0 => some address
  | steps + 1 => (find address).bind fun frame => outwards find frame.outer steps

theorem outwards_add (address first second : Nat) :
    outwards find address (first + second) =
      (outwards find address first).bind fun mid => outwards find mid second := by
  induction first generalizing address with
  | zero => simp [outwards]
  | succ first ih =>
      rw [Nat.succ_add]
      simp only [outwards, ih, Option.bind_assoc]

/-- The frame that some steps outwards lead to. -/
def behind? (find : Nat → Option Frame) (address steps : Nat) : Option Frame :=
  (outwards find address steps).bind find

theorem behind?_zero : behind? find address 0 = find address := by
  simp only [behind?, outwards, Option.bind_some]

theorem behind?_succ (steps : Nat) : behind? find address (steps + 1) =
    (find address).bind fun inner => behind? find inner.outer steps := by
  simp only [behind?, outwards, Option.bind_assoc]

theorem linked_iff : Linked find address frame ↔
    ∃ steps, behind? find address steps = some frame := by
  constructor
  · intro linked
    induction linked with
    | here found => exact ⟨0, by rw [behind?_zero, found]⟩
    | outer found _ ih =>
        obtain ⟨steps, reached⟩ := ih
        exact ⟨steps + 1, by rw [behind?_succ, found]; exact reached⟩
  · rintro ⟨steps, reached⟩
    induction steps generalizing address with
    | zero =>
        rw [behind?_zero] at reached
        exact .here reached
    | succ steps ih =>
        rw [behind?_succ, Option.bind_eq_some_iff] at reached
        obtain ⟨inner, found, further⟩ := reached
        exact .outer found (ih further)

theorem mem_chain_iff {bound : Nat} : frame ∈ chain find address bound ↔
    ∃ steps < bound, behind? find address steps = some frame := by
  induction bound generalizing address with
  | zero => simp [chain]
  | succ bound ih =>
      cases found : find address with
      | none =>
          simp only [chain, found, List.not_mem_nil, false_iff, not_exists, not_and]
          intro steps _ reached
          cases steps with
          | zero => simp [behind?_zero, found] at reached
          | succ steps => simp [behind?_succ, found] at reached
      | some inner =>
          simp only [chain, found, List.mem_cons, ih]
          constructor
          · rintro (rfl | ⟨steps, inside, reached⟩)
            · exact ⟨0, Nat.succ_pos bound, by rw [behind?_zero, found]⟩
            · exact ⟨steps + 1, Nat.succ_lt_succ inside, by rw [behind?_succ, found]; exact reached⟩
          · rintro ⟨steps, inside, reached⟩
            cases steps with
            | zero =>
                rw [behind?_zero, found] at reached
                exact .inl (Option.some.inj reached).symm
            | succ steps =>
                rw [behind?_succ, found] at reached
                exact .inr ⟨steps, Nat.lt_of_succ_lt_succ inside, reached⟩

theorem outwards_present {steps step : Nat} (reached : behind? find address steps = some frame)
    (inside : step ≤ steps) :
    ∃ mid inner, outwards find address step = some mid ∧ find mid = some inner := by
  have split : step + (steps - step) = steps := by omega
  rw [behind?, ← split, outwards_add, Option.bind_assoc, Option.bind_eq_some_iff] at reached
  obtain ⟨mid, arrived, further⟩ := reached
  refine ⟨mid, ?_⟩
  cases rest : steps - step with
  | zero =>
      rw [rest, ← behind?, behind?_zero] at further
      exact ⟨frame, arrived, further⟩
  | succ others =>
      rw [rest, ← behind?, behind?_succ, Option.bind_eq_some_iff] at further
      obtain ⟨inner, found, _⟩ := further
      exact ⟨inner, arrived, found⟩

section Numbered

variable {count : Nat} {number : Nat → Nat}
  (numbered : ∀ address frame, find address = some frame →
    ∃ index < count, number index = address)

include numbered

/-- A way of as many steps as there are frames comes twice to the same frame. -/
theorem behind?_shorter {steps : Nat} (long : count ≤ steps)
    (reached : behind? find address steps = some frame) :
    ∃ fewer < steps, behind? find address fewer = some frame := by
  have visited : ∀ step : Fin (steps + 1), ∃ index : Fin count,
      outwards find address step = some (number index) := by
    intro ⟨step, inside⟩
    obtain ⟨mid, inner, arrived, found⟩ := outwards_present reached (Nat.le_of_lt_succ inside)
    obtain ⟨index, known, rfl⟩ := numbered mid inner found
    exact ⟨⟨index, known⟩, arrived⟩
  choose index arrived using visited
  obtain ⟨one, two, distinct, same⟩ := Fintype.exists_ne_map_eq_of_card_lt index
    (by simp only [Fintype.card_fin]; omega)
  have meets : outwards find address one = outwards find address two := by
    rw [arrived one, arrived two, same]
  have shorten : ∀ early late : Fin (steps + 1), early.val < late.val →
      outwards find address early = outwards find address late →
      ∃ fewer < steps, behind? find address fewer = some frame := by
    intro early late before meets
    have inside := late.isLt
    refine ⟨early + (steps - late), by omega, ?_⟩
    have split : late.val + (steps - late) = steps := by omega
    rw [behind?, outwards_add, meets, ← outwards_add, split]
    exact reached
  rcases Nat.lt_or_gt_of_ne (fun equal => distinct (Fin.ext equal)) with before | behind
  · exact shorten one two before meets
  · exact shorten two one behind meets.symm

/-- No more steps are needed than there are frames. -/
theorem mem_chain : frame ∈ chain find address count ↔ Linked find address frame := by
  rw [mem_chain_iff, linked_iff]
  constructor
  · rintro ⟨steps, _, reached⟩
    exact ⟨steps, reached⟩
  · rintro ⟨steps, reached⟩
    induction steps using Nat.strong_induction_on with
    | _ steps ih =>
        by_cases inside : steps < count
        · exact ⟨steps, inside, reached⟩
        · obtain ⟨fewer, less, shorter⟩ := behind?_shorter numbered (Nat.le_of_not_lt inside) reached
          exact ih fewer less shorter

end Numbered

end Frame

namespace Machine

/-- The frame lies on the chain that starts at the address. -/
def Linked (machine : Machine) (address : Nat) (frame : Frame) : Prop :=
  Frame.Linked machine.frameAt? address frame

/-- Frames lie at the addresses of their numbers. -/
theorem frameAt?_eq_some {machine : Machine} {address : Nat} {frame : Frame}
    (found : machine.frameAt? address = some frame) :
    ∃ index < machine.frames.size, frameAddress index = address := by
  simp only [frameAt?, frameIndex?, Option.bind_eq_bind] at found
  split at found
  · next here => exact ⟨_, here.2, here.1⟩
  · simp at found

/-- The chain holds exactly the linked frames. -/
theorem mem_frameChain {machine : Machine} {address : Nat} {frame : Frame} :
    frame ∈ machine.frameChain address machine.frames.size ↔ machine.Linked address frame :=
  Frame.mem_chain fun _ _ => frameAt?_eq_some

end Machine

namespace Context

variable {context : Context} {machine after : Machine}

/-- The values that a context keeps alive are those of its linked frames. -/
theorem mem_savedValues {value : Value} :
    value ∈ context.savedValues machine ↔
      ∃ frame, machine.Linked (context.saves machine.memory) frame ∧ value ∈ frame.values := by
  simp only [savedValues, frames, List.mem_flatMap, Machine.mem_frameChain]

theorem savedValues_congr (sameFrames : after.frames = machine.frames)
    (sameLink : context.saves after.memory = context.saves machine.memory) :
    context.savedValues after = context.savedValues machine := by
  have find : after.frameAt? = machine.frameAt? := by
    funext address
    simp only [Machine.frameAt?, Machine.frameIndex?, sameFrames]
  simp only [savedValues, frames, Machine.frameChain, find, sameLink, sameFrames]

end Context

end SlabHeap
