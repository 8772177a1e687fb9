import SlabHeap.Proofs.Finalizers

namespace SlabHeap

/-! Runs that agree.

Machines agree if nothing tells them apart but notices in their journals. `Action.Concurs` says that two
actions come to the same end on two machines, be it an answer or a fault, and that the machines agree
then. An action that is `Action.Deaf` to journals concurs with itself wherever it is run. The rules follow
the structure of `do` blocks.
-/

def Event.alarm? : Event → Option Notice
  | .notice report => if report.level = .error then some report else none
  | .finalized _ _ => none

/-- How far machines are to agree. -/
structure Terms where
  /-- They agree on notices as well. -/
  exact : Prop
  /-- The reports of corruption so far, if there are to be no further ones. -/
  alarms : Option (List Notice)

/-- The terms admit a notice that both machines get. -/
def Terms.Admits (terms : Terms) (notice : Notice) : Prop :=
  terms.alarms.isSome → notice.level ≠ .error

namespace Machine

def alarms (machine : Machine) : List Notice := machine.journal.reverse.filterMap Event.alarm?

theorem alarms_logging (machine : Machine) (event : Event) :
    (machine.logging event).alarms = machine.alarms ++ event.alarm?.toList := by
  cases sounded : event.alarm? <;> simp [alarms, logging, sounded]

/-- The machines differ in notices alone. -/
structure Agrees (terms : Terms) (machine image : Machine) : Prop extends machine.Quiet image where
  calls : image.calls = machine.calls
  exact : terms.exact → image.journal = machine.journal
  calm : ∀ alarms ∈ terms.alarms, machine.alarms = alarms

namespace Agrees

variable {terms : Terms} {machine image : Machine} {notice : Notice}

theorem refl (machine : Machine) (calm : ∀ alarms ∈ terms.alarms, machine.alarms = alarms) :
    machine.Agrees terms machine := ⟨.refl machine, rfl, fun _ => rfl, calm⟩

variable (agrees : machine.Agrees terms image)

include agrees

/-- What changes anything but the journals in the same way leaves agreement. -/
theorem change {after later : Machine} (kept : after.journal = machine.journal)
    (alsoKept : later.journal = image.journal) (quiet : after.Quiet later) : after.Agrees terms later := by
  refine ⟨quiet, ?_, fun exact => ?_, fun alarms listed => ?_⟩
  · have calls := agrees.calls
    simp only [Machine.calls] at calls ⊢
    rw [alsoKept, calls, kept]
  · rw [alsoKept, agrees.exact exact, kept]
  · rw [Machine.alarms, kept]
    exact agrees.calm alarms listed

theorem eq (exact : terms.exact) : image = machine := by
  have journal := agrees.exact exact
  obtain ⟨⟨frames, identities, pages⟩, memory⟩ := agrees.toQuiet
  cases machine
  cases image
  simp only [Machine.mk.injEq] at *
  exact ⟨memory, frames, identities, pages, journal⟩

theorem withMemory (memory : Memory) : (machine.withMemory memory).Agrees terms (image.withMemory memory) :=
  agrees.change rfl rfl ⟨⟨agrees.frames, agrees.identities, agrees.pages⟩, rfl⟩

theorem logging (event : Event) (admitted : terms.alarms.isSome → event.alarm? = none) :
    (machine.logging event).Agrees terms (image.logging event) := by
  refine ⟨⟨⟨agrees.frames, agrees.identities, agrees.pages⟩, agrees.memory⟩, ?_, fun exact => ?_,
    fun alarms listed => ?_⟩
  · rw [calls_logging, calls_logging, agrees.calls]
  · exact congrArg (event :: ·) (agrees.exact exact)
  · rw [alarms_logging, admitted (Option.isSome_of_mem listed), Option.toList_none, List.append_nil]
    exact agrees.calm alarms listed

theorem noting (admitted : terms.Admits notice) :
    (machine.logging (.notice notice)).Agrees terms (image.logging (.notice notice)) :=
  agrees.logging _ fun asked => by rw [Event.alarm?, if_neg (admitted asked)]

end Agrees

end Machine

namespace Action

variable {α β γ δ σ τ : Type} {terms : Terms} {action : Action α} {other : Action β} {next : α → Action γ}
  {otherNext : β → Action δ} {machine image final otherFinal : Machine} {result : α} {answer : β}
  {post : α → β → Machine → Prop} {last : γ → δ → Machine → Prop}

/-- Both actions answer and meet a condition, or break the same rule, and leave machines that agree. -/
inductive Concurs (terms : Terms) (post : α → β → Machine → Prop) (action : Action α) (other : Action β)
    (machine image : Machine) : Prop
  | answers {result : α} {final : Machine} {answer : β} {otherFinal : Machine}
      (ran : action.run machine = .ok result final) (otherRan : other.run image = .ok answer otherFinal)
      (holds : post result answer final) (agrees : final.Agrees terms otherFinal)
  | fails {fault : Fault} {final otherFinal : Machine} (failed : action.run machine = .error fault final)
      (otherFailed : other.run image = .error fault otherFinal) (agrees : final.Agrees terms otherFinal)

namespace Concurs

theorem pure (holds : post result answer machine) (agrees : machine.Agrees terms image) :
    Concurs terms post (Pure.pure result) (Pure.pure answer) machine image :=
  .answers rfl rfl holds agrees

/-- Steps whose outcomes are known only change where the rest starts. -/
theorem after (ran : action.run machine = .ok result final) (otherRan : other.run image = .ok answer otherFinal)
    (rest : (next result).Concurs terms last (otherNext answer) final otherFinal) :
    (action >>= next).Concurs terms last (other >>= otherNext) machine image := by
  cases rest with
  | answers ends otherEnds holds agrees =>
      exact .answers ((run_bind ran).trans ends) ((run_bind otherRan).trans otherEnds) holds agrees
  | fails failed otherFailed agrees =>
      exact .fails ((run_bind ran).trans failed) ((run_bind otherRan).trans otherFailed) agrees

theorem bind (first : action.Concurs terms post other machine image)
    (rest : ∀ result answer final otherFinal, post result answer final → final.Agrees terms otherFinal →
      (next result).Concurs terms last (otherNext answer) final otherFinal) :
    (action >>= next).Concurs terms last (other >>= otherNext) machine image := by
  cases first with
  | answers ran otherRan holds agrees => exact .after ran otherRan (rest _ _ _ _ holds agrees)
  | fails failed otherFailed agrees =>
      exact .fails (by rw [EStateM.run_bind, failed]) (by rw [EStateM.run_bind, otherFailed]) agrees

theorem weaken {weaker : α → β → Machine → Prop} (concurs : action.Concurs terms post other machine image)
    (stronger : ∀ result answer final, post result answer final → weaker result answer final) :
    action.Concurs terms weaker other machine image := by
  cases concurs with
  | answers ran otherRan holds agrees => exact .answers ran otherRan (stronger _ _ _ holds) agrees
  | fails failed otherFailed agrees => exact .fails failed otherFailed agrees

theorem observed (concurs : action.Concurs terms post other machine image) :
    action.Concurs terms (fun result answer final => post result answer final ∧
      action.run machine = .ok result final) other machine image := by
  cases concurs with
  | answers ran otherRan holds agrees => exact .answers ran otherRan ⟨holds, ran⟩ agrees
  | fails failed otherFailed agrees => exact .fails failed otherFailed agrees

theorem ensuring {mid : α → Machine → Prop} (concurs : action.Concurs terms post other machine image)
    (ensures : action.Ensures machine mid) :
    action.Concurs terms (fun result answer final => post result answer final ∧ mid result final) other machine
      image :=
  concurs.observed.weaken fun _ _ _ both => ⟨both.1, ensures.of_run both.2⟩

theorem foldlM {elements : List γ} {step : σ → γ → Action σ} {otherStep : τ → γ → Action τ} {state : σ}
    {otherState : τ} (Inv : σ → τ → List γ → Machine → Prop)
    (steps : ∀ state otherState element rest machine image, Inv state otherState (element :: rest) machine →
      machine.Agrees terms image → (step state element).Concurs terms
        (fun state otherState final => Inv state otherState rest final) (otherStep otherState element) machine image)
    (holds : Inv state otherState elements machine) (agrees : machine.Agrees terms image) :
    (elements.foldlM step state).Concurs terms (fun state otherState final => Inv state otherState [] final)
      (elements.foldlM otherStep otherState) machine image := by
  induction elements generalizing state otherState machine image with
  | nil => exact .pure holds agrees
  | cons element rest ih =>
      rw [List.foldlM_cons, List.foldlM_cons]
      exact (steps _ _ _ _ _ _ holds agrees).bind fun _ _ _ _ => ih

end Concurs

/-- The action comes to the same end on all machines that agree. -/
def Deaf (action : Action α) : Prop :=
  ∀ terms machine image, machine.Agrees terms image →
    action.Concurs terms (fun result answer _ => answer = result) action machine image

theorem deaf_pure (result : α) : Deaf (pure result) := fun _ _ _ agrees => .pure rfl agrees

theorem deaf_throw (fault : Fault) : Deaf (throw fault : Action α) := fun _ _ _ agrees => .fails rfl rfl agrees

theorem deaf_memory : Deaf memory := fun _ _ _ agrees => .answers rfl rfl agrees.memory agrees

theorem deaf_check (check : Except Fault α) : Deaf (liftM check : Action α) := by
  intro terms machine image agrees
  cases check with
  | ok => exact .answers rfl rfl rfl agrees
  | error => exact .fails rfl rfl agrees

/-- What a step comes to may be used for the rest. -/
theorem Deaf.observed {otherNext : α → Action δ} (deaf : action.Deaf) (agrees : machine.Agrees terms image)
    (rest : ∀ result final otherFinal, action.run machine = .ok result final → final.Agrees terms otherFinal →
      (next result).Concurs terms last (otherNext result) final otherFinal) :
    (action >>= next).Concurs terms last (action >>= otherNext) machine image := by
  refine (deaf _ _ _ agrees).observed.bind ?_
  rintro _ result final otherFinal ⟨rfl, ran⟩
  exact rest result final otherFinal ran

theorem Deaf.before {mid : α → Machine → Prop} {otherNext : α → Action δ} (deaf : action.Deaf)
    (agrees : machine.Agrees terms image) (ensures : action.Ensures machine mid)
    (rest : ∀ result final otherFinal, mid result final → final.Agrees terms otherFinal →
      (next result).Concurs terms last (otherNext result) final otherFinal) :
    (action >>= next).Concurs terms last (action >>= otherNext) machine image :=
  deaf.observed agrees fun result final otherFinal ran => rest result final otherFinal (ensures.of_run ran)

/-- A step before two actions that concur. -/
theorem Deaf.first {otherNext : α → Action δ} (deaf : action.Deaf) (agrees : machine.Agrees terms image)
    (rest : ∀ result final otherFinal, final.Agrees terms otherFinal →
      (next result).Concurs terms last (otherNext result) final otherFinal) :
    (action >>= next).Concurs terms last (action >>= otherNext) machine image :=
  deaf.observed agrees fun result final otherFinal _ => rest result final otherFinal

theorem Deaf.bind (first : action.Deaf) (rest : ∀ result, (next result).Deaf) : (action >>= next).Deaf :=
  fun _ _ _ agrees => first.first agrees fun result _ _ agrees => rest result _ _ _ agrees

theorem Deaf.ite {condition : Prop} [Decidable condition] {other : Action α} (first : action.Deaf)
    (second : other.Deaf) : Deaf (if condition then action else other) := by
  split
  · exact first
  · exact second

theorem deaf_onMemory (change : Memory → Memory) : Deaf (onMemory change) := by
  intro terms machine image agrees
  have ran (machine : Machine) : (onMemory change).run machine =
    .ok () (machine.withMemory (change machine.memory)) := rfl
  refine .answers (ran machine) (ran image) rfl ?_
  rw [agrees.memory]
  exact agrees.withMemory _

theorem deaf_store (address : Nat) (word : UInt64) : Deaf (store address word) := deaf_onMemory _

theorem deaf_storeValue (address : Nat) (value : Value) : Deaf (storeValue address value) :=
  deaf_store address value.bits

theorem deaf_storeIfPresent (address : Option Nat) (value : Value) : Deaf (storeIfPresent address value) := by
  cases address with
  | none => exact deaf_pure false
  | some address => exact (deaf_storeValue address value).bind fun _ => deaf_pure true

theorem deaf_onHeader (object : Nat) (change : Header → Header) : Deaf (onHeader object change) :=
  deaf_onMemory _

theorem deaf_note {notice : Notice} (harmless : notice.level ≠ .error) : Deaf (note notice) :=
  fun _ _ _ agrees => .answers rfl rfl rfl (agrees.noting fun _ => harmless)

theorem deaf_newIdentity : Deaf newIdentity := by
  intro terms machine image agrees
  refine .answers rfl rfl ?_ (agrees.change rfl rfl
    ⟨⟨agrees.frames, congrArg (· + 1) agrees.identities, agrees.pages⟩, agrees.memory⟩)
  rw [agrees.identities]

theorem deaf_reserve (size : Nat) : Deaf (reserve size) := by
  intro terms machine image agrees
  have tries := run_reserve size machine
  have otherTries := run_reserve size image
  unfold Machine.reserve? at tries otherTries
  rw [agrees.pages] at otherTries
  by_cases empty : size = 0
  · rw [if_pos empty] at tries otherTries
    exact .answers tries otherTries rfl agrees
  · rw [if_neg empty] at tries otherTries
    cases placed : machine.pages.place? (Machine.pagesFor size) with
    | none =>
        rw [placed] at tries otherTries
        exact .answers tries otherTries rfl agrees
    | some first =>
        rw [placed] at tries otherTries
        refine .answers tries otherTries rfl
          (agrees.change rfl rfl ⟨⟨agrees.frames, agrees.identities, ?_⟩, ?_⟩)
        · rw [Machine.occupy, Machine.occupy, agrees.pages]
        · rw [Machine.occupy, Machine.occupy, agrees.memory]

theorem deaf_forM {step : α → Action Unit} (steps : ∀ element, (step element).Deaf) (elements : List α) :
    Deaf (elements.forM step) := by
  induction elements with
  | nil => exact deaf_pure ()
  | cons element rest ih => exact (steps element).bind fun _ => ih

theorem deaf_setFrame (number : Nat) (frame : Option Frame) : Deaf (setFrame number frame) :=
  fun _ _ _ agrees => .answers rfl rfl rfl <| agrees.change rfl rfl
    ⟨⟨congrArg (·.setIfInBounds number frame) agrees.frames, agrees.identities, agrees.pages⟩, agrees.memory⟩

theorem deaf_changeFrame (number : Nat) (change : Frame → Frame) : Deaf (changeFrame number change) :=
  fun _ _ _ agrees => .answers rfl rfl rfl <| agrees.change rfl rfl
    ⟨⟨congrArg (·.modify number (·.map change)) agrees.frames, agrees.identities, agrees.pages⟩,
      agrees.memory⟩

theorem deaf_frame? (number : Nat) : Deaf (frame? number) := by
  intro terms machine image agrees
  refine .answers rfl rfl ?_ agrees
  rw [agrees.frames]

theorem deaf_openFrame (context : Context) : Deaf (openFrame context) := by
  intro terms machine image agrees
  refine .answers rfl rfl ?_ (agrees.change rfl rfl
    ⟨⟨congrArg (·.push (some { context })) agrees.frames, agrees.identities, agrees.pages⟩, agrees.memory⟩)
  rw [agrees.frames]

theorem deaf_saveValue (number : Nat) (frame : Frame) (value : Value) :
    Deaf (saveValue number frame value) := by
  refine Deaf.bind (Deaf.ite (deaf_pure ()) ?_) fun _ => ?_
  · refine Deaf.bind deaf_memory fun memory => Deaf.bind (deaf_onMemory _) fun _ => ?_
    exact deaf_setFrame _ _
  · exact Deaf.bind (deaf_changeFrame _ _) fun _ => deaf_pure _

theorem deaf_replaceValue (number index : Nat) (value : Value) : Deaf (replaceValue number index value) := by
  refine Deaf.bind (deaf_frame? number) fun found => ?_
  cases found with
  | none => exact deaf_pure ()
  | some frame => exact Deaf.bind (deaf_check _) fun _ => deaf_changeFrame _ _

theorem deaf_dropFrame (number : Nat) (frame : Frame) : Deaf (dropFrame number frame) := by
  refine Deaf.ite (Deaf.bind deaf_memory fun memory => Deaf.ite ?_ ?_) ?_
  · exact Deaf.bind (deaf_onMemory _) fun _ => deaf_setFrame _ _
  · exact Deaf.bind (deaf_throw _) fun _ => deaf_setFrame _ _
  · exact deaf_setFrame _ _

end Action

end SlabHeap
