import SlabHeap.Machine

namespace SlabHeap

/-! Total correctness of actions.

`Action.Ensures` says that an action answers and what then holds of its answer and of the machine;
`Action.Answers`, what holds of the answer if there is one, on whatever machine the action runs.
The rules follow the structure of `do` blocks; each primitive action has a rule of its own, so that
`simp only` with them runs a block up to the first step that needs an argument.
-/

/-- Nothing but memory and journal differs. -/
structure Machine.Steady (before after : Machine) : Prop where
  frames : after.frames = before.frames
  identities : after.identities = before.identities
  pages : after.pages = before.pages

namespace Machine.Steady

variable {first second third : Machine}

theorem refl (machine : Machine) : machine.Steady machine := ⟨rfl, rfl, rfl⟩

theorem trans (left : first.Steady second) (right : second.Steady third) : first.Steady third :=
  ⟨right.frames.trans left.frames, right.identities.trans left.identities,
    right.pages.trans left.pages⟩

end Machine.Steady

/-- Nothing but the journal differs. -/
structure Machine.Quiet (before after : Machine) : Prop extends Machine.Steady before after where
  memory : after.memory = before.memory

namespace Machine.Quiet

variable {first second third : Machine}

theorem refl (machine : Machine) : machine.Quiet machine := ⟨.refl machine, rfl⟩

theorem trans (left : first.Quiet second) (right : second.Quiet third) : first.Quiet third :=
  ⟨left.toSteady.trans right.toSteady, right.memory.trans left.memory⟩

end Machine.Quiet

def Machine.logging (machine : Machine) (event : Event) : Machine :=
  { machine with journal := event :: machine.journal }

@[simp]
theorem Machine.memory_logging (machine : Machine) (event : Event) :
    (machine.logging event).memory = machine.memory := rfl

theorem Machine.quiet_logging (machine : Machine) (event : Event) :
    machine.Quiet (machine.logging event) := ⟨⟨rfl, rfl, rfl⟩, rfl⟩

def Machine.withMemory (machine : Machine) (memory : Memory) : Machine := { machine with memory }

@[simp]
theorem Machine.memory_withMemory (machine : Machine) (memory : Memory) :
    (machine.withMemory memory).memory = memory := rfl

theorem Machine.steady_withMemory (machine : Machine) (memory : Memory) :
    machine.Steady (machine.withMemory memory) := ⟨rfl, rfl, rfl⟩

namespace Action

variable {α β : Type} {action : Action α} {next : α → Action β} {machine : Machine}

/-- The action answers, and its answer and the machine that it leaves meet a condition. -/
def Ensures (action : Action α) (machine : Machine) (post : α → Machine → Prop) : Prop :=
  ∃ result after, action.run machine = .ok result after ∧ post result after

theorem run_bind {result : α} {after : Machine} (ran : action.run machine = .ok result after) :
    (action >>= next).run machine = (next result).run after := by
  rw [EStateM.run_bind, ran]

theorem check_ok (result : α) : (liftM (.ok result : Except Fault α) : Action α) = pure result := rfl

theorem ite_bind (condition : Prop) [Decidable condition] (action : Action Unit)
    (next : Unit → Action β) : (if condition then action >>= next else next ()) =
      (if condition then action else pure ()) >>= next := by
  split
  · rfl
  · rfl

theorem Ensures.bind {mid : α → Machine → Prop} {post : β → Machine → Prop}
    (first : action.Ensures machine mid)
    (rest : ∀ result after, mid result after → (next result).Ensures after post) :
    (action >>= next).Ensures machine post := by
  obtain ⟨result, after, ran, holds⟩ := first
  obtain ⟨answer, final, continued, met⟩ := rest result after holds
  exact ⟨answer, final, (run_bind ran).trans continued, met⟩

theorem Ensures.weaken {mid post : α → Machine → Prop} (first : action.Ensures machine mid)
    (stronger : ∀ result after, mid result after → post result after) :
    action.Ensures machine post := by
  obtain ⟨result, after, ran, holds⟩ := first
  exact ⟨result, after, ran, stronger result after holds⟩

theorem Ensures.of_run {result : α} {final : Machine} {post : α → Machine → Prop}
    (ensures : action.Ensures machine post) (ran : action.run machine = .ok result final) :
    post result final := by
  obtain ⟨answer, after, again, holds⟩ := ensures
  cases ran.symm.trans again
  exact holds

theorem Ensures.unless {condition : Prop} [Decidable condition] {step : Action Unit}
    {rest : Action β} {post : β → Machine → Prop} (mid : Machine → Prop)
    (stays : condition → mid machine)
    (steps : ¬ condition → step.Ensures machine fun _ after => mid after)
    (goesOn : ∀ after, mid after → rest.Ensures after post) :
    Ensures (if condition then rest else step >>= fun _ => rest) machine post := by
  by_cases holds : condition
  · rw [if_pos holds]
    exact goesOn machine (stays holds)
  · rw [if_neg holds]
    exact (steps holds).bind fun _ after reached => goesOn after reached

/-- Whatever a run of the action answers has a property. -/
def Answers (action : Action α) (post : α → Prop) : Prop :=
  ∀ machine answer final, action.run machine = .ok answer final → post answer

/-- What two steps answer is what the second one answers to the first. -/
theorem of_run_bind {machine final : Machine} {answer : β}
    (ran : (action >>= next).run machine = .ok answer final) : ∃ result mid,
      action.run machine = .ok result mid ∧ (next result).run mid = .ok answer final := by
  rw [EStateM.run_bind] at ran
  cases acts : action.run machine with
  | error fault mid =>
      rw [acts] at ran
      cases ran
  | ok result mid =>
      rw [acts] at ran
      exact ⟨result, mid, rfl, ran⟩

/-- What was counted could be counted. -/
theorem of_run_count {condition : Prop} [Decidable condition] {check : Except Fault α} {machine final : Machine}
    {result : α} {answer : β} (checks : check = if condition then .ok result else .error .additionOverflow)
    (ran : ((liftM check : Action α) >>= next).run machine = .ok answer final) :
    condition ∧ (next result).run machine = .ok answer final := by
  by_cases holds : condition
  · rw [checks, if_pos holds] at ran
    exact ⟨holds, ran⟩
  · rw [checks, if_neg holds] at ran
    cases ran

theorem of_run_check {check : Except Fault α} {machine final : Machine} {result : α}
    (ran : (liftM check : Action α).run machine = .ok result final) : final = machine := by
  cases check with
  | error fault => cases ran
  | ok result =>
      cases ran
      rfl

theorem answers_pure {answer : α} {post : α → Prop} (holds : post answer) :
    Answers (pure answer) post := by
  intro machine result final ran
  cases ran
  exact holds

theorem Answers.bind {mid : α → Prop} {post : β → Prop} (first : action.Answers mid)
    (rest : ∀ result, mid result → (next result).Answers post) : (action >>= next).Answers post := by
  intro machine answer final ran
  obtain ⟨result, later, acts, goesOn⟩ := of_run_bind ran
  exact rest result (first _ _ _ acts) _ _ _ goesOn

theorem answers_after {post : β → Prop} (rest : ∀ result, (next result).Answers post) :
    (action >>= next).Answers post := by
  intro machine answer final ran
  obtain ⟨result, later, _, goesOn⟩ := of_run_bind ran
  exact rest result _ _ _ goesOn

theorem answers_count {condition : Prop} [Decidable condition] {check : Except Fault α} {result : α}
    {post : β → Prop} (checks : check = if condition then .ok result else .error .additionOverflow)
    (rest : condition → (next result).Answers post) :
    Answers ((liftM check : Action α) >>= next) post := by
  intro machine answer final ran
  obtain ⟨holds, goesOn⟩ := of_run_count checks ran
  exact rest holds machine answer final goesOn

def passes (action : Action α) (machine : Machine) (test : α → Bool) : Bool :=
  match action.run machine with
  | .ok result _ => test result
  | .error _ _ => false

theorem ensures_of_passes {test : α → Bool} (holds : action.passes machine test = true) :
    action.Ensures machine fun result _ => test result = true := by
  unfold passes at holds
  cases ran : action.run machine with
  | ok result after => exact ⟨result, after, ran, by simpa [ran] using holds⟩
  | error fault after => simp [ran] at holds

/-- Whether a run ends with a certain result and no error. -/
theorem ensures_ok_of_passes {ε α : Type} [DecidableEq α] {action : ExceptT ε Action α} {found : α}
    (holds : passes action.run machine (fun answer => answer.toOption = some found) = true) :
    action.run.Ensures machine fun answer _ => answer = .ok found := by
  obtain ⟨answer, after, ran, same⟩ := ensures_of_passes holds
  refine ⟨answer, after, ran, ?_⟩
  cases answer with
  | error refusal => simp [Except.toOption] at same
  | ok value => simpa [Except.toOption] using same

/-- Whether a run ends, and leaves a machine behind that passes a test. -/
def leaves (action : Action α) (machine : Machine) (test : Machine → Bool) : Bool :=
  match action.run machine with
  | .ok _ after => test after
  | .error _ _ => false

theorem leaves_eq {result : α} {after : Machine} {test : Machine → Bool}
    (ran : action.run machine = .ok result after) : action.leaves machine test = test after := by
  rw [leaves, ran]

theorem ensures_of_leaves {test : Machine → Bool} (holds : action.leaves machine test = true) :
    action.Ensures machine fun _ after => test after = true := by
  unfold leaves at holds
  cases ran : action.run machine with
  | ok result after => exact ⟨result, after, ran, by simpa [ran] using holds⟩
  | error fault after => simp [ran] at holds

@[simp]
theorem ensures_pure {result : α} {post : α → Machine → Prop} :
    Ensures (pure result) machine post ↔ post result machine := by
  constructor
  · rintro ⟨_, _, ran, holds⟩
    cases ran
    exact holds
  · intro holds
    exact ⟨result, machine, rfl, holds⟩

theorem ensures_bind_iff {result : α} {after : Machine} {post : β → Machine → Prop}
    (ran : action.run machine = .ok result after) :
    Ensures (action >>= next) machine post ↔ Ensures (next result) after post := by
  simp only [Ensures, run_bind ran]

theorem ensures_get {next : Machine → Action β} {post : β → Machine → Prop} :
    Ensures (get >>= next) machine post ↔ Ensures (next machine) machine post :=
  ensures_bind_iff rfl

theorem ensures_memory {next : Memory → Action β} {post : β → Machine → Prop} :
    Ensures (memory >>= next) machine post ↔ Ensures (next machine.memory) machine post :=
  ensures_bind_iff rfl

theorem ensures_onMemory {change : Memory → Memory} {next : Unit → Action β}
    {post : β → Machine → Prop} :
    Ensures (onMemory change >>= next) machine post ↔
      Ensures (next ()) (machine.withMemory (change machine.memory)) post :=
  ensures_bind_iff rfl

theorem ensures_record {event : Event} {next : Unit → Action β} {post : β → Machine → Prop} :
    Ensures (record event >>= next) machine post ↔
      Ensures (next ()) (machine.logging event) post :=
  ensures_bind_iff rfl

theorem ensures_note {notice : Notice} {next : Unit → Action β} {post : β → Machine → Prop} :
    Ensures (note notice >>= next) machine post ↔
      Ensures (next ()) (machine.logging (.notice notice)) post :=
  ensures_bind_iff rfl

theorem ensures_store {address : Nat} {word : UInt64} {next : Unit → Action β}
    {post : β → Machine → Prop} :
    Ensures (store address word >>= next) machine post ↔
      Ensures (next ()) (machine.withMemory (machine.memory.write address word)) post :=
  ensures_bind_iff rfl

theorem ensures_storeValue {address : Nat} {value : Value} {next : Unit → Action β}
    {post : β → Machine → Prop} :
    Ensures (storeValue address value >>= next) machine post ↔
      Ensures (next ()) (machine.withMemory (machine.memory.write address value.bits)) post :=
  ensures_bind_iff rfl

theorem ensures_onHeader {object : Nat} {change : Header → Header} {next : Unit → Action β}
    {post : β → Machine → Prop} :
    Ensures (onHeader object change >>= next) machine post ↔
      Ensures (next ()) (machine.withMemory
        (machine.memory.setHeader object (change (machine.memory.header object)))) post :=
  ensures_bind_iff rfl

theorem ensures_check {check : Except Fault α} {result : α} {post : β → Machine → Prop}
    (passes : check = .ok result) :
    Ensures ((liftM check : Action α) >>= next) machine post ↔
      Ensures (next result) machine post :=
  ensures_bind_iff (by rw [passes]; rfl)

theorem ensures_last_onMemory {change : Memory → Memory} {post : Unit → Machine → Prop} :
    Ensures (onMemory change) machine post ↔
      post () (machine.withMemory (change machine.memory)) := by
  rw [← bind_pure (onMemory change), ensures_onMemory, ensures_pure]

theorem ensures_last_record {event : Event} {post : Unit → Machine → Prop} :
    Ensures (record event) machine post ↔ post () (machine.logging event) := by
  rw [← bind_pure (record event), ensures_record, ensures_pure]

theorem ensures_last_note {notice : Notice} {post : Unit → Machine → Prop} :
    Ensures (note notice) machine post ↔ post () (machine.logging (.notice notice)) := by
  rw [← bind_pure (note notice), ensures_note, ensures_pure]

theorem ensures_foldlM {σ : Type} {step : σ → α → Action σ} {elements : List α} {state : σ}
    (Inv : σ → List α → Machine → Prop)
    (kept : ∀ state element rest machine, Inv state (element :: rest) machine →
      (step state element).Ensures machine fun state after => Inv state rest after)
    (start : Inv state elements machine) :
    (elements.foldlM step state).Ensures machine fun state after => Inv state [] after := by
  induction elements generalizing state machine with
  | nil => exact ensures_pure.mpr start
  | cons element rest ih =>
      rw [List.foldlM_cons]
      exact (kept state element rest machine start).bind fun state after holds => ih holds

/-- The action answers and meets a condition, or it cannot count something any more and leaves a
machine that meets another one. -/
def Meets (action : Action α) (machine : Machine) (post : α → Machine → Prop)
    (overflow : Machine → Prop) : Prop :=
  action.Ensures machine post ∨
    ∃ after, action.run machine = .error .additionOverflow after ∧ overflow after

section Meets

variable {overflow : Machine → Prop}

theorem Ensures.meets {post : α → Machine → Prop} (ensures : action.Ensures machine post) :
    action.Meets machine post overflow := .inl ensures

theorem meets_bind_iff {result : α} {after : Machine} {post : β → Machine → Prop}
    (ran : action.run machine = .ok result after) :
    Meets (action >>= next) machine post overflow ↔ Meets (next result) after post overflow := by
  simp only [Meets, Ensures, run_bind ran]

theorem Meets.bind {mid : α → Machine → Prop} {post : β → Machine → Prop}
    (first : action.Meets machine mid overflow)
    (rest : ∀ result after, mid result after → (next result).Meets after post overflow) :
    (action >>= next).Meets machine post overflow := by
  rcases first with ⟨result, after, ran, holds⟩ | ⟨after, failed, holds⟩
  · exact (meets_bind_iff ran).mpr (rest result after holds)
  · exact .inr ⟨after, by rw [EStateM.run_bind, failed], holds⟩

theorem meets_memory {next : Memory → Action β} {post : β → Machine → Prop} :
    Meets (memory >>= next) machine post overflow ↔ Meets (next machine.memory) machine post overflow :=
  meets_bind_iff rfl

theorem meets_note {notice : Notice} {next : Unit → Action β} {post : β → Machine → Prop} :
    Meets (note notice >>= next) machine post overflow ↔
      Meets (next ()) (machine.logging (.notice notice)) post overflow :=
  meets_bind_iff rfl

theorem meets_check {check : Except Fault α} {result : α} {post : β → Machine → Prop}
    (passes : check = .ok result) :
    Meets ((liftM check : Action α) >>= next) machine post overflow ↔
      Meets (next result) machine post overflow :=
  meets_bind_iff (by rw [passes]; rfl)

/-- Counting fails where the count would leave its range. -/
theorem meets_count {condition : Prop} [Decidable condition] {check : Except Fault α} {result : α}
    {post : β → Machine → Prop} (checks : check = if condition then .ok result else .error .additionOverflow)
    (goesOn : condition → (next result).Meets machine post overflow) (fails : ¬ condition → overflow machine) :
    Meets ((liftM check : Action α) >>= next) machine post overflow := by
  by_cases holds : condition
  · rw [checks, if_pos holds]
    exact goesOn holds
  · rw [checks, if_neg holds]
    exact .inr ⟨machine, rfl, fails holds⟩

theorem Meets.weaken {mid post : α → Machine → Prop} {fewer : Machine → Prop}
    (first : action.Meets machine mid fewer)
    (stronger : ∀ result after, mid result after → post result after)
    (alsoFails : ∀ after, fewer after → overflow after) : action.Meets machine post overflow := by
  rcases first with holds | ⟨after, failed, holds⟩
  · exact .inl (holds.weaken stronger)
  · exact .inr ⟨after, failed, alsoFails after holds⟩

theorem meets_congr {other : Action α} {start : Machine} {post : α → Machine → Prop}
    (same : action.run machine = other.run start) :
    action.Meets machine post overflow ↔ other.Meets start post overflow := by
  simp only [Meets, Ensures, same]

/-- What cannot overflow answers. -/
theorem Meets.ensures {post : α → Machine → Prop} (meets : action.Meets machine post overflow)
    (counts : ∀ after, ¬ overflow after) : action.Ensures machine post :=
  meets.resolve_right fun ⟨after, _, overflows⟩ => counts after overflows

theorem Meets.of_run {result : α} {final : Machine} {post : α → Machine → Prop}
    (meets : action.Meets machine post overflow) (ran : action.run machine = .ok result final) :
    post result final := by
  rcases meets with ensures | ⟨after, failed, _⟩
  · exact ensures.of_run ran
  · cases ran.symm.trans failed

theorem Meets.of_map {make : α → β} {post : β → Machine → Prop}
    (meets : Meets (action >>= fun result => pure (make result)) machine post overflow) :
    action.Meets machine (fun result => post (make result)) overflow := by
  rcases meets with ⟨answer, final, ran, holds⟩ | ⟨final, failed, holds⟩
  · obtain ⟨result, mid, acts, same⟩ := of_run_bind ran
    cases same
    exact .inl ⟨result, _, acts, holds⟩
  · rw [EStateM.run_bind] at failed
    cases acts : action.run machine with
    | ok result mid =>
        rw [acts] at failed
        cases failed
    | error fault mid =>
        rw [acts] at failed
        cases failed
        exact .inr ⟨_, acts, holds⟩

end Meets

end Action

end SlabHeap
