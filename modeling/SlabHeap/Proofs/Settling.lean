import SlabHeap.Proofs.Agreement
import SlabHeap.Proofs.Conduct

namespace SlabHeap

/-! Actions that end, in one way or another.

`Action.Settles` is total correctness up to sums that are no sizes: an action answers, or fails for such a
sum. It speaks of a family of actions that may take more and more steps, and says that all of them end in
the same way, so that no run was cut off. The rules follow the structure of `do` blocks.
-/

namespace Action

variable {α β : Type} {action : Nat → Action α} {next : Nat → α → Action β} {machine : Machine}
  {sure : Prop}

/-- The action ends in one way, however many steps more it may take: it answers and meets a condition,
or it cannot count something, of which there is no danger where it is `sure`. -/
def Settles (action : Nat → Action α) (machine : Machine) (sure : Prop)
    (post : α → Machine → Prop) : Prop :=
  (∃ result after, (∀ extra, (action extra).run machine = .ok result after) ∧ post result after) ∨
    ¬ sure ∧ ∃ after, ∀ extra, (action extra).run machine = .error .additionOverflow after

theorem Ensures.settles {action : Action α} {post : α → Machine → Prop}
    (ensures : action.Ensures machine post) : Settles (fun _ => action) machine sure post := by
  obtain ⟨result, after, ran, holds⟩ := ensures
  exact .inl ⟨result, after, fun _ => ran, holds⟩

theorem Settles.bind {mid : α → Machine → Prop} {post : β → Machine → Prop}
    (first : Settles action machine sure mid)
    (rest : ∀ result after, mid result after →
      Settles (fun extra => next extra result) after sure post) :
    Settles (fun extra => action extra >>= next extra) machine sure post := by
  rcases first with ⟨result, after, ran, holds⟩ | ⟨unsure, after, failed⟩
  · refine (rest result after holds).imp ?_ ?_
    · rintro ⟨answer, final, goesOn, met⟩
      exact ⟨answer, final, fun extra => (run_bind (ran extra)).trans (goesOn extra), met⟩
    · rintro ⟨unsure, final, failed⟩
      exact ⟨unsure, final, fun extra => (run_bind (ran extra)).trans (failed extra)⟩
  · exact .inr ⟨unsure, after, fun extra => by rw [EStateM.run_bind, failed extra]⟩

theorem Settles.weaken {mid post : α → Machine → Prop} (first : Settles action machine sure mid)
    (stronger : ∀ result after, mid result after → post result after) :
    Settles action machine sure post := by
  refine first.imp_left ?_
  rintro ⟨result, after, ran, holds⟩
  exact ⟨result, after, ran, stronger result after holds⟩

/-- What is sure to settle answers, with the bound that it has. -/
theorem Settles.ensures {post : α → Machine → Prop} (settles : Settles action machine sure post)
    (isSure : sure) (extra : Nat) : (action extra).Ensures machine post := by
  rcases settles with ⟨result, after, ran, holds⟩ | ⟨unsure, _⟩
  · exact ⟨result, after, ran extra, holds⟩
  · exact absurd isSure unsure

theorem Settles.respecting {related : Machine → Machine → Prop} {post : α → Machine → Prop}
    (settles : Settles action machine sure post) (respects : ∀ extra, (action extra).Respects related) :
    Settles action machine sure fun result final => post result final ∧ related machine final := by
  refine settles.imp_left ?_
  rintro ⟨result, final, ran, holds⟩
  exact ⟨result, final, ran, holds, (respects 0).of_run (ran 0)⟩

theorem settles_pure {result : α} {post : α → Machine → Prop} (holds : post result machine) :
    Settles (fun _ => pure result) machine sure post := (ensures_pure.mpr holds).settles

theorem Ensures.bind_settles {action : Action α} {mid : α → Machine → Prop} {post : β → Machine → Prop}
    (first : action.Ensures machine mid)
    (rest : ∀ result after, mid result after →
      Settles (fun extra => next extra result) after sure post) :
    Settles (fun extra => action >>= next extra) machine sure post :=
  first.settles.bind rest

theorem settles_bind_iff {action : Action α} {result : α} {after : Machine}
    {post : β → Machine → Prop} (ran : action.run machine = .ok result after) :
    Settles (fun extra => action >>= next extra) machine sure post ↔
      Settles (fun extra => next extra result) after sure post := by
  simp only [Settles, run_bind ran]

theorem settles_memory {next : Nat → Memory → Action β} {post : β → Machine → Prop} :
    Settles (fun extra => memory >>= next extra) machine sure post ↔
      Settles (fun extra => next extra machine.memory) machine sure post := settles_bind_iff rfl

theorem settles_onMemory {change : Memory → Memory} {next : Nat → Unit → Action β}
    {post : β → Machine → Prop} :
    Settles (fun extra => onMemory change >>= next extra) machine sure post ↔
      Settles (fun extra => next extra ()) (machine.withMemory (change machine.memory)) sure post :=
  settles_bind_iff rfl

theorem settles_note {notice : Notice} {next : Nat → Unit → Action β} {post : β → Machine → Prop} :
    Settles (fun extra => note notice >>= next extra) machine sure post ↔
      Settles (fun extra => next extra ()) (machine.logging (.notice notice)) sure post :=
  settles_bind_iff rfl

theorem settles_onHeader {object : Nat} {change : Header → Header} {next : Nat → Unit → Action β}
    {post : β → Machine → Prop} :
    Settles (fun extra => onHeader object change >>= next extra) machine sure post ↔
      Settles (fun extra => next extra ()) (machine.withMemory
        (machine.memory.setHeader object (change (machine.memory.header object)))) sure post :=
  settles_bind_iff rfl

/-- What is in range where it is sure can be counted there. -/
theorem settles_count {condition : Prop} [Decidable condition] {check : Except Fault α} {result : α}
    {post : β → Machine → Prop} {next : Nat → α → Action β}
    (checks : check = if condition then .ok result else .error .additionOverflow) (fits : sure → condition)
    (rest : condition → Settles (fun extra => next extra result) machine sure post) :
    Settles (fun extra => (liftM check : Action α) >>= next extra) machine sure post := by
  by_cases holds : condition
  · rw [checks, if_pos holds]
    exact rest holds
  · rw [checks, if_neg holds]
    exact .inr ⟨mt fits holds, machine, fun _ => rfl⟩

/-- A sum that is a size where it is sure. -/
theorem settles_add {left right : Nat} {post : β → Machine → Prop} {next : Nat → Nat → Action β}
    (fits : sure → left + right < Size.limit)
    (rest : left + right < Size.limit →
      Settles (fun extra => next extra (left + right)) machine sure post) :
    Settles (fun extra => (liftM (Size.add left right) : Action Nat) >>= next extra) machine sure
      post :=
  settles_count rfl fits rest

theorem settles_foldlM {σ : Type} {step : Nat → σ → α → Action σ} {elements : List α} {state : σ}
    (Inv : σ → List α → Machine → Prop)
    (kept : ∀ state element rest machine, Inv state (element :: rest) machine →
      Settles (fun extra => step extra state element) machine sure fun state after =>
        Inv state rest after)
    (start : Inv state elements machine) :
    Settles (fun extra => elements.foldlM (step extra) state) machine sure fun state after =>
      Inv state [] after := by
  induction elements generalizing state machine with
  | nil => exact settles_pure start
  | cons element rest ih =>
      simp only [List.foldlM_cons]
      exact (kept state element rest machine start).bind fun state after holds => ih holds

end Action

namespace Machine

/-- No report of corruption is lost. -/
def Recalls (machine final : Machine) : Prop := machine.alarms <+: final.alarms

instance : Tolerant Recalls where
  trans first second := List.IsPrefix.trans first second
  same kept := by
    rw [Recalls, alarms, alarms, kept]
  notice machine notice := by
    rw [Recalls, alarms_logging]
    exact List.prefix_append _ _

theorem recalls_logging (machine : Machine) (event : Event) : machine.Recalls (machine.logging event) := by
  rw [Recalls, alarms_logging]
  exact List.prefix_append _ _

end Machine

end SlabHeap
