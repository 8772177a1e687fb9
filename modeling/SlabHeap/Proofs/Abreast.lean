import SlabHeap.Proofs.Action

namespace SlabHeap

/-! Two actions side by side.

`Action.Abreast` compares two actions, each of which runs on a machine of its own. The rules follow the
structure of `do` blocks like those of `Action.Ensures`.
-/

namespace Action

variable {α β γ δ : Type} {action : Action α} {other : Action β} {next : α → Action γ}
  {otherNext : β → Action δ} {machine image final copyFinal : Machine} {result : α} {answer : β}
  {post : α → Machine → β → Machine → Prop} {full more : Prop}

/-- Both actions answer, and their answers and machines meet a condition, or both break the same rule. Where
a count is full, the first action may fail to count on. -/
inductive Abreast (action : Action α) (other : Action β) (machine image : Machine)
    (post : α → Machine → β → Machine → Prop) (full : Prop) : Prop
  | answers {result : α} {final : Machine} {answer : β} {copyFinal : Machine}
      (ran : action.run machine = .ok result final) (copyRan : other.run image = .ok answer copyFinal)
      (holds : post result final answer copyFinal)
  | fails {fault : Fault} {final copyFinal : Machine} (failed : action.run machine = .error fault final)
      (copyFailed : other.run image = .error fault copyFinal)
  | overflows {final : Machine} (isFull : full) (failed : action.run machine = .error .additionOverflow final)

namespace Abreast

theorem after {last : γ → Machine → δ → Machine → Prop} (ran : action.run machine = .ok result final)
    (copyRan : other.run image = .ok answer copyFinal)
    (rest : (next result).Abreast (otherNext answer) final copyFinal last full) :
    (action >>= next).Abreast (other >>= otherNext) machine image last full := by
  cases rest with
  | answers goesOn copyGoesOn met =>
      exact .answers ((run_bind ran).trans goesOn) ((run_bind copyRan).trans copyGoesOn) met
  | fails failed copyFailed =>
      exact .fails ((run_bind ran).trans failed) ((run_bind copyRan).trans copyFailed)
  | overflows isFull failed => exact .overflows isFull ((run_bind ran).trans failed)

theorem bind {last : γ → Machine → δ → Machine → Prop}
    (first : action.Abreast other machine image post full)
    (rest : ∀ result final answer copyFinal, post result final answer copyFinal →
      (next result).Abreast (otherNext answer) final copyFinal last full) :
    (action >>= next).Abreast (other >>= otherNext) machine image last full := by
  cases first with
  | answers ran copyRan holds => exact .after ran copyRan (rest _ _ _ _ holds)
  | fails failed copyFailed =>
      exact .fails (by rw [EStateM.run_bind, failed]) (by rw [EStateM.run_bind, copyFailed])
  | overflows isFull failed => exact .overflows isFull (by rw [EStateM.run_bind, failed])

theorem weaken {weaker : α → Machine → β → Machine → Prop}
    (abreast : action.Abreast other machine image post full)
    (stronger : ∀ result final answer copyFinal, post result final answer copyFinal →
      weaker result final answer copyFinal) (also : full → more) :
    action.Abreast other machine image weaker more := by
  cases abreast with
  | answers ran copyRan holds => exact .answers ran copyRan (stronger _ _ _ _ holds)
  | fails failed copyFailed => exact .fails failed copyFailed
  | overflows isFull failed => exact .overflows (also isFull) failed

theorem certain (abreast : action.Abreast other machine image post False) :
    action.Abreast other machine image post full :=
  abreast.weaken (fun _ _ _ _ => id) False.elim

theorem pure (holds : post result machine answer image) :
    Abreast (Pure.pure result) (Pure.pure answer) machine image post full :=
  .answers rfl rfl holds

theorem memory {next : Memory → Action γ} {otherNext : Memory → Action δ}
    {last : γ → Machine → δ → Machine → Prop}
    (rest : (next machine.memory).Abreast (otherNext image.memory) machine image last full) :
    (Action.memory >>= next).Abreast (Action.memory >>= otherNext) machine image last full :=
  .after rfl rfl rest

theorem note {notice also : Notice} {next : Unit → Action γ} {otherNext : Unit → Action δ}
    {last : γ → Machine → δ → Machine → Prop}
    (rest : (next ()).Abreast (otherNext ()) (machine.logging (.notice notice)) (image.logging (.notice also))
      last full) :
    (Action.note notice >>= next).Abreast (Action.note also >>= otherNext) machine image last full :=
  .after rfl rfl rest

theorem check {check : Except Fault α} {also : Except Fault β} {last : γ → Machine → δ → Machine → Prop}
    (passes : check = .ok result) (alsoPasses : also = .ok answer)
    (rest : (next result).Abreast (otherNext answer) machine image last full) :
    ((liftM check : Action α) >>= next).Abreast ((liftM also : Action β) >>= otherNext) machine image last full :=
  .after (by rw [passes]; rfl) (by rw [alsoPasses]; rfl) rest

/-- Where the first action can count, the other one can. -/
theorem count {condition also : Prop} [Decidable condition] [Decidable also] {check : Except Fault α}
    {copyCheck : Except Fault β} {last : γ → Machine → δ → Machine → Prop}
    (checks : check = if condition then .ok result else .error .additionOverflow)
    (copyChecks : copyCheck = if also then .ok answer else .error .additionOverflow) (follows : condition → also)
    (isFull : ¬ condition → full)
    (rest : (next result).Abreast (otherNext answer) machine image last full) :
    ((liftM check : Action α) >>= next).Abreast ((liftM copyCheck : Action β) >>= otherNext) machine image last full := by
  by_cases holds : condition
  · exact .check (checks.trans (if_pos holds)) (copyChecks.trans (if_pos (follows holds))) rest
  · rw [checks, if_neg holds]
    exact .overflows (isFull holds) rfl

/-- What is known of each action by itself may be used as well. -/
theorem of_ensures {first : α → Machine → Prop} {second : β → Machine → Prop}
    (ensures : action.Ensures machine first) (copyEnsures : other.Ensures image second)
    (both : ∀ result final answer copyFinal, first result final → second answer copyFinal →
      post result final answer copyFinal) : action.Abreast other machine image post full := by
  obtain ⟨result, final, ran, holds⟩ := ensures
  obtain ⟨answer, copyFinal, copyRan, copyHolds⟩ := copyEnsures
  exact .answers ran copyRan (both _ _ _ _ holds copyHolds)

theorem of_runs (abreast : action.Abreast other machine image post full)
    (ran : action.run machine = .ok result final) (copyRan : other.run image = .ok answer copyFinal) :
    post result final answer copyFinal := by
  cases abreast with
  | answers again copyAgain holds =>
      cases ran.symm.trans again
      cases copyRan.symm.trans copyAgain
      exact holds
  | fails failed _ => cases ran.symm.trans failed
  | overflows _ failed => cases ran.symm.trans failed

end Abreast

end Action

end SlabHeap
