import SlabHeap.Command.Churn
import SlabHeap.Proofs.Founding

namespace SlabHeap.Command

/-! Jobs on one heap.

`Step.Yields` says what comes of a job: it answers, or is refused, with a heap and a machine that meet a
condition, or it cannot count something any more. `Step.Affords` is the condition that leaves refusals to
heaps that are too small.
-/

namespace Step

variable {α β : Type} {step : Step α} {next : α → Step β} {heap : Heap} {machine : Machine}
  {post : Except HeapError α → Heap → Machine → Prop} {overflow : Prop}

/-- What comes of a job on a heap. -/
def Yields (step : Step α) (heap : Heap) (machine : Machine)
    (post : Except HeapError α → Heap → Machine → Prop) (overflow : Prop) : Prop :=
  Action.Meets (step heap) machine (fun answer final => post answer.1 answer.2 final) fun _ => overflow

theorem yields_pure {result : α} :
    (pure result : Step α).Yields heap machine post overflow ↔ post (.ok result) heap machine :=
  ⟨fun meets => meets.of_run rfl, fun holds => .inl ⟨_, machine, rfl, holds⟩⟩

theorem Yields.bind {mid : Except HeapError α → Heap → Machine → Prop}
    {post : Except HeapError β → Heap → Machine → Prop} (first : step.Yields heap machine mid overflow)
    (refused : ∀ refusal after final, mid (.error refusal) after final → post (.error refusal) after final)
    (rest : ∀ result after final, mid (.ok result) after final →
      (next result).Yields after final post overflow) :
    (step >>= next).Yields heap machine post overflow := by
  refine Action.Meets.bind first ?_
  rintro ⟨answer, after⟩ final holds
  cases answer with
  | error refusal => exact .inl ⟨_, final, rfl, refused refusal after final holds⟩
  | ok result => exact rest result after final holds

/-- A job is refused for want of memory at most, and not if there is enough. -/
def Affords {α : Type} (enough : Prop) (post : α → Heap → Machine → Prop) :
    Except HeapError α → Heap → Machine → Prop
  | .error refusal, _, _ => ¬ enough ∧ ∃ bytes, refusal = .outOfMemory bytes
  | .ok result, heap, machine => post result heap machine

theorem Yields.followed {enough : Prop} {mid : α → Heap → Machine → Prop} {post : β → Heap → Machine → Prop}
    (first : step.Yields heap machine (Affords enough mid) overflow)
    (rest : ∀ result after final, mid result after final →
      (next result).Yields after final (Affords enough post) overflow) :
    (step >>= next).Yields heap machine (Affords enough post) overflow :=
  first.bind (fun _ _ _ refused => refused) rest

theorem Yields.weaken {mid : Except HeapError α → Heap → Machine → Prop} {fewer : Prop}
    (first : step.Yields heap machine mid fewer)
    (stronger : ∀ answer after final, mid answer after final → post answer after final)
    (also : fewer → overflow) : step.Yields heap machine post overflow :=
  Action.Meets.weaken first (fun answer final => stronger answer.1 answer.2 final) fun _ => also

theorem Yields.afford {enough : Prop} {mid post : α → Heap → Machine → Prop} {fewer : Prop}
    (first : step.Yields heap machine (Affords enough mid) fewer)
    (stronger : ∀ result after final, mid result after final → post result after final)
    (also : fewer → overflow) : step.Yields heap machine (Affords enough post) overflow :=
  first.weaken (fun answer after final holds => by
    cases answer with
    | error refusal => exact holds
    | ok result => exact stronger result after final holds) also

theorem yields_call {operation : Heap → Action (Heap × Except HeapError α)}
    (meets : (operation heap).Meets machine (fun answer final => post answer.2 answer.1 final)
      fun _ => overflow) : (call operation).Yields heap machine post overflow :=
  Action.Meets.bind meets fun _ final holds => .inl ⟨_, final, rfl, holds⟩

/-- A call whose run is known only changes where the rest starts, or is the end. -/
theorem yields_call_bind {operation : Heap → Action (Heap × Except HeapError α)} {after : Heap} {final : Machine}
    {result : α} {post : Except HeapError β → Heap → Machine → Prop}
    (ran : (operation heap).run machine = .ok (after, .ok result) final) :
    (call operation >>= next).Yields heap machine post overflow ↔ (next result).Yields after final post overflow :=
  Action.meets_bind_iff (show EStateM.run (call operation heap) machine = .ok (.ok result, after) final from
    Action.run_bind ran)

theorem yields_call_refused {operation : Heap → Action (Heap × Except HeapError α)} {after : Heap}
    {final : Machine} {refusal : HeapError} {post : Except HeapError β → Heap → Machine → Prop}
    (ran : (operation heap).run machine = .ok (after, .error refusal) final)
    (holds : post (.error refusal) after final) :
    (call operation >>= next).Yields heap machine post overflow :=
  (Action.meets_bind_iff (show EStateM.run (call operation heap) machine = .ok (.error refusal, after) final from
    Action.run_bind ran)).mpr (.inl ⟨_, final, rfl, holds⟩)

theorem yields_act_bind {action : Action α} {result : α} {final : Machine}
    {post : Except HeapError β → Heap → Machine → Prop} (ran : action.run machine = .ok result final) :
    (act action >>= next).Yields heap machine post overflow ↔ (next result).Yields heap final post overflow :=
  Action.meets_bind_iff (show EStateM.run (act action heap) machine = .ok (.ok result, heap) final from
    Action.run_bind ran)

theorem yields_check_bind {check : Except Fault α} {result : α} {post : Except HeapError β → Heap → Machine → Prop}
    (passes : check = .ok result) :
    (act (check : Action α) >>= next).Yields heap machine post overflow ↔
      (next result).Yields heap machine post overflow :=
  yields_act_bind (by
    rw [passes]
    rfl)

theorem yields_memory {next : Memory → Step β} {post : Except HeapError β → Heap → Machine → Prop} :
    (act Action.memory >>= next).Yields heap machine post overflow ↔
      (next machine.memory).Yields heap machine post overflow := yields_act_bind rfl

theorem yields_onMemory {change : Memory → Memory} {next : Unit → Step β}
    {post : Except HeapError β → Heap → Machine → Prop} :
    (act (Action.onMemory change) >>= next).Yields heap machine post overflow ↔
      (next ()).Yields heap (machine.withMemory (change machine.memory)) post overflow := yields_act_bind rfl

theorem yields_write {change : Heap → Action Bool} {done : Bool} {final : Machine} {next : Unit → Step β}
    {post : Except HeapError β → Heap → Machine → Prop} (ran : (change heap).run machine = .ok done final) :
    (Step.write change >>= next).Yields heap machine post overflow ↔ (next ()).Yields heap final post overflow :=
  Action.meets_bind_iff (show EStateM.run (Step.write change heap) machine = .ok (.ok (), heap) final from
    (Action.run_bind (show EStateM.run (Step.act (change heap) heap) machine = .ok (.ok done, heap) final from
      Action.run_bind ran)))

theorem yields_heap {next : Heap → Step β} {post : Except HeapError β → Heap → Machine → Prop} :
    (Step.heap >>= next).Yields heap machine post overflow ↔
      (next heap).Yields heap machine post overflow := Iff.rfl

end Step

variable {α β : Type} {placement : Placement} {settings : Settings} {job : Context → Step α} {overflow : Prop}

/-- A job ends as it does on the new heap, if there is one. -/
theorem withHeap_meets {post : Except HeapError α → Heap → Machine → Prop}
    (yields : ∀ heap final, (Heap.new settings .standard {}).run (.fresh placement) = .ok (.ok heap) final →
      (Step.call (·.makeContext none) >>= job).Yields heap final post overflow) :
    (withHeap settings job).Meets (.fresh placement) (fun answer final => (∃ heap, post answer heap final) ∨
        ∃ refusal, answer = .error refusal ∧
          (Heap.new settings .standard {}).run (.fresh placement) = .ok (.error refusal) final)
      fun _ => overflow := by
  obtain ⟨founded, final, ran, _⟩ : (Heap.new settings .standard {}).Ensures (.fresh placement) _ := Heap.ensures_new
  rw [withHeap, Action.meets_bind_iff ran]
  cases founded with
  | error refusal => exact .inl (Action.ensures_pure.mpr (.inr ⟨refusal, rfl, ran⟩))
  | ok heap =>
      refine Action.Meets.bind (yields heap final ran) ?_
      rintro ⟨answer, after⟩ last holds
      exact .inl (Action.ensures_pure.mpr (.inl ⟨after, holds⟩))

theorem withHeap_map (make : α → β) : withHeap settings (fun context => make <$> job context) =
    Except.map make <$> withHeap settings job := by
  simp only [withHeap, map_bind]
  refine bind_congr fun founded => ?_
  cases founded with
  | error refusal => simp [Except.map]
  | ok heap =>
      have mapped (step : Step α) : (make <$> step) heap =
          step heap >>= fun answer => pure (answer.1.map make, answer.2) := by
        refine congrArg (step heap >>= ·) (funext fun answer => ?_)
        obtain ⟨answer, after⟩ := answer
        cases answer <;> rfl
      dsimp only
      rw [← map_bind, mapped]
      simp

end SlabHeap.Command
