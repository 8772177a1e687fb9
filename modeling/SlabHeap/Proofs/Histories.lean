import SlabHeap.Proofs.Founding

namespace SlabHeap

/-! Histories of several heaps.

`Account.Step` is one thing that a program does with its heaps: it founds one, works on one, forks one,
or copies one into another. `Account.Reached` holds of what comes about step by step, and
`Account.Kept` is what every step preserves.
-/

theorem getElem?_concat_cases {α : Type} {list : List α} {last found : α} {index : Nat}
    (listed : (list ++ [last])[index]? = some found) :
    list[index]? = some found ∨ index = list.length ∧ found = last := by
  rcases Nat.lt_trichotomy index list.length with before | rfl | behind
  · exact .inl (List.getElem?_append_left before ▸ listed)
  · rw [List.getElem?_concat_length] at listed
    exact .inr ⟨rfl, (Option.some.inj listed).symm⟩
  · rw [List.getElem?_eq_none (by simpa using Nat.succ_le_of_lt behind)] at listed
    contradiction

theorem getElem?_set_cases {α : Type} {list : List α} {old replacement found : α} {index place : Nat}
    (listed : list[index]? = some old) (there : (list.set index replacement)[place]? = some found) :
    place = index ∧ found = replacement ∨ place ≠ index ∧ list[place]? = some found := by
  by_cases here : place = index
  · subst here
    rw [List.getElem?_set_self (List.getElem?_eq_some_iff.mp listed).1] at there
    exact .inl ⟨rfl, (Option.some.inj there).symm⟩
  · rw [List.getElem?_set_ne (Ne.symm here)] at there
    exact .inr ⟨here, there⟩

/-- A heap, and the blocks that it gave out and did not take back. -/
structure Account where
  heap : Heap
  entries : List Block

namespace Account

variable {features : Features} {machine final : Machine} {accounts later : List Account}
  {account other : Account} {entries : List Block} {index : Nat}

def opened : Except HeapError Heap → Option Account
  | .ok heap => some ⟨heap, []⟩
  | .error _ => none

/-- The account of a copy: it gave out the copies of what the source gave out. -/
def copied (account : Account) : Except HeapError (Heap × Context) → Option Account
  | .ok (copy, _) => some ⟨copy, account.entries.map (account.heap.lastSlab.moveBlock copy.lastSlab)⟩
  | .error _ => none

/-- The account of another heap that was to take a copy: it gave out the copies of what the source gave
out, or it refused. -/
def overwritten (account other : Account) : Heap × Except HeapError Context → Account
  | (copy, .ok _) => ⟨copy, account.entries.map (account.heap.lastSlab.moveBlock copy.lastSlab)⟩
  | (heap, .error _) => ⟨heap, other.entries⟩

/-- A context of the heap, by which the program may refer to it. -/
def Handles (account : Account) (machine : Machine) (context : Context) : Prop :=
  Block.Listed account.entries context.address ∧ machine.memory.tag context.address = Tag.context

/-- One thing that a program does with its heaps, used as they are meant to be used. -/
inductive Step (features : Features) : Machine → List Account → Machine → List Account → Prop
  | found {machine final : Machine} {accounts : List Account} {settings : Settings}
      {shapes : ShapeTable} {answer : Except HeapError Heap}
      (confined : ∀ tag shape, shapes.get? tag = some shape → shape.Confined)
      (ran : (Heap.new settings shapes features).run machine = .ok answer final) :
      Step features machine accounts final (accounts ++ (opened answer).toList)
  | operate {machine final : Machine} {accounts : List Account} {account : Account} {after : Heap}
      {op : Operation} {answer : Answer} (index : Nat) (listed : accounts[index]? = some account)
      (apt : op.Apt account.heap machine (Block.Listed account.entries))
      (ran : (op.perform account.heap).run machine = .ok (after, answer) final) :
      Step features machine accounts final (accounts.set index
        ⟨after, op.ledger account.heap after machine account.entries answer⟩)
  | fork {machine final : Machine} {accounts : List Account} {account : Account} {context : Context}
      {keepOwnership : Bool} {answer : Except HeapError (Heap × Context)} (index : Nat)
      (listed : accounts[index]? = some account) (handles : account.Handles machine context)
      (ran : (account.heap.fork context keepOwnership).run machine = .ok answer final) :
      Step features machine accounts final (accounts ++ (account.copied answer).toList)
  | copyInto {machine final : Machine} {accounts : List Account} {account other : Account}
      {context : Context} {inTarget : Value} {keepOwnership : Bool}
      {answer : Heap × Except HeapError Context} (source target : Nat) (distinct : source ≠ target)
      (listed : accounts[source]? = some account) (alsoListed : accounts[target]? = some other)
      (alike : other.heap.shapes = account.heap.shapes) (handles : account.Handles machine context)
      (ran : (account.heap.copyInto context other.heap inTarget keepOwnership).run machine =
        .ok answer final) :
      Step features machine accounts final (accounts.set target (account.overwritten other answer))

/-- What comes about when a program starts without heaps. -/
inductive Reached (features : Features) : Machine → List Account → Prop
  | start {machine : Machine} (orderly : machine.Orderly) : Reached features machine []
  | step {machine final : Machine} {accounts later : List Account}
      (reached : Reached features machine accounts)
      (step : Step features machine accounts final later) : Reached features final later

/-- All heaps are accounted for, and apart from each other. -/
structure Kept (features : Features) (machine : Machine) (accounts : List Account) : Prop where
  orderly : machine.Orderly
  accounted : ∀ (index : Nat) (account : Account), accounts[index]? = some account →
    ∃ tiling, account.heap.Accounted tiling machine account.entries
  features : ∀ (index : Nat) (account : Account), accounts[index]? = some account → account.heap.features = features
  apart : ∀ (index other : Nat) (account another : Account), accounts[index]? = some account →
    accounts[other]? = some another → index ≠ other → account.heap.Apart another.heap

namespace Kept

variable (kept : Kept features machine accounts)

include kept

theorem add {heap : Heap} (arises : heap.Arises machine final entries)
    (same : heap.features = features) : Kept features final (accounts ++ [⟨heap, entries⟩]) := by
  have aside {index : Nat} {account : Account} (listed : accounts[index]? = some account) :
      account.heap.Apart heap := by
    obtain ⟨tiling, accounted⟩ := kept.accounted index account listed
    exact arises.apart _ tiling accounted.consistent
  refine ⟨kept.orderly.congr arises.reserved.frames, fun index account listed => ?_,
    fun index account listed => ?_, fun index other account another listed alsoListed distinct => ?_⟩
  · rcases getElem?_concat_cases listed with old | ⟨_, rfl⟩
    · obtain ⟨tiling, accounted⟩ := kept.accounted index account old
      exact ⟨tiling, accounted.consistent.extended arises.reserved, accounted.records⟩
    · exact arises.accounted
  · rcases getElem?_concat_cases listed with old | ⟨_, rfl⟩
    · exact kept.features index account old
    · exact same
  · rcases getElem?_concat_cases listed with old | ⟨rfl, rfl⟩ <;>
      rcases getElem?_concat_cases alsoListed with alsoOld | ⟨rfl, rfl⟩
    · exact kept.apart index other account another old alsoOld distinct
    · exact aside old
    · exact (aside alsoOld).symm
    · exact absurd rfl distinct

theorem change {after : Heap} (listed : accounts[index]? = some account) (orderly : final.Orderly)
    (accounted : ∃ tiling, after.Accounted tiling final entries)
    (within : account.heap.Within after machine final) (same : after.features = features) :
    Kept features final (accounts.set index ⟨after, entries⟩) := by
  have aside {place : Nat} {found : Account} (there : accounts[place]? = some found)
      (elsewhere : place ≠ index) : after.Apart found.heap := by
    obtain ⟨tiling, before⟩ := kept.accounted place found there
    exact within.apart (kept.apart index place account found listed there (Ne.symm elsewhere))
      before.consistent.hosted
  refine ⟨orderly, fun place found there => ?_, fun place found there => ?_,
    fun place other found another there alsoThere distinct => ?_⟩
  · rcases getElem?_set_cases listed there with ⟨rfl, rfl⟩ | ⟨elsewhere, old⟩
    · exact accounted
    · obtain ⟨tiling, before⟩ := kept.accounted place found old
      exact ⟨tiling, before.consistent.elsewhere within
        (kept.apart index place account found listed old (Ne.symm elsewhere)), before.records⟩
  · rcases getElem?_set_cases listed there with ⟨rfl, rfl⟩ | ⟨_, old⟩
    · exact same
    · exact kept.features place found old
  · rcases getElem?_set_cases listed there with ⟨rfl, rfl⟩ | ⟨elsewhere, old⟩ <;>
      rcases getElem?_set_cases listed alsoThere with ⟨rfl, rfl⟩ | ⟨alsoElsewhere, alsoOld⟩
    · exact absurd rfl distinct
    · exact aside alsoOld alsoElsewhere
    · exact (aside old elsewhere).symm
    · exact kept.apart place other found another old alsoOld distinct

theorem step (step : Step features machine accounts final later) : Kept features final later := by
  cases step with
  | found confined ran =>
      rcases (Heap.new_arises confined).of_run ran with ⟨_, rfl, rfl⟩ | ⟨heap, rfl, same, arises⟩
      · simpa [opened] using kept
      · exact kept.add arises same
  | @operate _ _ account after op answer index listed apt ran =>
      obtain ⟨tiling, accounted⟩ := kept.accounted index account listed
      obtain ⟨still, orderly, within, same⟩ := op.keeps accounted kept.orderly apt ran
      exact kept.change listed orderly still within (same.trans (kept.features index account listed))
  | @fork _ _ account context keepOwnership answer index listed handles ran =>
      obtain ⟨tiling, accounted⟩ := kept.accounted index account listed
      rcases (accounted.fork_arises handles.1 handles.2).of_run ran with
        ⟨_, rfl, rfl⟩ | ⟨copy, moved, rfl, same, _, arises, _⟩
      · simpa [copied] using kept
      · exact kept.add arises (same.trans (kept.features index account listed))
  | @copyInto _ _ account other context inTarget keepOwnership answer source target distinct listed
      alsoListed alike handles ran =>
      obtain ⟨tiling, accounted⟩ := kept.accounted source account listed
      obtain ⟨divided, into⟩ := kept.accounted target other alsoListed
      have build := (kept.features target other alsoListed)
      rcases (accounted.copyInto_takes handles.1 handles.2 into
        (kept.apart source target account other listed alsoListed distinct) (fun _ _ _ => by rw [alike])
        (build.trans (kept.features source account listed).symm)).of_run ran with
        ⟨_, rfl, rfl⟩ | ⟨copy, moved, rfl, same, taken, within, frames, _⟩
      · have unchanged : accounts.set target other = accounts := by
          obtain ⟨inside, rfl⟩ := List.getElem?_eq_some_iff.mp alsoListed
          exact List.set_getElem_self inside
        simpa [overwritten, unchanged] using kept
      · exact kept.change alsoListed (kept.orderly.congr frames) taken within (same.trans build)

end Kept

theorem Reached.kept (reached : Reached features machine accounts) :
    Kept features machine accounts := by
  induction reached with
  | start orderly => exact ⟨orderly, by simp, by simp, by simp⟩
  | step _ step ih => exact ih.step step

/-- Whatever a program did with its heaps, their free lists are determined by what the program holds,
and no two blocks that it holds share a byte. -/
theorem Reached.canonical (reached : Reached features machine accounts) :
    (∀ account ∈ accounts, ∀ slab ∈ account.heap.slabs,
      slab.Canonical account.entries machine.memory) ∧
    (accounts.flatMap Account.entries).Pairwise Block.Disjoint := by
  have kept := reached.kept
  have accounted {account : Account} (member : account ∈ accounts) :
      ∃ tiling, account.heap.Accounted tiling machine account.entries := by
    obtain ⟨index, listed⟩ := List.mem_iff_getElem?.mp member
    exact kept.accounted index account listed
  constructor
  · intro account member slab inHeap
    obtain ⟨tiling, accounted⟩ := accounted member
    exact accounted.canonical_slab inHeap
  · refine List.pairwise_flatMap.mpr ⟨fun account member => ?_, List.pairwise_iff_getElem.mpr
      fun index other inside alsoInside before entry listed another alsoListed => ?_⟩
    · obtain ⟨tiling, accounted⟩ := accounted member
      exact accounted.records.disjoint accounted.consistent.tiled
    · obtain ⟨_, one⟩ := accounted (List.getElem_mem inside)
      obtain ⟨_, two⟩ := accounted (List.getElem_mem alsoInside)
      obtain ⟨slab, inHeap, above, below⟩ := one.records.inside entry listed
      obtain ⟨stranger, inOther, alsoAbove, alsoBelow⟩ := two.records.inside another alsoListed
      have apart := kept.apart index other _ _ (List.getElem?_eq_getElem inside)
        (List.getElem?_eq_getElem alsoInside) (Nat.ne_of_lt before) slab inHeap stranger inOther
      simp only [Slab.Apart, Slab.objects, Block.Disjoint] at *
      omega

def begin : Action (Except HeapError (Heap × Answer)) := do
  match ← Heap.new { initialSize := 256 } .standard {} with
  | .error refusal => return .error refusal
  | .ok heap => return .ok (← (Operation.make (.context none)).perform heap)

def begins : Except HeapError (Heap × Answer) → Bool
  | .ok (_, .made (.ok _)) => true
  | _ => false

theorem orderly_fresh : ({} : Machine).Orderly :=
  ⟨by decide, fun number frame found => by simp [Machine.frame?] at found⟩

/-- A heap that was founded, and a context in it. -/
theorem canonical_begun : ∃ heap context machine entries,
    begin.run {} = .ok (.ok (heap, .made (.ok context))) machine ∧
    Reached {} machine [⟨heap, entries⟩] ∧ Block.Listed entries context.untagged ∧
    ∀ slab ∈ heap.slabs, slab.Canonical entries machine.memory := by
  have made : begin.passes {} begins = true := by decide +kernel
  obtain ⟨answer, final, ran, outcome⟩ := Action.ensures_of_passes made
  unfold begins at outcome
  split at outcome
  · next heap context =>
    have whole := ran
    unfold begin at ran
    rw [EStateM.run_bind] at ran
    cases founds : (Heap.new { initialSize := 256 } .standard {}).run {} with
    | error fault machine =>
        rw [founds] at ran
        cases ran
    | ok founded machine =>
        rw [founds] at ran
        cases founded with
        | error refusal => cases ran
        | ok first =>
            obtain ⟨result, same, acts⟩ := Action.of_run_map ran
            obtain rfl := Except.ok.inj same
            have apt : (Operation.make (.context none)).Apt first machine (Block.Listed []) :=
              ⟨⟨fun typed => typed.elim, by simp⟩, by simp [Order.root], by simp [Order.held]⟩
            have reached := ((Reached.start orderly_fresh).step (.found (fun _ _ known =>
              ShapeTable.confined_standard known) founds)).step
              (.operate 0 rfl apt acts)
            exact ⟨heap, context, final, _, whole, reached, ⟨_, List.mem_append_right _ (List.mem_singleton_self _), rfl⟩,
              fun slab inHeap => reached.canonical.1 _ (List.mem_singleton_self _) slab inHeap⟩
  · contradiction

end Account

end SlabHeap
