import Mathlib.Algebra.Order.Floor.Div
import SlabHeap.Command
import SlabHeap.Proofs.Hoards

namespace SlabHeap.Command

/-! What the churn job leaves.

Lists are built pair by pair, and every pair may collect the heap or let it grow. `builds` and `keeps` say
what becomes of the hoard nevertheless, and `churn_accounts` what the job reports, whatever its arguments are.
It overflows a counter only if the dropped lists take more bytes than can be counted. Then it does so where
the lists that it keeps fit into the first slab, `churn_ample`.
-/

open Block Heap

/-- The rounds as they are, and the lists that they keep, the newest one first. -/
def keepLists (context : Context) (listLength keepEvery round : Nat) (lists : List Value) : Nat → Step (List Value)
  | 0 => return lists
  | count + 1 => do
      let list ← buildList context 0 .nil listLength
      if round % keepEvery = 0 then
        let environment := context.environment (← Step.act Action.memory)
        let kept ← Step.call (·.allocPair context list environment)
        Step.act (Action.onMemory (context.setEnvironment · kept))
        keepLists context listLength keepEvery (round + 1) (list :: lists) count
      else keepLists context listLength keepEvery (round + 1) lists count

/-- What the job does after its rounds. -/
def conclude (context : Context) : Step ChurnReport := do
  let swept ← Step.call fun heap => do
    let (heap, swept) ← heap.collect context
    return (heap, .ok swept)
  let heap ← Step.heap
  let memory ← Step.act Action.memory
  let freeBytes ← Step.act (heap.freeBytes memory : Action Nat)
  return {
    counters := heap.counters
    swept
    totalSize := heap.totalSize
    slabs := heap.slabs.length
    freeBytes }

/-- The job, with the lists that it keeps and the heap that it leaves. -/
def churnKeeping (rounds listLength keepEvery : Nat) (context : Context) :
    Step (ChurnReport × List Value × Context × Heap) := do
  let lists ← keepLists context listLength (max keepEvery 1) 0 [] rounds
  let report ← conclude context
  return (report, lists, context, ← Step.heap)

theorem churnRounds_eq (context : Context) (listLength keepEvery round : Nat) (lists : List Value) (count : Nat) :
    churnRounds context listLength keepEvery round count =
      do let _ ← keepLists context listLength keepEvery round lists count; return () := by
  induction count generalizing round lists with
  | zero => simp [churnRounds, keepLists]
  | succ count ih =>
      simp only [churnRounds, keepLists, bind_assoc]
      refine bind_congr fun list => ?_
      split
      · simp only [bind_assoc, ← ih]
      · exact ih _ _

theorem churn_eq (rounds listLength keepEvery : Nat) (context : Context) :
    churn rounds listLength keepEvery context = Prod.fst <$> churnKeeping rounds listLength keepEvery context := by
  have reads (report : ChurnReport) : (do let _ ← Step.heap; return report) = (pure report : Step _) := rfl
  have ends : churn rounds listLength keepEvery context =
      churnRounds context listLength (max keepEvery 1) 0 rounds >>= fun _ => conclude context := rfl
  simp only [ends, churnRounds_eq context _ _ _ [], churnKeeping, bind_assoc, pure_bind, map_bind, map_pure, reads,
    bind_pure]

variable {placement : Placement} {hoard : Hoard} {kept : List Keepsake} {length spare keepEvery round : Nat}
  {context : Context} {heap : Heap} {machine : Machine} {entries : List Block} {slab : Slab} {enough : Prop}

theorem ceilDiv_succ (positive : 0 < keepEvery) (round : Nat) : (round + 1) ⌈/⌉ keepEvery =
    round ⌈/⌉ keepEvery + if round % keepEvery = 0 then 1 else 0 := by
  have step : (round + keepEvery - 1 + 1) / keepEvery = _ := Nat.succ_div
  have same : keepEvery ∣ round + keepEvery - 1 + 1 ↔ round % keepEvery = 0 := by
    rw [show round + keepEvery - 1 + 1 = round + keepEvery by omega, Nat.dvd_add_self_right,
      Nat.dvd_iff_mod_eq_zero]
  simp only [same] at step
  rw [Nat.ceilDiv_eq_add_pred_div, Nat.ceilDiv_eq_add_pred_div, ← step]
  congr 1
  omega

theorem dropped_mono (positive : 0 < keepEvery) (round count : Nat) :
    round ⌈/⌉ keepEvery ≤ round ∧ round - round ⌈/⌉ keepEvery ≤
      round + count - (round + count) ⌈/⌉ keepEvery := by
  have le (round : Nat) : round ⌈/⌉ keepEvery ≤ round := by
    rw [ceilDiv_le_iff_le_smul positive]
    exact Nat.le_mul_of_pos_left round positive
  refine ⟨le round, ?_⟩
  induction count with
  | zero => rfl
  | succ count ih =>
      have step := ceilDiv_succ positive (round + count)
      have bound := le (round + count)
      rw [← Nat.add_assoc]
      split at step <;> omega

theorem kept_mono (positive : 0 < keepEvery) (round count : Nat) :
    round ⌈/⌉ keepEvery ≤ (round + count) ⌈/⌉ keepEvery :=
  (gc_smul_ceilDiv positive).monotone_l (Nat.le_add_right round count)

theorem builds (count : Nat) (held : hoard.Held length slab context heap machine entries spare)
    (paced : heap.Paced entries) (room : enough → 96 + 48 * (hoard.cells.length + count) ≤ slab.size) :
    (buildList context hoard.items.length hoard.list count).Yields heap machine
      (Step.Affords enough fun list after final => ∃ items later,
        items.length = hoard.items.length + count ∧
          ({ hoard with items, list } : Hoard).Held length slab context after final later spare ∧ after.Paced later)
      (Size.limit ≤ 32 * spare) := by
  induction count generalizing hoard heap machine entries with
  | zero => exact Step.yields_pure.mpr ⟨hoard.items, entries, rfl, held, paced⟩
  | succ count ih =>
      have few := held.length_items_le
      have number : Value.ofInt hoard.items.length = .ok (.fixnum hoard.items.length) :=
        if_pos ⟨by omega, by omega⟩
      have carRefers : (Value.fixnum hoard.items.length).Refers (· ∈ hoard.cells) := fun address found => by
        cases (Value.address?_fixnum _).symm.trans found
      rw [buildList, Step.yields_act_bind (by rw [number]; rfl)]
      refine (held.pairs paced carRefers held.list_refers (.inr (.inr rfl)) fun isEnough => ?_).followed ?_
      · have room := room isEnough
        omega
      rintro value after final ⟨later, start, rfl, more, paced, new, _⟩
      refine (ih (more.extend new) paced fun isEnough => ?_).afford (fun list after final built => ?_) id
      · have room := room isEnough
        simp only [Hoard.cells, List.map_cons, List.length_append, List.length_cons] at room ⊢
        omega
      · obtain ⟨items, later, counts, held⟩ := built
        exact ⟨items, later, by rw [counts, List.length_cons]; omega, held⟩

/-- Rounds keep the lists that they should, and drop the others. -/
theorem keeps (positive : 0 < keepEvery) (count : Nat) (whole : kept.length = round ⌈/⌉ keepEvery)
    (held : ({ kept } : Hoard).Held length slab context heap machine entries (length * (round - kept.length)))
    (paced : heap.Paced entries)
    (room : enough → 96 + 48 * ((round + count) ⌈/⌉ keepEvery * (length + 1) + length) ≤ slab.size) :
    (keepLists context length keepEvery round (kept.map Keepsake.list) count).Yields heap machine
      (Step.Affords enough fun lists after final => ∃ all later,
        lists = all.map Keepsake.list ∧ all.length = (round + count) ⌈/⌉ keepEvery ∧
          ({ kept := all } : Hoard).Held length slab context after final later
            (length * (round + count - all.length)) ∧ after.Paced later)
      (Size.limit ≤ 32 * (length * (round + count - (round + count) ⌈/⌉ keepEvery))) := by
  induction count generalizing round kept heap machine entries with
  | zero => exact Step.yields_pure.mpr ⟨kept, entries, rfl, whole, held, paced⟩
  | succ count ih =>
      obtain ⟨few, more⟩ := dropped_mono positive round (count + 1)
      have later : Size.limit ≤ 32 * (length * (round - kept.length)) → Size.limit ≤
          32 * (length * (round + (count + 1) - (round + (count + 1)) ⌈/⌉ keepEvery)) := fun overflows =>
        overflows.trans (Nat.mul_le_mul_left 32 (Nat.mul_le_mul_left length (whole ▸ more)))
      have next := ceilDiv_succ positive round
      have grows := kept_mono positive (round + 1) count
      have now : (Hoard.cells { kept }).length = kept.length * (length + 1) := held.length_cells rfl
      rw [← whole] at few next
      rw [keepLists]
      refine ((builds length held paced fun isEnough => ?_).afford (fun _ _ _ => id) later).followed ?_
      · refine Nat.le_trans ?_ (room isEnough)
        have among := Nat.mul_le_mul_right (length + 1) (kept_mono positive round (count + 1))
        rw [← whole] at among
        rw [now]
        omega
      rintro list after final ⟨items, today, counts, built, paced⟩
      have full : items.length = length := counts.trans (Nat.zero_add length)
      rw [← Nat.add_assoc, Nat.add_right_comm] at later room ⊢
      split
      -- This list is put on the spine that starts at the environment.
      · next isMultiple =>
        rw [if_pos isMultiple] at next
        rw [Step.yields_memory]
        refine ((built.pairs paced built.list_refers built.environment_refers (.inr (.inl rfl)) fun isEnough => ?_).afford
          (fun _ _ _ => id) later).followed ?_
        · refine Nat.lt_of_lt_of_le ?_ (room isEnough)
          rw [next] at grows
          have among := Nat.mul_le_mul_right (length + 1) grows
          have cells : Hoard.cells { kept, items, list } = Hoard.cells { kept } ++ items.map Prod.fst := by
            simp [Hoard.cells]
          rw [cells, List.length_append, List.length_map, full, now]
          rw [Nat.succ_mul] at among
          omega
        rintro value mid last ⟨_, start, rfl, granted, paced, new, same⟩
        rw [← same] at new
        rw [Step.yields_onMemory]
        have shelved := granted.shelve full new
        rw [← Nat.add_sub_add_right round 1 kept.length] at shelved
        refine ih ?_ shelved paced room
        exact next.symm
      -- This list is forgotten, so that its pairs count as dropped.
      · next other =>
        rw [if_neg other] at next
        have forgotten := built.forget
        rw [show length * (round - kept.length) + items.length = length * (round + 1 - kept.length) by
          rw [full, Nat.sub_add_comm few, Nat.mul_succ]] at forgotten
        refine ih ?_ forgotten paced room
        exact next.symm

/-- The end of the job tells what is kept, and what was freed. -/
theorem concludes (held : ({ kept } : Hoard).Held length slab context heap machine entries spare)
    (paced : heap.Paced entries) :
    (conclude context).Yields heap machine
      (Step.Affords enough fun report after final =>
        (∃ later, ({ kept } : Hoard).Held length slab context after final later spare) ∧
          report.counters.bytesFreed = 32 * spare ∧ report.counters.bytesFreed < Size.limit ∧
          report.totalSize = blockUnit * report.slabs + report.freeBytes + (48 + 32 * kept.length * (length + 1)))
      (Size.limit ≤ 32 * spare) := by
  have collects : (Step.call fun heap => do
      let (heap, swept) ← heap.collect context
      return (heap, .ok swept)).Yields heap machine
      (Step.Affords enough fun _ after final =>
        ∃ later, ({ kept } : Hoard).Held length slab context after final later spare ∧
          bytes later = 48 + 32 * (Hoard.cells { kept }).length ∧ after.counters.bytesFreed < Size.limit)
      (Size.limit ≤ 32 * spare) := by
    refine Step.yields_call ?_
    rcases held.collects paced rfl with ⟨answer, final, ran, later, left, taken⟩ | ⟨final, failed, overflows⟩
    · obtain ⟨same, _, counted⟩ := heap.answers_collectFrom_counts (some context) _ _ _ ran
      rw [Action.meets_bind_iff ran]
      exact .inl (Action.ensures_pure.mpr
        ⟨later, left, taken, by rw [same]; exact counted⟩)
    · exact .inr ⟨final, by rw [EStateM.run_bind, failed], overflows⟩
  refine collects.followed ?_
  rintro swept after final ⟨later, left, taken, counted⟩
  obtain ⟨tiling, accounted⟩ := left.accounted
  obtain ⟨free, measured, balance⟩ := accounted.balance
  rw [Step.yields_heap, Step.yields_memory, Step.yields_check_bind measured]
  have counts : _ = 48 + 32 * ((Hoard.cells { kept }).length + spare) := left.counts
  rw [taken] at counts
  rw [taken, left.length_cells rfl] at balance
  refine Step.yields_pure.mpr ⟨⟨later, left⟩, ?_, counted, ?_⟩
  · dsimp only
    omega
  · dsimp only at balance ⊢
    rw [balance, Nat.mul_assoc]

/-- What the job leaves. Every byte is accounted for: dropped lists were freed, and the context and the lists
that are kept take what is not free. The environment holds these lists, the newest one first, and each holds
the numbers below its length. -/
structure Churned (rounds listLength kept : Nat) (report : ChurnReport) (lists : List Value) (context : Context)
    (heap : Heap) (memory : Memory) : Prop where
  freed : report.counters.bytesFreed = 32 * listLength * (rounds - kept)
  free : report.totalSize = 16 * report.slabs + report.freeBytes + 48 + 32 * kept * (listLength + 1)
  count : lists.length = kept
  environment : heap.Spells memory lists (context.environment memory)
  lists : ∀ list ∈ lists, heap.Spells memory (countdown listLength) list

/-- What the hoard holds is what a program reads. -/
theorem spells_of_held (held : ({ kept } : Hoard).Held length slab context heap machine entries spare) :
    heap.Spells machine.memory (kept.map Keepsake.list) (context.environment machine.memory) ∧
      ∀ list ∈ kept.map Keepsake.list, heap.Spells machine.memory (countdown length) list := by
  obtain ⟨tiling, accounted⟩ := held.accounted
  have inUse {cell : Nat} (member : cell ∈ Hoard.cells { kept }) : Block.cell cell ∈ heap.blocks tiling :=
    accounted.records.mem_blocks_of_object (held.inUse _ (Stock.cell_mem member)) rfl
  constructor
  · have spelled := held.environment.spells accounted.consistent.tiled fun item member =>
      inUse (Hoard.mem_cells_shelf member)
    rwa [Hoard.shelf, List.map_map] at spelled
  · intro list listed
    obtain ⟨keepsake, isKept, rfl⟩ := List.mem_map.mp listed
    obtain ⟨spine, counts⟩ := held.lists keepsake isKept
    exact counts ▸ spine.spells accounted.consistent.tiled fun item member =>
      inUse (Hoard.mem_cells.mpr (.inl ⟨keepsake, isKept, .inr ⟨item, member, rfl⟩⟩))

/-- The job on a new heap leaves what it should, if it is not refused. It is not if all that it holds on to at
a time takes less than the slab by half. -/
theorem churns {settings : Settings} (rounds listLength keepEvery : Nat)
    (founds : (Heap.new settings .standard {}).run (.fresh placement) = .ok (.ok heap) machine)
    (single : heap.slabs = [slab]) :
    (Step.call (·.makeContext none) >>= churnKeeping rounds listLength keepEvery).Yields heap machine
      (Step.Affords (96 + 48 * (rounds ⌈/⌉ max keepEvery 1 * (listLength + 1) + listLength) ≤ slab.size)
        fun result _ final => Churned rounds listLength (rounds ⌈/⌉ max keepEvery 1)
          result.1 result.2.1 result.2.2.1 result.2.2.2 final.memory ∧ result.1.counters.bytesFreed < Size.limit)
      (Size.limit ≤ 32 * listLength * (rounds - rounds ⌈/⌉ max keepEvery 1)) := by
  have positive : 0 < max keepEvery 1 := by omega
  have starts := Hoard.Held.start listLength (Stock.Held.fresh_of_new founds) single fun
    (ample : 96 + 48 * (rounds ⌈/⌉ max keepEvery 1 * (listLength + 1) + listLength) ≤ slab.size) => by omega
  refine (starts.afford (fun _ _ _ => id) False.elim).followed ?_
  rintro context after final ⟨entries, held, paced⟩
  have empty : ([] : List Keepsake).length = 0 ⌈/⌉ max keepEvery 1 := (zero_ceilDiv _).symm
  have keeps := keeps positive rounds empty held paced (by rw [Nat.zero_add]; exact id)
  rw [Nat.zero_add, ← Nat.mul_assoc] at keeps
  refine keeps.followed ?_
  rintro _ after final ⟨all, later, rfl, counts, held, paced⟩
  rw [counts] at held
  refine ((concludes held paced).afford (fun _ _ _ => id) fun overflows => by rwa [Nat.mul_assoc]).followed ?_
  rintro report after final ⟨⟨later, held⟩, freed, countable, free⟩
  rw [Step.yields_heap]
  obtain ⟨environment, lists⟩ := spells_of_held held
  exact Step.yields_pure.mpr ⟨⟨by rw [freed, Nat.mul_assoc], by rw [free, counts, ← Nat.add_assoc, blockUnit],
    by rw [List.length_map, counts], environment, lists⟩, countable⟩

/-- How the job ends on a new heap: with what it should leave, or refused because the first slab is too small. -/
def Ends (placement : Placement) (settings : Settings) (rounds listLength keepEvery : Nat)
    (answer : Except HeapError (ChurnReport × List Value × Context × Heap)) (after : Heap) (final : Machine) : Prop :=
  ∃ heap slab machine,
    (Heap.new settings .standard {}).run (.fresh placement) = .ok (.ok heap) machine ∧ heap.slabs = [slab] ∧
    Step.Affords (96 + 48 * (rounds ⌈/⌉ max keepEvery 1 * (listLength + 1) + listLength) ≤ slab.size)
      (fun result _ final => Churned rounds listLength (rounds ⌈/⌉ max keepEvery 1)
        result.1 result.2.1 result.2.2.1 result.2.2.2 final.memory ∧ result.1.counters.bytesFreed < Size.limit)
      answer after final

theorem churn_meets (placement : Placement) (settings : Settings) (rounds listLength keepEvery : Nat) :
    (withHeap settings (churnKeeping rounds listLength keepEvery)).Meets (.fresh placement)
      (fun answer final => (∃ after, Ends placement settings rounds listLength keepEvery answer after final) ∨
        ∃ refusal, answer = .error refusal ∧
          (Heap.new settings .standard {}).run (.fresh placement) = .ok (.error refusal) final)
      fun _ => Size.limit ≤ 32 * listLength * (rounds - rounds ⌈/⌉ max keepEvery 1) := by
  refine withHeap_meets fun heap machine founds => ?_
  obtain ⟨slab, single⟩ := (Stock.Held.fresh_of_new founds).single
  exact (churns rounds listLength keepEvery founds single).weaken (fun _ _ _ ends =>
    ⟨heap, slab, machine, founds, single, ends⟩) id

/-- What the command prints, by how the job ends. -/
theorem runRequest_churn (placement : Placement) (settings : Settings) (rounds listLength keepEvery : Nat) :
    runRequest placement (.run settings (.churn rounds listLength keepEvery)) =
      match (withHeap settings (churnKeeping rounds listLength keepEvery)).run (.fresh placement) with
      | .ok (.ok result) _ => { code := 0, out := result.1.render }
      | .ok (.error refusal) _ => { code := 1, err := s!"Error: {refusal.message}\n" }
      | .error fault _ => { code := 101, err := s!"{fault.message}\n" } := by
  have erased : withHeap settings (churn rounds listLength keepEvery) =
      Except.map Prod.fst <$> withHeap settings (churnKeeping rounds listLength keepEvery) := by
    rw [← withHeap_map]
    exact congrArg (withHeap settings) (funext fun context => churn_eq rounds listLength keepEvery context)
  have run : runRequest placement (.run settings (.churn rounds listLength keepEvery)) =
      perform placement settings (churn rounds listLength keepEvery) fun report =>
        { code := 0, out := report.render } := rfl
  rw [run, perform, erased, map_eq_pure_bind, EStateM.run_bind]
  cases (withHeap settings (churnKeeping rounds listLength keepEvery)).run (.fresh placement) with
  | ok answer final => cases answer <;> rfl
  | error fault final => rfl

/-- Where all that the job holds on to fits into the first slab, with as much again for what lies between, it is
not refused. It fails if the lists that it drops take more bytes than can be counted. -/
theorem churn_ample {settings : Settings} (rounds listLength keepEvery : Nat)
    (founds : (Heap.new settings .standard {}).run (.fresh placement) = .ok (.ok heap) machine)
    (single : heap.slabs = [slab])
    (ample : 96 + 48 * (rounds ⌈/⌉ max keepEvery 1 * (listLength + 1) + listLength) ≤ slab.size) :
    if 32 * listLength * (rounds - rounds ⌈/⌉ max keepEvery 1) < Size.limit then
      (runRequest placement (.run settings (.churn rounds listLength keepEvery))).code = 0
    else runRequest placement (.run settings (.churn rounds listLength keepEvery)) =
      { code := 101, err := s!"{Fault.additionOverflow.message}\n" } := by
  rw [runRequest_churn]
  rcases churn_meets placement settings rounds listLength keepEvery with
    ⟨answer, final, ran, ⟨after, _, _, _, again, alsoSingle, ends⟩ | ⟨refusal, rfl, again⟩⟩ | ⟨final, failed, overflows⟩
  · cases founds.symm.trans again
    obtain rfl := List.singleton_inj.mp (single.symm.trans alsoSingle)
    cases answer with
    | error refusal => exact absurd ample ends.1
    | ok result =>
        have counted := ends.2
        rw [ends.1.freed] at counted
        rw [if_pos counted, ran]
  · cases founds.symm.trans again
  · rw [if_neg (Nat.not_lt.mpr overflows), failed]

/-- The churn job accounts for every byte, whatever the settings and its arguments are, and wherever its slabs
lie. -/
theorem churn_accounts (placement : Placement) (settings : Settings) (rounds listLength keepEvery : Nat) :
    (∃ report lists context heap final,
      (withHeap settings (churnKeeping rounds listLength keepEvery)).run (.fresh placement) =
        .ok (.ok (report, lists, context, heap)) final ∧
      runRequest placement (.run settings (.churn rounds listLength keepEvery)) = { code := 0, out := report.render } ∧
      Churned rounds listLength (rounds ⌈/⌉ max keepEvery 1) report lists context heap final.memory) ∨
    (∃ refusal : HeapError, runRequest placement (.run settings (.churn rounds listLength keepEvery)) =
      { code := 1, err := s!"Error: {refusal.message}\n" }) ∨
    (Size.limit ≤ 32 * listLength * (rounds - rounds ⌈/⌉ max keepEvery 1) ∧
      runRequest placement (.run settings (.churn rounds listLength keepEvery)) =
        { code := 101, err := s!"{Fault.additionOverflow.message}\n" }) := by
  rw [runRequest_churn]
  rcases churn_meets placement settings rounds listLength keepEvery with
    ⟨answer, final, ran, ⟨after, heap, slab, machine, _, _, ends⟩ | ⟨refusal, rfl, _⟩⟩ | ⟨final, failed, overflows⟩
  · cases answer with
    | error refusal => exact .inr (.inl ⟨refusal, by rw [ran]⟩)
    | ok result => exact .inl ⟨_, _, _, _, final, ran, by rw [ran], ends.1⟩
  · exact .inr (.inl ⟨refusal, by rw [ran]⟩)
  · exact .inr (.inr ⟨overflows, by rw [failed]⟩)

/-- One list of a single pair after the other is dropped, for longer than their bytes can be counted. -/
theorem churn_uncountable :
    run .descending ["churn", "--rounds", "9223372036854775808", "--list-len", "1", "--keep-every", "18446744073709551615"] =
      { code := 101, err := s!"{Fault.additionOverflow.message}\n" } := by
  have job : readJob? "churn" ["--rounds", "9223372036854775808", "--list-len", "1", "--keep-every",
      "18446744073709551615"] = some (.churn (2 ^ 63) 1 (2 ^ 64 - 1)) := by
    decide +kernel
  have request : readRequest? ["churn", "--rounds", "9223372036854775808", "--list-len", "1", "--keep-every",
      "18446744073709551615"] = some (.run { initialSize := 65536 } (.churn (2 ^ 63) 1 (2 ^ 64 - 1))) :=
    congrArg (Option.map (Request.run (settingsOf {}))) job
  have founds : (Heap.new { initialSize := 65536 } .standard {}).passes (.fresh .descending) (fun answer =>
      answer.toOption.any fun heap => heap.slabs.map Slab.size = [65536]) = true := by
    decide +kernel
  obtain ⟨answer, machine, ran, sized⟩ := Action.ensures_of_passes founds
  cases answer with
  | error refusal => cases sized
  | ok heap =>
      obtain ⟨slab, single, size⟩ := List.map_eq_singleton_iff.mp (of_decide_eq_true sized)
      have kept : 2 ^ 63 ⌈/⌉ max (2 ^ 64 - 1) 1 = 1 := by
        rw [Nat.ceilDiv_eq_add_pred_div]
        decide
      have ends := churn_ample (2 ^ 63) 1 (2 ^ 64 - 1) ran single (by rw [kept]; omega)
      rw [run, request]
      rwa [kept, if_neg (by decide)] at ends

/-- The lists of two rounds are dropped, and those of the two others fill the heap. -/
example : runRequest .descending (.run { initialSize := 256, maxSize := 256 } (.churn 4 2 3)) = { code := 0, out :=
    "collections:   3\nbytes freed:   128\ngrowths:       0\nlast sweep:    0 bytes, largest run 0\n" ++
      "heap:          256 bytes in 1 slab(s), 0 free\n" } := by
  decide +kernel

end SlabHeap.Command
