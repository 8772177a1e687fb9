import SlabHeap.Command
import SlabHeap.Proofs.Conservation
import SlabHeap.Proofs.Forking
import SlabHeap.Proofs.Visits

namespace SlabHeap

/-! What the fork job ends with.

A survey counts what is in a ring, `Ring.Held.surveys`, and a collection frees nothing of it,
`Ring.Held.collects_nothing`. So the job reports a copy as large as its source, which is self-contained,
whenever it reports anything. Whether it does depends on the size of the first slab: a heap that grew cannot be
forked.
-/

open SlabHeap.Action Block Heap Command

namespace Ring.Held

variable {ring : Ring} {context : Context} {heap : Heap} {machine : Machine} {entries : List Block} {spare : Nat}
  {next : Value} {slab : Slab}

/-- A survey of a closed ring counts what is in it. -/
theorem surveys (held : ring.Held context heap machine entries spare (.reference ring.head)) :
    ∃ final, survey heap machine.memory (.reference ring.head) = .ok final ∧
      final.references = ring.cells.length ∧ final.escaped = 0 :=
  Survey.survey_eq (held.strung.closed held.distinct held.started (fun _ => held.aligned) fun _ member =>
    (Option.filter_eq_some_iff.mp (held.objectOf?_cell member rfl)).1)

/-- Where the ring is all that a heap gave out, a collection frees nothing. -/
theorem collects_nothing (held : ring.Held context heap machine entries 0 next) (paced : heap.Paced entries) :
    (heap.collect context).Ensures machine fun answer _ => answer.2.sumFreed = 0 := by
  rcases held.collects paced (fun _ member _ known => held.strong member known)
    (held.reachable List.mem_cons_self) with collected | ⟨_, _, overflows⟩
  · refine collected.weaken fun answer final => ?_
    rintro ⟨counted, later, left, _⟩
    have counts : _ = 48 + 32 * (ring.cells.length + 0) := counted ▸ left.counts
    have least : 48 + 32 * ring.cells.length ≤ _ := left.bytes_le left.inUse
    dsimp only [Heap.counted] at counts
    omega
  · exact absurd overflows (by decide)

/-- A slab holds its ring, and the context. -/
theorem size_le (held : ring.Held context heap machine entries spare next) (single : heap.slabs = [slab]) :
    64 + 32 * ring.cells.length ≤ slab.size := by
  obtain ⟨tiling, accounted⟩ := held.accounted
  obtain ⟨free, _, balance⟩ := accounted.balance
  have least : 48 + 32 * ring.cells.length ≤ _ := held.bytes_le held.inUse
  simp only [totalSize, single, List.foldr_cons, List.foldr_nil, List.length_singleton, blockUnit] at balance
  omega

end Ring.Held

/-- A heap that has grown is not forked. -/
theorem Heap.Frugal.fork_grown {heap : Heap} {machine founding : Machine} {entries : List Block} {slab : Slab}
    {enough : Prop} (frugal : heap.Frugal machine entries slab founding enough) (grown : heap.slabs ≠ [slab])
    (context : Context) (keepOwnership : Bool) :
    (heap.fork context keepOwnership).run machine = .ok (.error .nonContiguousHeap) machine := by
  have more : heap.singleSlab? = .error .nonContiguousHeap := by
    rw [singleSlab?]
    split
    · next other only =>
      obtain ⟨rest, joined⟩ := frugal.slabs
      rw [only] at joined grown
      obtain ⟨rfl, rfl⟩ := List.cons.inj joined
      exact absurd rfl grown
    · rfl
  rw [Heap.fork, run_bind (show EStateM.run Action.memory machine = .ok machine.memory machine from rfl), checkSource,
    more]
  rfl

/-- No heap is founded with wrong settings, or without pages for its first slab. -/
theorem Heap.answers_new_refusal (settings : Settings) (shapes : ShapeTable) (features : Features) :
    (Heap.new settings shapes features).Answers fun answer => ∀ refusal, answer = .error refusal →
      (∃ reason, refusal = .invalidSettings reason) ∨ ∃ size, refusal = .reservation size := by
  unfold Heap.new
  split
  · next reason _ => exact answers_pure fun refusal same => .inl ⟨reason, (Except.error.inj same).symm⟩
  · split
    · exact answers_pure fun refusal same => .inl ⟨_, (Except.error.inj same).symm⟩
    · refine answers_after fun created => ?_
      cases created with
      | none => exact answers_pure fun refusal same => .inr ⟨_, (Except.error.inj same).symm⟩
      | some slab => exact answers_after fun heap => answers_pure fun refusal same => nomatch same

namespace Command

variable {placement : Placement} {heap : Heap} {machine : Machine} {slab : Slab}

/-- What the fork job ends with for so many nodes, on a machine where the first slab was made. -/
inductive ForkEnd (nodes : Nat) (slab : Slab) (machine : Machine) : Except HeapError ForkReport → Prop
  | reports (enough : 64 * nodes + 32 ≤ slab.size) (room : machine.Room slab.size) :
      ForkEnd nodes slab machine (.ok ⟨2 * nodes - 1, 2 * nodes - 1, 0, 0⟩)
  | crowded (enough : 64 * nodes + 32 ≤ slab.size) (full : ¬ machine.Room slab.size) :
      ForkEnd nodes slab machine (.error (.reservation slab.size))
  | exhausted (small : slab.size < 64 * nodes + 32) (bytes : Nat) :
      ForkEnd nodes slab machine (.error (.outOfMemory bytes))
  | grown (small : slab.size < 64 * nodes + 32) :
      ForkEnd nodes slab machine (.error .nonContiguousHeap)

theorem ForkEnd.of_refused {α : Type} {nodes : Nat} {post : α → Heap → Machine → Prop} {refusal : HeapError}
    {after : Heap} {final : Machine}
    (refused : Step.Affords (64 * nodes + 32 ≤ slab.size) post (.error refusal) after final) :
    ForkEnd nodes slab machine (.error refusal) := by
  obtain ⟨small, bytes, rfl⟩ := refused
  exact .exhausted (Nat.lt_of_not_le small) bytes

/-- The job on a new heap. -/
theorem forks (nodes : Nat) (keepOwnership : Bool) (fresh : Stock.Held.Fresh heap machine)
    (single : heap.slabs = [slab]) (named : Machine.heapIdentity machine.identities < Size.limit) :
    (Step.call (·.makeContext none) >>= fork nodes keepOwnership).Yields heap machine
      (fun answer _ _ => ForkEnd (max nodes 1) slab machine answer) False := by
  have positive : 0 < max nodes 1 := by omega
  have least : 64 * max nodes 1 + 32 ≤ slab.size → 64 ≤ slab.size := by omega
  refine (Stock.Held.affords_context fresh single least).bind (fun _ _ _ => ForkEnd.of_refused) ?_
  rintro context after final ⟨entries, held, _, frugal⟩
  refine (Ring.builds positive held frugal id).bind (fun _ _ _ => ForkEnd.of_refused) ?_
  rintro _ after final ⟨ring, entries, rfl, held, frugal, counts⟩
  by_cases only : after.slabs = [slab]
  · have enough : 64 * max nodes 1 + 32 ≤ slab.size := by
      have least := held.size_le only
      omega
    obtain ⟨_, _, steady⟩ := frugal.compact enough
    have room : final.Room slab.size ↔ machine.Room slab.size := by
      rw [Machine.Room, steady.pages]
      rfl
    obtain ⟨_, last, ran, ⟨full, rfl⟩ | ⟨isRoom, copy, moved, more, left, rfl, source, target, paced, same⟩⟩ :=
      held.fork frugal.paced only (steady.identities ▸ named) keepOwnership
    · exact Step.yields_call_refused (run_bind ran) (.crowded enough (room.not.mp full))
    · obtain ⟨ofSource, surveysSource, referencesSource, _⟩ := source.surveys
      obtain ⟨ofCopy, surveysCopy, referencesCopy, escapedCopy⟩ := target.surveys
      rw [← target.environment] at surveysCopy
      obtain ⟨⟨_, swept⟩, ended, collects, unfreed⟩ := target.collects_nothing paced
      rw [Step.yields_call_bind (run_bind ran), Step.yields_heap, Step.yields_memory,
        Step.yields_check_bind surveysSource, Step.yields_check_bind surveysCopy, Step.yields_act_bind collects,
        Step.yields_pure]
      rw [referencesSource, referencesCopy, escapedCopy, unfreed, same, counts]
      exact .reports enough (room.mp isRoom)
  · exact Step.yields_call_refused (run_bind (frugal.fork_grown only context keepOwnership))
      (.grown (Nat.lt_of_not_le fun enough => only (frugal.compact enough).1))

/-- The job ends on a new heap, if one could be made. -/
theorem fork_ends (placement : Placement) (settings : Settings) (nodes : Nat) (keepOwnership : Bool) :
    (withHeap settings (fork nodes keepOwnership)).Ensures (.fresh placement) fun answer final =>
      (∃ heap slab machine,
        (Heap.new settings .standard {}).run (.fresh placement) = .ok (.ok heap) machine ∧ heap.slabs = [slab] ∧
        ForkEnd (max nodes 1) slab machine answer) ∨
      ∃ refusal, answer = .error refusal ∧
        (Heap.new settings .standard {}).run (.fresh placement) = .ok (.error refusal) final := by
  have yields (heap : Heap) (machine : Machine)
      (founds : (Heap.new settings .standard {}).run (.fresh placement) = .ok (.ok heap) machine) :
      (Step.call (·.makeContext none) >>= fork nodes keepOwnership).Yields heap machine (fun answer _ _ =>
        ∃ heap slab machine,
          (Heap.new settings .standard {}).run (.fresh placement) = .ok (.ok heap) machine ∧ heap.slabs = [slab] ∧
          ForkEnd (max nodes 1) slab machine answer) False := by
    have fresh := Stock.Held.fresh_of_new founds
    obtain ⟨slab, single⟩ := fresh.single
    have named : Machine.heapIdentity machine.identities < Size.limit := by
      obtain ⟨_, same, _⟩ | ⟨_, made, _, _, rfl⟩ := Heap.ensures_new.of_run founds
      · cases same
      · exact show Machine.heapIdentity 1 < Size.limit by decide
    exact (forks nodes keepOwnership fresh single named).weaken
      (fun _ _ _ ends => ⟨heap, slab, machine, founds, single, ends⟩) id
  rcases withHeap_meets yields with ends | ⟨_, _, never⟩
  · exact ends.weaken fun answer final => Or.imp (fun ⟨_, ends⟩ => ends) id
  · exact never.elim

/-- The fork job reports a copy that is self-contained and as large as its source if the ring and the context fit
into the first slab, and there is room for another slab. Otherwise it is refused. -/
theorem fork_reports (placement : Placement) (settings : Settings) (nodes : Nat) (keepOwnership : Bool) :
    (∃ heap slab machine,
      (Heap.new settings .standard {}).run (.fresh placement) = .ok (.ok heap) machine ∧ heap.slabs = [slab] ∧
      (64 * max nodes 1 + 32 ≤ slab.size ∧ machine.Room slab.size ∧
          runRequest placement (.run settings (.fork nodes keepOwnership)) =
            { code := 0, out := (ForkReport.mk (2 * max nodes 1 - 1) (2 * max nodes 1 - 1) 0 0).render } ∨
        64 * max nodes 1 + 32 ≤ slab.size ∧ ¬ machine.Room slab.size ∧
          runRequest placement (.run settings (.fork nodes keepOwnership)) =
            { code := 1, err := s!"Error: {(HeapError.reservation slab.size).message}\n" } ∨
        slab.size < 64 * max nodes 1 + 32 ∧
          ∃ refusal : HeapError, (refusal = .nonContiguousHeap ∨ ∃ bytes, refusal = .outOfMemory bytes) ∧
            runRequest placement (.run settings (.fork nodes keepOwnership)) =
              { code := 1, err := s!"Error: {refusal.message}\n" })) ∨
    ∃ (refusal : HeapError) (machine : Machine),
      (Heap.new settings .standard {}).run (.fresh placement) = .ok (.error refusal) machine ∧
        ((∃ reason, refusal = .invalidSettings reason) ∨ ∃ size, refusal = .reservation size) ∧
        runRequest placement (.run settings (.fork nodes keepOwnership)) =
          { code := 1, err := s!"Error: {refusal.message}\n" } := by
  have run : runRequest placement (.run settings (.fork nodes keepOwnership)) =
      perform placement settings (fork nodes keepOwnership) reportFork := rfl
  rw [run, perform]
  obtain ⟨answer, final, ran, ⟨heap, slab, machine, founds, single, ends⟩ | ⟨refusal, rfl, founds⟩⟩ :=
    fork_ends placement settings nodes keepOwnership
  · rw [ran]
    refine .inl ⟨heap, slab, machine, founds, single, ?_⟩
    cases ends with
    | reports enough room => exact .inl ⟨enough, room, by simp [reportFork, ForkReport.selfContained]⟩
    | crowded enough full => exact .inr (.inl ⟨enough, full, rfl⟩)
    | exhausted small bytes => exact .inr (.inr ⟨small, _, .inr ⟨bytes, rfl⟩, rfl⟩)
    | grown small => exact .inr (.inr ⟨small, _, .inl rfl, rfl⟩)
  · rw [ran]
    exact .inr ⟨refusal, final, founds, answers_new_refusal settings .standard {} _ _ _ founds refusal rfl, rfl⟩

/-- A ring of three nodes and its context fill a slab of 224 bytes. -/
example : runRequest .descending (.run { initialSize := 224 } (.fork 3 false)) = { code := 0, out :=
    "source references: 5\ncopy references:   5\nescaping the copy: 0\ncopy collection freed 0 bytes\n" } := by
  decide +kernel

/-- A slab that takes more than half of all pages leaves no room for its copy, however small the ring. -/
theorem fork_crowded : ∃ heap slab machine,
    (Heap.new { initialSize := 70000000000000 } .standard {}).run (.fresh .descending) = .ok (.ok heap) machine ∧
      heap.slabs = [slab] ∧ 64 * max 1 1 + 32 ≤ slab.size ∧
      run .descending ["--initial-size", "70000000000000", "fork", "--nodes", "1"] =
        { code := 1, err := "Error: failed to reserve 70000000000000 bytes for a heap slab\n" } := by
  have founds : (Heap.new { initialSize := 70000000000000 } .standard {}).passes (.fresh .descending) (fun answer =>
      answer.toOption.any fun heap => heap.slabs.map Slab.size = [70000000000000]) = true := by
    decide +kernel
  have refused : run .descending ["--initial-size", "70000000000000", "fork", "--nodes", "1"] =
      { code := 1, err := "Error: failed to reserve 70000000000000 bytes for a heap slab\n" } := by
    decide +kernel
  obtain ⟨answer, machine, ran, sized⟩ := ensures_of_passes founds
  cases answer with
  | error refusal => cases sized
  | ok heap =>
      obtain ⟨slab, single, size⟩ := List.map_eq_singleton_iff.mp (of_decide_eq_true sized)
      exact ⟨heap, slab, machine, ran, single, by omega, refused⟩

end Command

end SlabHeap
