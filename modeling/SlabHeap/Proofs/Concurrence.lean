import SlabHeap.Proofs.Agreement
import SlabHeap.Proofs.Sweep

namespace SlabHeap

/-! Walks and sweeps that concur, whether or not they look for corruption.

In a slab that is divided into valid objects, looking at an object finds nothing. `Heap.concurs_foldAll` is the
rule for walks, and `Heap.concurs_sweep` says that sweeps come to the same end.
-/

open SlabHeap.Action Block FreeList

namespace Action

variable {α β : Type} {terms : Terms} {action first : Action α} {other second : Action β}
  {post : α → β → Machine → Prop} {machine image : Machine}

theorem Concurs.of_runs (same : action.run machine = first.run machine)
    (alsoSame : other.run image = second.run image) (concurs : first.Concurs terms post second machine image) :
    action.Concurs terms post other machine image := by
  cases concurs with
  | answers ran otherRan holds agrees => exact .answers (same.trans ran) (alsoSame.trans otherRan) holds agrees
  | fails failed otherFailed agrees => exact .fails (same.trans failed) (alsoSame.trans otherFailed) agrees

theorem deaf_record {event : Event} (harmless : event.alarm? = none) : Deaf (record event) :=
  fun _ _ _ agrees => .answers rfl rfl rfl (agrees.logging event fun _ => harmless)

theorem concurs_reportBadObject {object : Nat} (agrees : machine.Agrees terms image) (calm : terms.alarms = none) :
    (reportBadObject object).Concurs terms (fun _ _ final => machine.Quiet final) (reportBadObject object)
      machine image := by
  have report : reportBadObject object = memory >>= fun memory => note (.badObject object (memory.tag object)) := rfl
  rw [report]
  refine .after (show memory.run machine = .ok machine.memory machine from rfl)
    (show memory.run image = .ok image.memory image from rfl) ?_
  rw [agrees.memory]
  refine .answers rfl rfl (machine.quiet_logging _) (agrees.logging _ fun asked => ?_)
  rw [calm] at asked
  cases asked

theorem deaf_finalize (shapes : ShapeTable) (object : Nat) : Deaf (finalize shapes object) := by
  refine deaf_memory.bind fun memory => ?_
  dsimp only
  split
  · exact (deaf_record rfl).ite (deaf_pure ())
  · exact deaf_pure ()

theorem deaf_release (slab : Slab) (cursor size before after : Nat) :
    Deaf (slab.release cursor size before after) := by
  have touches {condition : Prop} [Decidable condition] {check : Except Fault Nat} {limit : Nat}
      {next : Bool → Action (Nat × Nat)} (rest : ∀ joins, (next joins).Deaf) :
      Deaf (if condition then pure false >>= next
        else liftM check >>= fun stop => pure (decide (stop = limit)) >>= next) := by
    refine Deaf.ite ((deaf_pure false).bind rest) ?_
    exact (deaf_check check).bind fun stop => (deaf_pure _).bind rest
  have grows {joins : Bool} {check : Except Fault Nat} {run : Nat} {next : Nat → Action (Nat × Nat)}
      (rest : ∀ run, (next run).Deaf) :
      Deaf (if joins = true then liftM check >>= next else pure run >>= next) :=
    Deaf.ite ((deaf_check check).bind rest) ((deaf_pure run).bind rest)
  have answer {change : Memory → Memory} {answer : Nat × Nat} :
      Deaf (onMemory change >>= fun _ => pure answer) :=
    (deaf_onMemory change).bind fun _ => deaf_pure answer
  refine deaf_memory.bind fun memory => touches fun joinsAfter => touches fun joinsBefore => ?_
  apply Deaf.ite
  · refine (deaf_check _).bind fun run => grows fun run => ?_
    refine (deaf_check _).bind fun stop => ?_
    exact Deaf.ite ((deaf_onMemory _).bind fun _ => answer) answer
  · refine grows fun run => (deaf_onMemory _).bind fun _ => ?_
    exact (deaf_onMemory _).bind fun _ => (deaf_check _).bind fun stop => deaf_pure _

end Action

/-- Looking at a valid object that ends before the next free block finds nothing. -/
theorem Scrutiny.run_inspect {scrutiny : Scrutiny} {object size free : Nat} {machine : Machine}
    (valid : (machine.memory.header object).isValid = true) (sum : object + size < Size.limit)
    (clear : free = 0 ∨ object + size ≤ free) : (scrutiny.inspect object size free).run machine = .ok () machine := by
  unfold inspect
  by_cases enabled : scrutiny.enabled = true
  · rw [if_pos enabled, run_bind (show memory.run machine = .ok machine.memory machine from rfl)]
    dsimp only
    rw [if_pos valid]
    by_cases none : free = 0
    · simp only [none, ne_eq, not_true_eq_false, if_false]
      rfl
    · have behind : ¬ free < object + size := by omega
      simp only [ne_eq, none, not_false_eq_true, if_true, Size.add_eq_ok sum, Action.check_ok, pure_bind, behind,
        if_false]
      rfl
  · rw [if_neg enabled]
    rfl

namespace Slab

section Walks

variable {σ : Type} {terms : Terms} {slab : Slab} {shapes : ShapeTable} {scrutiny otherScrutiny : Scrutiny}
  {visit otherVisit : σ → Nat → Action σ} {blocks : List Block} (Inv : σ → List Block → Machine → Prop)
  (layout : ∀ state rest machine, Inv state rest machine → slab.Layout shapes machine.memory blocks)
  (valid : ∀ state block rest machine, Inv state (block :: rest) machine → block :: rest <:+ blocks →
    block.kind = .object → (machine.memory.header block.start).isValid = true)
  (quiet : ∀ state rest machine after, Inv state rest machine → machine.Quiet after → Inv state rest after)
  (passed : ∀ state block rest machine, Inv state (block :: rest) machine →
    block :: rest <:+ blocks → block.kind ≠ .object → Inv state rest machine)
  (visited : ∀ state block rest machine image, Inv state (block :: rest) machine →
    block :: rest <:+ blocks → block.kind = .object → machine.Agrees terms image →
      (visit state block.start).Concurs terms (fun state answer final => answer = state ∧ Inv state rest final)
        (otherVisit state block.start) machine image)
  (calm : terms.alarms.isSome → ∀ block ∈ blocks, block.kind ≠ .bare)

include layout valid quiet passed visited calm

theorem concurs_foldFrom {cursor free bound : Nat} {done rest : List Block} {state : σ} {machine image : Machine}
    (walked : slab.Walked done rest cursor free) (split : blocks = done ++ rest) (enough : rest.length < bound)
    (holds : Inv state rest machine) (agrees : machine.Agrees terms image) :
    (slab.foldFrom shapes scrutiny visit cursor free state bound).Concurs terms
      (fun state answer final => answer = state ∧ Inv state [] final)
      (slab.foldFrom shapes otherScrutiny otherVisit cursor free state bound) machine image := by
  induction rest generalizing cursor free bound done state machine image with
  | nil =>
      cases bound with
      | zero => simp at enough
      | succ bound => exact .answers walked.run_end walked.run_end ⟨rfl, holds⟩ agrees
  | cons block rest ih =>
      cases bound with
      | zero => simp at enough
      | succ bound =>
          have suffix : block :: rest <:+ blocks := ⟨done, split.symm⟩
          have laid := split ▸ layout _ _ _ holds
          have alsoLaid : slab.Layout shapes image.memory (done ++ block :: rest) := agrees.memory ▸ laid
          have member : block ∈ done ++ block :: rest := List.mem_append_right _ List.mem_cons_self
          have bounds := laid.bounds member
          -- Wherever the walk goes on, it does so with the same arguments in both runs.
          have onward {state : σ} {after later : Machine} (holds : Inv state rest after)
              (agrees : after.Agrees terms later) :
              (slab.foldFrom shapes scrutiny visit block.stop (firstOr 0 (frees (block :: rest))) state
                bound).Concurs terms (fun state answer final => answer = state ∧ Inv state [] final)
                  (slab.foldFrom shapes otherScrutiny otherVisit block.stop (firstOr 0 (frees (block :: rest))) state
                    bound) after later :=
            ih walked.pass (by rw [split, List.append_assoc, List.singleton_append]) (by simpa using enough) holds
              agrees
          refine .of_runs (walked.run_cons laid) (walked.run_cons alsoLaid) ?_
          unfold meet
          cases kind : block.kind with
          | free => exact onward (passed _ _ _ _ holds suffix (by simp [kind])) agrees
          | bare =>
              -- Reports of bare storage differ, which matters only where alarms are compared.
              have unasked : terms.alarms = none := by
                by_contra asked
                exact calm (Option.isSome_iff_ne_none.mpr asked) block (split ▸ member) kind
              simp only [bind_assoc, pure_bind]
              refine (concurs_reportBadObject agrees unasked).bind fun _ _ after later same agrees => ?_
              exact onward (passed _ _ _ _ (quiet _ _ _ _ holds same) suffix (by simp [kind])) agrees
          | object =>
              have sound := valid _ _ _ _ holds suffix kind
              obtain ⟨positive, _⟩ := laid.cursor_bounds walked.behind
              obtain ⟨_, behind⟩ := Layout.next_free_behind positive walked.ahead (by simp [kind])
              simp only [bind_assoc]
              refine .after (Scrutiny.run_inspect sound (by omega) behind)
                (Scrutiny.run_inspect (agrees.memory ▸ sound) (by omega) behind) ?_
              refine (visited _ _ _ _ _ holds suffix kind agrees).bind ?_
              rintro state _ after later ⟨rfl, holds⟩ agrees
              exact onward holds agrees

theorem concurs_foldObjects {state : σ} {machine image : Machine} (holds : Inv state blocks machine)
    (agrees : machine.Agrees terms image) :
    (slab.foldObjects shapes scrutiny visit state).Concurs terms
      (fun state answer final => answer = state ∧ Inv state [] final)
      (slab.foldObjects shapes otherScrutiny otherVisit state) machine image := by
  have laid := layout _ _ _ holds
  refine .after (show memory.run machine = .ok machine.memory machine from rfl)
    (show memory.run image = .ok image.memory image from rfl) ?_
  rw [agrees.memory]
  exact concurs_foldFrom Inv layout valid quiet passed visited calm laid.walked rfl laid.length_lt holds agrees

end Walks

section Sweeps

variable {terms : Terms} {slab : Slab} {shapes : ShapeTable} {scrutiny otherScrutiny : Scrutiny}
  {block run : Block} {behind rest others ahead : List Block} {stats : SweepStats} {machine image final : Machine}
  {origin memory : Memory} {cursor before bound : Nat}

/-- A sweep has got so far: the slab is divided, the objects ahead are valid, and nothing outside of the slab has
changed since it began. -/
structure Pending (slab : Slab) (shapes : ShapeTable) (behind rest : List Block) (origin memory : Memory) : Prop where
  layout : slab.Layout shapes memory (behind.reverse ++ rest)
  valid : ∀ block ∈ rest, block.kind = .object → (memory.header block.start).isValid = true
  outside : ∀ address, address < slab.start ∨ slab.stop ≤ address → memory.read address = origin.read address

namespace Pending

theorem pass (pending : slab.Pending shapes behind (block :: rest) origin memory) :
    slab.Pending shapes (block :: behind) rest origin memory where
  layout := by simpa using pending.layout
  valid other inRest := pending.valid other (List.mem_cons_of_mem _ inRest)
  outside := pending.outside

theorem unmark (pending : slab.Pending shapes behind (block :: rest) origin memory) (isObject : block.kind = .object) :
    slab.Pending shapes (block :: behind) rest origin
      (memory.setHeader block.start (memory.header block.start).unmark) := by
  have layout := pending.layout
  have member : block ∈ behind.reverse ++ block :: rest := by simp
  obtain ⟨lower, inside, large, _, aligned, _⟩ := layout.bounds member
  refine ⟨?_, fun other inRest alsoObject => ?_, fun address out => ?_⟩
  · exact pending.pass.layout.setHeader (List.mem_append_left _ (by simp)) (by simp [isObject]) rfl
  · have otherMember : other ∈ behind.reverse ++ block :: rest :=
      List.mem_append_right _ (List.mem_cons_of_mem _ inRest)
    have distinct : other ≠ block := layout.tiles.ne_of_mem (List.mem_append_right _ inRest)
    have kept := layout.kept_setHeader member otherMember distinct (memory.header block.start).unmark
    rw [Memory.header, kept other.start (layout.tiles.start_covers otherMember)]
    exact pending.pass.valid other inRest alsoObject
  · rw [Memory.read_setHeader (by omega) (by omega)]
    exact pending.outside address out

theorem release (pending : slab.Pending shapes behind (block :: rest) origin machine.memory)
    (released : slab.Released shapes machine final behind block rest run others ahead) :
    slab.Pending shapes (run :: others) ahead origin final.memory := by
  refine ⟨released.layout, fun other inRest isObject => ?_, fun address out => ?_⟩
  · have kept := released.untouched.blocks other (List.mem_append_right _ inRest) (by simp [isObject])
    rw [Memory.header, kept other.start (released.layout.tiles.start_covers (List.mem_append_right _ inRest))]
    exact pending.pass.valid other (released.suffix.mem inRest) isObject
  · rw [released.untouched.outside address out]
    exact pending.outside address out

/-- One step of sweeps of valid objects that both see the same blocks ahead: the cases are those of `clear`. -/
theorem concurs_clear (pending : slab.Pending shapes behind (block :: rest) origin machine.memory)
    (sweeping : slab.Sweeping behind.reverse (block :: rest) cursor before)
    (calm : terms.alarms.isSome → block.kind ≠ .bare) (agrees : machine.Agrees terms image) :
    (slab.clear shapes scrutiny stats block (lastOr slab.start (frees behind.reverse))
        (firstOr 0 (frees (block :: rest)))).Concurs terms
      (fun answer also final => also = answer ∧ ∃ passed further, further <:+ rest ∧
        slab.Pending shapes passed further origin final.memory ∧
          slab.Sweeping passed.reverse further answer.1 (lastOr slab.start (frees behind.reverse)))
      (slab.clear shapes otherScrutiny stats block (lastOr slab.start (frees behind.reverse))
        (firstOr 0 (frees (block :: rest)))) machine image := by
  have layout := pending.layout
  have bounds := layout.bounds (show block ∈ behind.reverse ++ block :: rest by simp)
  obtain ⟨positive, _⟩ := layout.cursor_bounds sweeping.behind
  have passed : slab.Sweeping (block :: behind).reverse rest block.stop
      (lastOr slab.start (frees behind.reverse)) := by
    rw [List.reverse_cons]
    exact sweeping.pass
  unfold clear
  cases kind : block.kind with
  | free => exact .pure ⟨rfl, _, _, List.suffix_refl _, pending.pass, passed⟩ agrees
  | bare =>
      -- Reports of bare storage differ, which matters only where alarms are compared.
      have unasked : terms.alarms = none := by
        by_contra asked
        exact calm (Option.isSome_iff_ne_none.mpr asked) kind
      refine (concurs_reportBadObject agrees unasked).bind fun _ _ mid later quiet agrees => ?_
      exact .pure ⟨rfl, _, _, List.suffix_refl _, quiet.memory ▸ pending.pass, passed⟩ agrees
  | object =>
      have sound := pending.valid block List.mem_cons_self kind
      obtain ⟨_, behindFree⟩ := Layout.next_free_behind positive sweeping.ahead (by simp [kind])
      refine .after (show memory.run machine = .ok machine.memory machine from rfl)
        (show memory.run image = .ok image.memory image from rfl) ?_
      refine .after (Scrutiny.run_inspect sound (by omega) behindFree)
        (Scrutiny.run_inspect (agrees.memory ▸ sound) (by omega) behindFree) ?_
      rw [agrees.memory]
      cases marked : (machine.memory.header block.start).isMarked with
      | true =>
          simp only [if_true]
          have ran (start : Machine) : (onHeader block.start Header.unmark).run start =
            .ok () (start.withMemory (start.memory.setHeader block.start
              (start.memory.header block.start).unmark)) := rfl
          refine .after (ran machine) (ran image) ?_
          exact .pure ⟨rfl, _, _, List.suffix_refl _, pending.unmark kind, passed⟩
            (agrees.memory ▸ agrees.withMemory _)
      | false =>
          have noneListed : frees (block :: rest) = frees rest := by simp [frees, kind]
          simp only [Bool.false_eq_true, if_false, noneListed]
          refine (deaf_finalize shapes block.start).before agrees (ensures_finalize kind) ?_
          rintro _ mid later ⟨quiet, _⟩ agrees
          cases Size.add stats.sumFreed block.size with
          | error fault => exact .fails rfl rfl agrees
          | ok sumFreed =>
              simp only [Action.check_ok, pure_bind]
              refine (deaf_release slab _ _ _ _).before agrees
                ((quiet.memory ▸ layout).ensures_release (by simp [kind])) ?_
              rintro _ after later ⟨run, others, remaining, rfl, released, left, skipped, split, node⟩ agrees
              have released := released.quiet quiet
              exact .pure ⟨rfl, _, _, released.suffix, pending.release released, released.sweeping split node⟩ agrees

/-- Sweeps of valid objects that both see the same blocks ahead come to the same end. -/
theorem concurs_sweepFrom (pending : slab.Pending shapes behind rest origin machine.memory)
    (sweeping : slab.Sweeping behind.reverse rest cursor before) (enough : rest.length < bound)
    (calm : terms.alarms.isSome → ∀ block ∈ rest, block.kind ≠ .bare) (agrees : machine.Agrees terms image) :
    (slab.sweepFrom shapes scrutiny cursor before stats bound).Concurs terms
      (fun stats answer final => answer = stats ∧ ∀ address, address < slab.start ∨ slab.stop ≤ address →
        final.memory.read address = origin.read address)
      (slab.sweepFrom shapes otherScrutiny cursor before stats bound) machine image := by
  induction bound generalizing cursor behind rest before stats machine image with
  | zero => simp at enough
  | succ bound ih =>
      cases rest with
      | nil => exact .answers sweeping.run_end sweeping.run_end ⟨rfl, pending.outside⟩ agrees
      | cons block rest =>
          have fewer : rest.length < bound := by simpa using enough
          have layout := pending.layout
          refine .of_runs (sweeping.run_cons layout) (sweeping.run_cons (agrees.memory ▸ layout)) ?_
          refine (pending.concurs_clear sweeping (fun asked => calm asked block List.mem_cons_self) agrees).bind ?_
          rintro answer _ mid later ⟨rfl, passed, further, suffix, pending, sweeping⟩ agrees
          exact ih pending sweeping (Nat.lt_of_le_of_lt suffix.length_le fewer)
            (fun asked other inRest => calm asked other (List.mem_cons_of_mem _ (suffix.mem inRest))) agrees

end Pending

end Sweeps

end Slab

namespace Heap

variable {heap : Heap} {terms : Terms} {machine image : Machine} {tiling : Slab → List Block}

section Walks

variable {σ : Type} {scrutiny otherScrutiny : Scrutiny} {visit otherVisit : σ → Nat → Action σ}
  (Inv : σ → List Block → Machine → Prop)
  (tiled : ∀ state rest machine, Inv state rest machine → heap.Tiled machine.memory tiling)
  (valid : ∀ state block rest machine, Inv state (block :: rest) machine → block :: rest <:+ heap.blocks tiling →
    block.kind = .object → (machine.memory.header block.start).isValid = true)
  (quiet : ∀ state rest machine after, Inv state rest machine → machine.Quiet after → Inv state rest after)
  (passed : ∀ state block rest machine, Inv state (block :: rest) machine →
    block :: rest <:+ heap.blocks tiling → block.kind ≠ .object → Inv state rest machine)
  (visited : ∀ state block rest machine image, Inv state (block :: rest) machine →
    block :: rest <:+ heap.blocks tiling → block.kind = .object → machine.Agrees terms image →
      (visit state block.start).Concurs terms (fun state answer final => answer = state ∧ Inv state rest final)
        (otherVisit state block.start) machine image)
  (calm : terms.alarms.isSome → ∀ block ∈ heap.blocks tiling, block.kind ≠ .bare)

include tiled valid quiet passed visited calm

theorem Walking.concurs_foldObjects {state : σ} {slab : Slab} {slabs : List Slab}
    (walking : heap.Walking tiling Inv state (slab :: slabs) machine) (agrees : machine.Agrees terms image) :
    (slab.foldObjects heap.shapes scrutiny visit state).Concurs terms
      (fun state answer final => answer = state ∧ heap.Walking tiling Inv state slabs final)
      (slab.foldObjects heap.shapes otherScrutiny otherVisit state) machine image := by
  have holds := walking.holds
  rw [List.flatMap_cons] at holds
  refine (Slab.concurs_foldObjects (fun state rest machine =>
      Inv state (rest ++ slabs.flatMap tiling) machine) ?_ ?_ ?_ ?_ ?_ ?_ holds agrees).weaken ?_
  · exact fun _ _ _ holds => (tiled _ _ _ holds).layout slab walking.inHeap
  · exact fun _ _ _ _ holds inSlab isObject => valid _ _ _ _ holds (walking.within inSlab) isObject
  · exact fun _ _ _ _ holds quiets => quiet _ _ _ _ holds quiets
  · exact fun _ _ _ _ holds inSlab other => passed _ _ _ _ holds (walking.within inSlab) other
  · exact fun _ _ _ _ _ holds inSlab isObject => visited _ _ _ _ _ holds (walking.within inSlab) isObject
  · exact fun asked block inSlab => calm asked block (mem_blocks.mpr ⟨slab, walking.inHeap, inSlab⟩)
  · exact fun _ _ _ both => ⟨both.1, (List.suffix_cons _ _).trans walking.suffix, both.2⟩

theorem concurs_foldAll {state : σ} (holds : Inv state (heap.blocks tiling) machine)
    (agrees : machine.Agrees terms image) :
    (Slab.foldAll heap.slabs heap.shapes scrutiny visit state).Concurs terms
      (fun state answer final => answer = state ∧ Inv state [] final)
      (Slab.foldAll heap.slabs heap.shapes otherScrutiny otherVisit state) machine image := by
  refine (Concurs.foldlM (fun state answer slabs machine => answer = state ∧ heap.Walking tiling Inv state slabs machine)
    ?_ ⟨rfl, List.suffix_refl _, holds⟩ agrees).weaken fun _ _ _ last => ⟨last.1, last.2.holds⟩
  rintro state _ slab slabs machine image ⟨rfl, walking⟩ agrees
  exact walking.concurs_foldObjects Inv tiled valid quiet passed visited calm agrees

end Walks

section Sweeps

variable {other : Heap} {scrutiny otherScrutiny : Scrutiny} {stats : SweepStats} {slab : Slab}
  {done slabs : List Slab} {mid : Machine} (tiled : heap.Tiled machine.memory tiling)
  (valid : ∀ block ∈ heap.blocks tiling, block.kind = .object →
    (machine.memory.header block.start).isValid = true)
  (calm : terms.alarms.isSome → ∀ block ∈ heap.blocks tiling, block.kind ≠ .bare)

include tiled valid calm

theorem Passing.concurs_sweep (passing : heap.Passing machine.memory mid.memory done (slab :: slabs))
    (agrees : mid.Agrees terms image) :
    (slab.sweep heap.shapes scrutiny stats).Concurs terms
      (fun stats answer final => answer = stats ∧ heap.Passing machine.memory final.memory (done ++ [slab]) slabs)
      (slab.sweep heap.shapes otherScrutiny stats) mid image := by
  have layout := passing.layout tiled
  have laid : slab.Layout heap.shapes mid.memory (([] : List Block).reverse ++ tiling slab) := layout
  have pending : slab.Pending heap.shapes [] (tiling slab) mid.memory mid.memory := by
    refine ⟨laid, fun block inSlab isObject => ?_, fun _ _ => rfl⟩
    rw [passing.header_eq tiled inSlab]
    exact valid block (mem_blocks.mpr ⟨slab, passing.inHeap, inSlab⟩) isObject
  refine (pending.concurs_sweepFrom layout.sweeping layout.length_lt
    (fun asked block inSlab => calm asked block (mem_blocks.mpr ⟨slab, passing.inHeap, inSlab⟩)) agrees).weaken ?_
  exact fun _ _ _ ended => ⟨ended.1, passing.pass ended.2⟩

/-- Sweeps of heaps of valid objects come to the same end. -/
theorem Tiled.concurs_sweep (slabs : other.slabs = heap.slabs) (shapes : other.shapes = heap.shapes)
    (agrees : machine.Agrees terms image) :
    heap.sweep.Concurs terms (fun stats answer _ => answer = stats) other.sweep machine image := by
  unfold sweep
  rw [slabs, shapes]
  refine (Concurs.foldlM (fun stats answer rest mid => answer = stats ∧
      ∃ done, heap.Passing machine.memory mid.memory done rest) ?_ ⟨rfl, [], .none⟩ agrees).weaken
    fun _ _ _ last => last.1
  rintro stats _ slab rest mid image ⟨rfl, done, passing⟩ agrees
  exact (passing.concurs_sweep tiled valid calm agrees).weaken fun _ _ _ next => ⟨next.1, _, next.2⟩

end Sweeps

end Heap

end SlabHeap
