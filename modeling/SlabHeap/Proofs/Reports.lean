import SlabHeap.Proofs.Fork
import SlabHeap.Proofs.Growth
import SlabHeap.Proofs.Sweep

namespace SlabHeap

/-! Sweeps report what they did.

`Block.Midway` is the invariant of a sweep over blocks: the largest size counted so far is that of a free
block behind the cursor that takes in a dead one. `Heap.Tiled.sweep_reports` says of whole heaps what the
two numbers are that a sweep answers, and which free blocks it leaves alone.
-/

namespace Block

variable {dead : Block → Bool} {all behind rest others : List Block} {block run last outer : Block}
  {growing : Bool} {before most cursor stop : Nat} {stats : SweepStats}

/-- All bytes of the one block are bytes of the other. -/
def Within (inner outer : Block) : Prop := outer.start ≤ inner.start ∧ inner.stop ≤ outer.stop

theorem Within.trans {inner middle : Block} (left : inner.Within middle) (right : middle.Within outer) :
    inner.Within outer :=
  ⟨Nat.le_trans right.1 left.1, Nat.le_trans left.2 right.2⟩

/-- A free block that a dead one lies in. -/
def Regains (dead : Block → Bool) (all : List Block) (run : Block) : Prop :=
  run.kind = .free ∧ ∃ block ∈ all, dead block = true ∧ block.Within run

theorem Regains.mono (regains : Regains dead all run) (isFree : outer.kind = .free)
    (within : run.Within outer) : Regains dead all outer := by
  obtain ⟨_, block, member, dies, inside⟩ := regains
  exact ⟨isFree, block, member, dies, inside.trans within⟩

/-- No dead block touches the block. -/
def Clear (dead : Block → Bool) (all : List Block) (block : Block) : Prop :=
  ∀ other ∈ all, dead other = true → other.stop ≠ block.start ∧ block.stop ≠ other.start

/-- In a division into blocks, a free one that is no part of what died takes in no dead block. -/
theorem not_regains {start : Nat} (tiles : Tiles start all stop)
    (onlyUsed : ∀ block, dead block = true → block.kind ≠ .free) (member : block ∈ all) :
    ¬ Regains dead all block := by
  rintro ⟨isFree, other, otherMember, dies, lower, upper⟩
  have large := (tiles.bounds otherMember).2.2.1
  have covers : block.Covers other.start := ⟨lower, by simp only [Block.stop] at *; omega⟩
  have same : block = other := tiles.eq_of_covers member otherMember covers (tiles.start_covers otherMember)
  exact onlyUsed other dies (same ▸ isFree)

/-- A block that is reclaimed comes to lie in a free one, `run`, that ends where it did. A free block right in
front grows into it, or the blocks behind stay. -/
structure Gathered (behind : List Block) (block run : Block) (others : List Block) : Prop where
  reclaimed : reclaim block behind = run :: others
  isFree : run.kind = .free
  inside : block.Within run
  ends : run.stop = block.stop
  place : others = behind ∧ (∀ last ∈ behind.head?, last.kind ≠ .free) ∨
    ∃ last, behind = last :: others ∧ last.kind = .free ∧ last.Within run ∧ last.size ≤ run.size

theorem exists_gathered (abuts : ∀ last ∈ behind.head?, last.stop = block.start) :
    ∃ run others, Gathered behind block run others := by
  have alone : block.Within { block with kind := .free } := ⟨Nat.le_refl _, Nat.le_refl _⟩
  cases behind with
  | nil => exact ⟨_, [], rfl, rfl, alone, rfl, .inl ⟨rfl, by simp⟩⟩
  | cons last others =>
      have meets : last.stop = block.start := abuts last rfl
      by_cases isFree : last.kind = .free
      · have reclaimed : reclaim block (last :: others) = last.join block :: others := if_pos isFree
        refine ⟨_, others, reclaimed, rfl, ?_, ?_, .inr ⟨last, rfl, isFree, ?_, ?_⟩⟩ <;>
          simp only [join, Within, Block.stop] at * <;> omega
      · have reclaimed : reclaim block (last :: others) =
            { block with kind := .free } :: last :: others := if_neg isFree
        exact ⟨_, _, reclaimed, rfl, alone, rfl, .inl ⟨rfl, by simpa using isFree⟩⟩

namespace Gathered

variable (gathered : Gathered behind block run others)

include gathered

theorem fewer (member : outer ∈ others) : outer ∈ behind := by
  rcases gathered.place with ⟨rfl, _⟩ | ⟨last, rfl, _⟩
  · exact member
  · exact List.mem_cons_of_mem _ member

theorem either (member : outer ∈ behind) :
    outer ∈ others ∨ outer.kind = .free ∧ outer.Within run ∧ outer.size ≤ run.size ∧
      behind = outer :: others := by
  rcases gathered.place with ⟨rfl, _⟩ | ⟨last, rfl, lastFree, within, smaller⟩
  · exact .inl member
  · rcases List.mem_cons.mp member with rfl | inOthers
    · exact .inr ⟨lastFree, within, smaller, rfl⟩
    · exact .inl inOthers

end Gathered

/-- Where a sweep stands between the blocks behind the cursor, listed backwards, and those ahead. The
largest size counted since the sweep began with `before` is that of a free block behind the cursor that
took in a dead one, and none of those is larger. -/
structure Midway (dead : Block → Bool) (all : List Block) (before : Nat) (behind : List Block)
    (growing : Bool) (most cursor stop : Nat) (rest : List Block) : Prop where
  ahead : Tiles cursor rest stop
  inAll : ∀ block ∈ rest, block ∈ all
  abuts : ∀ last ∈ behind.head?, last.stop = cursor
  touched : growing = true → ∃ block ∈ all, dead block = true ∧ block.stop = cursor
  grows : growing = true → ∃ run ∈ behind.head?, Regains dead all run
  atLeast : before ≤ most
  counted : ∀ run ∈ behind, Regains dead all run → run.size ≤ most
  attained : most ≤ before ∨ ∃ run ∈ behind, Regains dead all run ∧ most ≤ run.size
  regained : ∀ block ∈ all, dead block = true →
    block ∈ rest ∨ ∃ run ∈ behind, run.kind = .free ∧ block.Within run
  origin : ∀ run ∈ behind, run.kind = .free → run ∈ all ∨ Regains dead all run
  kept : ∀ block ∈ all, block.kind = .free → Clear dead all block → block ∈ rest ∨ block ∈ behind

namespace Midway

variable {start : Nat}

theorem initial (tiles : Tiles start all stop) : Midway dead all before [] false before start stop all where
  ahead := tiles
  inAll _ := id
  abuts := by simp
  touched := by simp
  grows := by simp
  atLeast := Nat.le_refl _
  counted := by simp
  attained := .inl (Nat.le_refl _)
  regained _ member _ := .inl member
  origin := by simp
  kept _ member _ _ := .inl member

variable (tiles : Tiles start all stop)
  (onlyUsed : ∀ block, dead block = true → block.kind ≠ .free)

include tiles onlyUsed

theorem pass (midway : Midway dead all before behind growing most cursor stop (block :: rest))
    (lives : dead block ≠ true) :
    Midway dead all before (block :: behind) false most block.stop stop rest where
  ahead := midway.ahead.2.2.2
  inAll other member := midway.inAll other (List.mem_cons_of_mem _ member)
  abuts := by simp
  touched := by simp
  grows := by simp
  atLeast := midway.atLeast
  counted := by
    refine List.forall_mem_cons.mpr ⟨fun regains => ?_, midway.counted⟩
    exact absurd regains (not_regains tiles onlyUsed (midway.inAll block List.mem_cons_self))
  attained := midway.attained.imp_right fun ⟨run, member, holds⟩ =>
    ⟨run, List.mem_cons_of_mem _ member, holds⟩
  regained other member dies := by
    rcases midway.regained other member dies with ahead | ⟨run, member, holds⟩
    · rcases List.mem_cons.mp ahead with rfl | later
      · exact absurd dies lives
      · exact .inl later
    · exact .inr ⟨run, List.mem_cons_of_mem _ member, holds⟩
  origin := List.forall_mem_cons.mpr
    ⟨fun _ => .inl (midway.inAll block List.mem_cons_self), midway.origin⟩
  kept other member isFree clear := by
    rcases midway.kept other member isFree clear with ahead | passed
    · rcases List.mem_cons.mp ahead with rfl | later
      · exact .inr List.mem_cons_self
      · exact .inl later
    · exact .inr (List.mem_cons_of_mem _ passed)

section Gain

variable (midway : Midway dead all before behind growing most cursor stop (block :: rest))
  (gains : dead block = true ∨ growing = true ∧ block.kind = .free) (gathered : Gathered behind block run others)

include midway gains gathered

omit tiles onlyUsed in
/-- The block dies, or the run in front of it that it joins took in one that did. -/
theorem regains_gathered : Regains dead all run := by
  rcases gains with dies | ⟨grows, _⟩
  · exact ⟨gathered.isFree, block, midway.inAll block List.mem_cons_self, dies, gathered.inside⟩
  · obtain ⟨head, isHead, regains⟩ := midway.grows grows
    rcases gathered.place with ⟨_, inUse⟩ | ⟨last, rfl, _, within, _⟩
    · exact absurd regains.1 (inUse head isHead)
    · cases isHead
      exact regains.mono gathered.isFree within

omit tiles onlyUsed in
theorem attained_gathered : max most run.size ≤ before ∨
    ∃ found ∈ run :: others, Regains dead all found ∧ max most run.size ≤ found.size := by
  by_cases larger : most ≤ run.size
  · exact .inr ⟨run, List.mem_cons_self, midway.regains_gathered gains gathered, by omega⟩
  · rw [Nat.max_eq_left (by omega)]
    rcases midway.attained with none | ⟨other, member, isGain, fits⟩
    · exact .inl none
    · rcases gathered.either member with inOthers | ⟨_, _, smaller, _⟩
      · exact .inr ⟨other, List.mem_cons_of_mem _ inOthers, isGain, fits⟩
      · omega

omit tiles onlyUsed gains in
theorem regained_gathered (member : outer ∈ all) (dies : dead outer = true) :
    outer ∈ rest ∨ ∃ found ∈ run :: others, found.kind = .free ∧ outer.Within found := by
  rcases midway.regained outer member dies with ahead | ⟨other, inBehind, otherFree, within⟩
  · rcases List.mem_cons.mp ahead with rfl | inRest
    · exact .inr ⟨run, List.mem_cons_self, gathered.isFree, gathered.inside⟩
    · exact .inl inRest
  · rcases gathered.either inBehind with inOthers | ⟨_, grown, _⟩
    · exact .inr ⟨other, List.mem_cons_of_mem _ inOthers, otherFree, within⟩
    · exact .inr ⟨run, List.mem_cons_self, gathered.isFree, within.trans grown⟩

/-- A free block joins others only next to a dead one. -/
theorem kept_gathered (member : outer ∈ all) (outerFree : outer.kind = .free) (clear : Clear dead all outer) :
    outer ∈ rest ∨ outer ∈ run :: others := by
  have begins := midway.ahead.1
  have here := midway.inAll block List.mem_cons_self
  rcases midway.kept outer member outerFree clear with ahead | passed
  · rcases List.mem_cons.mp ahead with rfl | inRest
    · rcases gains with dies | ⟨grows, _⟩
      · exact absurd outerFree (onlyUsed _ dies)
      · obtain ⟨dying, inAll, dies, touches⟩ := midway.touched grows
        exact absurd (touches.trans begins.symm) (clear dying inAll dies).1
    · exact .inl inRest
  · rcases gathered.either passed with inOthers | ⟨_, _, _, rfl⟩
    · exact .inr (List.mem_cons_of_mem _ inOthers)
    · rcases gains with dies | ⟨grows, _⟩
      · exact absurd ((midway.abuts outer rfl).trans begins.symm) (clear block here dies).2
      · obtain ⟨_, isHead, isGain⟩ := midway.grows grows
        cases isHead
        exact absurd isGain (not_regains tiles onlyUsed member)

end Gain

/-- A dead block, or a free one behind a dead one, joins the free storage in front of it. -/
theorem gain (midway : Midway dead all before behind growing most cursor stop (block :: rest))
    (gains : dead block = true ∨ growing = true ∧ block.kind = .free) :
    Midway dead all before (reclaim block behind) (dead block)
      (max most (lastSize (reclaim block behind))) block.stop stop rest := by
  obtain ⟨begins, _, _, later⟩ := midway.ahead
  obtain ⟨run, others, gathered⟩ :=
    exists_gathered (begins.symm ▸ midway.abuts : ∀ last ∈ behind.head?, last.stop = block.start)
  have regains := midway.regains_gathered gains gathered
  rw [gathered.reclaimed]
  exact {
    ahead := later
    inAll := fun other member => midway.inAll other (List.mem_cons_of_mem _ member)
    abuts := by simpa using gathered.ends
    touched := fun dies => ⟨block, midway.inAll block List.mem_cons_self, dies, rfl⟩
    grows := fun _ => ⟨run, rfl, regains⟩
    atLeast := Nat.le_trans midway.atLeast (Nat.le_max_left _ _)
    counted := List.forall_mem_cons.mpr ⟨fun _ => Nat.le_max_right _ _, fun other member isGain =>
      Nat.le_trans (midway.counted other (gathered.fewer member) isGain) (Nat.le_max_left _ _)⟩
    attained := midway.attained_gathered gains gathered
    regained := fun _ => midway.regained_gathered gathered
    origin := List.forall_mem_cons.mpr
      ⟨fun _ => .inr regains, fun other member => midway.origin other (gathered.fewer member)⟩
    kept := fun _ => midway.kept_gathered tiles onlyUsed gains gathered }

/-- The invariant holds at the end of a sweep. -/
theorem finish (midway : Midway dead all before behind growing stats.maxFreed cursor stop rest) :
    ∃ still, Midway dead all before (sweepFrom dead behind growing stats rest).1.reverse still
      (sweepFrom dead behind growing stats rest).2.maxFreed stop stop [] := by
  induction rest generalizing behind growing stats cursor with
  | nil =>
      obtain rfl := midway.ahead
      exact ⟨growing, by simpa [sweepFrom] using midway⟩
  | cons block rest ih =>
      have gain := midway.gain tiles onlyUsed
      simp only [sweepFrom]
      by_cases dies : dead block = true
      · simp only [if_pos dies]
        rw [dies] at gain
        exact ih (gain (.inl rfl))
      · simp only [if_neg dies]
        by_cases merges : growing = true ∧ block.kind = .free
        · simp only [if_pos merges]
          rw [Bool.eq_false_of_not_eq_true dies] at gain
          exact ih (gain (.inr merges))
        · simp only [if_neg merges]
          exact ih (midway.pass tiles onlyUsed dies)

end Midway

section Sweep

variable {start request : Nat} {blocks : List Block} (tiles : Tiles start blocks stop)
  (onlyUsed : ∀ block, dead block = true → block.kind ≠ .free)

include tiles onlyUsed

theorem midway_sweep (stats : SweepStats) : ∃ still,
    Midway dead blocks stats.maxFreed (sweep dead stats blocks).1.reverse still
      (sweep dead stats blocks).2.maxFreed stop stop [] :=
  (Midway.initial tiles).finish tiles onlyUsed

/-- The largest size that a sweep counts is that of a free block that a dead one lies in. -/
theorem le_maxFreed_sweep_iff : request ≤ (sweep dead stats blocks).2.maxFreed ↔
    request ≤ stats.maxFreed ∨
      ∃ run ∈ (sweep dead stats blocks).1, Regains dead blocks run ∧ request ≤ run.size := by
  obtain ⟨_, midway⟩ := midway_sweep tiles onlyUsed stats
  constructor
  · intro counted
    rcases midway.attained with none | ⟨run, member, regains, most⟩
    · exact .inl (Nat.le_trans counted none)
    · exact .inr ⟨run, List.mem_reverse.mp member, regains, Nat.le_trans counted most⟩
  · rintro (earlier | ⟨run, member, regains, fits⟩)
    · exact Nat.le_trans earlier midway.atLeast
    · exact Nat.le_trans fits (midway.counted run (List.mem_reverse.mpr member) regains)

end Sweep

end Block

namespace Heap

open Block

variable {heap : Heap} {memory : Memory} {machine final : Machine} {tiling : Slab → List Block}
  {block run : Block} {slab : Slab} {slabs : List Slab} {request : Nat} {stats : SweepStats}

/-- A sweep reclaims the block: an object without a mark. -/
def Reclaims (heap : Heap) (tiling : Slab → List Block) (memory : Memory) (block : Block) : Prop :=
  block ∈ heap.blocks tiling ∧ block.kind = .object ∧ (memory.header block.start).isMarked = false

/-- The free storage has a byte of an object that is reclaimed. -/
def Regained (heap : Heap) (tiling : Slab → List Block) (memory : Memory) (free : Nat × Nat) : Prop :=
  ∃ block, heap.Reclaims tiling memory block ∧
    ∃ address, block.Covers address ∧ free.1 ≤ address ∧ address < free.1 + free.2

/-- What a sweep answers is what became of the free lists: the bytes of the objects that it reclaimed, and
the size of the largest free block that has a byte of one. -/
structure Reports (heap : Heap) (tiling : Slab → List Block) (machine final : Machine)
    (stats : SweepStats) : Prop where
  sum : stats.sumFreed = (((heap.blocks tiling).filter (isDead machine.memory)).map Block.size).sum
  bound : ∀ slab ∈ heap.slabs, ∀ free ∈ slab.freeBlocks final.memory,
    heap.Regained tiling machine.memory free → free.2 ≤ stats.maxFreed
  attained : stats.maxFreed ≠ 0 → ∃ slab ∈ heap.slabs, ∃ free ∈ slab.freeBlocks final.memory,
    heap.Regained tiling machine.memory free ∧ free.2 = stats.maxFreed
  unchanged : ∀ slab ∈ heap.slabs, ∀ free ∈ slab.freeBlocks machine.memory,
    (∀ block, heap.Reclaims tiling machine.memory block →
      block.stop ≠ free.1 ∧ free.1 + free.2 ≠ block.start) → free ∈ slab.freeBlocks final.memory
  fresh : ∀ slab ∈ heap.slabs, ∀ free ∈ slab.freeBlocks final.memory,
    heap.Regained tiling machine.memory free ∨ free ∈ slab.freeBlocks machine.memory
  room : ∀ request, (∀ slab ∈ heap.slabs, slab.largestFree machine.memory < request) →
    (request ≤ stats.maxFreed ↔ ∃ slab ∈ heap.slabs, request ≤ slab.largestFree final.memory)

theorem isDead_iff : block.isDead memory = true ↔
    block.kind = .object ∧ (memory.header block.start).isMarked = false := by
  simp [isDead]

/-- The bytes that a sweep of several slabs counts are those of the objects without a mark. -/
theorem sumFreed_sweptStats : (sweptStats memory tiling slabs).sumFreed =
    (((slabs.flatMap tiling).filter (isDead memory)).map Block.size).sum := by
  have counted (start : SweepStats) : (slabs.foldl (fun stats slab =>
      (Block.sweep (isDead memory) stats (tiling slab)).2) start).sumFreed =
        start.sumFreed + (((slabs.flatMap tiling).filter (isDead memory)).map Block.size).sum := by
    induction slabs generalizing start with
    | nil => simp
    | cons slab rest ih =>
        rw [List.foldl_cons, ih, Block.sweep, sumFreed_sweepFrom]
        simp [Nat.add_assoc]
  rw [sweptStats, counted, Nat.zero_add]

namespace Tiled

variable (tiled : heap.Tiled machine.memory tiling)

include tiled

/-- The largest size that a sweep of a heap counts is that of a free block that a dead one lies in. -/
theorem le_maxFreed_sweptStats (inHeap : ∀ slab ∈ slabs, slab ∈ heap.slabs) (positive : 0 < request) :
    request ≤ (sweptStats machine.memory tiling slabs).maxFreed ↔
      ∃ slab ∈ slabs, ∃ run ∈ sweptTiling machine.memory tiling slab,
        Regains (isDead machine.memory) (tiling slab) run ∧ request ≤ run.size := by
  have counted (start : SweepStats) :
      request ≤ (slabs.foldl (fun stats slab =>
          (Block.sweep (isDead machine.memory) stats (tiling slab)).2) start).maxFreed ↔
        request ≤ start.maxFreed ∨ ∃ slab ∈ slabs, ∃ run ∈ sweptTiling machine.memory tiling slab,
          Regains (isDead machine.memory) (tiling slab) run ∧ request ≤ run.size := by
    induction slabs generalizing start with
    | nil => simp
    | cons slab rest ih =>
        obtain ⟨here, others⟩ := List.forall_mem_cons.mp inHeap
        have same : (Block.sweep (isDead machine.memory) start (tiling slab)).1 =
            sweptTiling machine.memory tiling slab := sweepFrom_blocks _ _
        rw [List.foldl_cons, ih others, le_maxFreed_sweep_iff (tiled.layout slab here).tiles
          (fun _ => isDead_used), same, List.exists_mem_cons_iff, or_assoc]
  rw [sweptStats, counted]
  exact or_iff_right (Nat.not_le.mpr positive)

section Passed

variable (inHeap : slab ∈ heap.slabs)
  (layout : slab.Layout heap.shapes final.memory (sweptTiling machine.memory tiling slab))

include inHeap layout

/-- Free storage after a sweep has a byte of what died just if something that died lies in it. -/
theorem regained_iff {free : Nat × Nat} (listed : free ∈ slab.freeBlocks final.memory) :
    heap.Regained tiling machine.memory free ↔
      Regains (isDead machine.memory) (tiling slab) ⟨free.1, free.2, .free⟩ := by
  have before := (tiled.layout slab inHeap).tiles
  have member := mem_frees.mp (layout.freeBlocks_eq ▸ listed)
  constructor
  · rintro ⟨block, ⟨inBlocks, dies⟩, address, covers, lower, upper⟩
    obtain ⟨other, otherInHeap, inSlab⟩ := mem_blocks.mp inBlocks
    have bounds := layout.bounds member
    simp only at bounds
    obtain rfl := tiled.slab_eq otherInHeap inHeap (tiled.slab_covers otherInHeap inSlab covers) (by omega)
    obtain ⟨_, midway⟩ := midway_sweep before (fun _ => isDead_used) {}
    rcases midway.regained block inSlab (isDead_iff.mpr dies) with ahead | ⟨outer, swept, _, within⟩
    · cases ahead
    · have same := layout.tiles.eq_of_covers (List.mem_reverse.mp swept) member
        ⟨Nat.le_trans within.1 covers.1, Nat.lt_of_lt_of_le covers.2 within.2⟩ ⟨lower, upper⟩
      exact ⟨rfl, block, inSlab, isDead_iff.mpr dies, same ▸ within⟩
  · rintro ⟨_, block, inSlab, dies, lower, upper⟩
    have covers := before.start_covers inSlab
    exact ⟨block, ⟨mem_blocks.mpr ⟨slab, inHeap, inSlab⟩, isDead_iff.mp dies⟩, block.start, covers, lower,
      Nat.lt_of_lt_of_le covers.2 upper⟩

/-- Free blocks have a byte of what died after a sweep, or were free before. -/
theorem regained_or_free {free : Nat × Nat} (listed : free ∈ slab.freeBlocks final.memory) :
    heap.Regained tiling machine.memory free ∨ free ∈ slab.freeBlocks machine.memory := by
  have before := tiled.layout slab inHeap
  obtain ⟨_, midway⟩ := midway_sweep before.tiles (fun _ => isDead_used) {}
  have member := mem_frees.mp (layout.freeBlocks_eq ▸ listed)
  rcases midway.origin _ (List.mem_reverse.mpr member) rfl with old | regains
  · rw [before.freeBlocks_eq]
    exact .inr (mem_frees.mpr old)
  · exact .inl ((tiled.regained_iff inHeap layout listed).mpr regains)

/-- A free block that touches nothing that dies stays as it is. -/
theorem free_of_clear {free : Nat × Nat} (listed : free ∈ slab.freeBlocks machine.memory)
    (clear : ∀ block, heap.Reclaims tiling machine.memory block →
      block.stop ≠ free.1 ∧ free.1 + free.2 ≠ block.start) : free ∈ slab.freeBlocks final.memory := by
  have before := tiled.layout slab inHeap
  obtain ⟨_, midway⟩ := midway_sweep before.tiles (fun _ => isDead_used) {}
  have member := mem_frees.mp (before.freeBlocks_eq ▸ listed)
  rw [layout.freeBlocks_eq]
  rcases midway.kept _ member rfl fun block inSlab dies =>
    clear block ⟨mem_blocks.mpr ⟨slab, inHeap, inSlab⟩, isDead_iff.mp dies⟩ with ahead | swept
  · cases ahead
  · exact mem_frees.mpr (List.mem_reverse.mp swept)

end Passed

/-- A sweep counts the largest free block that has a byte of what died. -/
theorem le_maxFreed_iff_regained (swept : heap.Swept tiling machine final heap.slabs)
    (positive : 0 < request) :
    request ≤ (sweptStats machine.memory tiling heap.slabs).maxFreed ↔
      ∃ slab ∈ heap.slabs, ∃ free ∈ slab.freeBlocks final.memory,
        heap.Regained tiling machine.memory free ∧ request ≤ free.2 := by
  rw [tiled.le_maxFreed_sweptStats (fun _ => id) positive]
  constructor
  · rintro ⟨slab, inHeap, run, member, regains, fits⟩
    have layout := swept.layout slab inHeap
    have listed : (run.start, run.size) ∈ slab.freeBlocks final.memory := by
      rw [layout.freeBlocks_eq]
      exact mem_frees.mpr (regains.1 ▸ member)
    exact ⟨slab, inHeap, _, listed, (tiled.regained_iff inHeap layout listed).mpr (regains.1 ▸ regains), fits⟩
  · rintro ⟨slab, inHeap, free, listed, regained, fits⟩
    have layout := swept.layout slab inHeap
    exact ⟨slab, inHeap, _, mem_frees.mp (layout.freeBlocks_eq ▸ listed),
      (tiled.regained_iff inHeap layout listed).mp regained, fits⟩

/-- What a sweep answers is true, for any division into blocks and any marks. -/
theorem sweep_reports :
    heap.sweep.Ensures machine fun stats final => heap.Reports tiling machine final stats := by
  refine tiled.ensures_sweep.weaken ?_
  rintro _ final ⟨rfl, swept, _⟩
  have counted {request : Nat} (positive : 0 < request) := tiled.le_maxFreed_iff_regained swept positive
  have bound {slab : Slab} (inHeap : slab ∈ heap.slabs) {free : Nat × Nat}
      (listed : free ∈ slab.freeBlocks final.memory) (regained : heap.Regained tiling machine.memory free) :
      free.2 ≤ (sweptStats machine.memory tiling heap.slabs).maxFreed := by
    rcases Nat.eq_zero_or_pos free.2 with empty | positive
    · rw [empty]
      exact Nat.zero_le _
    · exact (counted positive).mpr ⟨slab, inHeap, free, listed, regained, Nat.le_refl _⟩
  refine ⟨sumFreed_sweptStats, fun slab inHeap free => bound inHeap, fun some => ?_,
    fun slab inHeap free => tiled.free_of_clear inHeap (swept.layout slab inHeap),
    fun slab inHeap free => tiled.regained_or_free inHeap (swept.layout slab inHeap), fun request full => ?_⟩
  · obtain ⟨slab, inHeap, free, listed, regained, most⟩ :=
      (counted (Nat.pos_of_ne_zero some)).mp (Nat.le_refl _)
    exact ⟨slab, inHeap, free, listed, regained, Nat.le_antisymm (bound inHeap listed regained) most⟩
  · obtain ⟨first, isFirst⟩ := List.exists_mem_of_ne_nil _ heap.slabs_nonempty
    have positive : 0 < request := Nat.lt_of_le_of_lt (Nat.zero_le _) (full first isFirst)
    have fits {slab : Slab} : request ≤ slab.largestFree final.memory ↔
        ∃ free ∈ slab.freeBlocks final.memory, request ≤ free.2 := by
      rw [← Nat.not_lt, Slab.largestFree_lt_iff positive]
      simp
    simp only [counted positive, fits]
    constructor
    · rintro ⟨slab, inHeap, free, listed, _, enough⟩
      exact ⟨slab, inHeap, free, listed, enough⟩
    · rintro ⟨slab, inHeap, free, listed, enough⟩
      rcases tiled.regained_or_free inHeap (swept.layout slab inHeap) listed with regained | old
      · exact ⟨slab, inHeap, free, listed, regained, enough⟩
      · have := (Slab.largestFree_lt_iff positive).mp (full slab inHeap) free old
        omega

end Tiled

/-- Without marks both objects of the ring die, and the free block behind them is counted with them. -/
theorem sweep_reports_ring : ∃ final, ringHeap.sweep.run ringMachine = .ok ⟨112, 80⟩ final ∧
    ringHeap.Reports (fun _ => ringBlocks) ringMachine final ⟨112, 80⟩ ∧
    ringSlab.freeBlocks final.memory = [(0x3ffffffff010, 112)] := by
  have tiled : ringHeap.Tiled ringMachine.memory fun _ => ringBlocks :=
    ⟨by simpa [ringHeap] using layout_ring, by simp [ringHeap]⟩
  have answers : Action.passes ringHeap.sweep ringMachine (fun stats => stats = ⟨112, 80⟩) = true := by
    decide +kernel
  have shows : Action.leaves ringHeap.sweep ringMachine
      (fun after => ringSlab.freeBlocks after.memory = [(0x3ffffffff010, 112)]) = true := by
    decide +kernel
  obtain ⟨stats, final, ran, reports⟩ := tiled.sweep_reports
  obtain rfl := of_decide_eq_true ((Action.ensures_of_passes answers).of_run ran)
  exact ⟨final, ran, reports, of_decide_eq_true ((Action.ensures_of_leaves shows).of_run ran)⟩

end Heap

end SlabHeap
