import Mathlib.Data.List.Chain
import Mathlib.Order.MinMax
import SlabHeap.Proofs.Layout
import SlabHeap.Slab.Sweep

namespace SlabHeap

/-! What a sweep does to the blocks of a slab.

`Block.sweepFrom` is a sweep on blocks alone: a block that dies joins the free storage that it touches
on either side. `Block.used_sweep` says which blocks stay, `Block.Coalesced.sweep` that no free blocks
touch afterwards if none did before, `Block.hasRoom_sweep_iff` what the largest run that a sweep counts
says about the free blocks.
-/

namespace Block

/-- One free block in the place of two blocks that follow each other. -/
def join (left right : Block) : Block := ⟨left.start, left.size + right.size, .free⟩

/-- Makes a block free behind others, which are listed backwards. A free block right in front of it
grows instead. -/
def reclaim (block : Block) : List Block → List Block
  | [] => [{ block with kind := .free }]
  | last :: others =>
      if last.kind = .free then last.join block :: others
      else { block with kind := .free } :: last :: others

/-- A free block right behind one just reclaimed becomes part of it. The answer is what lies behind
the cursor then, backwards, and what lies ahead of it. -/
def absorb (behind : List Block) : List Block → List Block × List Block
  | [] => (behind, [])
  | next :: rest =>
      if next.kind = .free then (reclaim next behind, rest) else (behind, next :: rest)

/-- The size of the last of several blocks that are listed backwards. -/
def lastSize : List Block → Nat
  | [] => 0
  | last :: _ => last.size

/-- A sweep over blocks. Those behind the cursor are listed backwards; `growing` says that the last
one of them was just reclaimed. -/
def sweepFrom (dead : Block → Bool) (behind : List Block) (growing : Bool) (stats : SweepStats) :
    List Block → List Block × SweepStats
  | [] => (behind.reverse, stats)
  | block :: rest =>
      if dead block then
        let behind := reclaim block behind
        sweepFrom dead behind true
          { maxFreed := max stats.maxFreed (lastSize behind), sumFreed := stats.sumFreed + block.size }
          rest
      else if growing ∧ block.kind = .free then
        let behind := reclaim block behind
        sweepFrom dead behind false
          { stats with maxFreed := max stats.maxFreed (lastSize behind) } rest
      else sweepFrom dead (block :: behind) false stats rest

/-- What is left of all blocks of a slab, and what that achieved. -/
def sweep (dead : Block → Bool) (stats : SweepStats) (blocks : List Block) :
    List Block × SweepStats :=
  sweepFrom dead [] false stats blocks

def used (blocks : List Block) : List Block := blocks.filter fun block => block.kind ≠ .free

/-- Not both of two neighbours are free. -/
def Separate (left right : Block) : Prop := ¬ (left.kind = .free ∧ right.kind = .free)

/-- No two free blocks touch. -/
def Coalesced (blocks : List Block) : Prop := blocks.IsChain Separate

/-- Whether a sweep reclaims the block. -/
def isDead (memory : Memory) (block : Block) : Bool :=
  block.kind = .object && !(memory.header block.start).isMarked

/-- The words of the block are the same in two memories, except that an object lost its mark. -/
structure Survives (memory after : Memory) (block : Block) : Prop where
  header : block.kind = .object →
    after.header block.start = (memory.header block.start).unmark
  contents : ∀ address, block.Covers address →
    (block.kind = .object → block.start + 8 ≤ address) → after.read address = memory.read address

variable {dead : Block → Bool} {block : Block} {behind rest blocks : List Block}
  {stats : SweepStats} {growing : Bool}

theorem Kept.trans {first second third : Memory} (left : block.Kept first second)
    (right : block.Kept second third) : block.Kept first third :=
  fun address covers => (right address covers).trans (left address covers)

theorem Kept.survives {first second third : Memory} (left : block.Kept first second)
    (right : block.Survives second third) (covers : block.Covers block.start) :
    block.Survives first third where
  header isObject := by
    rw [right.header isObject, Memory.header, Memory.header, left _ covers]
  contents address inside behind :=
    (right.contents address inside behind).trans (left address inside)

theorem Survives.keep {first second third : Memory} (left : block.Survives first second)
    (right : block.Kept second third) (covers : block.Covers block.start) :
    block.Survives first third where
  header isObject := by
    rw [← left.header isObject, Memory.header, Memory.header, right _ covers]
  contents address inside behind :=
    (right address inside).trans (left.contents address inside behind)

theorem isDead_used {memory : Memory} (dies : block.isDead memory = true) :
    block.kind ≠ .free := by
  intro isFree
  simp [isDead, isFree] at dies

theorem Kept.isDead_eq {first second : Memory} (kept : block.kind ≠ .free → block.Kept first second)
    (covers : block.Covers block.start) : block.isDead second = block.isDead first := by
  cases kind : block.kind with
  | free => simp [isDead, kind]
  | bare => simp [isDead, kind]
  | object => simp only [isDead, Memory.header, kept (by simp [kind]) _ covers]

theorem mem_used : block ∈ used blocks ↔ block ∈ blocks ∧ block.kind ≠ .free := by
  simp [used]

theorem used_append (left right : List Block) : used (left ++ right) = used left ++ used right := by
  simp [used]

/-- Reclaiming a block leaves a free one behind the cursor. -/
theorem reclaim_eq (block : Block) (behind : List Block) :
    ∃ run others, reclaim block behind = run :: others ∧ run.kind = .free := by
  cases behind with
  | nil => exact ⟨_, _, rfl, rfl⟩
  | cons last others =>
      simp only [reclaim]
      split
      · exact ⟨_, _, rfl, rfl⟩
      · exact ⟨_, _, rfl, rfl⟩

theorem used_reclaim (block : Block) (behind : List Block) :
    used (reclaim block behind).reverse = used behind.reverse := by
  cases behind with
  | nil => simp [reclaim, used]
  | cons last others =>
      simp only [reclaim]
      split
      · next isFree => simp [used, join, isFree]
      · simp [used, List.filter_cons]

/-- A sweep keeps what is in use and does not die. -/
theorem used_sweepFrom (onlyUsed : ∀ block, dead block = true → block.kind ≠ .free) :
    used (sweepFrom dead behind growing stats rest).1 =
      used behind.reverse ++ (used rest).filter fun block => !dead block := by
  induction rest generalizing behind growing stats with
  | nil => simp [sweepFrom, used]
  | cons block rest ih =>
      simp only [sweepFrom]
      split
      · next dies =>
        rw [ih, used_reclaim]
        simp [used, onlyUsed block dies, dies]
      · next lives =>
        split
        · next merges =>
          rw [ih, used_reclaim]
          simp [used, merges.2]
        · rw [ih]
          by_cases isFree : block.kind = .free <;> simp [used, isFree, lives]

theorem used_sweep (onlyUsed : ∀ block, dead block = true → block.kind ≠ .free) :
    used (sweep dead stats blocks).1 = (used blocks).filter fun block => !dead block := by
  rw [sweep, used_sweepFrom onlyUsed]
  rfl

theorem lastSize_reclaim (block : Block) {run : Block} {others : List Block}
    (isFree : run.kind = .free) :
    run.size ≤ lastSize (reclaim block (run :: others)) := by
  simp [reclaim, isFree, lastSize, join]

theorem used_absorb (behind rest : List Block) :
    used (absorb behind rest).1.reverse = used behind.reverse ∧
      used (absorb behind rest).2 = used rest := by
  cases rest with
  | nil => exact ⟨rfl, rfl⟩
  | cons next rest =>
      by_cases isFree : next.kind = .free
      · simp only [absorb, isFree, if_true, used_reclaim, true_and]
        simp [used, isFree]
      · simp [absorb, isFree]

theorem absorb_suffix (behind rest : List Block) : (absorb behind rest).2 <:+ rest := by
  cases rest with
  | nil => exact List.suffix_refl _
  | cons next rest =>
      simp only [absorb]
      split
      · exact List.suffix_cons _ _
      · exact List.suffix_refl _

/-- Behind a block just reclaimed, a sweep first absorbs the free block there. -/
theorem sweepFrom_growing (onlyUsed : ∀ block, dead block = true → block.kind ≠ .free)
    (counted : lastSize behind ≤ stats.maxFreed) :
    sweepFrom dead behind true stats rest =
      sweepFrom dead (absorb behind rest).1 false
        { stats with maxFreed := max stats.maxFreed (lastSize (absorb behind rest).1) }
        (absorb behind rest).2 := by
  cases rest with
  | nil => simp [absorb, sweepFrom, Nat.max_eq_left counted]
  | cons next rest =>
      by_cases isFree : next.kind = .free
      · have lives : dead next = false := by
          cases dies : dead next with
          | false => rfl
          | true => exact absurd isFree (onlyUsed next dies)
        simp [absorb, isFree, sweepFrom, lives]
      · simp [absorb, isFree, sweepFrom, Nat.max_eq_left counted]

/-- A sweep reclaims a block together with the free storage on both sides of it. -/
theorem sweepFrom_dead {run : Block} {others ahead : List Block}
    (onlyUsed : ∀ block, dead block = true → block.kind ≠ .free) (dies : dead block = true)
    (absorbed : absorb (reclaim block behind) rest = (run :: others, ahead)) :
    sweepFrom dead behind false stats (block :: rest) =
      sweepFrom dead (run :: others) false
        { maxFreed := max stats.maxFreed run.size, sumFreed := stats.sumFreed + block.size }
        ahead := by
  have grows : lastSize (reclaim block behind) ≤ run.size := by
    obtain ⟨head, tail, reclaimed, isFree⟩ := reclaim_eq block behind
    rw [reclaimed] at absorbed ⊢
    cases rest with
    | nil =>
        simp only [absorb, Prod.mk.injEq, List.cons.injEq] at absorbed
        exact Nat.le_of_eq (congrArg Block.size absorbed.1.1)
    | cons next rest =>
        by_cases nextFree : next.kind = .free
        · have joined : head.size ≤ lastSize (reclaim next (head :: tail)) :=
            lastSize_reclaim next isFree
          simp only [absorb, nextFree, if_true, Prod.mk.injEq] at absorbed
          rw [absorbed.1] at joined
          exact joined
        · simp only [absorb, nextFree, if_false, Prod.mk.injEq, List.cons.injEq] at absorbed
          exact Nat.le_of_eq (congrArg Block.size absorbed.1.1)
  have whole : lastSize (run :: others) = run.size := rfl
  simp only [sweepFrom, dies, if_true]
  rw [sweepFrom_growing onlyUsed (Nat.le_max_right _ _), absorbed, whole]
  simp only [Nat.max_assoc, Nat.max_eq_right grows]

/-- What a sweep makes of the blocks does not depend on what earlier slabs yielded. -/
theorem sweepFrom_blocks (stats others : SweepStats) :
    (sweepFrom dead behind growing stats rest).1 =
      (sweepFrom dead behind growing others rest).1 := by
  induction rest generalizing behind growing stats others with
  | nil => rfl
  | cons block rest ih =>
      simp only [sweepFrom]
      split
      · exact ih _ _
      · split
        · exact ih _ _
        · exact ih _ _

theorem sumFreed_sweepFrom :
    (sweepFrom dead behind growing stats rest).2.sumFreed =
      stats.sumFreed + ((rest.filter dead).map Block.size).sum := by
  induction rest generalizing behind growing stats with
  | nil => simp [sweepFrom]
  | cons block rest ih =>
      simp only [sweepFrom]
      split
      · next dies =>
        rw [ih]
        simp [dies, Nat.add_assoc]
      · next lives =>
        split
        · rw [ih]
          simp [lives]
        · rw [ih]
          simp [lives]

/-- A free block has room for a request. -/
def HasRoom (blocks : List Block) (request : Nat) : Prop :=
  ∃ block ∈ blocks, block.kind = .free ∧ request ≤ block.size

theorem hasRoom_reclaim {request : Nat} : HasRoom (reclaim block behind) request ↔
    HasRoom behind request ∨ request ≤ lastSize (reclaim block behind) := by
  cases behind with
  | nil => simp [HasRoom, reclaim, lastSize]
  | cons last others =>
      by_cases isFree : last.kind = .free
      · simp only [HasRoom, reclaim, isFree, if_true, join, lastSize, List.exists_mem_cons_iff,
          true_and]
        constructor
        · rintro (larger | other)
          · exact .inr larger
          · exact .inl (.inr other)
        · rintro ((fits | other) | larger)
          · exact .inl (Nat.le_add_right_of_le fits)
          · exact .inr other
          · exact .inl larger
      · simp [HasRoom, reclaim, isFree, lastSize, or_comm]

theorem hasRoom_reverse {request : Nat} :
    HasRoom blocks.reverse request ↔ HasRoom blocks request := by
  simp [HasRoom]

theorem le_maxFreed_sweepFrom {request : Nat} (counted : request ≤ stats.maxFreed) :
    request ≤ (sweepFrom dead behind growing stats rest).2.maxFreed := by
  induction rest generalizing behind growing stats with
  | nil => exact counted
  | cons block rest ih =>
      simp only [sweepFrom]
      split
      · exact ih (Nat.le_trans counted (Nat.le_max_left _ _))
      · split
        · exact ih (Nat.le_trans counted (Nat.le_max_left _ _))
        · exact ih counted

/-- Free storage behind the cursor can only grow. -/
theorem HasRoom.sweepFrom {request : Nat} (room : HasRoom behind request) :
    HasRoom (sweepFrom dead behind growing stats rest).1 request := by
  induction rest generalizing behind growing stats with
  | nil => exact hasRoom_reverse.mpr room
  | cons block rest ih =>
      have reclaimed : HasRoom (reclaim block behind) request := hasRoom_reclaim.mpr (.inl room)
      simp only [Block.sweepFrom]
      split
      · exact ih reclaimed
      · split
        · exact ih reclaimed
        · obtain ⟨run, member, holds⟩ := room
          exact ih ⟨run, List.mem_cons_of_mem _ member, holds⟩

/-- A run that a sweep counted is still there at its end. -/
theorem hasRoom_of_maxFreed {request : Nat}
    (counted : request ≤ (sweepFrom dead behind growing stats rest).2.maxFreed) :
    request ≤ stats.maxFreed ∨ HasRoom (sweepFrom dead behind growing stats rest).1 request := by
  induction rest generalizing behind growing stats with
  | nil => exact .inl counted
  | cons block rest ih =>
      -- The run that is counted in this step has grown at most when the sweep ends.
      have step {growing : Bool} {sumFreed : Nat} (later : request ≤ (sweepFrom dead
            (reclaim block behind) growing
            ⟨max stats.maxFreed (lastSize (reclaim block behind)), sumFreed⟩ rest).2.maxFreed) :
          request ≤ stats.maxFreed ∨ HasRoom (sweepFrom dead (reclaim block behind) growing
            ⟨max stats.maxFreed (lastSize (reclaim block behind)), sumFreed⟩ rest).1 request := by
        rcases ih later with counted | room
        · refine (le_max_iff.mp counted).imp_right fun fits => ?_
          exact (hasRoom_reclaim.mpr (.inr fits)).sweepFrom
        · exact .inr room
      simp only [sweepFrom] at counted ⊢
      split at counted
      · next dies =>
        rw [if_pos dies]
        exact step counted
      · next lives =>
        rw [if_neg lives]
        split at counted
        · next merges =>
          rw [if_pos merges]
          exact step counted
        · next apart =>
          rw [if_neg apart]
          exact ih counted

/-- Room that was not there before was counted. -/
theorem hasRoom_sweepFrom {request : Nat}
    (room : HasRoom (sweepFrom dead behind growing stats rest).1 request) :
    HasRoom behind request ∨ HasRoom rest request ∨
      request ≤ (sweepFrom dead behind growing stats rest).2.maxFreed := by
  induction rest generalizing behind growing stats with
  | nil => exact .inl (hasRoom_reverse.mp room)
  | cons block rest ih =>
      have ahead (others : HasRoom rest request) : HasRoom (block :: rest) request := by
        obtain ⟨run, member, holds⟩ := others
        exact ⟨run, List.mem_cons_of_mem _ member, holds⟩
      have step {growing : Bool} {sumFreed : Nat} (room : HasRoom (sweepFrom dead
            (reclaim block behind) growing
            ⟨max stats.maxFreed (lastSize (reclaim block behind)), sumFreed⟩ rest).1 request) :
          HasRoom behind request ∨ HasRoom (block :: rest) request ∨
            request ≤ (sweepFrom dead (reclaim block behind) growing
              ⟨max stats.maxFreed (lastSize (reclaim block behind)), sumFreed⟩ rest).2.maxFreed := by
        rcases ih room with behind | others | counted
        · refine (hasRoom_reclaim.mp behind).imp_right fun fits => .inr ?_
          exact le_maxFreed_sweepFrom (Nat.le_trans fits (Nat.le_max_right _ _))
        · exact .inr (.inl (ahead others))
        · exact .inr (.inr counted)
      simp only [sweepFrom] at room ⊢
      split at room
      · next dies =>
        rw [if_pos dies]
        exact step room
      · next lives =>
        rw [if_neg lives]
        split at room
        · next merges =>
          rw [if_pos merges]
          exact step room
        · next apart =>
          rw [if_neg apart]
          rcases ih room with ⟨run, member, holds⟩ | others | counted
          · rcases List.mem_cons.mp member with rfl | behind
            · exact .inr (.inl ⟨run, List.mem_cons_self, holds⟩)
            · exact .inl ⟨run, behind, holds⟩
          · exact .inr (.inl (ahead others))
          · exact .inr (.inr counted)

/-- Where a request found no room before a sweep, the largest run counted tells whether it does after
it. -/
theorem hasRoom_sweep_iff {request : Nat} (none : ¬ HasRoom blocks request) :
    request ≤ (sweep dead stats blocks).2.maxFreed ↔
      request ≤ stats.maxFreed ∨ HasRoom (sweep dead stats blocks).1 request := by
  constructor
  · exact hasRoom_of_maxFreed
  · rintro (before | room)
    · exact le_maxFreed_sweepFrom before
    · rcases hasRoom_sweepFrom room with ⟨_, absurdly, _⟩ | there | counted
      · simp at absurdly
      · exact absurd there none
      · exact counted

theorem Separate.symm {left right : Block} (separate : Separate left right) :
    Separate right left := fun both => separate ⟨both.2, both.1⟩

theorem Coalesced.reverse (coalesced : Coalesced blocks) : Coalesced blocks.reverse :=
  List.isChain_reverse.mpr (coalesced.imp fun _ _ => Separate.symm)

theorem Coalesced.reclaim (coalesced : Coalesced behind) :
    Coalesced (reclaim block behind) := by
  cases behind with
  | nil => exact .singleton _
  | cons last others =>
      simp only [Block.reclaim]
      split
      · next isFree =>
        refine List.isChain_cons.mpr ⟨fun other first both => ?_, (List.isChain_cons.mp coalesced).2⟩
        exact (List.isChain_cons.mp coalesced).1 other first ⟨isFree, both.2⟩
      · next inUse =>
        exact .cons_cons (fun both => inUse both.2) coalesced

/-- Where no free blocks touch, none touch after a sweep. -/
theorem Coalesced.sweepFrom (left : Coalesced behind) (right : Coalesced rest)
    (border : growing = false → ∀ last ∈ behind.head?, ∀ next ∈ rest.head?, Separate last next) :
    Coalesced (sweepFrom dead behind growing stats rest).1 := by
  induction rest generalizing behind growing stats with
  | nil => exact left.reverse
  | cons block rest ih =>
      obtain ⟨neighbour, later⟩ := List.isChain_cons.mp right
      simp only [Block.sweepFrom]
      split
      · exact ih left.reclaim later (by simp)
      · next lives =>
        split
        · next merges =>
          refine ih left.reclaim later fun _ last _ next first both => ?_
          exact neighbour next first ⟨merges.2, both.2⟩
        · next apart =>
          refine ih (List.isChain_cons.mpr ⟨fun last first => ?_, left⟩) later
            fun _ last first next => ?_
          · cases growing with
            | true => exact fun both => apart ⟨rfl, both.1⟩
            | false => exact (border rfl last first block rfl).symm
          · cases first
            exact neighbour next

theorem Coalesced.sweep (coalesced : Coalesced blocks) : Coalesced (sweep dead stats blocks).1 :=
  Coalesced.sweepFrom .nil coalesced (by simp)

end Block

end SlabHeap
