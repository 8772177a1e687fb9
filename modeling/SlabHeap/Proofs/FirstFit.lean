import SlabHeap.Proofs.Carving
import SlabHeap.Proofs.Growth

namespace SlabHeap

/-! First fit.

`Slab.Listed` says of a slab only that its free list is in order; what lies between the free blocks is
not looked at. `Slab.Listed.gives` says what taking a request does to such a slab, and
`Heap.takeFrom_exact` which slab of several gives it, and that nothing else changes.
-/

open FreeList

namespace FreeList

variable {memory : Memory} {listed passed rest : List (Nat × Nat)} {block : Nat × Nat}
  {request lower upper : Nat}

/-- What a request leaves of a free block. -/
def remainder (block : Nat × Nat) (request : Nat) : List (Nat × Nat) :=
  if request < block.2 then [(block.1 + request, block.2 - request)] else []

/-- What is left of a block lies at its end. -/
theorem eq_of_mem_remainder {other : Nat × Nat} (member : other ∈ remainder block request) :
    other = (block.1 + request, block.2 - request) ∧ request < block.2 := by
  rw [remainder] at member
  split at member
  · next fits => exact ⟨List.mem_singleton.mp member, fits⟩
  · cases member

/-- Free blocks that lie apart, each with room for a node, are no more than there is room for. -/
theorem length_le_of_ordered (ordered : listed.Pairwise fun block other => block.1 + block.2 ≤ other.1)
    (inside : ∀ block ∈ listed, lower ≤ block.1 ∧ block.1 + block.2 ≤ upper ∧ 16 ≤ block.2)
    (range : lower ≤ upper) : lower + 16 * listed.length ≤ upper := by
  induction listed generalizing lower with
  | nil => simpa using range
  | cons head rest ih =>
      obtain ⟨apart, later⟩ := List.pairwise_cons.mp ordered
      obtain ⟨first, others⟩ := List.forall_mem_cons.mp inside
      have behind : head.1 + head.2 + 16 * rest.length ≤ upper :=
        ih later (fun block member => ⟨apart block member, (others block member).2⟩) first.2.1
      simp only [List.length_cons]
      omega

theorem exists_first (room : ¬ ∀ block ∈ listed, block.2 < request) : ∃ passed block rest,
    listed = passed ++ block :: rest ∧ (∀ other ∈ passed, other.2 < request) ∧ request ≤ block.2 := by
  simp only [not_forall, Nat.not_lt] at room
  obtain ⟨entry, member, fits⟩ := room
  obtain ⟨block, found⟩ : ∃ block, listed.find? (fun entry => request ≤ entry.2) = some block :=
    Option.isSome_iff_exists.mp (List.find?_isSome.mpr ⟨entry, member, decide_eq_true fits⟩)
  obtain ⟨fits, passed, rest, split, before⟩ := List.find?_eq_some_iff_append.mp found
  exact ⟨passed, block, rest, split, fun other inFront => by simpa using before other inFront,
    of_decide_eq_true fits⟩

end FreeList

namespace Slab

/-- The free list of a slab holds these blocks: whole units behind the sentinel, in address order, one
behind the other. -/
structure Listed (slab : Slab) (memory : Memory) (listed : List (Nat × Nat)) : Prop where
  startAligned : slab.start % blockUnit = 0
  sentinel : slab.objects ≤ slab.stop
  bounded : slab.stop < Size.limit
  chain : Chain memory (slab.firstFree memory) listed
  inside : ∀ block ∈ listed, slab.objects ≤ block.1 ∧ block.1 + block.2 ≤ slab.stop
  granular : ∀ block ∈ listed,
    block.1 % blockUnit = 0 ∧ block.2 % blockUnit = 0 ∧ blockUnit ≤ block.2
  ordered : listed.Pairwise fun block other => block.1 + block.2 ≤ other.1

/-- A request is taken from a free block behind others: the block gives its start, which is zero then,
and the list goes on with what is left of it. Only the node of the remainder and the link in front of
the block change besides. -/
structure Gives (slab : Slab) (memory later : Memory) (request : Nat) (passed : List (Nat × Nat))
    (block : Nat × Nat) (rest : List (Nat × Nat)) : Prop where
  before : slab.freeBlocks memory = passed ++ block :: rest
  small : ∀ other ∈ passed, other.2 < request
  fits : request ≤ block.2
  after : slab.freeBlocks later = passed ++ remainder block request ++ rest
  listed : slab.Listed later (slab.freeBlocks later)
  zero : ∀ address, block.1 ≤ address → address < block.1 + request → later.read address = 0
  same : ∀ address, ¬ (block.1 ≤ address ∧ address < block.1 + request) →
    ¬ (request < block.2 ∧
      block.1 + request ≤ address ∧ address < block.1 + request + blockUnit) →
    ¬ (lastOr slab.start passed + wordBytes ≤ address ∧
      address < lastOr slab.start passed + blockUnit) →
    later.read address = memory.read address

variable {slab : Slab} {memory after : Memory} {listed passed rest : List (Nat × Nat)}
  {block : Nat × Nat} {request : Nat}

namespace Listed

theorem of_layout {shapes : ShapeTable} {blocks : List Block}
    (layout : slab.Layout shapes memory blocks) : slab.Listed memory (Block.frees blocks) where
  startAligned := layout.placed.startAligned
  sentinel := layout.tiles.le
  bounded := layout.placed.bounded
  chain := chain_iff_path.mpr layout.listed
  inside block member := by
    have := layout.tiles.frees_bounds member
    omega
  granular block member := by
    have bounds := layout.tiles.frees_bounds member
    have aligned := (layout.tiles.aligned layout.objectsAligned (Block.mem_frees.mp member)).1
    exact ⟨aligned, bounds.2.2.2, bounds.2.2.1⟩
  ordered := layout.tiles.frees_ordered

variable (lists : slab.Listed memory listed)

include lists

theorem bounds (member : block ∈ listed) : slab.start + 16 ≤ block.1 ∧ block.1 % 16 = 0 ∧
    block.1 + block.2 ≤ slab.stop ∧ block.2 % 16 = 0 ∧ 16 ≤ block.2 ∧ slab.stop < Size.limit := by
  have inside := lists.inside block member
  have granular := lists.granular block member
  have bounded := lists.bounded
  simp only [Slab.objects, blockUnit] at inside granular
  omega

theorem increasing : (slab.start :: listed.map (·.1)).Pairwise (· < ·) := by
  refine .cons (fun address inList => ?_)
    (List.pairwise_map.mpr (lists.ordered.imp_of_mem ?_))
  · obtain ⟨block, member, rfl⟩ := List.mem_map.mp inList
    have := lists.bounds member
    omega
  · intro block other member _ apart
    have := lists.bounds member
    omega

theorem length_le : listed.length ≤ Size.wordLimit := by
  have bounded := lists.bounded
  have fits : 0 + 16 * listed.length ≤ Size.limit :=
    length_le_of_ordered lists.ordered (fun block member => by have := lists.bounds member; omega)
      (Nat.zero_le _)
  simp only [Size.wordLimit, Size.limit, wordBytes] at *
  omega

theorem freeBlocks_eq : slab.freeBlocks memory = listed := lists.chain.blocks_eq lists.length_le

theorem congr (first : after.read (slab.start + 8) = memory.read (slab.start + 8))
    (nodes : ∀ block ∈ listed, after.read block.1 = memory.read block.1 ∧
      after.read (block.1 + 8) = memory.read (block.1 + 8)) : slab.Listed after listed where
  startAligned := lists.startAligned
  sentinel := lists.sentinel
  bounded := lists.bounded
  chain := by
    have first : slab.firstFree after = slab.firstFree memory := congrArg UInt64.toNat first
    rw [first]
    exact lists.chain.congr nodes
  inside := lists.inside
  granular := lists.granular
  ordered := lists.ordered

theorem keep (same : ∀ address, slab.start ≤ address → address < slab.stop →
    after.read address = memory.read address) : slab.Listed after listed := by
  have room := lists.sentinel
  simp only [Slab.objects, blockUnit] at room
  refine lists.congr (same _ (by omega) (by omega)) fun block member => ?_
  have := lists.bounds member
  exact ⟨same _ (by omega) (by omega), same _ (by omega) (by omega)⟩

end Listed

/-- Carving writes the block that is given, the node of the remainder, and the link in front. -/
theorem Fit.read_carve {fit : Fit} {address : Nat} (blockAligned : fit.block % 8 = 0)
    (beforeAligned : fit.before % 8 = 0) (whole : request % 8 = 0)
    (outside : ¬ (fit.block ≤ address ∧ address < fit.block + request))
    (apart : ¬ (fit.splits = true ∧
      fit.block + request ≤ address ∧ address < fit.block + request + 16))
    (unlinked : ¬ (fit.before + 8 ≤ address ∧ address < fit.before + 16)) :
    (fit.carve request memory).read address = memory.read address := by
  have words : 8 * (request / wordBytes) = request := by
    simp only [wordBytes]
    omega
  simp only [Fit.carve]
  rw [Memory.read_fillWords _ _ blockAligned, words, if_neg outside]
  split
  · next splits =>
    rw [read_setNext beforeAligned unlinked,
      read_writeNode (by omega) fun inside => apart ⟨splits, inside⟩]
  · exact read_setNext beforeAligned unlinked

namespace Listed

section Taking

variable (lists : slab.Listed memory (passed ++ block :: rest))

include lists

/-- The link that leads to a block lies in the sentinel, or in the last free block in front of it. -/
theorem lastOr_bounds : lastOr slab.start passed % 16 = 0 ∧ lastOr slab.start passed + 16 ≤ block.1 ∧
    ∀ link, (link = slab.start ∨ ∃ other ∈ passed, other.1 = link) → link % 16 = 0 ∧ link + 16 ≤ block.1 := by
  have place {link : Nat} (isLink : link = slab.start ∨ ∃ other ∈ passed, other.1 = link) :
      link % 16 = 0 ∧ link + 16 ≤ block.1 := by
    have here := lists.bounds (List.mem_append_right passed List.mem_cons_self)
    rcases isLink with rfl | ⟨other, member, rfl⟩
    · have := lists.startAligned
      simp only [blockUnit] at this
      omega
    · have := lists.bounds (List.mem_append_left _ member)
      have := (List.pairwise_append.mp lists.ordered).2.2 other member block List.mem_cons_self
      omega
  have last := place (lastOr_mem slab.start passed)
  exact ⟨last.1, last.2, fun _ => place⟩

theorem lt_iff_splits (whole : request % blockUnit = 0) :
    request + blockUnit ≤ block.2 ↔ request < block.2 := by
  have := lists.bounds (List.mem_append_right passed List.mem_cons_self)
  simp only [blockUnit] at *
  omega

variable (whole : request % blockUnit = 0)

include whole

/-- The list goes on with what is left of a block that was taken. -/
theorem path_taken
    (taken : Taken memory after (lastOr slab.start passed) block.1 block.2 request (next memory block.1)) :
    Path after (slab.firstFree after) (passed ++ (remainder block request ++ rest)) 0 := by
  obtain ⟨aligned, before, links⟩ := lists.lastOr_bounds
  obtain ⟨_, ⟨behind, _⟩, _⟩ := (List.pairwise_append.mp lists.ordered).imp_right
    (And.imp_left List.pairwise_cons.mp)
  obtain ⟨_, reached, rfl, _, _, goesOn⟩ := path_append.mp (chain_iff_path.mp lists.chain)
  have divided : remainder block request =
      if request + blockUnit ≤ block.2 then [(block.1 + request, block.2 - request)] else [] :=
    if_congr (lists.lt_iff_splits whole).symm rfl rfl
  have restKept : Path after (next memory block.1) rest 0 := by
    refine goesOn.congr fun other member => ?_
    have := lists.bounds (List.mem_append_right _ (List.mem_cons_of_mem _ member))
    have := behind other member
    exact ⟨taken.same _ (by omega) (by omega), taken.same _ (by omega) (by omega)⟩
  have prefixed : List.Sublist (slab.start :: passed.map (·.1))
      (slab.start :: (passed ++ block :: rest).map (·.1)) :=
    ((List.sublist_append_left passed _).map _).cons_cons _
  refine Path.splice reached (fun other member => ?_) (fun link isLink inner => ?_)
    (lists.increasing.sublist prefixed) ?_
  · have := links other.1 (.inr ⟨other, member, rfl⟩)
    rw [FreeList.size, taken.same _ (by omega) (by omega), ← FreeList.size]
  · have := links link isLink
    rw [next, taken.same _ (by omega) (by omega), ← next]
  · rw [taken.linked, divided]
    split
    · next fit =>
      have := (lists.bounds (List.mem_append_right passed List.mem_cons_self)).1
      exact ⟨rfl, by omega, taken.sized fit, by rw [taken.goesOn fit]; exact restKept⟩
    · exact restKept

/-- The free list is in order after a request was taken. -/
theorem taken
    (taken : Taken memory after (lastOr slab.start passed) block.1 block.2 request (next memory block.1)) :
    slab.Listed after (passed ++ remainder block request ++ rest) := by
  have here := lists.bounds (List.mem_append_right passed List.mem_cons_self)
  obtain ⟨front, behind, ahead⟩ := List.pairwise_append.mp lists.ordered
  obtain ⟨next, later⟩ := List.pairwise_cons.mp behind
  -- What holds of the old free blocks and of the remainder holds of all that are free now.
  have each {property : Nat × Nat → Prop} (old : ∀ other ∈ passed ++ block :: rest, property other)
      (new : request < block.2 → property (block.1 + request, block.2 - request)) :
      ∀ other ∈ passed ++ remainder block request ++ rest, property other := by
    intro other member
    rcases List.mem_append.mp member with inFront | inRest
    · rcases List.mem_append.mp inFront with inPassed | isLeft
      · exact old other (List.mem_append_left _ inPassed)
      · obtain ⟨rfl, fits⟩ := eq_of_mem_remainder isLeft
        exact new fits
    · exact old other (List.mem_append_right _ (List.mem_cons_of_mem _ inRest))
  refine ⟨lists.startAligned, lists.sentinel, lists.bounded, ?_, each lists.inside fun fits => ?_,
    each lists.granular fun fits => ?_, ?_⟩
  · rw [List.append_assoc]
    exact chain_iff_path.mpr (lists.path_taken whole taken)
  · simp only [Slab.objects, blockUnit]
    omega
  · simp only [blockUnit] at *
    omega
  · refine List.pairwise_append.mpr ⟨List.pairwise_append.mpr ⟨front, ?_, ?_⟩, later, ?_⟩
    · rw [remainder]
      split
      · exact List.pairwise_singleton _ _
      · exact .nil
    · intro other inPassed left isLeft
      have := ahead other inPassed block List.mem_cons_self
      obtain ⟨rfl, _⟩ := eq_of_mem_remainder isLeft
      omega
    · intro other inFront last inRest
      rcases List.mem_append.mp inFront with inPassed | isLeft
      · exact ahead other inPassed last (List.mem_cons_of_mem _ inRest)
      · have := next last inRest
        obtain ⟨rfl, _⟩ := eq_of_mem_remainder isLeft
        omega

/-- The first block with room for a request is found, and gives it. -/
theorem gives (positive : 0 < request) (small : ∀ other ∈ passed, other.2 < request)
    (fits : request ≤ block.2) :
    ∃ fit : Fit, slab.fit? memory request = .ok (some fit) ∧ fit.block = block.1 ∧
      slab.Gives memory (fit.carve request memory) request passed block rest := by
  have present : block ∈ passed ++ block :: rest := by simp
  have bounds := lists.bounds present
  have length := lists.length_le
  obtain ⟨aligned, before, _⟩ := lists.lastOr_bounds
  have path := chain_iff_path.mp lists.chain
  have sized := (path.present present).2
  refine ⟨⟨block.1, lastOr slab.start passed, decide (request + blockUnit ≤ block.2)⟩, ?_, rfl, ?_⟩
  · have found : firstFit? memory request slab.start (slab.firstFree memory) Size.wordLimit =
        some (lastOr slab.start passed, block.1) := by
      refine path.firstFit small fits ?_
      simp only [List.length_append, List.length_cons] at length
      omega
    have inRange : request + blockUnit < Size.limit := by
      simp only [blockUnit] at *
      omega
    simp only [fit?, found, Size.add_eq_ok inRange, sized]
    rfl
  · have taken := taken_carve bounds.2.1 aligned whole positive fits before (by omega) sized
    have listed := lists.taken whole taken
    have now := listed.freeBlocks_eq
    refine ⟨lists.freeBlocks_eq, small, fits, now, now ▸ listed, taken.zero,
      fun address outside node link => ?_⟩
    have wordAligned : block.1 % 8 = 0 ∧ lastOr slab.start passed % 8 = 0 ∧ request % 8 = 0 := by
      simp only [blockUnit] at whole
      omega
    refine Fit.read_carve wordAligned.1 wordAligned.2.1 wordAligned.2.2 outside (fun inside => node ?_)
      link
    exact ⟨(lists.lt_iff_splits whole).mp (of_decide_eq_true inside.1), inside.2⟩

/-- A slab that gives a block changes nothing outside itself, and nothing between its free blocks. -/
theorem beside (gives : slab.Gives memory after request passed block rest) {address : Nat}
    (outside : address < slab.start ∨ slab.stop ≤ address ∨ slab.objects ≤ address ∧
      ∀ free ∈ passed ++ block :: rest, address < free.1 ∨ free.1 + free.2 ≤ address) :
    after.read address = memory.read address := by
  have present : block ∈ passed ++ block :: rest := by simp
  have clear {free : Nat × Nat} (member : free ∈ passed ++ block :: rest) :
      address < free.1 ∨ free.1 + free.2 ≤ address := by
    have := lists.bounds member
    rcases outside with below | above | ⟨_, apart⟩
    · omega
    · omega
    · exact apart free member
  have here := clear present
  have fits := gives.fits
  have ahead : ¬ (lastOr slab.start passed + wordBytes ≤ address ∧
      address < lastOr slab.start passed + blockUnit) := by
    rcases lastOr_mem slab.start passed with isStart | ⟨other, member, isLast⟩
    · have := lists.bounds present
      simp only [isStart, Slab.objects, blockUnit, wordBytes] at *
      omega
    · have inList := List.mem_append_left (block :: rest) member
      have := clear inList
      have := lists.bounds inList
      simp only [← isLast, blockUnit, wordBytes]
      omega
  refine gives.same address ?_ ?_ ahead
  · omega
  · rintro ⟨splits, node⟩
    have := (lists.lt_iff_splits whole).mpr splits
    omega

end Taking

theorem fit?_eq_none (lists : slab.Listed memory listed) (small : ∀ block ∈ listed, block.2 < request) :
    slab.fit? memory request = .ok none := by
  have none : firstFit? memory request slab.start (slab.firstFree memory) Size.wordLimit = none :=
    (lists.chain.firstFit?_eq_none_iff lists.length_le).mpr small
  simp only [fit?, none]
  rfl

end Listed

end Slab

namespace Heap

variable {machine : Machine} {slabs : List Slab} {request : Nat}

/-- The first of several slabs that has a block for a request gives it, and nothing else changes: no
other slab, and no word between the blocks of the slab that were free. -/
structure GivesFirst (slabs : List Slab) (memory after : Memory) (request : Nat) (slab : Slab)
    (passed : List (Nat × Nat)) (block : Nat × Nat) (rest : List (Nat × Nat)) : Prop where
  first : ∃ earlier later, slabs = earlier ++ slab :: later ∧
    ∀ other ∈ earlier, other.largestFree memory < request
  gives : slab.Gives memory after request passed block rest
  others : ∀ other ∈ slabs, other ≠ slab → ∀ address, other.start ≤ address → address < other.stop →
    after.read address = memory.read address
  allocated : ∀ address, slab.objects ≤ address →
    (∀ free ∈ slab.freeBlocks memory, address < free.1 ∨ free.1 + free.2 ≤ address) →
      after.read address = memory.read address

/-- What comes of a request to several slabs. -/
structure TakesExactly (slabs : List Slab) (request : Nat) (machine : Machine) (answer : Option Nat)
    (final : Machine) : Prop where
  refused : answer = none ↔ ∀ slab ∈ slabs, slab.largestFree machine.memory < request
  unchanged : answer = none → final = machine
  taken : ∀ start, answer = some start → final = machine.withMemory final.memory ∧
    ∃ slab passed size rest,
      GivesFirst slabs machine.memory final.memory request slab passed (start, size) rest

/-- A slab that gives a block leaves the other slabs and the allocated blocks alone. -/
theorem GivesFirst.of_gives {memory after : Memory} {slab : Slab} {passed rest : List (Nat × Nat)}
    {block : Nat × Nat} (first : ∃ earlier later, slabs = earlier ++ slab :: later ∧
      ∀ other ∈ earlier, other.largestFree memory < request)
    (lists : ∀ slab ∈ slabs, slab.Listed memory (slab.freeBlocks memory))
    (apart : slabs.Pairwise Slab.Apart) (whole : request % blockUnit = 0)
    (gives : slab.Gives memory after request passed block rest) :
    GivesFirst slabs memory after request slab passed block rest := by
  have inList : slab ∈ slabs := by
    obtain ⟨_, _, rfl, _⟩ := first
    simp
  have here := gives.before ▸ lists slab inList
  refine ⟨first, gives, fun other member different address lower upper => ?_,
    fun address behind clear => here.beside whole gives (.inr (.inr ⟨behind, gives.before ▸ clear⟩))⟩
  have distinct := apart.forall member inList different
  simp only [Slab.Apart] at distinct
  exact here.beside whole gives (by omega)

/-- A request is refused just where no slab has a block for it. Else the first block in address order of
the first slab that has one is taken, and no other word than those of the block, of what is left of it,
and the link in front changes. -/
theorem takeFrom_exact (lists : ∀ slab ∈ slabs, slab.Listed machine.memory (slab.freeBlocks machine.memory))
    (apart : slabs.Pairwise Slab.Apart) (whole : request % blockUnit = 0) (large : blockUnit ≤ request) :
    (takeFrom request slabs).Ensures machine (TakesExactly slabs request machine) := by
  have positive : 0 < request := by
    simp only [blockUnit] at large
    omega
  induction slabs with
  | nil =>
      exact Action.ensures_pure.mpr ⟨by simp, fun _ => rfl, fun _ isNone => by cases isNone⟩
  | cons slab rest ih =>
      have here := lists slab List.mem_cons_self
      unfold takeFrom
      rw [Action.ensures_memory]
      by_cases small : ∀ block ∈ slab.freeBlocks machine.memory, block.2 < request
      · rw [Action.ensures_check (here.fit?_eq_none small)]
        refine (ih (fun other member => lists other (List.mem_cons_of_mem _ member)) apart.of_cons).weaken ?_
        intro answer final exactly
        have full := (Slab.largestFree_lt_iff positive).mpr small
        refine ⟨by rw [exactly.refused, List.forall_mem_cons, and_iff_right full], exactly.unchanged,
          fun start given => ?_⟩
        obtain ⟨same, other, passed, size, others, fit⟩ := exactly.taken start given
        obtain ⟨earlier, later, rfl, before⟩ := fit.first
        exact ⟨same, other, passed, size, others, .of_gives
          ⟨slab :: earlier, later, rfl, List.forall_mem_cons.mpr ⟨full, before⟩⟩ lists apart whole fit.gives⟩
      · obtain ⟨passed, block, others, split, before, fits⟩ := exists_first small
        have divided := split ▸ here
        obtain ⟨fit, found, starts, gives⟩ := divided.gives whole positive before fits
        rw [Action.ensures_check found, Action.ensures_onMemory]
        refine Action.ensures_pure.mpr ⟨?_, by simp, fun start same =>
          ⟨rfl, slab, passed, block.2, others, ?_⟩⟩
        · have room := mt (Slab.largestFree_lt_iff positive).mp small
          simp [room]
        · cases same
          rw [starts]
          exact .of_gives ⟨[], rest, rfl, by simp⟩ lists apart whole gives

section Shelves

/-- A slab with room for one unit only. -/
def narrowSlab : Slab := ⟨0x3ffffffff000, 48, 48⟩

/-- A slab with a free unit, an allocated one and four free ones. -/
def wideSlab : Slab := ⟨0x3fffffffe000, 112, 112⟩

/-- The free lists of a narrow and a wide slab. -/
def shelves : Memory :=
  [(0x3ffffffff000, 0, 0x3ffffffff010), (0x3ffffffff010, 16, 0), (0x3fffffffe000, 0, 0x3fffffffe010),
      (0x3fffffffe010, 16, 0x3fffffffe030), (0x3fffffffe030, 64, 0)].foldl
    (fun memory (node, size, next) => writeNode memory node size next) .empty

theorem listed_narrowSlab : narrowSlab.Listed shelves (narrowSlab.freeBlocks shelves) := by
  have free : narrowSlab.freeBlocks shelves = [(0x3ffffffff010, 16)] := by decide +kernel
  rw [free]
  refine ⟨by decide, by decide, by decide, chain_iff_path.mpr ?_, by decide, by decide, by simp⟩
  simp only [FreeList.Path]
  decide +kernel

theorem listed_wideSlab : wideSlab.Listed shelves (wideSlab.freeBlocks shelves) := by
  have free : wideSlab.freeBlocks shelves = [(0x3fffffffe010, 16), (0x3fffffffe030, 64)] := by
    decide +kernel
  rw [free]
  refine ⟨by decide, by decide, by decide, chain_iff_path.mpr ?_, by decide, by decide, by simp⟩
  simp only [FreeList.Path]
  decide +kernel

/-- Two units do not fit in front; behind, they come from the second free block, which is split. -/
theorem takeFrom_exact_behind : ∃ final,
    (takeFrom 32 [narrowSlab, wideSlab]).run { memory := shelves } = .ok (some 0x3fffffffe030) final ∧
    TakesExactly [narrowSlab, wideSlab] 32 { memory := shelves } (some 0x3fffffffe030) final ∧
    wideSlab.freeBlocks final.memory = [(0x3fffffffe010, 16), (0x3fffffffe050, 32)] := by
  have lists : ∀ slab ∈ [narrowSlab, wideSlab], slab.Listed shelves (slab.freeBlocks shelves) := by
    simpa using ⟨listed_narrowSlab, listed_wideSlab⟩
  have apart : [narrowSlab, wideSlab].Pairwise Slab.Apart := by
    simp [Slab.Apart, narrowSlab, wideSlab, Slab.stop]
  have ensures : (takeFrom 32 [narrowSlab, wideSlab]).Ensures { memory := shelves } _ :=
    takeFrom_exact lists apart (by decide) (by decide)
  obtain ⟨answer, final, ran, exactly⟩ := ensures
  have result : (takeFrom 32 [narrowSlab, wideSlab]).run { memory := shelves } = .ok (some 0x3fffffffe030)
      { memory := Slab.Fit.carve ⟨0x3fffffffe030, 0x3fffffffe010, true⟩ 32 shelves } := rfl
  cases result.symm.trans ran
  exact ⟨_, ran, exactly, by decide +kernel⟩

end Shelves

end Heap

end SlabHeap
