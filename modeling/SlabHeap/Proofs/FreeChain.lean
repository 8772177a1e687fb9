import SlabHeap.FreeList

namespace SlabHeap.FreeList

/-! Stretches of free lists.

`Path` is a stretch of a list: from one node over given blocks to the node behind them. A whole list
is a path to 0. Splitting a path at a block describes the look-ups (`Path.seek`, `Path.firstFit`);
`Path.splice` is the one lemma about changing a list.
-/

variable {memory after : Memory} {node stop before limit bound : Nat}
  {listed passed rest : List (Nat × Nat)}

/-- Following the list from `node` over the given blocks leads to `stop`. -/
def Path (memory : Memory) : Nat → List (Nat × Nat) → Nat → Prop
  | node, [], stop => node = stop
  | node, block :: rest, stop =>
      node = block.1 ∧ node ≠ 0 ∧ size memory node = block.2 ∧
        Path memory (next memory node) rest stop

theorem size_setSize {size : Nat} (isSize : size < Size.limit) :
    FreeList.size (setSize memory node size) node = size := by
  simp only [FreeList.size, setSize, Memory.read_write_same, UInt64.toNat_ofNat']
  exact Nat.mod_eq_of_lt isSize

theorem next_setNext {next : Nat} (isAddress : next < Size.limit) :
    FreeList.next (setNext memory node next) node = next := by
  simp only [FreeList.next, setNext, Memory.read_write_same, UInt64.toNat_ofNat']
  exact Nat.mod_eq_of_lt isAddress

theorem read_setSize {size address : Nat} (aligned : node % 8 = 0)
    (outside : ¬ (node ≤ address ∧ address < node + 8)) :
    (setSize memory node size).read address = memory.read address := by
  rw [setSize, Memory.read_write, if_neg (by omega)]

theorem read_setNext {next address : Nat} (aligned : node % 8 = 0)
    (outside : ¬ (node + 8 ≤ address ∧ address < node + 16)) :
    (setNext memory node next).read address = memory.read address := by
  rw [setNext, Memory.read_write, if_neg (by omega)]

theorem read_writeNode {size next address : Nat} (aligned : node % 8 = 0)
    (outside : ¬ (node ≤ address ∧ address < node + 16)) :
    (writeNode memory node size next).read address = memory.read address := by
  rw [writeNode, read_setNext aligned (by omega), read_setSize aligned (by omega)]

def firstOr (stop : Nat) : List (Nat × Nat) → Nat
  | [] => stop
  | block :: _ => block.1

def lastOr (before : Nat) : List (Nat × Nat) → Nat
  | [] => before
  | block :: rest => lastOr block.1 rest

theorem lastOr_append_singleton (before : Nat) (listed : List (Nat × Nat)) (block : Nat × Nat) :
    lastOr before (listed ++ [block]) = block.1 := by
  induction listed generalizing before with
  | nil => rfl
  | cons head rest ih => exact ih head.1

theorem lastOr_append (before : Nat) (left right : List (Nat × Nat)) :
    lastOr before (left ++ right) = lastOr (lastOr before left) right := by
  induction left generalizing before with
  | nil => rfl
  | cons head rest ih => exact ih head.1

theorem lastOr_mem (before : Nat) (listed : List (Nat × Nat)) :
    lastOr before listed = before ∨ ∃ block ∈ listed, block.1 = lastOr before listed := by
  induction listed generalizing before with
  | nil => exact .inl rfl
  | cons head rest ih =>
      refine .inr ?_
      rcases ih head.1 with same | ⟨block, member, found⟩
      · exact ⟨head, List.mem_cons_self, same.symm⟩
      · exact ⟨block, List.mem_cons_of_mem _ member, found⟩

theorem chain_iff_path : Chain memory node listed ↔ Path memory node listed 0 := by
  constructor
  · intro chain
    induction chain with
    | stop => rfl
    | link present _ ih => exact ⟨rfl, present, rfl, ih⟩
  · intro path
    induction listed generalizing node with
    | nil => exact path ▸ .stop
    | cons block rest ih =>
        obtain ⟨start, size⟩ := block
        obtain ⟨rfl, present, rfl, goesOn⟩ := path
        exact .link present (ih goesOn)

theorem path_append :
    Path memory node (passed ++ rest) stop ↔
      ∃ mid, Path memory node passed mid ∧ Path memory mid rest stop := by
  induction passed generalizing node with
  | nil => simp [Path]
  | cons block passed ih =>
      simp only [List.cons_append, Path, ih]
      constructor
      · rintro ⟨start, present, sized, mid, first, second⟩
        exact ⟨mid, ⟨start, present, sized, first⟩, second⟩
      · rintro ⟨mid, ⟨start, present, sized, first⟩, second⟩
        exact ⟨start, present, sized, mid, first, second⟩

theorem Path.start_eq (path : Path memory node listed stop) : node = firstOr stop listed := by
  cases listed with
  | nil => exact path
  | cons block rest => exact path.1

theorem Path.present (path : Path memory node listed stop) {block : Nat × Nat}
    (member : block ∈ listed) : block.1 ≠ 0 ∧ size memory block.1 = block.2 := by
  induction listed generalizing node with
  | nil => contradiction
  | cons head rest ih =>
      obtain ⟨start, nonzero, sized, goesOn⟩ := path
      rcases List.mem_cons.mp member with rfl | later
      · exact ⟨start ▸ nonzero, start ▸ sized⟩
      · exact ih goesOn later

theorem Path.congr (path : Path memory node listed stop)
    (kept : ∀ block ∈ listed, after.read block.1 = memory.read block.1 ∧
      after.read (block.1 + 8) = memory.read (block.1 + 8)) : Path after node listed stop := by
  induction listed generalizing node with
  | nil => exact path
  | cons head rest ih =>
      obtain ⟨rfl, present, sized, goesOn⟩ := path
      obtain ⟨sizeKept, nextKept⟩ := kept head List.mem_cons_self
      refine ⟨rfl, present, by rw [size, sizeKept]; exact sized, ?_⟩
      rw [next, nextKept]
      exact ih goesOn fun block member => kept block (List.mem_cons_of_mem _ member)

/-- The link behind a stretch of nodes. -/
theorem Path.next_last (path : Path memory (next memory before) listed stop) :
    next memory (lastOr before listed) = stop := by
  induction listed generalizing before with
  | nil => exact path
  | cons head rest ih =>
      obtain ⟨start, _, _, goesOn⟩ := path
      rw [start] at goesOn
      exact ih goesOn

theorem Path.leads {link : Nat} (path : Path memory (next memory before) listed stop)
    (isLink : link = before ∨ ∃ block ∈ listed, block.1 = link) :
    next memory link = stop ∨ ∃ block ∈ listed, block.1 = next memory link := by
  induction listed generalizing before with
  | nil =>
      rcases isLink with rfl | ⟨_, none, _⟩
      · exact .inl path
      · cases none
  | cons head rest ih =>
      obtain ⟨start, _, _, goesOn⟩ := path
      rw [start] at goesOn
      rcases isLink with rfl | ⟨block, member, rfl⟩
      · exact .inr ⟨head, List.mem_cons_self, start.symm⟩
      · have onward : block.1 = head.1 ∨ ∃ other ∈ rest, other.1 = block.1 := by
          rcases List.mem_cons.mp member with rfl | later
          · exact .inl rfl
          · exact .inr ⟨block, later, rfl⟩
        rcases ih goesOn onward with ends | ⟨other, later, same⟩
        · exact .inl ends
        · exact .inr ⟨other, List.mem_cons_of_mem _ later, same⟩

/-- Behind nodes below the limit a search arrives at the first node that is not. -/
theorem Path.seek (path : Path memory node (passed ++ rest) 0)
    (below : ∀ block ∈ passed, block.1 < limit) (above : ∀ block ∈ rest, limit ≤ block.1)
    (enough : passed.length ≤ bound) :
    seek memory limit before node bound = (lastOr before passed, firstOr 0 rest) := by
  induction passed generalizing node before bound with
  | nil =>
      have start := path.start_eq
      have halted : ¬ (node ≠ 0 ∧ node < limit) := by
        cases rest with
        | nil =>
            simp only [List.nil_append, firstOr] at start
            simp [start]
        | cons block rest =>
            have reached := above block List.mem_cons_self
            simp only [List.nil_append, firstOr] at start
            omega
      simp only [List.nil_append] at start
      cases bound with
      | zero => simp [FreeList.seek, lastOr, start]
      | succ bound => rw [FreeList.seek, if_neg halted, lastOr, start]
  | cons block passed ih =>
      obtain ⟨start, present, sized, goesOn⟩ := path
      cases bound with
      | zero => simp at enough
      | succ bound =>
          have lower := below block List.mem_cons_self
          have going : node ≠ 0 ∧ node < limit := ⟨present, start ▸ lower⟩
          rw [FreeList.seek, if_pos going,
            ih goesOn (fun other member => below other (List.mem_cons_of_mem _ member))
              (by simpa using enough), lastOr, ← start]

/-- Behind blocks that are too small a search finds the first one that is not. -/
theorem Path.firstFit {request : Nat} {block : Nat × Nat}
    (path : Path memory node (passed ++ block :: rest) 0)
    (small : ∀ other ∈ passed, other.2 < request) (fits : request ≤ block.2)
    (enough : passed.length < bound) :
    firstFit? memory request before node bound = some (lastOr before passed, block.1) := by
  induction passed generalizing node before bound with
  | nil =>
      obtain ⟨start, present, sized, _⟩ := path
      cases bound with
      | zero => simp at enough
      | succ bound =>
          rw [FreeList.firstFit?, if_neg present, if_pos (by omega), lastOr, start]
  | cons head passed ih =>
      obtain ⟨start, present, sized, goesOn⟩ := path
      have smaller := small head List.mem_cons_self
      cases bound with
      | zero => simp at enough
      | succ bound =>
          rw [FreeList.firstFit?, if_neg present, if_neg (by omega),
            ih goesOn (fun other member => small other (List.mem_cons_of_mem _ member))
              (by simpa using enough), lastOr, ← start]

/-- Where a list is changed: the nodes of a stretch keep their words but for the link of the last
one, from where the list goes on differently. -/
theorem Path.splice {other : Nat} (path : Path memory (next memory before) passed stop)
    (sizes : ∀ block ∈ passed, size after block.1 = size memory block.1)
    (links : ∀ link, link = before ∨ (∃ block ∈ passed, block.1 = link) →
      link ≠ lastOr before passed → next after link = next memory link)
    (distinct : (before :: passed.map (·.1)).Pairwise (· < ·))
    (goesOn : Path after (next after (lastOr before passed)) rest other) :
    Path after (next after before) (passed ++ rest) other := by
  induction passed generalizing before with
  | nil => exact goesOn
  | cons head passed ih =>
      obtain ⟨start, present, sized, later⟩ := path
      have ordered : (head.1 :: passed.map (·.1)).Pairwise (· < ·) := by
        simpa using (List.pairwise_cons.mp distinct).2
      have behind : before < lastOr before (head :: passed) := by
        rcases lastOr_mem head.1 passed with same | ⟨block, member, found⟩
        · exact same ▸ (List.pairwise_cons.mp distinct).1 head.1 (by simp)
        · rw [lastOr, ← found]
          refine (List.pairwise_cons.mp distinct).1 block.1 ?_
          exact List.mem_map.mpr ⟨block, List.mem_cons_of_mem _ member, rfl⟩
      have link : next after before = next memory before :=
        links before (.inl rfl) (Nat.ne_of_lt behind)
      refine ⟨by rw [link, start], by rw [link]; exact present, ?_, ?_⟩
      · rw [link, start, sizes head List.mem_cons_self, ← start]
        exact sized
      · rw [link, start]
        rw [start] at later
        refine ih later (fun block member => sizes block (List.mem_cons_of_mem _ member)) ?_
          ordered goesOn
        rintro link (rfl | ⟨block, member, rfl⟩) inner
        · exact links _ (.inr ⟨head, List.mem_cons_self, rfl⟩) inner
        · exact links _ (.inr ⟨block, List.mem_cons_of_mem _ member, rfl⟩) inner

end SlabHeap.FreeList
