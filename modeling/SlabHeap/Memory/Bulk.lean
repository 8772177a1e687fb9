import SlabHeap.Memory

namespace SlabHeap.Memory

/-! Changes to many words: filling and copying.

Where a whole page is concerned it is replaced at once; pages may share their words, so that neither
operation takes more than a step for each page. Main statements: `read_fillWords` and
`read_copyWords`.
-/

/-- The words in one page. -/
def pageWords : Nat := 512

/-- A page that has the same word everywhere. -/
def filledPage (word : UInt64) : Array UInt64 :=
  if word = 0 then #[] else Array.replicate pageWords word

/-- Writes the same word to `count` places from `address` on, in at most `bound` steps; `filled` is
the page that has this word everywhere. -/
def fillFrom (word : UInt64) (filled : Array UInt64) (memory : Memory) (address count : Nat) :
    Nat → Memory
  | 0 => memory
  | bound + 1 =>
      if count = 0 then memory
      else if address % pageBytes = 0 ∧ pageWords ≤ count then
        fillFrom word filled (memory.setPage (pageNumber address) filled) (address + pageBytes)
          (count - pageWords) bound
      else fillFrom word filled (memory.put address word) (address + 8) (count - 1) bound

/-- Writes the same word `count` times from `address` on. -/
def fillWords (memory : Memory) (word : UInt64) (address count : Nat) : Memory :=
  let filled := if pageWords ≤ count then filledPage word else #[]
  fillFrom word filled memory address count count

/-- Copies `count` words, lowest first, in at most `bound` steps. -/
def copyFrom (memory : Memory) (source target count : Nat) : Nat → Memory
  | 0 => memory
  | bound + 1 =>
      if count = 0 then memory
      else if source % pageBytes = 0 ∧ target % pageBytes = 0 ∧ pageWords ≤ count then
        copyFrom (memory.setPage (pageNumber target) (memory.page (pageNumber source)))
          (source + pageBytes) (target + pageBytes) (count - pageWords) bound
      else
        copyFrom (memory.put target (memory.read source)) (source + 8) (target + 8) (count - 1)
          bound

/-- Copies `count` words. -/
def copyWords (memory : Memory) (source target count : Nat) : Memory :=
  copyFrom memory source target count count

theorem getD_filledPage (word : UInt64) {index : Nat} (inside : index < pageWords) :
    (filledPage word).getD index 0 = word := by
  simp only [filledPage]
  split
  · next zero => simp [zero]
  · simp [inside]

theorem read_fillFrom {word : UInt64} {filled : Array UInt64} {memory : Memory}
    {address count bound : Nat} (aligned : address % 8 = 0) (enough : count ≤ bound)
    (same : pageWords ≤ count → ∀ index < pageWords, filled.getD index 0 = word) (other : Nat) :
    (fillFrom word filled memory address count bound).read other =
      if address ≤ other ∧ other < address + 8 * count then word else memory.read other := by
  induction bound generalizing memory address count with
  | zero =>
      have outside : ¬ (address ≤ other ∧ other < address + 8 * count) := by omega
      simp only [fillFrom, outside, if_false]
  | succ bound ih =>
      simp only [fillFrom]
      split
      · next none =>
        have outside : ¬ (address ≤ other ∧ other < address + 8 * count) := by omega
        simp only [outside, if_false]
      split
      · next whole =>
        have offset : other % pageBytes / 8 < pageWords := by
          simp only [pageBytes, pageWords]
          omega
        simp only [ih (show (address + pageBytes) % 8 = 0 by simp only [pageBytes]; omega)
          (show count - pageWords ≤ bound by simp only [pageWords]; omega)
          (fun _ => same whole.2), read_setPage, pageNumber_inj, same whole.2 _ offset]
        simp only [pageBytes, pageWords] at *
        grind
      · rw [ih (by omega) (by omega) (fun room => same (by omega)), read_put]
        grind

theorem read_fillWords (memory : Memory) (word : UInt64) {address : Nat} (aligned : address % 8 = 0)
    (count other : Nat) :
    (memory.fillWords word address count).read other =
      if address ≤ other ∧ other < address + 8 * count then word else memory.read other := by
  refine read_fillFrom aligned (Nat.le_refl count) (fun room index inside => ?_) other
  simp only [room, if_true, getD_filledPage word inside]

/-- What is read at an address when `count` words from `source` on have been copied to `target`. -/
def readCopied (memory : Memory) (source target count other : Nat) : UInt64 :=
  if target ≤ other ∧ other < target + 8 * count then memory.read (source + (other - target))
  else memory.read other

/-- The next words are copied after the first ones have been. -/
theorem readCopied_add {memory first : Memory} {source target done rest : Nat}
    (apart : source + 8 * (done + rest) ≤ target ∨ target + 8 * (done + rest) ≤ source)
    (copied : ∀ other, first.read other = memory.readCopied source target done other) (other : Nat) :
    first.readCopied (source + 8 * done) (target + 8 * done) rest other =
      memory.readCopied source target (done + rest) other := by
  simp only [readCopied] at copied ⊢
  by_cases later : target + 8 * done ≤ other ∧ other < target + 8 * done + 8 * rest
  · have place : source + 8 * done + (other - (target + 8 * done)) = source + (other - target) := by omega
    rw [if_pos later, if_pos (by omega), place, copied, if_neg (by omega)]
  · rw [if_neg later, copied]
    exact ite_congr (propext (by omega)) (fun _ => rfl) fun _ => rfl

theorem read_put_copied (memory : Memory) (source other : Nat) {target : Nat} (aligned : source % 8 = 0)
    (targetAligned : target % 8 = 0) :
    (memory.put target (memory.read source)).read other = memory.readCopied source target 1 other := by
  rw [read_put, readCopied]
  by_cases inside : target ≤ other ∧ other < target + 8 * 1
  · rw [if_pos inside, if_pos (by omega)]
    exact memory.read_congr (by omega)
  · rw [if_neg inside, if_neg (by omega)]

theorem read_setPage_copied (memory : Memory) (other : Nat) {source target : Nat}
    (aligned : source % pageBytes = 0) (targetAligned : target % pageBytes = 0) :
    (memory.setPage (pageNumber target) (memory.page (pageNumber source))).read other =
      memory.readCopied source target pageWords other := by
  have page : pageNumber other = pageNumber target ↔ target ≤ other ∧ other < target + 8 * pageWords := by
    simp only [pageNumber_inj, pageBytes, pageWords] at *
    omega
  rw [read_setPage, readCopied]
  refine ite_congr (propext page) (fun inside => ?_) fun _ => rfl
  have number : pageNumber (source + (other - target)) = pageNumber source := by
    simp only [pageNumber_inj, pageBytes, pageWords] at *
    omega
  have offset : (source + (other - target)) % pageBytes = other % pageBytes := by
    simp only [pageBytes, pageWords] at *
    omega
  rw [read, number, offset]

theorem read_copyFrom {memory : Memory} {source target count bound : Nat}
    (sourceAligned : source % 8 = 0) (targetAligned : target % 8 = 0) (enough : count ≤ bound)
    (apart : source + 8 * count ≤ target ∨ target + 8 * count ≤ source) (other : Nat) :
    (copyFrom memory source target count bound).read other = memory.readCopied source target count other := by
  induction bound generalizing memory source target count with
  | zero =>
      obtain rfl : count = 0 := by omega
      rw [copyFrom, readCopied, if_neg (by omega)]
  | succ bound ih =>
      rw [copyFrom]
      split
      · next none => rw [none, readCopied, if_neg (by omega)]
      split
      · next whole =>
        obtain ⟨aligned, alsoAligned, room⟩ := whole
        obtain ⟨rest, rfl⟩ := Nat.exists_eq_add_of_le room
        rw [← readCopied_add apart fun other => read_setPage_copied memory other aligned alsoAligned,
          Nat.add_sub_cancel_left]
        simp only [pageBytes, pageWords] at *
        exact ih (by omega) (by omega) (by omega) (by omega)
      · next some =>
        obtain ⟨rest, rfl⟩ := Nat.exists_eq_add_of_le' (Nat.pos_of_ne_zero ‹¬count = 0›)
        rw [Nat.add_comm rest 1] at apart ⊢
        rw [← readCopied_add apart fun other => read_put_copied memory source other sourceAligned targetAligned,
          Nat.add_sub_cancel_left]
        exact ih (by omega) (by omega) (by omega) (by omega)

theorem read_copyWords (memory : Memory) {source target : Nat} (count other : Nat)
    (sourceAligned : source % 8 = 0) (targetAligned : target % 8 = 0)
    (apart : source + 8 * count ≤ target ∨ target + 8 * count ≤ source) :
    (memory.copyWords source target count).read other =
      if target ≤ other ∧ other < target + 8 * count then memory.read (source + (other - target))
      else memory.read other :=
  read_copyFrom sourceAligned targetAligned (Nat.le_refl count) apart other

end SlabHeap.Memory
