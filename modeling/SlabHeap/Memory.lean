import SlabHeap.Memory.Table
import SlabHeap.Size

namespace SlabHeap

/-! The memory that all heaps share.

Every address has a word, zero until it is written; an address that is no multiple of eight names
the word that it lies in. Memory is divided into pages so that many words can be changed at once; a
page is an array of words, with zeros behind its end. For each way to change memory there is a
statement on what is read afterwards: `read_write`, `read_put`, `read_setPage` and
`read_clearPages`.
-/

/-- The words of all pages. -/
structure Memory where
  pages : Table (Array UInt64)

namespace Memory

/-- The bytes in one page. -/
def pageBytes : Nat := 4096

/-- How many pages lie below the end of the range that slabs may use. -/
@[noinline]
def pageLimit : Nat := 0x400000000

/-- The number of the page of an address. Pages are counted downwards from the end of the range for
slabs, then upwards behind it, so that the pages in use have small numbers. -/
def pageNumber (address : Nat) : Nat :=
  if address / pageBytes < pageLimit then pageLimit - 1 - address / pageBytes
  else address / pageBytes

def empty : Memory := ⟨.empty⟩

/-- The words of a page. -/
def page (memory : Memory) (number : Nat) : Array UInt64 := memory.pages.get #[] number

/-- The word at an address. -/
def read (memory : Memory) (address : Nat) : UInt64 :=
  (memory.page (pageNumber address)).getD (address % pageBytes / 8) 0

/-- Replaces the words of a page. -/
def setPage (memory : Memory) (number : Nat) (page : Array UInt64) : Memory :=
  ⟨memory.pages.modify #[] number fun _ => page⟩

/-- Replaces the word at an address. -/
def write (memory : Memory) (address : Nat) (word : UInt64) : Memory :=
  ⟨memory.pages.modify #[] (pageNumber address) fun page =>
    Padded.change 0 page (address % pageBytes / 8) fun _ => word⟩

/-- Makes a word the one at an address. Nothing is written where it stands already. -/
def put (memory : Memory) (address : Nat) (word : UInt64) : Memory :=
  if memory.read address = word then memory else memory.write address word

/-- Empties `count` pages from number `first` on: all their words become zero. -/
def clearPages (memory : Memory) (first count : Nat) : Memory :=
  ⟨memory.pages.clear #[] first (first + count)⟩

/-- Whether `count` words from `address` on are zero. -/
def zeros (memory : Memory) (address : Nat) : Nat → Bool
  | 0 => true
  | count + 1 => memory.read address = 0 && memory.zeros (address + 8) count

/-- The words at `count` addresses from `address` on. -/
def words (memory : Memory) (address count : Nat) : List UInt64 :=
  (List.range count).map fun index => memory.read (address + 8 * index)

/-- The words other than zero among `count` ones from `address` on, each with its own address, in
front of `found`. -/
def nonzeroBefore (memory : Memory) (address : Nat) (found : List (Nat × UInt64)) :
    Nat → List (Nat × UInt64)
  | 0 => found
  | count + 1 =>
      let last := address + 8 * count
      let word := memory.read last
      memory.nonzeroBefore address (if word = 0 then found else (last, word) :: found) count

@[simp]
theorem read_empty (address : Nat) : empty.read address = 0 := by
  simp [empty, read, page]

theorem pageNumber_inj {address other : Nat} :
    pageNumber other = pageNumber address ↔ other / pageBytes = address / pageBytes := by
  by_cases inside : address / pageBytes < pageLimit <;>
    by_cases otherInside : other / pageBytes < pageLimit <;>
    simp only [pageNumber, inside, otherInside, if_true, if_false] <;>
    simp only [pageLimit, pageBytes] at * <;> omega

theorem read_congr (memory : Memory) {address other : Nat} (sameWord : other / 8 = address / 8) :
    memory.read other = memory.read address := by
  have samePage : pageNumber other = pageNumber address := by
    simp only [pageNumber_inj, pageBytes]
    omega
  have offset : other % pageBytes / 8 = address % pageBytes / 8 := by
    simp only [pageBytes]
    omega
  simp only [read, samePage, offset]

theorem read_write (memory : Memory) (address other : Nat) (word : UInt64) :
    (memory.write address word).read other =
      if other / 8 = address / 8 then word else memory.read other := by
  simp only [read, write, page, Table.get_modify, pageNumber_inj, pageBytes]
  by_cases same : other / 8 = address / 8
  · have samePage : other / 4096 = address / 4096 := by omega
    have offset : other % 4096 / 8 = address % 4096 / 8 := by omega
    simp only [same, samePage, offset, if_true, Padded.getD_change]
  · by_cases samePage : other / 4096 = address / 4096
    · have number : pageNumber other = pageNumber address := pageNumber_inj.mpr samePage
      have offset : other % 4096 / 8 ≠ address % 4096 / 8 := by omega
      simp only [same, samePage, number, offset, if_true, if_false, Padded.getD_change]
    · simp [same, samePage]

theorem read_write_same (memory : Memory) (address : Nat) (word : UInt64) :
    (memory.write address word).read address = word := by
  simp [read_write]

theorem read_put (memory : Memory) (address other : Nat) (word : UInt64) :
    (memory.put address word).read other =
      if other / 8 = address / 8 then word else memory.read other := by
  by_cases present : memory.read address = word
  · simp only [put, present, if_true]
    split
    · next sameWord => rw [memory.read_congr sameWord, present]
    · rfl
  · simp only [put, present, if_false, read_write]

theorem read_setPage (memory : Memory) (number : Nat) (page : Array UInt64) (other : Nat) :
    (memory.setPage number page).read other =
      if pageNumber other = number then page.getD (other % pageBytes / 8) 0
      else memory.read other := by
  simp only [read, setPage, Memory.page, Table.get_modify]
  split <;> rfl

theorem read_clearPages (memory : Memory) (first count address : Nat) :
    (memory.clearPages first count).read address =
      if first ≤ pageNumber address ∧ pageNumber address < first + count then 0
      else memory.read address := by
  simp only [read, clearPages, page, Table.get_clear]
  split <;> simp

end Memory

end SlabHeap
