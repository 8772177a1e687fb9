import SlabHeap.Proofs.Action
import SlabHeap.Proofs.Tiling

namespace SlabHeap

/-! New slabs.

A new slab takes pages that nothing uses: `Machine.Hosts` and `Machine.Vacant` say what is reserved and
what is not. `Slab.ensures_create` says that the slab has one free block behind its sentinel.
-/

open FreeList Block

namespace Machine

variable {machine final : Machine} {slab stranger : Slab} {address : Nat}

/-- The slab lies in one range of reserved pages. -/
def Hosts (machine : Machine) (slab : Slab) : Prop :=
  ∃ range ∈ machine.pages.taken, range.start ≤ slab.start ∧ slab.stop ≤ range.stop

instance (machine : Machine) (slab : Slab) : Decidable (machine.Hosts slab) :=
  inferInstanceAs (Decidable (∃ range ∈ machine.pages.taken, range.start ≤ slab.start ∧ slab.stop ≤ range.stop))

/-- No page of the slab is reserved. -/
def Vacant (machine : Machine) (slab : Slab) : Prop :=
  ∀ range ∈ machine.pages.taken, slab.stop ≤ range.start ∨ range.stop ≤ slab.start

/-- The address lies in a reserved page. -/
def Reserved (machine : Machine) (address : Nat) : Prop :=
  ∃ range ∈ machine.pages.taken, range.start ≤ address ∧ address < range.stop

/-- There is a place for so many bytes. -/
def Room (machine : Machine) (size : Nat) : Prop :=
  ∃ mapped first, Size.alignUp? size Memory.pageBytes = some mapped ∧
    machine.pages.place? (pagesFor mapped) = some first

theorem Hosts.reserved (hosted : machine.Hosts slab) (above : slab.start ≤ address)
    (below : address < slab.stop) : machine.Reserved address :=
  have ⟨range, taken, starts, stops⟩ := hosted
  ⟨range, taken, Nat.le_trans starts above, Nat.lt_of_lt_of_le below stops⟩

theorem Hosts.reserved_of_contains (hosted : machine.Hosts slab) (inside : slab.contains address = true) :
    machine.Reserved address := by
  obtain ⟨above, below⟩ := Slab.contains_iff.mp inside
  exact hosted.reserved (by omega) below

theorem Hosts.keep (hosted : machine.Hosts slab) (pages : machine.pages.taken ⊆ final.pages.taken) :
    final.Hosts slab :=
  have ⟨range, taken, bounds⟩ := hosted
  ⟨range, pages taken, bounds⟩

theorem Hosts.congr (hosted : machine.Hosts slab) (pages : final.pages = machine.pages) : final.Hosts slab :=
  hosted.keep (pages ▸ List.Subset.refl _)

theorem Reserved.keep (reserved : machine.Reserved address) (pages : machine.pages.taken ⊆ final.pages.taken) :
    final.Reserved address :=
  have ⟨range, taken, bounds⟩ := reserved
  ⟨range, pages taken, bounds⟩

theorem Vacant.before (vacant : final.Vacant slab) (pages : machine.pages.taken ⊆ final.pages.taken) :
    machine.Vacant slab := fun range taken => vacant range (pages taken)

theorem Vacant.apart (vacant : machine.Vacant slab) (hosted : machine.Hosts stranger) :
    slab.Apart stranger := by
  obtain ⟨range, taken, starts, stops⟩ := hosted
  exact (vacant range taken).imp (Nat.le_trans · starts) (Nat.le_trans stops ·)

theorem Vacant.outside (vacant : machine.Vacant slab) (reserved : machine.Reserved address) :
    address < slab.start ∨ slab.stop ≤ address := by
  obtain ⟨range, taken, starts, stops⟩ := reserved
  exact (vacant range taken).symm.imp (Nat.lt_of_lt_of_le stops ·) (Nat.le_trans · starts)

theorem Steady.taken_subset (steady : machine.Steady final) : machine.pages.taken ⊆ final.pages.taken := by
  rw [steady.pages]
  exact List.Subset.refl _

end Machine

theorem Slab.single_nonempty (slab : Slab) : [slab] ≠ [] := by simp

theorem Size.alignUp?_eq_some {number exponent rounded : Nat}
    (found : Size.alignUp? number (1 <<< exponent) = some rounded) :
    number ≤ rounded ∧ rounded < number + 2 ^ exponent ∧ rounded % 2 ^ exponent = 0 ∧
      rounded < Size.limit := by
  rw [Size.alignUp?_shift, Nat.one_shiftLeft] at found
  have positive : 0 < 2 ^ exponent := Nat.two_pow_pos exponent
  split at found
  · next small =>
    obtain rfl := Option.some.inj found
    have parts := Nat.div_add_mod' (number + (2 ^ exponent - 1)) (2 ^ exponent)
    have rest := Nat.mod_lt (number + (2 ^ exponent - 1)) positive
    refine ⟨by omega, by omega, Nat.mul_mod_left _ _, by omega⟩
  · contradiction

namespace Slab

variable {slab : Slab} {shapes : ShapeTable} {machine final : Machine} {size maxSize : Nat}

/-- A slab was made in a place of its own. -/
structure Created (slab : Slab) (shapes : ShapeTable) (machine final : Machine) : Prop where
  layout : slab.Layout shapes final.memory [⟨slab.objects, slab.size - blockUnit, .free⟩]
  hosted : final.Hosts slab
  vacant : machine.Vacant slab
  upper : slab.stop ≤ Memory.pageLimit * Memory.pageBytes
  pages : machine.pages.taken ⊆ final.pages.taken
  frames : final.frames = machine.frames
  identities : final.identities = machine.identities
  outside : ∀ address, machine.Reserved address →
    final.memory.read address = machine.memory.read address

theorem roundedSize?_eq_some {rounded : Nat} (found : roundedSize? size = some rounded) :
    size ≤ rounded ∧ minSlabSize ≤ rounded ∧ rounded % 16 = 0 ∧ rounded < Size.limit := by
  have unit : (1 : Nat) <<< 4 = blockUnit := rfl
  rw [roundedSize?, ← unit] at found
  obtain ⟨lower, _, whole, small⟩ := Size.alignUp?_eq_some found
  exact ⟨by omega, by omega, whole, small⟩

/-- As many pages are reserved as the bytes take. -/
theorem le_pagesFor (size : Nat) : size ≤ Machine.pagesFor size * Memory.pageBytes := by
  simp only [Machine.pagesFor, Memory.pageBytes]
  omega

theorem layout_single {memory : Memory} (placed : slab.Placed)
    (sentinel : FreeList.size memory slab.start = 0)
    (linked : FreeList.next memory slab.start = slab.objects)
    (sized : FreeList.size memory slab.objects = slab.size - blockUnit)
    (ended : FreeList.next memory slab.objects = 0) :
    slab.Layout shapes memory [⟨slab.objects, slab.size - blockUnit, .free⟩] := by
  have positive := placed.startPositive
  have whole := placed.sizeAligned
  have large := placed.large
  simp only [blockUnit, minSlabSize] at *
  refine ⟨placed, ⟨rfl, ?_, ?_, ?_⟩, sentinel, ?_, ?_⟩
  · simp only [blockUnit]
    omega
  · simp only [blockUnit]
    omega
  · simp only [Tiles, Block.stop, Slab.stop, Slab.objects, blockUnit]
    omega
  · rw [Slab.firstFree, linked]
    exact ⟨rfl, by simp only [Slab.objects]; omega, sized, ended⟩
  · simp [Block.Fits]

theorem ensures_reserve : (Action.reserve size).Ensures machine fun answer after =>
    (answer = none ∧ after = machine ∧ machine.reserve? size = none) ∨
      ∃ start, answer = some start ∧ machine.reserve? size = some (start, after) := by
  unfold Action.reserve
  rw [Action.ensures_get]
  cases found : machine.reserve? size with
  | none => exact Action.ensures_pure.mpr (.inl ⟨rfl, rfl, rfl⟩)
  | some reservation =>
      obtain ⟨start, after⟩ := reservation
      exact ⟨some start, after, rfl, .inr ⟨start, rfl, rfl⟩⟩

/-- Memory with the sentinel of a new slab and its free block. -/
def layOut (slab : Slab) (memory : Memory) : Memory :=
  writeNode (writeNode memory (slab.start + blockUnit) (slab.size - blockUnit) 0) slab.start 0
    (slab.start + blockUnit)

theorem layout_layOut (placed : slab.Placed) (memory : Memory) :
    slab.Layout shapes (slab.layOut memory) [⟨slab.objects, slab.size - blockUnit, .free⟩] := by
  have aligned := placed.startAligned
  have positive := placed.startPositive
  have large := placed.large
  have bounded := placed.bounded
  unfold layOut
  simp only [Slab.stop, blockUnit, minSlabSize] at *
  refine layout_single placed ?_ ?_ ?_ ?_
  · rw [size_writeNode (by omega) (by omega) (by decide), if_pos rfl]
  · rw [next_writeNode (by omega) (by omega) (by omega), if_pos rfl]
    rfl
  · simp only [Slab.objects, blockUnit]
    rw [size_writeNode (by omega) (by omega) (by decide), if_neg (by omega),
      size_writeNode (by omega) (by omega) (by omega), if_pos rfl]
  · simp only [Slab.objects, blockUnit]
    rw [next_writeNode (by omega) (by omega) (by omega), if_neg (by omega),
      next_writeNode (by omega) (by omega) (by decide), if_pos rfl]

theorem read_layOut (placed : slab.Placed) (memory : Memory) {address : Nat}
    (outside : address < slab.start ∨ slab.stop ≤ address) : (slab.layOut memory).read address = memory.read address := by
  have aligned := placed.startAligned
  have large := placed.large
  simp only [layOut, Slab.stop, blockUnit, minSlabSize] at *
  rw [read_writeNode (by omega) (by omega), read_writeNode (by omega) (by omega)]

/-- A slab that is laid out in pages reserved for it. -/
theorem created_of_reserve? {mapped start rounded : Nat} {after : Machine}
    (reserved : machine.reserve? mapped = some (start, after)) (fits : rounded ≤ mapped)
    (whole : rounded % blockUnit = 0) (large : minSlabSize ≤ rounded) :
    Slab.Created ⟨start, rounded, maxSize⟩ shapes machine
      (after.withMemory (Slab.layOut ⟨start, rounded, maxSize⟩ after.memory)) := by
  obtain ⟨_, first, placed, rfl, rfl⟩ := Machine.reserve?_eq_some.mp reserved
  obtain ⟨positive, inside⟩ := machine.pages.placement.inside placed
  have beside := machine.pages.placement.apart placed
  have upper : PageRange.stop ⟨first, Machine.pagesFor mapped⟩ ≤ Memory.pageLimit * Memory.pageBytes :=
    Nat.mul_le_mul_right _ inside
  have stops : Slab.stop ⟨first * Memory.pageBytes, rounded, maxSize⟩ ≤
      PageRange.stop ⟨first, Machine.pagesFor mapped⟩ := by
    rw [PageRange.stop, Nat.add_mul, Slab.stop]
    exact Nat.add_le_add_left (Nat.le_trans fits (le_pagesFor mapped)) _
  have vacant : machine.Vacant ⟨first * Memory.pageBytes, rounded, maxSize⟩ := fun range taken =>
    (beside range taken).bytes.imp (Nat.le_trans stops) id
  have isPlaced : Slab.Placed ⟨first * Memory.pageBytes, rounded, maxSize⟩ := by
    refine ⟨?_, Nat.mul_pos positive (by decide), whole, large,
      Nat.lt_of_le_of_lt (Nat.le_trans stops upper) (by decide)⟩
    simp only [blockUnit, Memory.pageBytes]
    omega
  refine ⟨layout_layOut isPlaced _, ⟨_, List.mem_cons_self, Nat.le_refl _, stops⟩, vacant,
    Nat.le_trans stops upper, List.subset_cons_self _ _, rfl, rfl, fun address isReserved => ?_⟩
  rw [Machine.memory_withMemory, read_layOut isPlaced _ (vacant.outside isReserved),
    Machine.read_occupy _ inside, if_neg]
  obtain ⟨range, taken, starts, ends⟩ := isReserved
  have apart := (beside range taken).bytes
  omega

/-- There is room for as many bytes as can be reserved. -/
theorem room_iff {rounded mapped : Nat} (maps : Size.alignUp? rounded Memory.pageBytes = some mapped)
    (positive : mapped ≠ 0) : machine.Room rounded ↔ (machine.reserve? mapped).isSome = true := by
  rw [Machine.reserve?, if_neg positive, Option.isSome_map, Option.isSome_iff_exists]
  refine ⟨?_, fun ⟨first, placed⟩ => ⟨mapped, first, maps, placed⟩⟩
  rintro ⟨again, first, mappedSize, placed⟩
  cases maps.symm.trans mappedSize
  exact ⟨first, placed⟩

/-- Making a slab takes pages that nothing uses, or leaves everything as it is if none are left. -/
theorem ensures_create (shapes : ShapeTable) :
    (Slab.create size maxSize).Ensures machine fun answer final =>
      (answer = none ∧ final = machine ∧
        ∀ rounded, roundedSize? size = some rounded → ¬ machine.Room rounded) ∨
      ∃ slab, answer = some slab ∧ roundedSize? size = some slab.size ∧ machine.Room slab.size ∧
        slab.maxSize = maxSize ∧ slab.Created shapes machine final := by
  unfold create
  cases rounds : roundedSize? size with
  | none => exact Action.ensures_pure.mpr (.inl ⟨rfl, rfl, by simp⟩)
  | some rounded =>
      obtain ⟨_, large, whole, _⟩ := roundedSize?_eq_some rounds
      cases maps : Size.alignUp? rounded Memory.pageBytes with
      | none =>
          simp only [maps]
          refine Action.ensures_pure.mpr (.inl ⟨rfl, rfl, fun other same => ?_⟩)
          rintro ⟨mapped, first, mappedSize, _⟩
          cases same
          simp [maps] at mappedSize
      | some mapped =>
          have page : (1 : Nat) <<< 12 = Memory.pageBytes := rfl
          obtain ⟨fits, _⟩ := Size.alignUp?_eq_some (page.symm ▸ maps)
          have positive : mapped ≠ 0 := by
            simp only [minSlabSize] at large
            omega
          simp only [maps]
          refine ensures_reserve.bind ?_
          rintro _ after (⟨rfl, rfl, full⟩ | ⟨start, rfl, reserved⟩)
          · refine Action.ensures_pure.mpr (.inl ⟨rfl, rfl, fun other same => ?_⟩)
            cases same
            rw [room_iff maps positive, full]
            exact Bool.false_ne_true
          · have room : machine.Room rounded := (room_iff maps positive).mpr (Option.isSome_of_eq_some reserved)
            rw [Action.ensures_onMemory]
            exact Action.ensures_pure.mpr
              (.inr ⟨_, rfl, rfl, room, rfl, created_of_reserve? reserved fits whole large⟩)

end Slab

end SlabHeap
