import SlabHeap.Memory

namespace SlabHeap

/-! Memory by bytes. The lowest byte of a word stands at the word's address.

Main statements: `byteOf_replaceByte`, a replaced byte is read back and leaves its neighbours alone, and
`readBytes_writeBytes`, the same for many bytes.
-/

namespace Memory

/-- Byte `index` of a word, the lowest first. -/
def byteOf (word : UInt64) (index : Nat) : UInt8 := (word.toNat >>> (8 * index)).toUInt8

/-- The number with byte `index` between what stands above it and what stands below. -/
def around (above byte below index : Nat) : Nat := (above * 256 + byte) <<< (8 * index) + below

/-- The word with byte `index` replaced. -/
def replaceByte (word : UInt64) (index : Nat) (byte : UInt8) : UInt64 :=
  let above := word.toNat >>> (8 * (index + 1))
  let below := word.toNat % 1 <<< (8 * index)
  .ofNat (around above byte.toNat below index)

/-- The byte at an address. -/
def readByte (memory : Memory) (address : Nat) : UInt8 :=
  byteOf (memory.read address) (address % 8)

/-- Replaces the byte at an address. -/
def writeByte (memory : Memory) (address : Nat) (byte : UInt8) : Memory :=
  memory.write address (replaceByte (memory.read address) (address % 8) byte)

/-- Writes bytes from `address` on. -/
def writeBytes (memory : Memory) (address : Nat) : List UInt8 → Memory
  | [] => memory
  | byte :: rest => (memory.writeByte address byte).writeBytes (address + 1) rest

/-- The bytes at `count` addresses from `address` on. -/
def readBytes (memory : Memory) (address count : Nat) : List UInt8 :=
  (List.range count).map fun index => memory.readByte (address + index)

theorem shiftRight_around {byte below index : Nat} (above other : Nat) (isByte : byte < 256)
    (isBelow : below < 1 <<< (8 * index)) :
    around above byte below index >>> (8 * other) % 256 =
      if other = index then byte
      else if other < index then below >>> (8 * other) % 256
      else above >>> (8 * (other - index - 1)) % 256 := by
  simp only [around, Nat.shiftLeft_eq, Nat.shiftRight_eq_div_pow, Nat.one_mul, Nat.pow_mul]
    at isBelow ⊢
  have unit (place : Nat) : 0 < (2 ^ 8) ^ place := Nat.pow_pos (by decide)
  rcases Nat.lt_trichotomy other index with lower | rfl | higher
  · obtain ⟨rest, rfl⟩ := Nat.exists_eq_add_of_lt lower
    have split : (above * 256 + byte) * (2 ^ 8) ^ (other + rest + 1) + below =
        below + (2 ^ 8) ^ other * ((above * 256 + byte) * (2 ^ 8) ^ rest * 256) := by
      grind
    rw [split, Nat.add_mul_div_left _ _ (unit other)]
    simp [Nat.ne_of_lt lower, lower]
  · rw [Nat.mul_comm, Nat.mul_add_div (unit other), Nat.div_eq_of_lt isBelow]
    simp
    omega
  · obtain ⟨rest, rfl⟩ := Nat.exists_eq_add_of_lt higher
    have places : (2 ^ 8) ^ (index + rest + 1) = (2 ^ 8) ^ index * (256 * (2 ^ 8) ^ rest) := by
      grind
    have distance : index + rest + 1 - index - 1 = rest := by omega
    have whole : (above * 256 + byte) / 256 = above := by omega
    rw [places, ← Nat.div_div_eq_div_mul, ← Nat.div_div_eq_div_mul, Nat.mul_comm,
      Nat.mul_add_div (unit index), Nat.div_eq_of_lt isBelow, distance, Nat.add_zero, whole]
    simp [Nat.ne_of_gt higher, Nat.lt_asymm higher]

theorem toNat_byteOf (word : UInt64) (index : Nat) :
    (byteOf word index).toNat = word.toNat >>> (8 * index) % 256 := by
  simp [byteOf]

theorem around_byteOf (word : UInt64) (index : Nat) :
    around (word.toNat >>> (8 * (index + 1))) (byteOf word index).toNat
      (word.toNat % 1 <<< (8 * index)) index = word.toNat := by
  rw [toNat_byteOf]
  simp only [around, Nat.shiftLeft_eq, Nat.shiftRight_eq_div_pow, Nat.one_mul, Nat.mul_add,
    Nat.pow_add, ← Nat.div_div_eq_div_mul]
  have upper := Nat.div_add_mod' (word.toNat / 2 ^ (8 * index)) 256
  have lower := Nat.div_add_mod' word.toNat (2 ^ (8 * index))
  rw [show 2 ^ (8 * 1) = 256 from rfl, upper, lower]

theorem toNat_replaceByte {word : UInt64} {index : Nat} (byte : UInt8) (inWord : index < 8) :
    (replaceByte word index byte).toNat =
      around (word.toNat >>> (8 * (index + 1))) byte.toNat
        (word.toNat % 1 <<< (8 * index)) index := by
  have wordBound := word.toNat_lt
  have byteBound := byte.toNat_lt
  rw [replaceByte, UInt64.toNat_ofNat']
  apply Nat.mod_eq_of_lt
  simp only [around, Nat.shiftLeft_eq, Nat.shiftRight_eq_div_pow]
  match index, inWord with
  | 0, _ | 1, _ | 2, _ | 3, _ | 4, _ | 5, _ | 6, _ | 7, _ => omega

theorem byteOf_replaceByte {word : UInt64} {index other : Nat} {byte : UInt8}
    (inWord : index < 8) :
    byteOf (replaceByte word index byte) other =
      if other = index then byte else byteOf word other := by
  have below : word.toNat % 1 <<< (8 * index) < 1 <<< (8 * index) :=
    Nat.mod_lt _ (by rw [Nat.one_shiftLeft]; exact Nat.pow_pos (by decide))
  rw [← UInt8.toNat_inj, toNat_byteOf, toNat_replaceByte byte inWord,
    shiftRight_around _ _ byte.toNat_lt below]
  have old := shiftRight_around (word.toNat >>> (8 * (index + 1))) other
    (byteOf word index).toNat_lt below
  rw [around_byteOf, ← toNat_byteOf] at old
  by_cases same : other = index
  · simp [same]
  · simp only [same, if_false] at old ⊢
    exact old.symm

theorem readByte_writeByte (memory : Memory) (address other : Nat) (byte : UInt8) :
    (memory.writeByte address byte).readByte other =
      if other = address then byte else memory.readByte other := by
  rw [readByte, writeByte, read_write]
  by_cases sameWord : other / 8 = address / 8
  · have sameByte : other % 8 = address % 8 ↔ other = address := by omega
    simp only [sameWord, if_true, byteOf_replaceByte (Nat.mod_lt address (show 0 < 8 by decide)),
      ← read_congr memory sameWord, sameByte]
    rfl
  · rw [if_neg sameWord, if_neg fun same => sameWord (by rw [same])]
    rfl

theorem readByte_writeBytes {memory : Memory} {address other : Nat} {contents : List UInt8}
    (before : other < address) :
    (memory.writeBytes address contents).readByte other = memory.readByte other := by
  induction contents generalizing memory address with
  | nil => rfl
  | cons byte rest ih =>
      rw [writeBytes, ih (Nat.lt_succ_of_lt before), readByte_writeByte, if_neg (Nat.ne_of_lt before)]

theorem readBytes_writeBytes (memory : Memory) (address : Nat) (contents : List UInt8) :
    (memory.writeBytes address contents).readBytes address contents.length = contents := by
  induction contents generalizing memory address with
  | nil => rfl
  | cons byte rest ih =>
      have tail := ih (memory.writeByte address byte) (address + 1)
      simp only [readBytes, Nat.add_assoc, Nat.add_comm 1] at tail
      simp only [readBytes, writeBytes, List.length_cons, List.range_succ_eq_map, List.map_cons,
        List.map_map, Nat.add_zero, Function.comp_def, Nat.succ_eq_add_one, tail]
      rw [readByte_writeBytes (Nat.lt_succ_self address), readByte_writeByte, if_pos rfl]

end Memory

end SlabHeap
