import SlabHeap.Size
import SlabHeap.Text.Hex

namespace SlabHeap

/-!
Tagged values. One word holds a fixnum (lowest bit 0), a reference to an object (lowest three bits
001) or an immediate (lowest three bits 011); the other two patterns are no value of the language.

Main statements: `toInt?_fixnum` and `address?_reference` say that tagging loses nothing.
-/

/-- A word read as a value. Every word is one, if only an unknown immediate. -/
structure Value where
  bits : UInt64
  deriving DecidableEq, Repr, Inhabited

/-- A word read as a two's-complement number. -/
def signed (word : UInt64) : Int :=
  if word.toNat < 0x8000000000000000 then word.toNat else (word.toNat : Int) - Size.limit

namespace Value

/-- The false value. -/
def no : Value := ⟨3⟩

/-- The true value. -/
def yes : Value := ⟨11⟩

/-- The empty list. -/
def nil : Value := ⟨19⟩

/-- The value of an expression that has none. -/
def void : Value := ⟨27⟩

def ofBool (truth : Bool) : Value := if truth then yes else no

def isFixnum (value : Value) : Bool := value.bits % 2 = 0

def isReference (value : Value) : Bool := value.bits % 8 = 1

def isImmediate (value : Value) : Bool := value.bits % 8 = 3

/-- The word that stands for a number, which should lie in the fixnum range. -/
def fixnum (number : Int) : Value := ⟨UInt64.ofNat (2 * number % Size.limit).toNat⟩

/-- Fixnums are the numbers of 63 bits. -/
def InFixnumRange (number : Int) : Prop :=
  -0x4000000000000000 ≤ number ∧ number < 0x4000000000000000

instance (number : Int) : Decidable (InFixnumRange number) :=
  inferInstanceAs (Decidable (_ ∧ _))

/-- Tags a number, which must be a fixnum. -/
def ofInt (number : Int) : Except Fault Value :=
  if InFixnumRange number then .ok (fixnum number) else .error (.fixnumOverflow number)

/-- The number that a fixnum stands for. -/
def toInt? (value : Value) : Option Int :=
  if value.isFixnum then some (signed value.bits / 2) else none

/-- The number that a fixnum stands for, as an unsigned word: negative numbers wrap around. -/
def toCount? (value : Value) : Option Nat :=
  value.toInt?.map fun number => (number % (Size.limit : Int)).toNat

/-- The word that refers to an object; the address should be a multiple of eight. -/
def reference (address : Nat) : Value := ⟨UInt64.ofNat (address + 1)⟩

/-- Tags an address, which must be a multiple of eight. -/
def ofAddress (address : Nat) : Except Fault Value :=
  if address % 8 = 0 then .ok (reference address) else .error .pointerNotAligned

/-- The word without its three tag bits. -/
def untagged (value : Value) : Nat := value.bits.toNat / 8 * 8

/-- The address that a reference holds. -/
def address? (value : Value) : Option Nat :=
  if value.isReference then some value.untagged else none

/-- The text that shows a value to a developer. -/
def describe (value : Value) : String :=
  match value.toInt? with
  | some number => s!"Fixnum({number})"
  | none =>
    if value.isReference then s!"Ref(0x{Text.hex value.untagged})"
    else if value = no then "#f"
    else if value = yes then "#t"
    else if value = nil then "()"
    else if value = void then "#<void>"
    else s!"Immediate(0x{Text.hexPadded 16 value.bits.toNat})"

/-- The immediates that have names. -/
def immediates : List Value := [no, yes, nil, void]

/-- The immediate that is shown as `name`. -/
def ofName? (name : String) : Option Value := immediates.find? fun value => value.describe = name

theorem bits_fixnum (number : Int) :
    (fixnum number).bits.toNat = (2 * number % Size.limit).toNat := by
  simp only [fixnum, UInt64.toNat_ofNat', Size.limit]
  omega

theorem isFixnum_iff {value : Value} : value.isFixnum = true ↔ value.bits.toNat % 2 = 0 := by
  simp [isFixnum, ← UInt64.toNat_inj]

theorem isReference_iff {value : Value} :
    value.isReference = true ↔ value.bits.toNat % 8 = 1 := by
  simp [isReference, ← UInt64.toNat_inj]

theorem toInt?_fixnum {number : Int} (inRange : InFixnumRange number) :
    (fixnum number).toInt? = some number := by
  obtain ⟨lower, upper⟩ := inRange
  have word := bits_fixnum number
  have even : (fixnum number).isFixnum = true := by
    rw [isFixnum_iff, word, Size.limit]
    omega
  simp only [toInt?, even, if_true, signed, word, Option.some.injEq, Size.limit]
  split <;> omega

theorem bits_reference {address : Nat} (bounded : address + 1 < Size.limit) :
    (reference address).bits.toNat = address + 1 := by
  simp only [reference, UInt64.toNat_ofNat', Size.limit] at *
  omega

theorem address?_reference {address : Nat} (aligned : address % 8 = 0)
    (bounded : address < Size.limit) : (reference address).address? = some address := by
  have word : (reference address).bits.toNat = address + 1 :=
    bits_reference (by simp only [Size.limit] at *; omega)
  have tagged : (reference address).isReference = true := by
    rw [isReference_iff, word]
    omega
  simp only [address?, tagged, if_true, untagged, word, Option.some.injEq]
  omega

theorem address?_fixnum (number : Int) : (fixnum number).address? = none := by
  have word := bits_fixnum number
  have untagged : ¬ (fixnum number).isReference = true := by
    rw [isReference_iff, word, Size.limit]
    omega
  simp only [address?, untagged, if_false, Bool.false_eq_true]

theorem address?_aligned {value : Value} {address : Nat}
    (found : value.address? = some address) : address % 8 = 0 := by
  simp only [address?] at found
  split at found
  · obtain rfl := Option.some.inj found
    simp only [untagged]
    omega
  · contradiction

/-- What holds an address is the reference to it. -/
theorem eq_reference {value : Value} {address : Nat} (found : value.address? = some address) :
    value.isReference = true ∧ value.bits.toNat = address + 1 ∧ value = .reference address := by
  simp only [address?] at found
  split at found
  · next isReference =>
    have low := isReference_iff.mp isReference
    have whole := Option.some.inj found
    simp only [untagged] at whole
    have bits : value.bits.toNat = address + 1 := by omega
    refine ⟨isReference, bits, ?_⟩
    rw [reference, ← bits, UInt64.ofNat_toNat]
  · cases found

end Value

end SlabHeap
