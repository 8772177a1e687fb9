import SlabHeap.Value

namespace SlabHeap

/-!
Object headers. The first word of an object holds its type tag, its flags and a fixed mark of
validity; the upper half of the word is unused.

Main statement: `ofWord_toWord`, a header is read back from its word.
-/

/-- The flag byte of a header: any of its eight bits may be set, three have a meaning. -/
structure Flags where
  bits : UInt8
  deriving DecidableEq, Repr

namespace Flags

def none : Flags := ⟨0⟩

/-- The object was reached in the mark phase under way. -/
def marked : Flags := ⟨1⟩

/-- A weak slot of the object was cleared. -/
def broken : Flags := ⟨2⟩

/-- The heap has to run the object's finalizer before it reclaims the object. -/
def owned : Flags := ⟨4⟩

/-- Whether every bit of `wanted` is set. -/
def includes (flags wanted : Flags) : Bool := flags.bits &&& wanted.bits = wanted.bits

def union (flags added : Flags) : Flags := ⟨flags.bits ||| added.bits⟩

def without (flags removed : Flags) : Flags := ⟨flags.bits &&& ~~~removed.bits⟩

/-- The names of the set bits; unnamed bits are shown together as one number. -/
def describe (flags : Flags) : String :=
  let unnamed := (((flags.without marked).without broken).without owned).bits
  let names := [(marked, "MARKED"), (broken, "BROKEN"), (owned, "OWNED")].filterMap
    fun (flag, name) => if flags.includes flag then some name else Option.none
  let rest := if unnamed = 0 then [] else [s!"0x{Text.hex unnamed.toNat}"]
  let shown := if flags = none then "0x0" else " | ".intercalate (names ++ rest)
  s!"HeaderFlags({shown})"

end Flags

/-- The contents of an object's first word. -/
structure Header where
  /-- The type of the object; 0 marks storage without a header. -/
  tag : UInt8
  flags : Flags
  magic : UInt16
  reserved : UInt32
  deriving DecidableEq, Repr

namespace Header

/-- The mark that every header of the allocator carries. -/
def validMagic : UInt16 := 0x5a17

/-- The header of a fresh object. -/
def fresh (tag : UInt8) : Header :=
  { tag, flags := .owned, magic := validMagic, reserved := 0 }

/-- A fresh header, unless the tag is reserved for headerless storage. -/
def new (tag : UInt8) : Except Fault Header :=
  if tag = 0 then .error .reservedTag else .ok (fresh tag)

def ofWord (word : UInt64) : Header :=
  { tag := word.toUInt8
    flags := ⟨(word / 0x100).toUInt8⟩
    magic := (word / 0x10000).toUInt16
    reserved := (word / 0x100000000).toUInt32 }

def toWord (header : Header) : UInt64 :=
  header.tag.toUInt64 + header.flags.bits.toUInt64 * 0x100 +
    header.magic.toUInt64 * 0x10000 + header.reserved.toUInt64 * 0x100000000

def isValid (header : Header) : Bool := header.magic = validMagic

def isMarked (header : Header) : Bool := header.flags.includes .marked

def add (header : Header) (flags : Flags) : Header :=
  { header with flags := header.flags.union flags }

def remove (header : Header) (flags : Flags) : Header :=
  { header with flags := header.flags.without flags }

def mark (header : Header) : Header := header.add .marked

def unmark (header : Header) : Header := header.remove .marked

/-- The text that shows a header to a developer. -/
def describe (header : Header) : String :=
  let magic := Text.hexPadded 4 header.magic.toNat
  s!"Header \x7b tag: {header.tag}, flags: {header.flags.describe}, magic: 0x{magic} \x7d"

theorem toNat_toWord (header : Header) :
    header.toWord.toNat = header.tag.toNat + header.flags.bits.toNat * 0x100 +
      header.magic.toNat * 0x10000 + header.reserved.toNat * 0x100000000 := by
  have tag := header.tag.toNat_lt
  have flags := header.flags.bits.toNat_lt
  have magic := header.magic.toNat_lt
  have reserved := header.reserved.toNat_lt
  simp [toWord]
  omega

theorem ofWord_toWord (header : Header) : ofWord header.toWord = header := by
  have word := header.toNat_toWord
  have tag := header.tag.toNat_lt
  have flags := header.flags.bits.toNat_lt
  have magic := header.magic.toNat_lt
  have reserved := header.reserved.toNat_lt
  have tagField : header.toWord.toUInt8 = header.tag := by
    simp [← UInt8.toNat_inj, word]
    omega
  have flagField : (header.toWord / 0x100).toUInt8 = header.flags.bits := by
    simp [← UInt8.toNat_inj, word]
    omega
  have magicField : (header.toWord / 0x10000).toUInt16 = header.magic := by
    simp [← UInt16.toNat_inj, word]
    omega
  have reservedField : (header.toWord / 0x100000000).toUInt32 = header.reserved := by
    simp [← UInt32.toNat_inj, word]
    omega
  simp only [ofWord, tagField, flagField, magicField, reservedField]

theorem toWord_ofWord (word : UInt64) : (ofWord word).toWord = word := by
  have bounded := word.toNat_lt
  have parts := (ofWord word).toNat_toWord
  rw [← UInt64.toNat_inj, parts]
  simp [ofWord]
  omega

end Header

end SlabHeap
