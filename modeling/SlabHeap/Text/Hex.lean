namespace SlabHeap.Text

/-!
Hexadecimal numerals, as addresses and words are written in reports.
-/

/-- Lower-case hexadecimal digits without leading zeros. -/
def hex (number : Nat) : String := String.ofList (Nat.toDigits 16 number)

/-- Lower-case hexadecimal digits, with zeros in front up to `width` digits. -/
def hexPadded (width number : Nat) : String :=
  let digits := Nat.toDigits 16 number
  String.ofList (List.replicate (width - digits.length) '0' ++ digits)

/-- The value of a hexadecimal digit. -/
def hexDigit? (digit : Char) : Option Nat :=
  if digit.isDigit then some (digit.toNat - '0'.toNat)
  else if 'a' ≤ digit ∧ digit ≤ 'f' then some (digit.toNat - 'a'.toNat + 10)
  else if 'A' ≤ digit ∧ digit ≤ 'F' then some (digit.toNat - 'A'.toNat + 10)
  else none

/-- The number that hexadecimal digits stand for; there must be at least one. -/
def readHex? (digits : List Char) : Option Nat :=
  if digits.isEmpty then none
  else digits.foldlM (fun number digit => do return number * 16 + (← hexDigit? digit)) 0

end SlabHeap.Text
