import SlabHeap.Size

namespace SlabHeap.Text

/-! Sizes in decimal digits. -/

/-- A numeral without the plus sign that it may begin with. -/
def withoutPlus : List Char → List Char
  | '+' :: digits => digits
  | digits => digits

/-- Reads a size: decimal digits, perhaps behind a plus sign. Numbers past the largest size are
refused. -/
def readDecimal? (numeral : List Char) : Option Nat :=
  let digits := withoutPlus numeral
  if digits.isEmpty || digits.any (fun digit => !digit.isDigit) then none
  else
    let number := digits.foldl (fun sum digit => sum * 10 + (digit.toNat - '0'.toNat)) 0
    if number < Size.limit then some number else none

end SlabHeap.Text
