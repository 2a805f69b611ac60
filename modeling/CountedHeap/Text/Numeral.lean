/-! Decimal numerals of 64-bit words: an optional plus sign and at least one ASCII digit. -/

namespace CountedHeap.Text

def digitsValue (digits : List Char) : Nat :=
  digits.foldl (fun n c => 10 * n + (c.toNat - '0'.toNat)) 0

def word? (text : List Char) : Option Nat :=
  let digits := match text with
    | '+' :: rest => rest
    | _ => text
  if digits ≠ [] ∧ digits.all Char.isDigit ∧ digitsValue digits < UInt64.size
  then some (digitsValue digits) else none

end CountedHeap.Text
