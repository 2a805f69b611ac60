import CountedHeap.Binary64
import CountedHeap.Text.Numeral

/-!
Decimal text of a double-precision number: an optional sign, then `inf`, `infinity` or `nan` in any
case, or digits with an optional point and exponent. The value is the nearest number.
-/

namespace CountedHeap.Binary64

open Text (digitsValue)

def takeDigits (text : List Char) : List Char × List Char :=
  (text.takeWhile Char.isDigit, text.dropWhile Char.isDigit)

/-- An exponent after `e` or `E`; a text that ends before one has exponent zero. -/
def exponent? : List Char → Option Int
  | [] => some 0
  | mark :: rest =>
      let (minus, rest) := match rest with
        | '-' :: tail => (true, tail)
        | '+' :: tail => (false, tail)
        | tail => (false, tail)
      match takeDigits rest with
      | (digits, []) =>
          if mark.toLower ≠ 'e' ∨ digits = [] then none
          else some (if minus then -(digitsValue digits : Int) else digitsValue digits)
      | (_, _ :: _) => none

/-- Beyond four hundred decimal orders the result is infinite or zero whatever the digits are. -/
def ofDecimal (n : Nat) (e : Int) : Binary64 :=
  let order : Int := (Nat.toDigits 10 n).length + e
  if n = 0 ∨ order < -400 then zero
  else if order > 400 then infinity
  else if e < 0 then ofRatio n (Nat.pow 10 e.natAbs)
  else ofRatio (n * Nat.pow 10 e.natAbs) 1

def unsigned? (text : List Char) : Option Binary64 :=
  let lower := text.map Char.toLower
  if lower = "inf".toList ∨ lower = "infinity".toList then some infinity
  else if lower = "nan".toList then some nan
  else
    let (whole, rest) := takeDigits text
    let (part, rest) := match rest with
      | '.' :: tail => takeDigits tail
      | tail => ([], tail)
    if whole = [] ∧ part = [] then none
    else (exponent? rest).map fun e => ofDecimal (digitsValue (whole ++ part)) (e - part.length)

def read? : List Char → Option Binary64
  | '-' :: text => (unsigned? text).map negate
  | '+' :: text => unsigned? text
  | text => unsigned? text

end CountedHeap.Binary64
