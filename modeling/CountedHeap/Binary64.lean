/-!
Double-precision numbers as bit patterns, with exact arithmetic on naturals.
A quotient is rounded once, to the nearest number, a tie to the even significand.
-/

namespace CountedHeap

structure Binary64 where
  bits : UInt64
  deriving DecidableEq, Repr, Inhabited

/-- The natural number nearest to `num / den`; a half goes to the even neighbour. -/
def roundHalfEven (num den : Nat) : Nat :=
  let quotient := num / den
  let twice := 2 * (num % den)
  if twice < den then quotient
  else if den < twice then quotient + 1
  else quotient + quotient % 2

namespace Binary64

def one : Nat := 1 <<< 1074

def leading : Nat := 1 <<< 52

def signBit : UInt64 := 0x8000000000000000
def infinityBits : UInt64 := 0x7ff0000000000000

def zero : Binary64 := ⟨0⟩
def infinity : Binary64 := ⟨infinityBits⟩
def nan : Binary64 := ⟨0x7ff8000000000000⟩

def negative (x : Binary64) : Bool := x.bits &&& signBit != 0
def negate (x : Binary64) : Binary64 := ⟨x.bits ^^^ signBit⟩
def magnitudeBits (x : Binary64) : Nat := x.bits.toNat % signBit.toNat
def isNaN (x : Binary64) : Bool := infinityBits.toNat < x.magnitudeBits
def isInfinite (x : Binary64) : Bool := x.magnitudeBits == infinityBits.toNat

def units (x : Binary64) : Nat :=
  let exponent := x.magnitudeBits / leading
  let fraction := x.magnitudeBits % leading
  if exponent = 0 then fraction else (leading + fraction) <<< (exponent - 1)

/-- A significand that rounds up to the next power of two carries into the exponent. -/
def ofRatio (num den : Nat) : Binary64 :=
  let scaled := num * one
  let shift := Nat.log2 (scaled / den) - 52
  let magnitude := shift * leading + roundHalfEven scaled (den <<< shift)
  if magnitude < infinityBits.toNat then ⟨magnitude.toUInt64⟩ else infinity

def ofNat (n : Nat) : Binary64 := ofRatio n 1

/-- The quotient of two counts, each taken as a number first; zero over nothing. -/
def ofCounts (part whole : Nat) : Binary64 :=
  if whole = 0 then zero else ofRatio (ofNat part).units (ofNat whole).units

def complement (x : Binary64) : Binary64 :=
  if x.units ≤ one then ofRatio (one - x.units) one
  else (ofRatio (x.units - one) one).negate

def percent (x : Binary64) : Binary64 :=
  let scaled := ofRatio (x.units * 100) one
  if x.negative then scaled.negate else scaled

def inUnitInterval (x : Binary64) : Bool :=
  x.bits == signBit || x.bits ≤ (ofNat 1).bits

/-- Whether `k / 2 ^ 53` lies below the number. -/
def exceeds (x : Binary64) (k : Nat) : Bool :=
  !x.isNaN && !x.negative && (x.isInfinite || k * one < x.units <<< 53)

/-- Half goes to the even digit; the sign is written even when all digits are zero. -/
def fixed (places : Nat) (x : Binary64) : String :=
  let scale := Nat.pow 10 places
  let scaled := roundHalfEven (x.units * scale) one
  let whole := toString (scaled / scale)
  let digits := toString (scaled % scale)
  let padding := String.ofList (List.replicate (places - digits.length) '0')
  (if x.negative then "-" else "") ++ whole ++ "." ++ padding ++ digits

end Binary64

end CountedHeap
