/-! Rows of bytes and the numbers they spell, the least significant byte first. -/

namespace CountedHeap

def padded (count : Nat) (bytes : List UInt8) : List UInt8 :=
  bytes ++ List.replicate (count - bytes.length) 0

/-- Bytes `new` written at `offset` over `old`, with zeros in any gap. -/
def overlay (old : List UInt8) (offset : Nat) (new : List UInt8) : List UInt8 :=
  (padded offset old).take offset ++ new ++ old.drop (offset + new.length)

/-- A stretch of `count` bytes; those behind the end are zero. -/
def stretch (bytes : List UInt8) (offset count : Nat) : List UInt8 :=
  padded count ((bytes.drop offset).take count)

def leastFirst : (count : Nat) → Nat → List UInt8
  | 0, _ => []
  | count + 1, n => n.toUInt8 :: leastFirst count (n / 256)

def spelled (bytes : List UInt8) : Nat := bytes.foldr (fun b n => b.toNat + 256 * n) 0

theorem length_leastFirst (count n : Nat) : (leastFirst count n).length = count := by
  induction count generalizing n with
  | zero => rfl
  | succ count ih => simp [leastFirst, ih]

end CountedHeap
