/-! The stream of draws behind early passes. A draw is a fraction of `2 ^ 53`. -/

namespace CountedHeap

structure Draws where
  state : UInt64
  deriving DecidableEq, Repr, Inhabited

namespace Draws

def scramble (x : UInt64) : UInt64 :=
  let x := x ^^^ (x >>> 12)
  let x := x ^^^ (x <<< 25)
  x ^^^ (x >>> 27)

def seeded (seed : UInt64) : Draws := ⟨if seed = 0 then 0x9e3779b97f4a7c15 else seed⟩

/-- The next draw `k`, which stands for `k / 2 ^ 53`, and the stream behind it. -/
def next (d : Draws) : Nat × Draws :=
  let state := scramble d.state
  (((state * 0x2545f4914f6cdd1d) >>> 11).toNat, ⟨state⟩)

end Draws

end CountedHeap
