/-!
A reference count in the low 31 bits, and on top the bit that says whether the object is a
registered candidate: one word, so that a release sees the bit and lowers the count in one step.
-/

namespace CountedHeap

structure CountWord where
  bits : UInt32
  deriving DecidableEq, Repr, Inhabited

namespace CountWord

def bufferedBit : UInt32 := 0x80000000

def maxCount : UInt32 := ~~~bufferedBit

def count (w : CountWord) : UInt32 := w.bits &&& maxCount

def buffered (w : CountWord) : Bool := w.bits &&& bufferedBit != 0

def setBuffered (w : CountWord) (on : Bool) : CountWord :=
  if on then ⟨w.bits ||| bufferedBit⟩ else ⟨w.bits &&& ~~~bufferedBit⟩

def withCount (w : CountWord) (count : UInt32) : CountWord :=
  ⟨(w.bits &&& bufferedBit) ||| (count &&& maxCount)⟩

def increment (w : CountWord) : Except UInt32 (UInt32 × CountWord) :=
  if w.count = 0 ∨ w.count = maxCount then .error w.count else .ok (w.count, ⟨w.bits + 1⟩)

def decrement (w : CountWord) : Except UInt32 (UInt32 × CountWord) :=
  if w.count = 0 then .error 0 else .ok (w.count, ⟨w.bits - 1⟩)

/-- Drops one reference while the bit is set; `none` when it is clear. -/
def decrementBuffered (w : CountWord) : Option (Except UInt32 (UInt32 × CountWord)) :=
  if w.buffered then some w.decrement else none

/-- Clears the bit, provided it is set and the count is still the expected one. -/
def retire (w : CountWord) (expected : UInt32) : Option CountWord :=
  if w.bits = bufferedBit ||| expected then some ⟨expected⟩ else none

/-- An object claimed for destruction gives the reference back and refuses. -/
def upgrade (w : CountWord) (claimed : Bool) : Bool × CountWord :=
  match w.increment with
  | .error _ => (false, w)
  | .ok (_, raised) =>
      if claimed then
        match raised.decrement with
        | .ok (_, restored) => (false, restored)
        | .error _ => (false, raised)
      else (true, raised)

end CountWord

end CountedHeap
