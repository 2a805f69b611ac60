import CountedHeap.Object

/-! Which slots of a payload hold references, for each type that takes part in cycle collection. -/

namespace CountedHeap

inductive Tracer where
  /-- The slots from `first` up to and without `stop`. -/
  | span (first stop : Nat)
  | last
  | silent
  deriving DecidableEq, Repr

namespace Tracer

def leading (count : Nat) : Tracer := span 0 count

def slots (t : Tracer) (count : Nat) : List Nat :=
  match t with
  | span first stop => List.range' first (min stop count - first)
  | last => if count = 0 then [] else [count - 1]
  | silent => []

def children (t : Tracer) (p : Payload) : List Addr :=
  (t.slots p.slots.size).filterMap p.load

end Tracer

end CountedHeap
