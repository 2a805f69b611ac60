import CountedHeap.Fault

/-! Candidate roots: traced objects that survived a release, or were named by a client. -/

namespace CountedHeap

inductive CandidateState where
  | unvisited
  /-- Examined, but its count moved during the pass. -/
  | inProgress
  | processed
  | suspectedCycleMember
  deriving DecidableEq, Repr

structure Candidate where
  object : Addr
  state : CandidateState := .unvisited
  marked : Bool := false
  /-- The count at registration, taken again when a pass starts. -/
  recorded : UInt32
  deriving DecidableEq, Repr

abbrev Registry := List Candidate

namespace Registry

def holds (r : Registry) (object : Addr) : Bool := r.any (·.object == object)

def erase (r : Registry) (object : Addr) : Registry := r.filter (·.object != object)

end Registry

end CountedHeap
