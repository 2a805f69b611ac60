import CountedHeap.Binary64
import CountedHeap.Fault

/-! What a heap is told when it is made. The first rule of a check that fails is reported. -/

namespace CountedHeap

structure CollectorSettings where
  threshold : Nat := 1000
  /-- A search from one root is cut off once it has found more new objects than this. -/
  budget : Nat := 100
  automatic : Bool := true
  frequency : Binary64 := ⟨0x3fb999999999999a⟩
  minimum : Nat := 2
  deriving DecidableEq, Repr, Inhabited

def CollectorSettings.validate (s : CollectorSettings) : Except Fault Unit :=
  if !s.frequency.inUnitInterval then
    .error (.invalidArgument "collection_frequency must lie in [0, 1]")
  else if s.budget = 0 then
    .error (.invalidArgument "max_objects_per_cycle must be at least 1")
  else if s.minimum = 0 then
    .error (.invalidArgument "min_cycle_size must be at least 1")
  else .ok ()

structure Settings where
  collector : CollectorSettings := {}
  autoRegister : Bool := true
  seed : Option UInt64 := none
  deriving DecidableEq, Repr, Inhabited

end CountedHeap
