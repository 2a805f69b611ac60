/-!
The books on objects. What is held is counted in 64-bit words, which go round below zero when an
object forged by raw bytes is reclaimed.
-/

namespace CountedHeap

structure ObjectStats where
  allocations : Nat := 0
  deallocations : Nat := 0
  objects : Nat := 0
  peakObjects : Nat := 0
  memory : Nat := 0
  peakMemory : Nat := 0
  misuse : Nat := 0
  deriving DecidableEq, Repr, Inhabited

namespace ObjectStats

def recordAlloc (s : ObjectStats) (bytes : Nat) : ObjectStats :=
  { s with
    allocations := s.allocations + 1
    objects := s.objects + 1
    peakObjects := max s.peakObjects (s.objects + 1)
    memory := s.memory + bytes
    peakMemory := max s.peakMemory (s.memory + bytes) }

def less (n k : Nat) : Nat := if k ≤ n then n - k else UInt64.size + n - k

def recordDealloc (s : ObjectStats) (bytes : Nat) : ObjectStats :=
  { s with
    deallocations := s.deallocations + 1
    objects := less s.objects 1
    memory := less s.memory bytes }

/-- Zeroes what was counted. Live totals stay and the peaks start again from them. -/
def reset (s : ObjectStats) : ObjectStats :=
  { s with
    allocations := 0
    deallocations := 0
    misuse := 0
    peakObjects := s.objects
    peakMemory := s.memory }

def describe (s : ObjectStats) : String :=
  s!"arc: {s.objects} live (peak {s.peakObjects}), {s.allocations} allocated, " ++
  s!"{s.deallocations} freed, {s.memory} bytes (peak {s.peakMemory}), {s.misuse} misuses"

end ObjectStats

end CountedHeap
