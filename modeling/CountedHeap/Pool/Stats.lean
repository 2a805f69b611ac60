import CountedHeap.Binary64
import CountedHeap.Pool

namespace CountedHeap

structure PoolStats where
  classes : Nat := 0
  totalBlocks : Nat := 0
  freeBlocks : Nat := 0
  allocations : Nat := 0
  deallocations : Nat := 0
  largeAllocations : Nat := 0
  largeDeallocations : Nat := 0
  memory : Nat := 0
  peakMemory : Nat := 0
  deriving DecidableEq, Repr, Inhabited

namespace PoolStats

/-- The part of all carved blocks that lies idle. -/
def fragmentation (s : PoolStats) : Binary64 := .ofCounts s.freeBlocks s.totalBlocks

def utilization (s : PoolStats) : Binary64 :=
  if s.totalBlocks = 0 then .zero else s.fragmentation.complement

def describe (s : PoolStats) : String :=
  let idle := s.fragmentation.percent.fixed 2
  let used := s.utilization.percent.fixed 2
  "\n".intercalate
    [s!"pool: {s.classes} size classes",
     s!"  blocks: {s.totalBlocks} total, {s.freeBlocks} free",
     s!"  pooled: {s.allocations} allocs, {s.deallocations} frees",
     s!"  large: {s.largeAllocations} allocs, {s.largeDeallocations} frees",
     s!"  memory: {s.memory} bytes (peak {s.peakMemory})",
     s!"  fragmentation: {idle}%, utilization: {used}%"]

end PoolStats

namespace Pool

def total (p : Pool) (count : Shelf → Nat) : Nat := p.shelves.toList.foldl (fun n s => n + count s) 0

def stats (p : Pool) : PoolStats :=
  { classes := p.shelves.size
    totalBlocks := p.total Shelf.totalBlocks
    freeBlocks := p.total Shelf.freeBlocks
    allocations := p.total Shelf.allocations
    deallocations := p.total Shelf.deallocations
    largeAllocations := p.largeAllocations
    largeDeallocations := p.largeDeallocations
    memory := p.memory
    peakMemory := p.peakMemory }

def classes (p : Pool) : List (SizeClass × Shelf) :=
  (List.finRange 16).map fun c => (c, p.shelf c)

end Pool

end CountedHeap
