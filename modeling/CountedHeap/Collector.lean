import CountedHeap.Candidate
import CountedHeap.Draws
import CountedHeap.Settings

namespace CountedHeap

structure CycleStats where
  cycles : Nat := 0
  collected : Nat := 0
  runs : Nat := 0
  falsePositives : Nat := 0
  since : Nat := 0
  candidates : Nat := 0
  deriving DecidableEq, Repr, Inhabited

namespace CycleStats

def efficiency (s : CycleStats) : Binary64 := .ofCounts s.collected s.runs

def describe (s : CycleStats) : String :=
  "\n".intercalate
    [s!"cycle detector: {s.runs} runs",
     s!"  collected: {s.collected} objects in {s.cycles} cycles",
     s!"  false positives: {s.falsePositives}",
     s!"  pending: {s.candidates} candidates, {s.since} allocations since last run"]

end CycleStats

structure Collector where
  settings : CollectorSettings := {}
  registry : Registry := []
  /-- Whether the system would give the registry room for one more entry. -/
  canGrow : Bool := true
  lastPass : List Candidate := []
  draws : Draws
  cycles : Nat := 0
  collected : Nat := 0
  runs : Nat := 0
  falsePositives : Nat := 0
  since : Nat := 0
  deriving DecidableEq, Repr, Inhabited

namespace Collector

def stats (c : Collector) : CycleStats :=
  { cycles := c.cycles
    collected := c.collected
    runs := c.runs
    falsePositives := c.falsePositives
    since := c.since
    candidates := c.registry.length }

/-- Zeroes the counters. The allocation counter and the registry are state, and stay. -/
def resetStats (c : Collector) : Collector :=
  { c with cycles := 0, collected := 0, runs := 0, falsePositives := 0 }

def configure (c : Collector) (settings : CollectorSettings) : Except Fault Collector :=
  match settings.validate with
  | .error fault => .error fault
  | .ok () => .ok { c with settings }

/-- Counts one allocation and decides whether a pass is due. A draw is made only when the
threshold does not decide. -/
def noteAllocation (c : Collector) : Bool × Collector :=
  if !c.settings.automatic then (false, c) else
  let c := { c with since := c.since + 1 }
  if c.settings.threshold ≤ c.since then (true, c) else
  let (k, draws) := c.draws.next
  (c.settings.frequency.exceeds k, { c with draws })

end Collector

end CountedHeap
