import CountedHeap.Heap.Registry
import CountedHeap.Heap.Release
import CountedHeap.Trial.Verdict

/-!
A collection pass: it takes the counts of all candidates, searches from them, claims each garbage
group whose counts have not moved since they were seen, and judges every candidate.
-/

namespace CountedHeap

structure Pass where
  walk : Trial.Walk
  minimum : Nat
  deriving Inhabited

namespace Heap

def look (h : Heap) (a : Addr) : Trial.Look :=
  match h.objects[a]? with
  | none => .dying
  | some o =>
      if !o.valid || o.claimed then .dying
      else if !o.traced then .untracked
      else if o.count = 0 then .dying
      else .live o.count

def graph (h : Heap) : Trial.Graph := { look := h.look, children := h.children }

/-- Sweeps entries of dead objects out of the registry and takes the count of every other one. -/
def startPass (h : Heap) : Pass × Heap :=
  let kept := h.collector.registry.filter fun entry =>
    (h.objects[entry.object]?).any fun o => o.valid && !o.claimed
  let fresh := kept.map fun entry : Candidate =>
    { object := entry.object
      recorded := (h.objects[entry.object]?).elim 0 fun o => o.word.count }
  let settings := h.collector.settings
  ({ walk := { budget := settings.budget, roots := fresh.map Candidate.object }
     minimum := settings.minimum },
    { h with collector := { h.collector with registry := fresh } })

/-- Claims every member, or none: a member that is claimed already gives the others back. -/
def claimAll (h : Heap) : List Addr → Bool × Heap
  | [] => (true, h)
  | a :: rest =>
      match h.tryClaim a with
      | (false, h) => (false, h)
      | (true, h) =>
          match h.claimAll rest with
          | (true, h) => (true, h)
          | (false, h) => (false, h.unclaim a)

def claimGroup (h : Heap) (group : Trial.Group) : Bool × Heap :=
  match h.claimAll (group.map Prod.fst) with
  | (false, h) => (false, h)
  | (true, h) =>
      if group.all fun member => (h.objects[member.1]?).any (·.count == member.2) then (true, h)
      else (false, group.foldl (fun h member => h.unclaim member.1) h)

def claimGroups (h : Heap) (minimum : Nat) : List Trial.Group → List Trial.Group × Heap
  | [] => ([], h)
  | group :: rest =>
      if group.length < minimum then h.claimGroups minimum rest else
      match h.claimGroup group with
      | (false, h) => h.claimGroups minimum rest
      | (true, h) =>
          let (groups, h) := h.claimGroups minimum rest
          (group :: groups, h)

/-- The outcome of one candidate. A collected one leaves with its group; one whose count is still
the count taken at the start is live and retires; any other stays for the next pass. -/
def judge (h : Heap) (garbage : List Addr) (entry : Candidate) : Candidate × Heap :=
  if garbage.contains entry.object then
    ({ entry with state := .suspectedCycleMember, marked := true },
      h.update entry.object fun o => { o with word := o.word.setBuffered false })
  else
    match (h.objects[entry.object]?).bind fun o => o.word.retire entry.recorded with
    | some word => ({ entry with state := .processed }, h.update entry.object ({ · with word }))
    | none => ({ entry with state := .inProgress }, h)

def judgeAll (h : Heap) (garbage : List Addr) : List Candidate → List Candidate × Heap
  | [] => ([], h)
  | entry :: rest =>
      let (entry, h) := h.judge garbage entry
      let (report, h) := h.judgeAll garbage rest
      (entry :: report, h)

def finishPass (h : Heap) (pass : Pass) : List Addr × Heap :=
  let (groups, h) := h.claimGroups pass.minimum pass.walk.found.verdict.garbage
  let garbage := groups.flatten.map Prod.fst
  let (report, h) := h.judgeAll garbage h.collector.registry
  let c := h.collector
  (garbage,
    { h with
      collector :=
        { c with
          registry := report.filter (·.state == .inProgress)
          lastPass := report
          cycles := c.cycles + groups.length
          collected := c.collected + garbage.length
          falsePositives := c.falsePositives + report.countP (·.state == .processed)
          runs := c.runs + 1
          since := 0 } })

end Heap

end CountedHeap
