import CountedHeap.Proofs.Disturbed
import CountedHeap.Proofs.Ending
import CountedHeap.Proofs.Stages

/-!
The report of a pass. A pass may start wherever the client is in control, so other work may wait
behind it; and while its search waits for a tracer, counts may move. At its end each object that was
a candidate at the start has one outcome. The outcome, the registry, the bits and the counters
agree, and the bit of no other object has changed.
-/

namespace CountedHeap

open Heap (Same Changed)

namespace Heap

/-- What the client does to a heap at a tracer call of a search: counts move, but neither from nor
to zero. -/
structure Nudged (h k : Heap) : Prop where
  same : Same Object.shape h k
  collector : k.collector = h.collector
  bits : ∀ a, k.bufferedAt a = h.bufferedAt a
  zero : ∀ a, h.Live a → (0 < k.countAt a ↔ 0 < h.countAt a)

variable {h k l : Heap}

theorem Nudged.refl (h : Heap) : Nudged h h :=
  ⟨Same.refl h, rfl, fun _ => rfl, fun _ _ => Iff.rfl⟩

theorem Nudged.trans (first : Nudged h k) (second : Nudged k l) : Nudged h l := by
  refine ⟨first.same.trans second.same, second.collector.trans first.collector,
    fun a => (second.bits a).trans (first.bits a), fun a live => ?_⟩
  exact (second.zero a ((first.same.live_iff a).mpr live)).trans (first.zero a live)

end Heap

theorem Client.Drifted.nudged {c d : Client} (drifted : Drifted c d) :
    c.machine.heap.Nudged d.machine.heap :=
  ⟨drifted.same, by rw [drifted.frame], drifted.bits, drifted.zero⟩

namespace Heap

theorem retain_nudged (h : Heap) (a : Addr) : h.Nudged (h.retain a) := by
  unfold retain
  split
  · rename_i k done
    exact (Client.drifted_raised (c := .fresh h) (Client.tryRetain_raised h k a done)).nudged
  · exact ⟨⟨rfl, fun _ => rfl⟩, rfl, fun _ => rfl, fun _ _ => Iff.rfl⟩

theorem retainBatch_nudged (h : Heap) (objects : List Addr) :
    h.Nudged (h.retainBatch objects) := by
  unfold retainBatch
  induction objects generalizing h with
  | nil => exact .refl h
  | cons a rest ih => exact (h.retain_nudged a).trans (ih (h.retain a))

end Heap

namespace Heap

variable {h k : Heap} {garbage : List Addr}

theorem outcome_iff (h : Heap) (garbage : List Addr) (entry : Candidate) :
    (h.outcome garbage entry = .suspectedCycleMember ↔ entry.object ∈ garbage) ∧
      (h.outcome garbage entry = .processed ↔
        entry.object ∉ garbage ∧ h.countAt entry.object = entry.recorded.toNat) ∧
      (h.outcome garbage entry = .inProgress ↔
        entry.object ∉ garbage ∧ h.countAt entry.object ≠ entry.recorded.toNat) := by
  unfold outcome
  by_cases member : entry.object ∈ garbage
  · simp [member]
  · by_cases still : h.countAt entry.object = entry.recorded.toNat <;> simp [member, still]

theorem Finished.live_iff (finished : Finished h garbage k) (a : Addr) : k.Live a ↔ h.Live a := by
  rw [live_iff_fate, live_iff_fate, finished.fates, Option.any_map]

theorem Finished.settled (finished : Finished h garbage k) (marked : h.Marked) (entry : Candidate)
    (member : entry ∈ h.collector.registry) :
    (k.collector.registry.holds entry.object = true ↔ h.outcome garbage entry = .inProgress) ∧
      (k.bufferedAt entry.object = true ↔ h.outcome garbage entry = .inProgress) ∧
      (k.claimedAt entry.object = true ↔ entry.object ∈ garbage) := by
  obtain ⟨o, there, valid, _, unclaimed⟩ :=
    marked.listed _ ((holds_iff _ _).mpr ⟨entry, member, rfl⟩)
  have live : k.Live entry.object :=
    (finished.live_iff _).mpr ((h.live_iff _).mpr ⟨o, there, valid⟩)
  have holds : k.collector.registry.holds entry.object = true ↔
      h.outcome garbage entry = .inProgress := by
    rw [finished.holds]
    constructor
    · rintro ⟨old, isOld, same, state⟩
      rwa [← List.inj_on_of_nodup_map marked.once isOld member same]
    · exact fun state => ⟨entry, member, rfl, state⟩
  refine ⟨holds, ?_, ?_⟩
  · rw [(finished.marked marked).bufferedAt _ live, holds]
  · rw [claimedAt_eq_fate, finished.fates, fateAt, there]
    simp [Object.fate, unclaimed]

/-- What a pass that has claimed certain objects says of one candidate, and what it does to it. -/
structure Outcome (before after : Heap) (members : List Addr) (entry : Candidate) : Prop where
  marked : entry.marked = true ↔ entry.state = .suspectedCycleMember
  collected : entry.state = .suspectedCycleMember ↔ entry.object ∈ members
  processed : entry.state = .processed ↔ entry.object ∉ members ∧
    after.countAt entry.object = before.countAt entry.object
  inProgress : entry.state = .inProgress ↔ entry.object ∉ members ∧
    after.countAt entry.object ≠ before.countAt entry.object
  listed : after.collector.registry.holds entry.object = true ↔ entry.state = .inProgress
  bit : after.bufferedAt entry.object = true ↔ entry.state = .inProgress
  claimed : after.claimedAt entry.object = true ↔ entry.object ∈ members

theorem Finished.outcome (finished : Finished h garbage k) (marked : h.Marked) {before : Heap}
    {entry : Candidate} (member : entry ∈ h.collector.registry)
    (recorded : entry.recorded.toNat = before.countAt entry.object) :
    Outcome before k garbage (h.judged garbage entry) := by
  obtain ⟨holds, bit, claimed⟩ := finished.settled marked entry member
  have unmarked := (marked.entries entry member).1.unmarked
  have counts : k.countAt entry.object = before.countAt entry.object ↔
      h.countAt entry.object = entry.recorded.toNat := by
    rw [finished.counts, recorded]
  obtain ⟨suspected, processed, inProgress⟩ := h.outcome_iff garbage entry
  rw [← counts] at processed
  rw [Ne, ← counts] at inProgress
  have marks : (h.judged garbage entry).marked = true ↔ entry.object ∈ garbage := by
    simp only [judged, unmarked, Bool.false_or, decide_eq_true_eq]
  exact ⟨marks.trans suspected.symm, suspected, processed, inProgress, holds, bit, claimed⟩

theorem Finished.unlisted (finished : Finished h garbage k) {a : Addr}
    (absent : h.collector.registry.holds a = false) :
    k.collector.registry.holds a = false ∧ k.bufferedAt a = h.bufferedAt a := by
  have apart : ∀ entry ∈ h.collector.registry, entry.object ≠ a := by
    intro entry member same
    rw [(holds_iff _ _).mpr ⟨entry, member, same⟩] at absent
    cases absent
  constructor
  · rw [← Bool.not_eq_true, finished.holds]
    rintro ⟨entry, member, same, _⟩
    exact apart entry member same
  · rw [Bool.eq_iff_iff, finished.bits]
    exact and_iff_left fun entry member same => absurd same (apart entry member)

/-- What a pass that has claimed certain groups reports and counts. -/
structure Report (before after : Heap) (groups : List Trial.Group) : Prop where
  names : after.collector.lastPass.map Candidate.object =
    before.collector.registry.map Candidate.object
  once : (after.collector.lastPass.map Candidate.object).Nodup
  outcomes : ∀ entry ∈ after.collector.lastPass,
    Outcome before after (groups.flatten.map Prod.fst) entry
  others : ∀ a, before.collector.registry.holds a = false →
    after.collector.registry.holds a = false ∧ after.bufferedAt a = before.bufferedAt a
  falsePositives : after.collector.falsePositives =
    before.collector.falsePositives + after.collector.lastPass.countP (·.state == .processed)
  cycles : after.collector.cycles = before.collector.cycles + groups.length
  collected : after.collector.collected =
    before.collector.collected + (groups.map List.length).sum
  runs : after.collector.runs = before.collector.runs + 1
  since : after.collector.since = 0

end Heap

namespace Machine

variable {m n started e : Machine} {log : List Event} {rest : List Task} {p : Pass}

/-! Work that waits behind a search -/

def under (m : Machine) (rest : List Task) : Machine := { m with tasks := m.tasks ++ rest }

@[simp] theorem under_heap (m : Machine) (rest : List Task) : (m.under rest).heap = m.heap := rfl

theorem push_under (m : Machine) (news rest : List Task) :
    (m.under rest).push news = (m.push news).under rest := by
  simp [push, under]

theorem perform_under (m : Machine) (rest : List Task) (t : Task) :
    (m.under rest).perform t = (m.perform t).under rest := by
  cases t with
  | release a =>
      simp only [perform, release, tryRelease, under_heap]
      cases lowered : m.heap.lower a with
      | error fault => simp [under, onHeap]
      | ok out => simp [under, push]
  | search pass =>
      simp only [perform, advance, under_heap]
      cases pass.walk.asks? with
      | some a => exact push_under m _ rest
      | none =>
          simp only
          split
          · simp [under, push]
          · exact push_under m _ rest
  | unload a =>
      cases traced : (m.heap.objects[a]?).any Object.traced with
      | true =>
          simp [perform, under, push, tracing, traced]
          rfl
      | false => simp [perform, under, traced]
  | finalize a => simp [perform, under, push]
  | releaseChildren a | expand pass a => exact push_under m _ rest
  | detach a | callback code | reclaim a | answer reclaimed => rfl

theorem eq_under {own rest : List Task} (tasks : m.tasks = own ++ rest) :
    m = ({ m with tasks := own } : Machine).under rest := by
  rw [under, ← tasks]

theorem step_under (busy : m.idle = false) (rest : List Task) :
    (m.under rest).step = m.step.under rest := by
  cases tasks : m.tasks with
  | nil => simp [idle, tasks] at busy
  | cons t own =>
    have more : (m.under rest).tasks = t :: (own ++ rest) := by simp [under, tasks]
    rw [step_cons more, step_cons tasks]
    exact perform_under { m with tasks := own } rest t

/-! Scans -/

def ends? (m : Machine) : Option Pass :=
  match m.tasks with
  | .search p :: _ => if p.walk.finished then some p else none
  | _ => none

/-- A client in control starts a pass, or counts an allocation and one is due. -/
inductive Begins (m : Machine) : Machine → Prop where
  | collect : m.listens = true → Begins m m.collect
  | trigger : m.listens = true → m.trigger.1 = true → Begins m m.trigger.2

/-- A release that leaves the object a reference, and that the registry need not hear of. -/
def Spares (m : Machine) (a : Addr) : Prop :=
  2 ≤ m.heap.countAt a ∧ (m.heap.tracedAt a = true → m.heap.bufferedAt a = true)

/-- What a tracer that the search of a pass waits for may do. The pass holds the registry, so the
last reference to an object may not be dropped here, nor may an object enter the registry. -/
def Interjects (m : Machine) (operation : Operation) : Prop :=
  m.analysing = true ∧
    match operation with
    | .call (.retain _) | .call (.upgrade _) | .retain _ | .retainBatch _ => True
    | .call (.release a) | .call (.tryRelease a) => m.Spares a
    | _ => False

/-- The machines of one pass, from the one that started it to the one whose next step ends it. -/
inductive Scan (started : Machine) : Machine → Prop where
  | start : Scan started started
  | operate {e : Machine} (operation : Operation) (scan : Scan started e)
      (may : e.Interjects operation) : Scan started (e.operate operation)
  | step {e : Machine} (scan : Scan started e) (goesOn : e.ends? = none) : Scan started e.step

theorem listens_of_analysing (analysing : m.analysing = true) : m.listens = true := by
  unfold Machine.analysing at analysing
  split at analysing
  · rename_i tasks
    simp [listens, callback?, tasks]
  · cases analysing

theorem Interjects.nudged {operation : Operation} (interjects : m.Interjects operation) :
    m.May operation ∧ m.heap.Nudged (m.operate operation).heap ∧
      (m.operate operation).tasks = m.tasks := by
  obtain ⟨analysing, may⟩ := interjects
  have listens := listens_of_analysing analysing
  -- The ledger does not matter here: each object may be thought to be owned once.
  have drifts : ∀ request, ({ machine := m, owned := fun _ => 1 } : Client).Drift request →
      m.heap.Nudged (m.operate (.call request)).heap ∧
        (m.operate (.call request)).tasks = m.tasks := by
    intro request drift
    have drifted := drift.drifted
    rw [← Client.call_operates { machine := m, owned := fun _ => 1 } request]
    exact ⟨drifted.nudged, drifted.tasks⟩
  cases operation with
  | call request =>
      cases request with
      | retain a | upgrade handle => exact ⟨listens, drifts _ ⟨analysing, trivial⟩⟩
      | release a | tryRelease a => exact ⟨listens, drifts _ ⟨analysing, Nat.one_pos, may⟩⟩
      | _ => cases may
  | retain a => exact ⟨listens, m.heap.retain_nudged a, rfl⟩
  | retainBatch objects => exact ⟨listens, m.heap.retainBatch_nudged objects, rfl⟩
  | _ => cases may

theorem Begins.run (begins : m.Begins started) (run : Run n log m) : ∃ log', Run n log' started := by
  cases begins with
  | collect listens => exact ⟨_, run.operate (.call .collect) listens⟩
  | trigger listens due => exact ⟨_, run.operate (.call .trigger) listens⟩

theorem Scan.run (scan : started.Scan e) (run : Run n log started) : ∃ log', Run n log' e := by
  induction scan with
  | start => exact ⟨log, run⟩
  | operate operation scan may ih =>
      obtain ⟨_, before⟩ := ih
      exact ⟨_, before.operate operation may.nudged.1⟩
  | step scan goesOn ih =>
      obtain ⟨_, before⟩ := ih
      exact ⟨_, before.step⟩

theorem Begins.cases (begins : m.Begins started) : ∃ c : Collector,
    started = (m.onHeap ({ · with collector := c })).collect ∧
      c = { m.heap.collector with since := c.since, draws := c.draws } := by
  cases begins with
  | collect _ => exact ⟨m.heap.collector, rfl, rfl⟩
  | trigger _ due =>
      refine ⟨m.heap.collector.noteAllocation.2, ?_, ?_⟩
      · simp only [Machine.trigger] at due ⊢
        rw [if_pos due]
      · cases automatic : m.heap.collector.settings.automatic with
        | false => simp [Collector.noteAllocation, automatic]
        | true =>
            simp only [Collector.noteAllocation, automatic, Bool.not_true, Bool.false_eq_true,
              if_false]
            split <;> rfl

/-- The search of a pass by itself, and what it has not touched of the heap that it started on. -/
structure Scanning (h : Heap) (n : Machine) : Prop where
  searching : ∃ p roots, n.Searching p (fun _ count => count < Trial.Discovery.edgeLimit) roots
  collector : n.heap.collector = h.collector
  bits : ∀ a, n.heap.bufferedAt a = h.bufferedAt a

theorem Searching.busy {counted : Addr → Nat → Prop} {roots : List Addr}
    (searching : m.Searching p counted roots) : m.idle = false := by
  rcases searching.tasks with tasks | ⟨a, _, tasks | tasks⟩ <;> simp [idle, tasks]

theorem Searching.ends_under {counted : Addr → Nat → Prop} {roots : List Addr}
    (searching : m.Searching p counted roots) (rest : List Task) :
    (m.under rest).ends? = if p.walk.finished then some p else none := by
  rcases searching.tasks with tasks | ⟨a, asked, tasks⟩
  · simp [ends?, under, tasks]
  · have unfinished : ¬ p.walk.finished = true := fun finished => by
      rw [asks_of_finished p.walk finished] at asked
      cases asked
    rw [if_neg unfinished]
    rcases tasks with tasks | tasks <;> simp [ends?, under, tasks]

/-- A step of a search changes nothing else, and brings it nearer to its end. -/
theorem Scanning.step {h : Heap} (scanning : n.Scanning h) (rest : List Task)
    (goesOn : (n.under rest).ends? = none) :
    n.idle = false ∧ n.step.Scanning h ∧ Nearer n.step.progress n.progress := by
  obtain ⟨⟨p, roots, searching⟩, collector, bits⟩ := scanning
  rw [searching.ends_under] at goesOn
  have unfinished : ¬ n.Found p := fun found => by simp [found.2] at goesOn
  rcases searching.step fun a _ => n.heap.countAt_lt a with found | ⟨q, _, _, same, further⟩
  · exact absurd found unfinished
  · exact ⟨searching.busy, ⟨⟨q, roots, further⟩, same ▸ collector, fun a => same ▸ bits a⟩,
      searching.nearer unfinished⟩

/-- What waits behind a pass stays there. -/
theorem Scan.scanning (scan : (m.collect).Scan e) :
    ∃ n : Machine, e = n.under m.tasks ∧ n.Scanning m.heap.startPass.2 := by
  induction scan with
  | start =>
      refine ⟨({ m with tasks := [] } : Machine).collect, ?_, ⟨_, _, collect_searching rfl _⟩, rfl,
        fun _ => rfl⟩
      simp [collect, push, under]
  | operate operation scan may ih =>
      obtain ⟨n, rfl, ⟨p, roots, searching⟩, collector, bits⟩ := ih
      obtain ⟨_, nudged, tasks⟩ := may.nudged
      refine ⟨{ (n.under m.tasks).operate operation with tasks := n.tasks }, ?_, ?_, ?_, ?_⟩
      · exact eq_under tasks
      · exact ⟨p, roots, searching.moved rfl nudged.same nudged.zero⟩
      · exact nudged.collector.trans collector
      · exact fun a => (nudged.bits a).trans (bits a)
  | step scan goesOn ih =>
      obtain ⟨n, rfl, scanning⟩ := ih
      obtain ⟨busy, still, _⟩ := scanning.step m.tasks goesOn
      exact ⟨n.step, step_under busy _, still⟩

theorem Scan.ends (scan : (m.collect).Scan e) :
    ∃ k, (m.collect).Scan (e.steps k) ∧ ((e.steps k).ends?).isSome = true := by
  obtain ⟨n, rfl, scanning⟩ := scan.scanning
  generalize far : n.progress = x
  induction x using nearer_grounded.induction generalizing n with
  | _ x ih =>
      subst far
      cases isEnd : (n.under m.tasks).ends? with
      | some p => exact ⟨0, scan, by rw [Machine.steps, isEnd]; rfl⟩
      | none =>
          obtain ⟨busy, still, nearer⟩ := scanning.step m.tasks isEnd
          have further := scan.step isEnd
          rw [step_under busy] at further
          obtain ⟨k, later, isSome⟩ := ih _ nearer n.step still further rfl
          refine ⟨k + 1, ?_⟩
          rw [Machine.steps, step_under busy]
          exact ⟨later, isSome⟩

theorem step_ends (isEnd : e.ends? = some p) : e.step.heap = (e.heap.finishPass p).2 := by
  unfold ends? at isEnd
  split at isEnd
  · rename_i q rest tasks
    split at isEnd
    · rename_i finished
      cases isEnd
      rw [step_cons tasks]
      simp [perform, advance, asks_of_finished p.walk finished, finished, push]
    · cases isEnd
  · cases isEnd

/-- The registry, the bits and the counts that a pass started with. -/
structure Started (h k : Heap) : Prop where
  objects : k.collector.registry.map Candidate.object = h.collector.registry.map Candidate.object
  recorded : ∀ entry ∈ k.collector.registry, entry.recorded.toNat = h.countAt entry.object
  bits : ∀ a, k.bufferedAt a = h.bufferedAt a
  counters : k.collector.falsePositives = h.collector.falsePositives ∧
    k.collector.cycles = h.collector.cycles ∧ k.collector.collected = h.collector.collected ∧
    k.collector.runs = h.collector.runs

theorem Scan.began (begins : m.Begins started) (marked : m.heap.Marked)
    (scan : started.Scan e) : Started m.heap e.heap := by
  obtain ⟨c, rfl, same⟩ := begins.cases
  obtain ⟨n, rfl, _, collector, bits⟩ := scan.scanning
  have registry : c.registry = m.heap.collector.registry := by rw [same]
  have noted : ({ m.heap with collector := c } : Heap).Marked :=
    marked.transfer (fun _ => rfl) (by rw [registry]) fun _ => id
  constructor
  · rw [under_heap, collector]
    exact noted.startPass_objects.trans (by rw [registry])
  · rw [under_heap, collector]
    intro entry member
    exact Heap.startPass_entries (m.onHeap ({ · with collector := c })).heap entry member
  · exact bits
  · rw [under_heap, collector]
    rw [same]
    exact ⟨rfl, rfl, rfl, rfl⟩

/-- A pass reports on each object that was registered when it started, once and on no other, and by
its end the outcome, the registry, the bit and the claim of that object agree. No other bit has
changed, and the counters go by the outcomes. All this holds wherever the client is in control when
the pass starts, and whatever it retains, upgrades and releases at the tracers that the search calls. -/
theorem Run.scan_outcomes {settings : Settings} {entropy : UInt64} {heap : Heap}
    (made : Heap.create settings entropy = .ok heap) (run : Run { heap } log m)
    (begins : m.Begins started) (scan : started.Scan e) :
    (∃ k, started.Scan (e.steps k) ∧ ((e.steps k).ends?).isSome = true) ∧
    ∀ p, e.ends? = some p → Heap.Report m.heap e.step.heap
      (e.heap.claimGroups p.minimum p.walk.found.verdict.garbage).1 := by
  obtain rfl := Heap.create_initial made
  have marked : m.heap.Marked := (run.told (Told.initial settings entropy)).marked
  obtain ⟨_, toStart⟩ := begins.run run
  obtain ⟨_, toEnd⟩ := scan.run toStart
  have still : e.heap.Marked := (toEnd.told (Told.initial settings entropy)).marked
  obtain ⟨objects, recorded, bits, falsePositives, cycles, collected, runs⟩ := scan.began begins marked
  refine ⟨?_, fun p isEnd => ?_⟩
  · obtain ⟨c, rfl, _⟩ := begins.cases
    exact scan.ends
  let members := (e.heap.claimGroups p.minimum p.walk.found.verdict.garbage).1.flatten.map Prod.fst
  have isMembers : (e.heap.finishPass p).1 = members := rfl
  have finished := still.finishPass p
  have collector := still.finishPass_collector p
  rw [← step_ends isEnd, isMembers] at finished collector
  have report : e.step.heap.collector.lastPass =
      e.heap.collector.registry.map (e.heap.judged members) := by
    rw [collector]
  have names : e.step.heap.collector.lastPass.map Candidate.object =
      m.heap.collector.registry.map Candidate.object := by
    rw [report, List.map_map, ← objects]
    rfl
  refine ⟨names, names ▸ marked.once, ?_, ?_, ?_, ?_, ?_, ?_, ?_⟩
  · intro entry member
    rw [report] at member
    obtain ⟨old, isOld, rfl⟩ := List.mem_map.mp member
    exact finished.outcome still isOld (recorded old isOld)
  · intro a absent
    rw [← Heap.holds_congr objects] at absent
    obtain ⟨unheard, bit⟩ := finished.unlisted absent
    exact ⟨unheard, bit.trans (bits a)⟩
  all_goals rw [collector]
  · simp only [falsePositives]
  · simp only [cycles]
  · simp only [collected, members, List.length_map, List.length_flatten]
  · simp only [runs]

theorem Scan.steps (scan : started.Scan e) (k : Nat) (quiet : ∀ i < k, (e.steps i).ends? = none) :
    started.Scan (e.steps k) := by
  induction k generalizing e with
  | zero => exact scan
  | succ k ih =>
      exact ih (scan.step (quiet 0 (Nat.succ_pos k))) fun i less => quiet (i + 1) (Nat.succ_lt_succ less)

/-- Two objects that hold each other and are let go, and two that are owned; all are candidates. -/
def mixedScript : List (Operation × Nat) :=
  [(.call (.declare 1 (.leading 2)), 0), (.call (.alloc 16 1 none), 0),
    (.call (.alloc 16 1 none), 0), (.call (.alloc 16 1 none), 0), (.call (.alloc 16 1 none), 0),
    (.call (.assign 0x6b7000000000 0 (some 0x6b7000000060)), 0),
    (.call (.assign 0x6b7000000060 1 (some 0x6b7000000000)), 0),
    (.call (.release 0x6b7000000000), 1), (.call (.release 0x6b7000000060), 1),
    (.call (.addCandidate 0x6b70000000c0), 0), (.call (.addCandidate 0x6b7000000120), 0)]

-- One of the owned objects is retained at the first tracer call.
theorem scan_outcomes_mixed :
    let start : Machine := { heap := .initial {} 0 }
    let m := (start.play mixedScript).2
    let e := ((m.collect.steps 2).operate (.call (.retain 0x6b7000000120))).steps 17
    start.Plays mixedScript ∧ m.listens = true ∧ m.collect.Scan e ∧ e.ends?.isSome = true ∧
      e.step.heap.collector.lastPass.map (fun entry => (entry.object, entry.state)) =
        [(0x6b7000000120, .inProgress), (0x6b70000000c0, .processed),
          (0x6b7000000060, .suspectedCycleMember), (0x6b7000000000, .suspectedCycleMember)] ∧
      e.step.heap.collector.runs = m.heap.collector.runs + 1 := by
  intro start m e
  have made : Heap.create {} 0 = .ok start.heap := Heap.create_valid {} 0 (by decide +kernel)
  have plays : start.Plays mixedScript := by decide +kernel
  have run : Run start _ m := Run.start.play mixedScript plays
  have listens : m.listens = true := by decide +kernel
  have asked : m.collect.Scan (m.collect.steps 2) := Scan.start.steps 2 (by decide +kernel)
  have retained := asked.operate (.call (.retain 0x6b7000000120)) ⟨by decide +kernel, trivial⟩
  have scan : m.collect.Scan e := retained.steps 17 (by decide +kernel)
  have isSome : e.ends?.isSome = true := by decide +kernel
  obtain ⟨p, isEnd⟩ := Option.isSome_iff_exists.mp isSome
  have report := (Run.scan_outcomes made run (.collect listens) scan).2 p isEnd
  exact ⟨plays, listens, scan, isSome, by decide +kernel, report.runs⟩

end Machine

end CountedHeap
