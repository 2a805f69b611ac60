import CountedHeap.Proofs.Apart
import CountedHeap.Proofs.Completeness
import CountedHeap.Proofs.Disturbed
import CountedHeap.Proofs.Stages

/-!
References that are gained while a pass searches. A garbage group with a member whose count was raised
is not claimed. But its candidates are judged one by one, and only those stay registered whose own
count was raised. So the pass loses sight of every member that hangs from none of these.
-/

namespace CountedHeap

open Client (gain)
open Trial (Discovery Group)
open Heap (Same)

def Heap.InSight (h : Heap) : Addr → Prop :=
  Reached h.Points fun a => h.collector.registry.holds a = true

namespace Client

variable {c d : Client} {request : Call}

def Gains (c : Client) (request : Call) : Prop :=
  c.machine.analysing = true ∧
    match request with
    | .retain _ | .upgrade _ => True
    | _ => False

theorem Gains.drift (gains : c.Gains request) : c.Drift request := by
  refine ⟨gains.1, ?_⟩
  cases request with
  | retain a | upgrade handle => trivial
  | _ => exact gains.2.elim

/-- What becomes of a heap whose client gains a reference, or is refused one. -/
structure More (c d : Client) : Prop where
  counts : ∀ a, c.machine.heap.countAt a ≤ d.machine.heap.countAt a
  marked : c.machine.heap.Marked → d.machine.heap.Marked

theorem more_raised {a : Addr} {k : Heap} (raised : c.machine.heap.Raised a k) :
    More c { c.onHeap k with owned := gain c.owned a } := by
  refine ⟨fun b => ?_, fun marked => marked.raised raised⟩
  have moved := raised.countAt_gain (fun _ => 0) b
  exact Nat.le.intro moved.symm

theorem Gains.more (gains : c.Gains request) : More c (c.call request) := by
  obtain ⟨_, may⟩ := gains
  cases request with
  | retain a =>
      simp only [call]
      split
      · rename_i k done
        exact more_raised (tryRetain_raised _ k a done)
      · exact ⟨fun _ => Nat.le_refl _, id⟩
  | upgrade handle =>
      have gentle := (c.machine.heap.upgrade_edits handle).gentle
      simp only [call]
      rcases upgrade_raised c.machine.heap handle with ⟨a, k, out, raised⟩ | ⟨k, out, same, _⟩
      · rw [out]
        exact more_raised raised
      · rw [out] at gentle ⊢
        exact ⟨fun b => (same.standing_of_face.countAt b).ge, gentle.marked⟩
  | _ => cases may

end Client

namespace Machine

open Client (Drifted More)

variable {m : Machine} {p : Pass} {before : Heap} {owned : Addr → Nat}

/-- A search on a heap whose counts have only risen since it started. -/
structure Gaining (m : Machine) (p : Pass) (before : Heap) (owned : Addr → Nat) : Prop where
  searching : ∃ roots, m.Searching p
    (fun a count => before.countAt a ≤ count ∧ count ≤ m.heap.countAt a) roots
  same : Same Object.shape before m.heap
  enough : ∀ a, before.Live a → before.held a ≤ before.countAt a
  risen : ∀ a, before.countAt a ≤ m.heap.countAt a
  listed : ∀ a, m.heap.collector.registry.holds a = before.collector.registry.holds a
  recorded : ∀ entry ∈ m.heap.collector.registry,
    entry.recorded.toNat = before.countAt entry.object
  accurate : m.heap.Exact owned
  marked : m.heap.Marked

theorem Gaining.of_pass (idle : m.idle = true) (accurate : m.heap.Exact owned)
    (marked : m.heap.Marked) : m.collect.Gaining m.heap.startPass.1 m.heap owned := by
  constructor
  · exact ⟨_, collect_searching idle _⟩
  · exact ⟨rfl, fun _ => rfl⟩
  · intro a live
    have balance := accurate.balanced a live
    omega
  · exact fun a => Nat.le_refl _
  · exact marked.startPass_holds
  · exact m.heap.startPass_entries
  · exact ⟨accurate.reported, accurate.balanced⟩
  · exact marked.startPass

theorem Gaining.step (gaining : m.Gaining p before owned) :
    m.Found p ∨ ∃ q, m.step.Gaining q before owned := by
  obtain ⟨roots, searching⟩ := gaining.searching
  rcases searching.step fun a _ => ⟨gaining.risen a, Nat.le_refl _⟩ with
    found | ⟨q, _, _, heap, goesOn⟩
  · exact Or.inl found
  · refine Or.inr ⟨q, ⟨roots, ?_⟩, ?_, gaining.enough, ?_, ?_, ?_, ?_, ?_⟩ <;> rw [heap]
    · exact goesOn
    · exact gaining.same
    · exact gaining.risen
    · exact gaining.listed
    · exact gaining.recorded
    · exact gaining.accurate
    · exact gaining.marked

theorem Gaining.gains {c d : Client} (gaining : c.machine.Gaining p before c.owned)
    (drifted : Drifted c d) (more : More c d) : d.machine.Gaining p before d.owned := by
  have alive := drifted.same.live_iff
  obtain ⟨roots, searching⟩ := gaining.searching
  constructor
  · refine ⟨roots, (searching.moved drifted.tasks drifted.same drifted.zero).mono ?_⟩
    exact fun a count seen => ⟨seen.1, seen.2.trans (more.counts a)⟩
  · exact gaining.same.trans drifted.same
  · exact gaining.enough
  · exact fun a => (gaining.risen a).trans (more.counts a)
  · rw [drifted.frame]
    exact gaining.listed
  · rw [drifted.frame]
    exact gaining.recorded
  · refine ⟨gaining.accurate.reported.shrink drifted.same.body_of_shape fun a => (alive a).mp,
      fun a live => ?_⟩
    have wasLive := (alive a).mp live
    have moved := drifted.counts a wasLive
    have balance := gaining.accurate.balanced a wasLive
    rw [drifted.same.held]
    omega
  · exact more.marked gaining.marked

/-! What is found to be garbage -/

theorem gained_small (h before : Heap) (a : Addr) (count : Nat)
    (seen : before.countAt a ≤ count ∧ count ≤ h.countAt a) : count < Discovery.edgeLimit :=
  seen.2.trans_lt (h.countAt_lt a)

theorem Searching.skipped {counted : Addr → Nat → Prop} {roots : List Addr}
    (searching : m.Searching p counted roots) {group : Group}
    (isGarbage : group ∈ p.walk.found.verdict.garbage) (moved : m.heap.steady group = false)
    (a : Addr) (inGroup : a ∈ group.map Prod.fst) : a ∉ m.heap.garbage p := by
  intro claimed
  obtain ⟨other, isClaimed, inOther⟩ := (Trial.mem_groups _ a).mp claimed
  obtain ⟨isGroup, may⟩ := List.mem_filter.mp isClaimed
  rw [Bool.and_eq_true] at may
  -- A member would be in two groups: in this one, and in another that has not moved.
  have differ : group ≠ other := by
    rintro rfl
    rw [may.2] at moved
    cases moved
  have all := searching.garbage_nodup
  rw [List.map_flatten, List.nodup_flatten, List.pairwise_map] at all
  have symm : Std.Symm fun a b : Group => (a.map Prod.fst).Disjoint (b.map Prod.fst) :=
    ⟨fun _ _ => List.Disjoint.symm⟩
  have apart : (group.map Prod.fst).Disjoint (other.map Prod.fst) :=
    all.2.forall isGarbage isGroup differ
  exact apart inGroup inOther

section Found

variable (gaining : m.Gaining p before owned) (found : m.Found p) {group : Group}
  (isGarbage : group ∈ p.walk.found.verdict.garbage)

include gaining found isGarbage

/-- What was seen of a member is what the group holds of it, and all that was there to be seen. -/
theorem Gaining.member (a : Addr) (inGroup : a ∈ group.map Prod.fst) :
    m.heap.Live a ∧ before.countAt a = m.heap.held a ∧
      ∀ b, m.heap.Points b a → b ∈ group.map Prod.fst := by
  obtain ⟨roots, searching⟩ := gaining.searching
  have members := searching.member found (gained_small m.heap before) group isGarbage
  have live : ∀ b ∈ group.map Prod.fst, m.heap.Live b := fun b isMember =>
    (searching.group_collectable found (gained_small m.heap before) group isGarbage b isMember).live
  have once := searching.group_nodup group isGarbage
  obtain ⟨member, listed, same⟩ := List.mem_map.mp inGroup
  obtain ⟨_, ⟨least, _⟩, total⟩ := members member listed
  rw [same] at least total
  have seen : member.2 =
      ((group.map Prod.fst).map fun b => (m.heap.children b).count a).sum := by
    rw [total, List.map_map]
    rfl
  -- At least the count at the start was seen, and no more than all that is held of the member; but a
  -- count is never less than that.
  have fewer := m.heap.sum_children_le (group.map Prod.fst) once live a
  have enough := gaining.enough a ((gaining.same.live_iff a).mp (live a inGroup))
  rw [← gaining.same.held] at enough
  refine ⟨live a inGroup, by omega, fun b points => ?_⟩
  have among : (group.map Prod.fst).toFinset ⊆ m.heap.live := fun c isMember =>
    (m.heap.mem_live c).mpr (live c (List.mem_toFinset.mp isMember))
  have all : m.heap.held a ≤ ∑ c ∈ (group.map Prod.fst).toFinset, m.heap.edges c a := by
    have sums : ((group.map Prod.fst).map fun b => (m.heap.children b).count a).sum ≤
        ∑ c ∈ (group.map Prod.fst).toFinset, m.heap.edges c a := by
      rw [← List.sum_toFinset _ once]
      exact Finset.sum_le_sum fun c _ => m.heap.children_le_edges c a
    omega
  exact List.mem_toFinset.mp (m.heap.holders_within _ among a all b points)

theorem Gaining.raised_iff (a : Addr) (inGroup : a ∈ group.map Prod.fst) :
    before.countAt a < m.heap.countAt a ↔ 0 < owned a := by
  obtain ⟨live, count, _⟩ := gaining.member found isGarbage a inGroup
  have balance := gaining.accurate.balanced a live
  omega

/-- The end of the pass leaves such a group alone, but for its candidates: it keeps those whose counts
were raised. -/
theorem Gaining.apart (moved : m.heap.steady group = false) :
    m.step.Apart (group.map Prod.fst) ∧
      (∀ a b, m.step.heap.Points a b ↔ m.heap.Points a b) ∧
      ∀ a ∈ group.map Prod.fst, m.step.heap.collector.registry.holds a = true ↔
        before.collector.registry.holds a = true ∧ before.countAt a < m.heap.countAt a := by
  obtain ⟨roots, searching⟩ := gaining.searching
  have calm := searching.calm
  have accounted : m.heap.Accounted owned := fun a live => (gaining.accurate.balanced a live).ge
  obtain ⟨_, tasks, ended, _⟩ := searching.disposed found (gained_small m.heap before) accounted
  have member := gaining.member found isGarbage
  have skipped := searching.skipped isGarbage moved
  have points : ∀ a b, m.step.heap.Points a b ↔ m.heap.Points a b := by
    intro a b
    rw [Heap.Points, ended.live, ended.body.edges]
    exact Iff.rfl
  refine ⟨⟨fun a inGroup => (ended.live a).mpr (member a inGroup).1, ?_, ?_⟩, points, ?_⟩
  · intro t waits a inGroup
    rw [tasks, List.mem_append, List.mem_singleton] at waits
    rcases waits with disposes | last
    · refine ⟨t.releases_disposal disposes a, Bool.eq_false_iff.mpr fun reclaims => ?_⟩
      exact skipped a inGroup (t.reclaims_disposal disposes a reclaims)
    · rw [last]
      exact ⟨rfl, rfl⟩
  · intro a b edge inGroup
    exact (member b inGroup).2.2 a ((points a b).mp edge)
  · intro a inGroup
    obtain ⟨garbage, _⟩ := m.heap.finishPass_ended p searching.garbage_nodup
      fun b isGarbage => (searching.collectable found (gained_small m.heap before) b isGarbage).fresh
    have finished := gaining.marked.finishPass p
    rw [garbage] at finished
    have heap : m.step.heap = (m.heap.finishPass p).2 := by rw [found.step]
    have risen := gaining.risen a
    rw [heap, finished.holds, ← gaining.listed, Heap.holds_iff]
    constructor
    · rintro ⟨entry, listed, rfl, outcome⟩
      refine ⟨⟨entry, listed, rfl⟩, ?_⟩
      have recorded := gaining.recorded entry listed
      simp only [Heap.outcome, skipped _ inGroup, if_false] at outcome
      split at outcome
      · cases outcome
      · omega
    · rintro ⟨⟨entry, listed, rfl⟩, less⟩
      have recorded := gaining.recorded entry listed
      refine ⟨entry, listed, rfl, ?_⟩
      rw [Heap.outcome, if_neg (skipped _ inGroup), if_neg (by omega)]

theorem Gaining.closed (a b : Addr) (points : m.heap.Points a b) (inGroup : b ∈ group.map Prod.fst) :
    a ∈ group.map Prod.fst :=
  (gaining.member found isGarbage b inGroup).2.2 a points

theorem Gaining.reachable_iff (a : Addr) (inGroup : a ∈ group.map Prod.fst) (n : Nat) :
    (m.step.steps n).heap.Reachable owned a ↔ ∃ b ∈ group.map Prod.fst,
      before.countAt b < m.heap.countAt b ∧ Relation.ReflTransGen m.heap.Points b a := by
  obtain ⟨roots, searching⟩ := gaining.searching
  have orderly : m.Orderly :=
    Or.inr ⟨_, _, searching.mono (gained_small m.heap before)⟩
  have accounts : m.Accounts owned :=
    searching.calm.accounts_iff.mpr fun b live => (gaining.accurate.balanced b live).ge
  have same : (m.step.steps n).heap.Reachable owned a ↔ m.heap.Reachable owned a :=
    ((accounts.steps orderly (n + 1)).2.2 a).1
  rw [same, Heap.Reachable, Reached.within_iff (gaining.closed found isGarbage) inGroup]
  refine exists_congr fun b => and_congr_right fun isMember => and_congr_left fun _ => ?_
  exact (gaining.raised_iff found isGarbage b isMember).symm

/-- And the registry reaches what hangs from one that was a candidate besides. -/
theorem Gaining.in_sight_iff (moved : m.heap.steady group = false) (a : Addr)
    (inGroup : a ∈ group.map Prod.fst) (n : Nat) :
    let after := (m.step.steps n).heap
    after.Live a ∧
      (after.InSight a ↔
        ∃ b ∈ group.map Prod.fst,
          (before.collector.registry.holds b = true ∧ before.countAt b < m.heap.countAt b) ∧
            Relation.ReflTransGen m.heap.Points b a) := by
  intro after
  have closed := gaining.closed found isGarbage
  obtain ⟨roots, searching⟩ := gaining.searching
  obtain ⟨_, _, _, accounts, _⟩ := searching.disposed found (gained_small m.heap before)
    fun b live => (gaining.accurate.balanced b live).ge
  obtain ⟨apart, points, holds⟩ := gaining.apart found isGarbage moved
  obtain ⟨later, laterPoints, laterHolds⟩ := apart.steps accounts found.cascades n
  refine ⟨later.live a inGroup, ?_⟩
  rw [Heap.InSight, ← Reached.within_iff closed inGroup]
  refine Reached.within_congr closed (fun b c isMember => ?_) (fun b isMember => ?_) inGroup
  · exact (laterPoints b c isMember).trans (points b c)
  · rw [laterHolds b isMember]
    exact holds b isMember

end Found

end Machine

namespace Client

variable {c d : Client}

open Machine (Gaining)

theorem Run.gaining (idle : c.machine.idle = true) (accurate : c.machine.heap.Exact c.owned)
    (marked : c.machine.heap.Marked) (run : Run Gains { c with machine := c.machine.collect } d) :
    (∃ p, d.machine.Gaining p c.machine.heap d.owned) ∨ ∀ t ∈ d.machine.tasks, t.cascades = true := by
  induction run with
  | start => exact Or.inl ⟨_, Gaining.of_pass idle accurate marked⟩
  | call request run gains ih =>
      rename_i e
      rcases ih with ⟨p, gaining⟩ | cascade
      · exact Or.inl ⟨p, gaining.gains gains.drift.drifted gains.more⟩
      · obtain ⟨t, member, other⟩ := analysing_cascade e.machine gains.1
        rw [cascade t member] at other
        cases other
  | step run ih =>
      rcases ih with ⟨p, gaining⟩ | cascade
      · rcases gaining.step with found | goesOn
        · exact Or.inr found.cascades
        · exact Or.inl goesOn
      · exact Or.inr (Machine.cascades_step cascade)

/-- A group that is passed over because a reference was gained while the pass searched. Its members
live on. The ledger reaches those that hang from a member whose count was raised; in sight of the
registry are those that hang from one that was a candidate besides. So a member that the ledger does
not reach is out of sight as well: what the candidates that stay lead to, the ledger reaches anyway. -/
theorem skipped_in_sight (c : Client) (idle : c.machine.idle = true)
    (accurate : c.machine.heap.Exact c.owned) (marked : c.machine.heap.Marked) (d : Client)
    (run : Run Gains { c with machine := c.machine.collect } d) (p : Pass)
    (found : d.machine.Found p) (group : Group)
    (isGarbage : group ∈ p.walk.found.verdict.garbage)
    (moved : d.machine.heap.steady group = false) (a : Addr) (inGroup : a ∈ group.map Prod.fst)
    (n : Nat) :
    let after := (d.machine.step.steps n).heap
    let raised := fun b => c.machine.heap.countAt b < d.machine.heap.countAt b
    after.Live a ∧
      (after.Reachable d.owned a ↔
        ∃ b ∈ group.map Prod.fst, raised b ∧ Relation.ReflTransGen d.machine.heap.Points b a) ∧
      (after.InSight a ↔
        ∃ b ∈ group.map Prod.fst, (c.machine.heap.collector.registry.holds b = true ∧ raised b) ∧
          Relation.ReflTransGen d.machine.heap.Points b a) ∧
      ((¬ after.Reachable d.owned a → after.InSight a) ↔
        ∃ b ∈ group.map Prod.fst, raised b ∧ Relation.ReflTransGen d.machine.heap.Points b a) := by
  intro after raised
  rcases Run.gaining idle accurate marked run with ⟨q, gaining⟩ | cascade
  · obtain ⟨roots, searching⟩ := gaining.searching
    have same := searching.unique found
    subst same
    have reachable := gaining.reachable_iff found isGarbage a inGroup n
    obtain ⟨live, sight⟩ := gaining.in_sight_iff found isGarbage moved a inGroup n
    refine ⟨live, reachable, sight, ?_⟩
    rw [← reachable]
    refine ⟨fun promised => ?_, fun reached unreached => absurd reached unreached⟩
    by_contra unreached
    obtain ⟨b, isMember, ⟨_, isRaised⟩, path⟩ := sight.mp (promised unreached)
    exact unreached (reachable.mpr ⟨b, isMember, isRaised, path⟩)
  · have impossible := cascade (.search p) (by rw [found.1]; exact List.mem_singleton_self _)
    cases impossible

instance (c : Client) : (request : Call) → Decidable (c.Gains request)
  | .retain _ | .upgrade _ => inferInstanceAs (Decidable (_ ∧ True))
  | .declare _ _ | .alloc _ _ _ | .release _ | .tryRelease _ | .assign _ _ _ | .load _ _
  | .take _ _ | .addCandidate _ | .downgrade _ | .cloneHandle _ | .dropHandle _ | .configure _
  | .collect | .trigger | .memory _ | .room _ | .reorder _ => inferInstanceAs (Decidable (_ ∧ False))

/-- An object that holds itself and another one, to which there is a weak handle. Both are
candidates, and neither is owned. -/
def leaningScript : List (Call × Nat) :=
  [(.declare 1 (.leading 2), 0), (.alloc 16 1 none, 0), (.alloc 16 1 none, 0),
    (.assign 0x6b7000000000 0 (some 0x6b7000000000), 0),
    (.assign 0x6b7000000000 1 (some 0x6b7000000060), 0), (.downgrade 0x6b7000000060, 0),
    (.release 0x6b7000000060, 9), (.release 0x6b7000000000, 9)]

-- The handle is upgraded while the tracer of the second object is called.
theorem skipped_in_sight_leaning :
    let c := (fresh (Heap.initial { collector := { minimum := 1 } } 0)).session leaningScript
    let d := (({ c with machine := c.machine.collect } : Client).steps 5).session [(.upgrade 0, 4)]
    let after := (d.machine.step.steps 1).heap
    after.Live 0x6b7000000060 ∧ after.InSight 0x6b7000000060 := by
  intro c d after
  have follows : Run Rule.thorough.AtRest (fresh (Heap.initial { collector := { minimum := 1 } } 0)) c :=
    Run.session .start leaningScript (by decide +kernel)
  have idle : c.machine.idle = true := by decide +kernel
  have accurate := (follows.complete (fresh_complete _ 0 rfl)).accurate.heap (Machine.calm_of_idle idle)
  have run : Run Gains { c with machine := c.machine.collect } d :=
    Run.session (Run.start.steps 5) [(.upgrade 0, 4)] (by decide +kernel)
  have outcome : d.machine.found?.any (fun p =>
      decide ([(0x6b7000000000, 1), (0x6b7000000060, 1)] ∈ p.walk.found.verdict.garbage)) = true := by
    decide +kernel
  obtain ⟨p, same, isGarbage⟩ := (Option.any_eq_true _ _).mp outcome
  have moved : d.machine.heap.steady [(0x6b7000000000, 1), (0x6b7000000060, 1)] = false := by
    decide +kernel
  obtain ⟨live, _, sight, _⟩ := skipped_in_sight c idle accurate follows.marked d run p
    (Machine.found_of_found? same) _ (of_decide_eq_true isGarbage) moved 0x6b7000000060
    (by decide +kernel) 1
  have listed : c.machine.heap.collector.registry.holds 0x6b7000000060 = true := by decide +kernel
  have raised : c.machine.heap.countAt 0x6b7000000060 < d.machine.heap.countAt 0x6b7000000060 := by
    decide +kernel
  exact ⟨live, sight.mpr ⟨0x6b7000000060, by decide +kernel, ⟨listed, raised⟩, .refl⟩⟩

/-- The object that holds itself has lost its place among the candidates, since its own count did not
move. Nothing reaches it any more, and the next pass does not find it. -/
theorem skipped_out_of_sight :
    let c := (fresh (Heap.initial { collector := { minimum := 1 } } 0)).session leaningScript
    let d := (({ c with machine := c.machine.collect } : Client).steps 5).session [(.upgrade 0, 4)]
    let after := d.machine.step.steps 1
    (c.machine.idle = true ∧ c.machine.heap.Exact c.owned ∧ c.machine.heap.Covered c.owned ∧
      c.machine.heap.Eager ∧ Rule.thorough.passes c.machine.heap ∧
      Run Gains { c with machine := c.machine.collect } d) ∧
    (∃ p, d.machine.Found p ∧
      [(0x6b7000000000, 1), (0x6b7000000060, 1)] ∈ p.walk.found.verdict.garbage ∧
      d.machine.heap.steady [(0x6b7000000000, 1), (0x6b7000000060, 1)] = false) ∧
    after.idle = true ∧ after.heap.Live 0x6b7000000000 ∧
      ¬ after.heap.Reachable d.owned 0x6b7000000000 ∧ ¬ after.heap.InSight 0x6b7000000000 ∧
      (after.collect.steps 40).idle = true ∧ (after.collect.steps 40).heap.Live 0x6b7000000000 := by
  intro c d after
  have follows : Run Rule.thorough.AtRest (fresh (Heap.initial { collector := { minimum := 1 } } 0)) c :=
    Run.session .start leaningScript (by decide +kernel)
  have idle : c.machine.idle = true := by decide +kernel
  have complete := follows.complete (fresh_complete _ 0 rfl)
  have accurate := complete.accurate.heap (Machine.calm_of_idle idle)
  have run : Run Gains { c with machine := c.machine.collect } d :=
    Run.session (Run.start.steps 5) [(.upgrade 0, 4)] (by decide +kernel)
  have outcome : d.machine.found?.any (fun p =>
      decide ([(0x6b7000000000, 1), (0x6b7000000060, 1)] ∈ p.walk.found.verdict.garbage)) = true := by
    decide +kernel
  obtain ⟨p, same, isGarbage⟩ := (Option.any_eq_true _ _).mp outcome
  have alone : ∀ x ∈ after.heap.live, 0 < after.heap.edges x 0x6b7000000000 → x = 0x6b7000000000 := by
    decide +kernel
  have closed : ∀ x y, after.heap.Points x y → y ∈ [0x6b7000000000] → x ∈ [0x6b7000000000] := by
    intro x y points here
    rw [List.mem_singleton] at here ⊢
    subst here
    exact alone x ((after.heap.mem_live x).mpr points.1) points.2
  refine ⟨⟨idle, accurate, complete.covered idle, complete.eager, by decide +kernel, run⟩,
    ⟨p, Machine.found_of_found? same, of_decide_eq_true isGarbage, by decide +kernel⟩,
    by decide +kernel, by decide +kernel, ?_, ?_, by decide +kernel, by decide +kernel⟩
  · rw [Heap.Reachable, Reached.within_iff closed (List.mem_singleton_self _)]
    rintro ⟨b, here, owns, _⟩
    rw [List.mem_singleton.mp here] at owns
    exact absurd owns (by decide +kernel)
  · rw [Heap.InSight, Reached.within_iff closed (List.mem_singleton_self _)]
    rintro ⟨b, here, listed, _⟩
    rw [List.mem_singleton.mp here] at listed
    exact absurd listed (by decide +kernel)

end Client

end CountedHeap
