import CountedHeap.Proofs.Aftermath
import CountedHeap.Proofs.Trial.Greatest

/-!
A second pass. The first one had room for all that is live; it has claimed some groups of its garbage,
and the cascade has destroyed them, with the untraced objects that hung from them and no traced one
besides. Groups that are too small stay behind, and what the destroyed ones held is in the registry
again. Nothing is garbage among what can be reached from there, so the next pass reclaims nothing,
changes no object and leaves no candidate.
-/

namespace CountedHeap

open Heap (Same)
open Trial (analyze)

def Object.unlisted (o : Object) : Object := { o with word := o.word.setBuffered false }

theorem Object.unlisted_eq {o p : Object} (bare : p.bare = o.bare) (claimed : p.claimed = o.claimed)
    (count : p.count = o.count) : p.unlisted = o.unlisted := by
  have word : p.word.setBuffered false = o.word.setBuffered false := by
    refine CountWord.ext_views _ _ ?_ ?_
    · rw [CountWord.count_setBuffered, CountWord.count_setBuffered]
      exact count
    · rw [CountWord.buffered_setBuffered, CountWord.buffered_setBuffered]
  calc p.unlisted = { o with word := p.word.setBuffered false } := by
        rw [unlisted, Object.eq_of_bare bare claimed]
    _ = o.unlisted := by rw [word, unlisted]

/-! The heap as a graph -/

namespace Heap

variable {h : Heap} {owned : Addr → Nat} {few many row : Finset Addr}

theorem look_iff (h : Heap) (a : Addr) (count : Nat) :
    h.graph.look a = .live count ↔ h.Collectable a ∧ count = h.countAt a := by
  have agrees := h.look_agrees (fun a count => count = h.countAt a) fun _ _ => rfl
  constructor
  · exact agrees.live a count
  · rintro ⟨collectable, rfl⟩
    obtain ⟨count, seen⟩ := agrees.found a collectable
    rw [← (agrees.live a count seen).2]
    exact seen

theorem graph_live_iff (h : Heap) (a : Addr) : h.graph.Live a ↔ h.Collectable a := by
  simp only [Trial.Graph.Live, look_iff, exists_and_left, exists_eq, and_true]

theorem Accounted.counted (accounted : h.Accounted owned) : h.graph.Counted := by
  intro a count seen sources alive
  obtain ⟨collectable, rfl⟩ := (h.look_iff a count).mp seen
  have among : sources ⊆ h.live := fun b member =>
    (h.mem_live b).mpr ((h.graph_live_iff b).mp (alive b member)).live
  calc h.graph.into sources a ≤ ∑ b ∈ sources, h.edges b a :=
        Finset.sum_le_sum fun b _ => h.children_le_edges b a
    _ ≤ h.held a := Finset.sum_le_sum_of_subset among
    _ ≤ h.countAt a := (Nat.le_add_left _ _).trans (accounted a collectable.live)

/-- The verdict of a pass that starts on a heap, if the heap stands still meanwhile. -/
def analysis (h : Heap) : Trial.Verdict :=
  analyze h.graph h.startPass.1.walk.roots h.collector.settings.budget

/-- With room for all that is live, its garbage is the greatest set that accounts for itself. -/
theorem Accounted.greatest (accounted : h.Accounted owned)
    (room : h.live.card ≤ h.collector.settings.budget) :
    IsGreatest {row | h.graph.SelfHeld row ∧ ∀ a ∈ row, h.graph.Reached h.startPass.1.walk.roots a}
      h.analysis.members.toFinset := by
  classical
  refine Trial.analyze_greatest h.graph _ _ accounted.counted (fun a count seen => ?_)
    (h.live.filter fun a => h.graph.Reached h.startPass.1.walk.roots a) (fun a => ?_)
    ((Finset.card_filter_le _ _).trans room)
  · rw [((h.look_iff a count).mp seen).2]
    exact h.countAt_lt a
  · rw [Finset.mem_filter, mem_live, and_iff_right_iff_imp]
    exact fun reached => ((h.graph_live_iff a).mp reached.live).live

/-- What a pass claims of its garbage is joined by no edge to what it leaves. -/
theorem garbage_severed (h e : Heap) (p : Pass) (verdict : p.walk.found.verdict = h.analysis) :
    Trial.Severed h.graph h.analysis.members.toFinset (e.garbage p).toFinset := by
  rw [garbage, claims, verdict]
  exact Trial.groups_severed h.graph _ _ _

theorem garbage_sublist (h : Heap) (p : Pass) : (h.garbage p).Sublist p.walk.found.verdict.members :=
  List.filter_sublist.flatten.map Prod.fst

theorem givenUp_le_of_traced (h : Heap) (within : ∀ b ∈ few, h.tracedAt b = true → b ∈ many)
    (a : Addr) : h.givenUp few a ≤ h.givenUp many a := by
  have traced : ∀ b ∈ few, h.drops b a ≠ 0 → h.tracedAt b = true := by
    intro b _ drops
    by_contra untraced
    exact drops (if_neg untraced)
  rw [givenUp, ← Finset.sum_filter_of_ne traced]
  refine Finset.sum_le_sum_of_subset fun b member => ?_
  obtain ⟨inFew, isTraced⟩ := Finset.mem_filter.mp member
  exact within b inFew isTraced

theorem into_eq_givenUp (h : Heap) (traced : ∀ b ∈ row, h.tracedAt b = true) (a : Addr) :
    h.graph.into row a = h.givenUp row a :=
  Finset.sum_congr rfl fun b member => (if_pos (traced b member)).symm

/-- A heap after a pass that found nothing: no candidate is left, and of no object anything but the bit
has changed. -/
structure Untouched (h k : Heap) : Prop where
  objects : Same Object.unlisted h k
  registry : k.collector.registry = []
  rest : k = { h with objects := k.objects, collector := k.collector }

/-- Judging candidates changes bits and nothing else. -/
theorem Marked.finishPass_unlisted (marked : h.Marked) (p : Pass)
    (nothing : (h.finishPass p).1 = []) : Same Object.unlisted h (h.finishPass p).2 := by
  obtain ⟨bare, frame⟩ := h.finishPass_same Object.bare (fun _ => rfl) (fun _ _ => rfl) p
  have finished := marked.finishPass p
  rw [nothing] at finished
  refine ⟨by rw [frame], fun a => ?_⟩
  have view := bare.objects a
  cases there : (h.finishPass p).2.objects[a]? with
  | none =>
      rw [there, Option.map_none, eq_comm, Option.map_eq_none_iff] at view
      rw [view]
  | some x =>
      obtain ⟨o, was, _, _, claimed, count⟩ := finished.object a x there
      rw [there, was, Option.map_some, Option.map_some, Option.some.injEq] at view
      rw [was, Option.map_some, Option.map_some]
      exact congrArg some (Object.unlisted_eq view (by simpa using claimed) count)

end Heap

namespace Machine

variable {h : Heap} {m : Machine} {owned : Addr → Nat} {log : List Event} {row : Finset Addr}

theorem Told.collectable_iff (told : m.Told log) (idle : m.idle = true) (a : Addr) :
    m.heap.Collectable a ↔ m.heap.Live a ∧ m.heap.tracedAt a = true := by
  refine ⟨fun collectable => ⟨collectable.live, collectable.traced⟩, fun ⟨live, traced⟩ => ?_⟩
  exact (m.heap.collectable_iff a).mpr
    ⟨live, ((told.at_rest idle a).1 live).1, traced, told.counted_at_rest idle a live⟩

/-! What the cascade of a pass takes -/

/-- Of the traced objects only those of a row are condemned since, or gone. -/
def TracedWithin (m : Machine) (h : Heap) (row : Finset Addr) : Prop :=
  ∀ a ∈ m.fallen h, h.tracedAt a = true → a ∈ row

/-- A traced object outside the row keeps a reference, whatever the row gives up; so none falls. -/
theorem Emptying.within_step (emptying : Emptying h owned m) (within : m.TracedWithin h row)
    (beyond : ∀ a, h.Live a → h.tracedAt a = true → a ∉ row → h.givenUp row a < h.countAt a) :
    m.step.TracedWithin h row := by
  have felt := emptying.accounts.felt emptying.cascade
  intro a isFallen traced
  rcases felt.fallen_cases emptying.among with same | ⟨b, member, waits, one, same⟩
  · exact within a (same ▸ isFallen) traced
  · rw [same, Finset.mem_insert] at isFallen
    rcases isFallen with rfl | before
    · by_contra outside
      -- The release takes the one reference left, so what has fallen gave up all the others.
      have balance := emptying.balance a member
      have less := beyond a (emptying.among a ((m.heap.mem_unclaimed a).mp member).1) traced outside
      have fewer := h.givenUp_le_of_traced within a
      omega
    · exact within a before traced

theorem Emptying.within_steps (emptying : Emptying h owned m) (told : m.Told log)
    (within : m.TracedWithin h row)
    (beyond : ∀ a, h.Live a → h.tracedAt a = true → a ∉ row → h.givenUp row a < h.countAt a)
    (n : Nat) : (m.steps n).TracedWithin h row := by
  induction n generalizing m log with
  | zero => exact within
  | succ n ih =>
      exact ih (emptying.step told.marked) told.step (emptying.within_step within beyond)

/-- The cascade at rest, when it has destroyed a row of traced objects and no other traced one. -/
structure Spent (h : Heap) (row : Finset Addr) (m : Machine) : Prop where
  traced : ∀ a ∈ row, h.tracedAt a = true
  gone : row ⊆ h.live \ m.heap.live
  within : ∀ a ∈ h.live \ m.heap.live, h.tracedAt a = true → a ∈ row

theorem Spent.givenUp (spent : Spent h row m) (a : Addr) :
    h.givenUp (h.live \ m.heap.live) a = h.graph.into row a := by
  rw [h.into_eq_givenUp spent.traced]
  exact Nat.le_antisymm (h.givenUp_le_of_traced spent.within a)
    (Finset.sum_le_sum_of_subset spent.gone)

section Rest

variable (emptying : Emptying h owned m) (told : m.Told log) (idle : m.idle = true)
  (spent : Spent h row m)

include emptying told idle spent

theorem Emptying.without (collectable : ∀ a, h.Live a → h.tracedAt a = true → h.Collectable a) :
    h.graph.Without row m.heap.graph := by
  have balance := (emptying.at_rest idle (told.unclaimed_at_rest idle)).1
  constructor
  · intro a count seen
    obtain ⟨now, rfl⟩ := (m.heap.look_iff a count).mp seen
    refine ⟨fun inRow => ?_, (h.look_iff _ _).mpr ⟨?_, ?_⟩⟩
    · exact (Finset.mem_sdiff.mp (spent.gone inRow)).2 ((m.heap.mem_live a).mpr now.live)
    · exact collectable a (emptying.among a now.live) (emptying.body.tracedAt a ▸ now.traced)
    · rw [← spent.givenUp, balance a now.live]
  · exact fun a _ => emptying.body.children a

theorem Emptying.near (a : Addr) (listed : m.heap.collector.registry.holds a = true) :
    ∃ b ∈ row, a ∈ h.graph.children b := by
  obtain ⟨o, there, valid, _⟩ := told.marked.listed a listed
  have live := (m.heap.live_iff a).mpr ⟨o, there, valid⟩
  have rest := told.unclaimed_at_rest idle
  have less := ((emptying.registered a (rest ▸ (m.heap.mem_live a).mpr live)).2.mp listed).2.2
  have balance := (emptying.at_rest idle rest).1 a live
  rw [spent.givenUp] at balance
  have positive : 0 < h.graph.into row a := by omega
  obtain ⟨b, inRow, edge⟩ := Finset.sum_pos_iff.mp positive
  exact ⟨b, inRow, List.count_pos_iff.mp edge⟩

end Rest

/-! Two passes -/

theorem collect_runs (idle : m.idle = true) :
    ∃ i p, (m.collect.steps i).Found p ∧ (m.collect.steps i).heap = m.collect.heap ∧
      p.walk.found.verdict = m.heap.analysis ∧
      (m.collect.steps i).Searching p (fun _ count => count < Trial.Discovery.edgeLimit)
        m.heap.startPass.1.walk.roots := by
  obtain ⟨i, p, found, _, walked, same, searching⟩ :=
    (collect_searching idle fun _ count => count < Trial.Discovery.edgeLimit).runs
      fun a _ => m.collect.heap.countAt_lt a
  refine ⟨i, p, found, same, ?_, searching⟩
  rw [walked]
  rfl

/-- A traced object that the pass does not claim is counted more often than the claimed ones hold it. -/
theorem Told.beyond (told : m.Told log) (idle : m.idle = true) (accounted : m.heap.Accounted owned)
    (room : m.heap.live.card ≤ m.heap.collector.settings.budget)
    (severed : Trial.Severed m.heap.graph m.heap.analysis.members.toFinset row)
    (a : Addr) (live : m.heap.Live a) (traced : m.heap.tracedAt a = true) (outside : a ∉ row) :
    m.heap.graph.into row a < m.heap.countAt a := by
  by_cases held : 0 < m.heap.graph.into row a
  · obtain ⟨b, inRow, edge⟩ := Finset.sum_pos_iff.mp held
    exact severed.beyond (accounted.greatest room) inRow (List.count_pos_iff.mp edge) outside _
      ((m.heap.look_iff a _).mpr ⟨(told.collectable_iff idle a).mpr ⟨live, traced⟩, rfl⟩)
  · have positive := told.counted_at_rest idle a live
    omega

/-- The first pass destroys a part of the garbage, and of the traced objects no other. -/
theorem Told.first_pass (told : m.Told log) (idle : m.idle = true) (filed : m.heap.weak.Filed)
    (accounted : m.heap.Accounted owned)
    (room : m.heap.live.card ≤ m.heap.collector.settings.budget) :
    ∃ n row, (m.collect.steps n).idle = true ∧ Emptying m.heap owned (m.collect.steps n) ∧
      Spent m.heap row (m.collect.steps n) ∧
      Trial.Severed m.heap.graph m.heap.analysis.members.toFinset row := by
  have toldAt : ∀ i, (m.collect.steps i).Told (log ++ m.collect.story i) := fun i =>
    (Run.start.steps i).told_after told.collect
  obtain ⟨i, p, found, same, verdict, searching⟩ := collect_runs idle
  obtain ⟨emptying, unclaimed, _, among, _⟩ :=
    found.emptying told idle accounted same searching filed (toldAt i).marked
  have severed := m.heap.garbage_severed (m.collect.steps i).heap p verdict
  generalize (m.collect.steps i).heap.garbage p = garbage at unclaimed among severed
  have traced : ∀ a ∈ garbage.toFinset, m.heap.tracedAt a = true := fun a member =>
    ((m.heap.graph_live_iff a).mp
      ((accounted.greatest room).1.1.live a (severed.within member))).traced
  have within : (m.collect.steps i).step.TracedWithin m.heap garbage.toFinset := by
    intro a isFallen _
    obtain ⟨live, condemned⟩ := Finset.mem_sdiff.mp isFallen
    rw [unclaimed, not_and, not_not] at condemned
    exact List.mem_toFinset.mpr (condemned ((m.heap.mem_live a).mp live))
  obtain ⟨j, ends⟩ := emptying.accounts.cascade_ends emptying.cascade
  obtain ⟨disposed, fewer⟩ := emptying.steps (toldAt i).step j
  have spares := emptying.within_steps (toldAt i).step within (fun a live isTraced outside => by
    rw [← m.heap.into_eq_givenUp traced]
    exact told.beyond idle accounted room severed a live isTraced outside) j
  have later : m.collect.steps (i + (j + 1)) = (m.collect.steps i).step.steps j := by
    rw [steps_add]
    rfl
  have toldEnd := toldAt (i + (j + 1))
  rw [← later] at ends disposed fewer spares
  have rest := toldEnd.unclaimed_at_rest ends
  refine ⟨i + (j + 1), garbage.toFinset, ends, disposed, ⟨traced, fun a member => ?_, ?_⟩, severed⟩
  · have isGarbage := List.mem_toFinset.mp member
    refine Finset.mem_sdiff.mpr ⟨(m.heap.mem_live a).mpr (among a isGarbage), fun live => ?_⟩
    exact ((unclaimed a).mp (fewer (rest ▸ live))).2 isGarbage
  · rw [← rest]
    exact spares

theorem Told.quiet_pass (told : m.Told log) (idle : m.idle = true)
    (nothing : m.heap.analysis.members = []) :
    ∃ n, (m.collect.steps n).idle = true ∧ (m.collect.steps n).reclaimed = 0 ∧
      m.heap.Untouched (m.collect.steps n).heap := by
  obtain ⟨i, p, found, same, verdict, searching⟩ := collect_runs idle
  have marked := ((Run.start.steps i).told_after told.collect).marked
  have later : m.collect.steps (i + 2) = (m.collect.steps i).step.step := by
    rw [steps_add]
    rfl
  generalize m.collect.steps i = e at found same searching marked later
  have nothing : (e.heap.finishPass p).1 = [] := by
    rw [(e.heap.finishPass_ended p searching.garbage_nodup fun a isGarbage =>
      (searching.collectable found (fun _ _ small => small) a isGarbage).fresh).1]
    have within := e.heap.garbage_sublist p
    rw [verdict, nothing] at within
    exact List.sublist_nil.mp within
  have answered : e.step.step = { heap := (e.heap.finishPass p).2 } := by
    rw [found.step, nothing]
    rfl
  rw [answered] at later
  refine ⟨i + 2, by rw [later]; rfl, by rw [later], ?_⟩
  rw [later]
  constructor
  case objects =>
    have unlisted := marked.finishPass_unlisted p nothing
    rw [same] at unlisted
    rw [same]
    exact ⟨unlisted.types, unlisted.objects⟩
  case registry =>
    refine List.eq_nil_iff_forall_not_mem.mpr fun entry member => ?_
    have listed := (Heap.holds_iff _ entry.object).mpr ⟨entry, member, rfl⟩
    have empty := found.empties (a := entry.object) same marked
    rw [found.step] at empty
    rw [empty] at listed
    cases listed
  case rest =>
    obtain ⟨_, frame⟩ := e.heap.finishPass_same Object.bare (fun _ => rfl) (fun _ _ => rfl) p
    rw [frame, same]
    rfl

/-- Two passes in a row, and the first has room for all that is live. Whatever the settings are, and in
whatever order the registry lists the candidates, the second one reclaims nothing, leaves the registry
empty, and changes nothing of an object but the bit. -/
theorem Run.pass_again (settings : Settings) (entropy : UInt64) (heap : Heap)
    (made : Heap.create settings entropy = .ok heap) (log : List Event) (m : Machine)
    (run : Run { heap } log m) (idle : m.idle = true) (owned : Addr → Nat)
    (accounted : m.heap.Accounted owned)
    (room : m.heap.live.card ≤ m.heap.collector.settings.budget) :
    ∃ n, (m.collect.steps n).idle = true ∧
      ∀ registry, registry.Perm (m.collect.steps n).heap.collector.registry →
        let again := ((m.collect.steps n).operate (.call (.reorder registry))).collect
        ∃ k, (again.steps k).idle = true ∧ (again.steps k).reclaimed = 0 ∧
          (m.collect.steps n).heap.Untouched (again.steps k).heap := by
  obtain rfl := Heap.create_initial made
  have told := run.told (Told.initial settings entropy)
  have filed := run.filed WeakTable.orderly_empty.filed
  obtain ⟨n, row, ends, emptying, spent, severed⟩ := told.first_pass idle filed accounted room
  have may : m.listens = true := by rw [listens, idle, Bool.true_or]
  have first : Run { heap := .initial settings entropy } _ (m.collect.steps n) :=
    (run.operate (.call .collect) may).steps n
  refine ⟨n, ends, fun registry perm => ?_⟩
  have second := first.operate (.call (.reorder registry)) perm
  have toldEnd := first.told (Told.initial settings entropy)
  have without := emptying.without toldEnd ends spent fun a live traced =>
    (told.collectable_iff idle a).mpr ⟨live, traced⟩
  have owing := (calm_of_idle ends).accounts_iff.mp emptying.accounts
  -- Another order of the registry is all that may differ before the second pass starts.
  generalize after : (m.collect.steps n).operate (.call (.reorder registry)) = b at second
  have heap : b.heap = { (m.collect.steps n).heap with
      collector := { (m.collect.steps n).heap.collector with registry } } := by rw [← after]; rfl
  have rests : b.idle = true := by
    rw [← after]
    exact ends
  have near : ∀ root ∈ b.heap.startPass.1.walk.roots, (m.collect.steps n).heap.graph.Live root →
      ∃ a ∈ row, root ∈ m.heap.graph.children a := by
    intro root isRoot _
    obtain ⟨entry, member, rfl⟩ := List.mem_map.mp isRoot
    have listed := (Heap.holds_iff b.heap.startPass.2.collector.registry _).mpr ⟨entry, member, rfl⟩
    have holds := ((b.heap.startPass_registry _).mp listed).1
    rw [heap, Heap.holds_perm perm] at holds
    exact emptying.near toldEnd ends spent _ holds
  have quiet : b.heap.analysis.members = [] := by
    have same : b.heap.graph = (m.collect.steps n).heap.graph := by rw [heap]; rfl
    rw [Heap.analysis, same]
    exact without.quiet severed (accounted.greatest room) near owing.counted _
  obtain ⟨k, still, nothing, untouched⟩ :=
    (second.told (Told.initial settings entropy)).quiet_pass rests quiet
  refine ⟨k, still, nothing, ?_, untouched.registry, ?_⟩
  · have objects := untouched.objects
    rw [heap] at objects
    exact ⟨objects.types, objects.objects⟩
  · rw [untouched.rest, heap]

/-- In the second pass one candidate is left of those of `aftermathScript`: the object that the
destroyed ones held and the client owns. -/
theorem pass_again_ring :
    let start : Machine := { heap := .initial {} 0 }
    let m := (start.play aftermathScript).2
    start.Plays aftermathScript ∧ m.idle = true ∧ m.heap.Accounted aftermathOwned ∧
      m.heap.live.card ≤ m.heap.collector.settings.budget ∧
      ∃ n, (m.collect.steps n).idle = true ∧
        ∀ registry, registry.Perm (m.collect.steps n).heap.collector.registry →
          let again := ((m.collect.steps n).operate (.call (.reorder registry))).collect
          ∃ k, (again.steps k).idle = true ∧ (again.steps k).reclaimed = 0 ∧
            (m.collect.steps n).heap.Untouched (again.steps k).heap := by
  intro start m
  have made : Heap.create {} 0 = .ok start.heap := Heap.create_valid {} 0 (by decide +kernel)
  have plays : start.Plays aftermathScript := by decide +kernel
  have run := Run.start.play aftermathScript plays
  have idle : m.idle = true := by decide +kernel
  have accounted : m.heap.Accounted aftermathOwned := by decide +kernel
  have room : m.heap.live.card ≤ m.heap.collector.settings.budget := by decide +kernel
  exact ⟨plays, idle, accounted, room,
    Run.pass_again {} 0 start.heap made _ m run idle aftermathOwned accounted room⟩

end Machine

end CountedHeap
