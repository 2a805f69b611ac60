import CountedHeap.Proofs.Estate
import CountedHeap.Proofs.Felling
import CountedHeap.Proofs.Handles
import CountedHeap.Proofs.Reporting

/-!
What a pass leaves behind. The garbage that it claimed is destroyed, and whatever loses its last
reference with it; members of a group release each other while they are claimed, and may release
objects that the pass has just judged. An object that comes through all that has lost as many
references as the destroyed ones held of it. If it has lost any it is a candidate again, and
nothing else of it has changed.
-/

namespace CountedHeap

open Heap (Same Changed)

/-- An object without its count word and the claim on it. -/
def Object.bare (o : Object) : Object := { o with word := ⟨0⟩, claimed := false }

theorem Object.eq_of_bare {o p : Object} (bare : p.bare = o.bare) (claimed : p.claimed = o.claimed) :
    p = { o with word := p.word } := by
  cases o
  cases p
  simp_all [Object.bare]

namespace Heap

variable {h k l : Heap} {a : Addr} {row : Finset Addr}

/-- An object has its count word changed at most, or is claimed; the handles that name it are the same. -/
structure Spared (h k : Heap) (a : Addr) : Prop where
  bare : (k.objects[a]?).map Object.bare = (h.objects[a]?).map Object.bare
  handles : ∀ (s : SlotId) (slot : WeakSlot), slot.target = some a →
    (k.weak.slots[s]? = some slot ↔ h.weak.slots[s]? = some slot)

theorem Spared.refl (h : Heap) (a : Addr) : Spared h h a := ⟨rfl, fun _ _ _ => Iff.rfl⟩

theorem Spared.trans (first : Spared h k a) (second : Spared k l a) : Spared h l a :=
  ⟨second.bare.trans first.bare, fun s slot names =>
    (second.handles s slot names).trans (first.handles s slot names)⟩

theorem Spared.of_table (bare : (k.objects[a]?).map Object.bare = (h.objects[a]?).map Object.bare)
    (table : k.weak = h.weak) : Spared h k a := ⟨bare, fun _ _ _ => by rw [table]⟩

theorem Spared.object (spared : Spared h k a) {x : Object} (there : k.objects[a]? = some x)
    (claims : k.claimedAt a = h.claimedAt a) :
    ∃ o, h.objects[a]? = some o ∧ x = { o with word := x.word } := by
  have bare := spared.bare
  rw [there] at bare
  obtain ⟨o, was, same⟩ := Option.map_eq_some_iff.mp bare.symm
  simp only [claimedAt, there, was, Option.any_some] at claims
  exact ⟨o, was, Object.eq_of_bare same.symm claims⟩

theorem card_gone {members : List Addr} (once : members.Nodup)
    (gone : ∀ a ∈ members, a ∈ h.live \ k.live) (fewer : k.live ⊆ h.live) :
    k.live.card + members.length ≤ h.live.card := by
  have inside : members.toFinset ⊆ h.live \ k.live := fun a member =>
    gone a (List.mem_toFinset.mp member)
  have least := Finset.card_le_card inside
  have split := Finset.card_sdiff_add_card_eq_card fewer
  rw [List.toFinset_card_of_nodup once] at least
  omega

theorem givenUp_pos_iff (h : Heap) (row : Finset Addr) (a : Addr) :
    0 < h.givenUp row a ↔ ∃ b ∈ row, a ∈ h.yields b := by
  simp only [givenUp, Finset.sum_pos_iff, drops_eq_count, List.count_pos_iff]

theorem Kept.counted {diary : List Entry} {loans : List (Addr × Nat)} (kept : h.Kept diary loans) :
    h.books.objects = h.live.card := by
  have row : ((Entry.standing diary).map Tenant.object).toFinset = h.live := by
    ext a
    rw [List.mem_toFinset, List.mem_map, mem_live, live_iff]
    constructor
    · rintro ⟨t, member, rfl⟩
      obtain ⟨_, o, there, valid, _⟩ := (tenant?_eq_some_iff ..).mp ((kept.told t).mp member)
      exact ⟨o, there, valid⟩
    · rintro ⟨o, there, valid⟩
      refine ⟨{ object := a, type := o.type, size := o.size }, (kept.told _).mpr ?_, rfl⟩
      exact (tenant?_eq_some_iff ..).mpr ⟨rfl, o, there, valid, rfl, rfl⟩
  rw [← row, List.toFinset_card_of_nodup kept.single, List.length_map, kept.tallied.objects]

end Heap

theorem Machine.Run.estate {m n : Machine} {log : List Event} (run : Run m log n) :
    ∃ e, Estate.Run { machine := m } e ∧ e.machine = n := by
  induction run with
  | start => exact ⟨_, .start, rfl⟩
  | operate operation _ may ih =>
      obtain ⟨e, run, rfl⟩ := ih
      exact ⟨_, run.act (.operate operation) may, rfl⟩
  | step _ ih =>
      obtain ⟨e, run, rfl⟩ := ih
      exact ⟨_, run.act .step trivial, rfl⟩

theorem WeakTable.filed_lasting : WeakTable.Lasting WeakTable.Filed :=
  ⟨fun _ a filed => filed.inserted a, fun _ a filed => filed.detached a,
    fun _ s filed => filed.dropped s,
    fun _ filed => filed.of_slots (fun _ => Iff.rfl) rfl (fun _ => rfl) rfl⟩

theorem Machine.Run.filed {m n : Machine} {log : List Event} (run : Run m log n)
    (filed : m.heap.weak.Filed) : n.heap.weak.Filed := by
  induction run with
  | start => exact filed
  | operate operation _ may ih =>
      by_cases copied : ∃ s, operation = .call (.cloneHandle s)
      · obtain ⟨s, rfl⟩ := copied
        exact ih.copied s
      · refine (Turn.operate _ operation fun s here => copied ⟨s, here⟩).lasting ?_ ih
        exact WeakTable.filed_lasting
  | step _ ih => exact lasting_step WeakTable.filed_lasting ih

namespace Machine

variable {h : Heap} {m e : Machine} {owned : Addr → Nat} {log : List Event} {a : Addr} {p : Pass}
  {reclaimed : Nat}

/-! The cascade after a pass -/

/-- A step of a cascade changes nothing of an object that is not condemned but its count word. -/
theorem Accounts.spared_step (accounts : m.Accounts owned)
    (cascade : ∀ t ∈ m.tasks, t.cascades = true) (filed : m.heap.weak.Filed)
    (unclaimed : m.heap.claimedAt a = false) : m.heap.Spared m.step.heap a := by
  cases tasks : m.tasks with
  | nil =>
      rw [step_nil tasks]
      exact .refl _ a
  | cons t rest =>
      have first : t ∈ m.tasks := by rw [tasks]; exact List.mem_cons_self
      -- Destruction has not come to this object.
      have spared : ¬ m.Doomed a := fun doomed => by
        rw [(accounts.doomed a doomed).2.1] at unclaimed
        cases unclaimed
      have unserved := mt (accounts.served t first a) spared
      have unreclaimed : ¬ t.reclaims a = true := fun reclaims =>
        spared (List.any_eq_true.mpr ⟨t, first, reclaims⟩)
      have cascades := cascade t first
      rw [step_cons tasks]
      cases t with
      | release b =>
          rw [perform]
          rcases release_cases { m with tasks := rest } b with
            ⟨x, last, k, there, _, _, lowered, after⟩ | after
          · obtain ⟨word, changed⟩ := lowered.changed
            have same : Same Object.bare m.heap k := changed.same there rfl
            rw [after]
            exact .of_table (same.objects a) (by rw [push, changed.rest])
          · rw [after]
            exact .of_table rfl rfl
      | detach b =>
          have apart : a ≠ b := fun same => unserved (beq_iff_eq.mpr same.symm)
          simp only [perform, onHeap, Heap.detachWeak]
          split
          · exact ⟨rfl, fun s slot names => filed.spared apart names s⟩
          · exact .refl _ a
      | finalize b =>
          have apart : b ≠ a := fun same => unserved (beq_iff_eq.mpr same)
          refine .of_table ?_ rfl
          simp only [perform, Heap.takeDestructor, push]
          rw [Heap.getElem?_update, if_neg apart]
      | reclaim b =>
          have apart : a ≠ b := fun same => unreclaimed (beq_iff_eq.mpr same.symm)
          refine .of_table (by simp only [perform, onHeap, m.heap.reclaim_others b a apart]) ?_
          simp only [perform, onHeap, Heap.reclaim]
          split <;> rfl
      | unload b =>
          simp only [perform]
          split <;> exact .refl _ a
      | callback code | releaseChildren b | answer reclaimed => exact .refl _ a
      | search pass | expand pass b => cases cascades

theorem Accounts.gone_step (accounts : m.Accounts owned) (orderly : m.Orderly)
    (gone : ∀ a, h.Live a → ¬ m.heap.Live a → m.owed owned a = 0) (a : Addr) (was : h.Live a)
    (dead : ¬ m.step.heap.Live a) : m.step.owed owned a = 0 := by
  have fewer := (accounts.step orderly).2 a
  by_cases live : m.heap.Live a
  · have last : ∃ rest, m.tasks = .reclaim a :: rest := by
      by_contra stays
      exact dead (((accounts.step_live orderly).2 a).mpr ⟨live, fun rest here => stays ⟨rest, here⟩⟩)
    obtain ⟨rest, tasks⟩ := last
    have nothing := (accounts.spent tasks).2.2.2.1
    omega
  · have nothing := gone a was live
    omega

/-- The cascade that destroys what a pass has claimed of a heap. -/
structure Emptying (h : Heap) (owned : Addr → Nat) (m : Machine) : Prop where
  accounts : m.Accounts owned
  cascade : ∀ t ∈ m.tasks, t.cascades = true
  body : Same Object.body h m.heap
  among : ∀ a, m.heap.Live a → h.Live a
  gone : ∀ a, h.Live a → ¬ m.heap.Live a → m.owed owned a = 0
  filed : m.heap.weak.Filed
  eager : m.heap.Eager ↔ h.Eager
  spared : ∀ a ∈ m.heap.unclaimed, h.Spared m.heap a
  balance : ∀ a ∈ m.heap.unclaimed, m.heap.countAt a + h.givenUp (m.fallen h) a =
    h.countAt a + (m.pending a + h.givenUp m.unloading a)
  registered : ∀ a ∈ m.heap.unclaimed, m.heap.countAt a ≤ h.countAt a ∧
    (m.heap.collector.registry.holds a = true ↔
      h.Eager ∧ h.tracedAt a = true ∧ m.heap.countAt a < h.countAt a)
  misuse : m.heap.books.misuse + m.waiting.countP (fun a => ¬ h.Live a) +
    ∑ b ∈ m.unloading, h.strays b = h.books.misuse + ∑ b ∈ m.fallen h, h.strays b

namespace Emptying

theorem step (emptying : Emptying h owned m) (marked : m.heap.Marked) :
    Emptying h owned m.step := by
  have accounts := emptying.accounts
  have orderly : m.Orderly := Or.inl emptying.cascade
  have felt := accounts.felt emptying.cascade
  obtain ⟨body, alive⟩ := accounts.step_live orderly
  constructor
  case accounts => exact (accounts.step orderly).1
  case cascade => exact cascades_step emptying.cascade
  case body => exact emptying.body.trans body
  case among => exact fun a live => emptying.among a ((alive a).mp live).1
  case gone => exact accounts.gone_step orderly emptying.gone
  case filed => exact lasting_step WeakTable.filed_lasting emptying.filed
  case eager => exact (eager_step_iff accounts orderly).trans emptying.eager
  case spared =>
    intro a member
    have isUnclaimed := felt.unclaimed_subset member
    exact (emptying.spared a isUnclaimed).trans
      (accounts.spared_step emptying.cascade emptying.filed ((m.heap.mem_unclaimed a).mp isUnclaimed).2)
  case balance =>
    intro a member
    have before := emptying.balance a (felt.unclaimed_subset member)
    have moved := felt.balance emptying.body emptying.among a member
    omega
  case registered =>
    intro a member
    obtain ⟨fewer, before⟩ := emptying.registered a (felt.unclaimed_subset member)
    obtain ⟨fell, after⟩ := felt.registered marked a member
    refine ⟨fell.trans fewer, ?_⟩
    rw [after, before, emptying.eager, emptying.body.tracedAt]
    constructor
    · rintro (⟨eager, traced, less⟩ | ⟨eager, traced, less⟩)
      · exact ⟨eager, traced, fell.trans_lt less⟩
      · exact ⟨eager, traced, less.trans_le fewer⟩
    · rintro ⟨eager, traced, less⟩
      by_cases moved : m.step.heap.countAt a < m.heap.countAt a
      · exact Or.inr ⟨eager, traced, moved⟩
      · exact Or.inl ⟨eager, traced, by omega⟩
  case misuse =>
    have moved := felt.misuse emptying.body emptying.among fun a waits was => by
      by_contra dead
      have nothing := emptying.gone a was dead
      have positive : 0 < m.pending a := by
        rw [pending_eq_count]
        exact List.count_pos_iff.mpr waits
      rw [owed] at nothing
      omega
    have before := emptying.misuse
    omega

theorem steps (emptying : Emptying h owned m) (told : m.Told log) (n : Nat) :
    Emptying h owned (m.steps n) ∧ (m.steps n).heap.unclaimed ⊆ m.heap.unclaimed := by
  induction n generalizing m log with
  | zero => exact ⟨emptying, Finset.Subset.refl _⟩
  | succ n ih =>
      obtain ⟨after, fewer⟩ := ih (emptying.step told.marked) told.step
      exact ⟨after, fewer.trans (emptying.accounts.felt emptying.cascade).unclaimed_subset⟩

end Emptying

/-- The last task tells how many objects were reclaimed, or has told it. -/
def Answers (m : Machine) (reclaimed : Nat) : Prop :=
  m.tasks.getLast? = some (.answer reclaimed) ∨ m.tasks = [] ∧ m.reclaimed = reclaimed

theorem Answers.step (answers : m.Answers reclaimed) : m.step.Answers reclaimed := by
  rcases answers with waits | ⟨tasks, told⟩
  · obtain ⟨before, split⟩ := List.getLast?_eq_some_iff.mp waits
    cases before with
    | nil => exact Or.inr (by rw [step_cons split]; exact ⟨rfl, rfl⟩)
    | cons t rest =>
        have next : m.tasks = t :: (rest ++ [.answer reclaimed]) := split
        obtain ⟨news, after⟩ := step_tasks next
        exact Or.inl (by rw [after, ← List.append_assoc, List.getLast?_concat])
  · rw [step_nil tasks]
    exact Or.inr ⟨tasks, told⟩

theorem Answers.steps (answers : m.Answers reclaimed) (n : Nat) : (m.steps n).Answers reclaimed := by
  induction n generalizing m with
  | zero => exact answers
  | succ n ih => exact ih answers.step

theorem Answers.told (answers : m.Answers reclaimed) (idle : m.idle = true) :
    m.reclaimed = reclaimed := by
  rw [Machine.idle, List.isEmpty_iff] at idle
  rcases answers with waits | ⟨_, told⟩
  · rw [idle] at waits
    cases waits
  · exact told

/-! The end of a pass -/

theorem waiting_disposal {garbage : List Addr}
    (tasks : m.tasks = Task.disposal garbage ++ [.answer reclaimed]) : m.waiting = [] := by
  rw [waiting, tasks, List.filterMap_append, List.append_eq_nil_iff]
  refine ⟨List.filterMap_eq_nil_iff.mpr fun t member => ?_, rfl⟩
  obtain ⟨a, _, rfl | rfl | rfl | rfl⟩ := (Task.mem_disposal t).mp member <;> rfl

section Start

variable (told : m.Told log) (idle : m.idle = true) (accounted : m.heap.Accounted owned)
  (same : e.heap = m.collect.heap)
  (searching : e.Searching p (fun _ count => count < Trial.Discovery.edgeLimit)
    m.heap.startPass.1.walk.roots)
  (found : e.Found p)

include same

theorem Found.empties (found : e.Found p) (marked : e.heap.Marked) :
    e.step.heap.collector.registry.holds a = false := by
  have heap : e.step.heap = (e.heap.finishPass p).2 := by rw [found.step]
  rw [heap, ← Bool.not_eq_true, (marked.finishPass p).holds]
  rintro ⟨entry, member, rfl, state⟩
  have moved := ((e.heap.outcome_iff _ entry).2.2.mp state).2
  rw [same] at member moved
  exact moved (m.heap.startPass_entries entry member).symm

include told idle accounted searching found

/-- When a pass ends its garbage is condemned, and nothing else; and no count has moved. -/
theorem Found.emptying (filed : m.heap.weak.Filed) (marked : e.heap.Marked) :
    Emptying m.heap owned e.step ∧
      (∀ a, a ∈ e.step.heap.unclaimed ↔ m.heap.Live a ∧ a ∉ e.heap.garbage p) ∧
      (e.heap.garbage p).Nodup ∧ (∀ a ∈ e.heap.garbage p, m.heap.Live a) ∧
      e.step.Answers (e.heap.garbage p).length := by
  have start : Same Object.standing m.heap e.heap := by
    rw [same]
    exact ⟨rfl, fun _ => rfl⟩
  have shape := start.shape_of_standing
  have owing : e.heap.Accounted owned := by
    rw [same]
    exact accounted
  obtain ⟨once, tasks, ended, accounts, _⟩ :=
    searching.disposed found (fun _ _ small => small) owing
  have alive : ∀ a, e.step.heap.Live a ↔ m.heap.Live a := fun a =>
    (ended.live a).trans (shape.live_iff a)
  have counts : ∀ a, e.step.heap.countAt a = m.heap.countAt a := fun a =>
    (ended.counts a).trans (start.countAt a)
  have among : ∀ a ∈ e.heap.garbage p, m.heap.Live a := fun a isGarbage =>
    (shape.live_iff a).mp (searching.closed found (fun _ _ small => small) owing a isGarbage).1
  have unclaimed : ∀ a, a ∈ e.step.heap.unclaimed ↔ m.heap.Live a ∧ a ∉ e.heap.garbage p := by
    intro a
    rw [Heap.mem_unclaimed, alive]
    refine and_congr_right fun live => ?_
    rw [ended.claims a ((shape.live_iff a).mpr live), shape.claimedAt, ((told.at_rest idle a).1 live).1]
    simp
  have fallen : e.step.fallen m.heap = (e.heap.garbage p).toFinset := by
    ext a
    have isLive := among a
    rw [Machine.fallen, Finset.mem_sdiff, Heap.mem_live, unclaimed, List.mem_toFinset]
    tauto
  have unloading : e.step.unloading = (e.heap.garbage p).toFinset := by
    ext a
    rw [mem_unloading, alive, unloading_ended tasks, List.mem_toFinset, and_iff_right_iff_imp]
    exact among a
  have waiting : e.step.waiting = [] := waiting_disposal tasks
  have heap : e.step.heap = (e.heap.finishPass p).2 := by rw [found.step]
  obtain ⟨bare, frame⟩ := e.heap.finishPass_same Object.bare (fun _ => rfl) (fun _ _ => rfl) p
  rw [← heap] at bare frame
  have table : e.step.heap.weak = m.heap.weak := by
    rw [frame, same]
    rfl
  refine ⟨?_, unclaimed, once, among, Or.inl (by rw [tasks, List.getLast?_concat])⟩
  constructor
  case accounts => exact accounts
  case cascade => exact found.cascades
  case body => exact start.body_of_standing.trans ended.body
  case among => exact fun a live => (alive a).mp live
  case gone => exact fun a live dead => absurd ((alive a).mpr live) dead
  case filed =>
    rw [table]
    exact filed
  case eager =>
    rw [Heap.Eager, ended.frame.2.2.1, ended.frame.2.2.2.2, same]
    exact Iff.rfl
  case spared =>
    intro a _
    refine .of_table ?_ table
    rw [bare.objects, same]
    rfl
  case balance =>
    intro a _
    rw [counts, fallen, unloading, pending_eq_count, waiting, List.count_nil, Nat.zero_add]
  case registered =>
    intro a _
    rw [counts, found.empties same marked]
    simp
  case misuse =>
    rw [ended.frame.2.1, same, fallen, unloading, waiting]
    rfl

end Start

end Machine

namespace Heap

/-- What a pass that has claimed certain groups leaves of a heap. -/
structure Aftermath (h : Heap) (groups : List Trial.Group) (k : Heap) : Prop where
  /-- The members of the groups are destroyed, and perhaps others with them. -/
  destroyed : (groups.flatten.map Prod.fst).Nodup ∧
    ∀ a ∈ groups.flatten.map Prod.fst, a ∈ h.live \ k.live
  objects : k.books.objects + groups.flatten.length ≤ h.books.objects
  /-- Of a survivor the count word is changed at most: it has lost what the destroyed ones held, and its
  bit tells whether it is a candidate. -/
  survivors : ∀ a, k.Live a → ∃ o word, h.objects[a]? = some o ∧ k.objects[a]? = some { o with word } ∧
    word.count.toNat + h.givenUp (h.live \ k.live) a = o.count ∧
    word.buffered = k.collector.registry.holds a
  handles : ∀ a, k.Live a → ∀ (s : SlotId) (slot : WeakSlot), slot.target = some a →
    (k.weak.slots[s]? = some slot ↔ h.weak.slots[s]? = some slot)
  misuse : k.books.misuse = h.books.misuse + ∑ b ∈ h.live \ k.live, h.strays b
  candidates : ∀ a, k.collector.registry.holds a = true ↔
    h.Eager ∧ k.Live a ∧ h.tracedAt a = true ∧ ∃ b ∈ h.live \ k.live, a ∈ h.yields b

end Heap

namespace Machine

variable {h : Heap} {m n : Machine} {owned : Addr → Nat} {log : List Event}

theorem Run.counted {settings : Settings} {entropy : UInt64}
    (run : Run { heap := .initial settings entropy } log n) :
    n.heap.books.objects = n.heap.live.card := by
  obtain ⟨e, lasts, rfl⟩ := run.estate
  exact (lasts.sound (.initial settings entropy)).kept.counted

theorem Emptying.at_rest (emptying : Emptying h owned m) (idle : m.idle = true)
    (rest : m.heap.unclaimed = m.heap.live) :
    (∀ a, m.heap.Live a → m.heap.countAt a + h.givenUp (h.live \ m.heap.live) a = h.countAt a) ∧
      m.heap.books.misuse = h.books.misuse + ∑ b ∈ h.live \ m.heap.live, h.strays b := by
  have calm := calm_of_idle idle
  have still : m.unloading = ∅ := by
    rw [unloading, Finset.filter_eq_empty_iff]
    exact fun a _ => (calm.parts a).2.1
  have waiting : m.waiting = [] := by
    rw [Machine.idle, List.isEmpty_iff] at idle
    rw [Machine.waiting, idle]
    rfl
  have fallen : m.fallen h = h.live \ m.heap.live := by rw [Machine.fallen, rest]
  constructor
  · intro a live
    have adds := emptying.balance a (rest ▸ (m.heap.mem_live a).mpr live)
    rw [fallen, still, (calm.parts a).1] at adds
    simpa [Heap.givenUp] using adds
  · have adds := emptying.misuse
    rw [fallen, still, waiting] at adds
    simpa using adds

theorem Emptying.aftermath {groups : List Trial.Group} (emptying : Emptying h owned m)
    (told : m.Told log) (idle : m.idle = true) (once : (groups.flatten.map Prod.fst).Nodup)
    (among : ∀ a ∈ groups.flatten.map Prod.fst, h.Live a)
    (condemned : ∀ a ∈ m.heap.unclaimed, a ∉ groups.flatten.map Prod.fst)
    (unclaimed : ∀ a, h.Live a → h.claimedAt a = false)
    (before : h.books.objects = h.live.card) (after : m.heap.books.objects = m.heap.live.card) :
    h.Aftermath groups m.heap := by
  have rest := told.unclaimed_at_rest idle
  have member : ∀ a, m.heap.Live a → a ∈ m.heap.unclaimed := fun a live =>
    rest ▸ (m.heap.mem_live a).mpr live
  obtain ⟨balance, misuse⟩ := emptying.at_rest idle rest
  have gone : ∀ a ∈ groups.flatten.map Prod.fst, a ∈ h.live \ m.heap.live := fun a isGarbage =>
    Finset.mem_sdiff.mpr ⟨(h.mem_live a).mpr (among a isGarbage), fun live =>
      condemned a (rest ▸ live) isGarbage⟩
  constructor
  case destroyed => exact ⟨once, gone⟩
  case objects =>
    have fewer : m.heap.live ⊆ h.live := fun a live =>
      (h.mem_live a).mpr (emptying.among a ((m.heap.mem_live a).mp live))
    rw [before, after, ← List.length_map Prod.fst]
    exact Heap.card_gone once gone fewer
  case survivors =>
    intro a live
    obtain ⟨x, there, valid⟩ := (m.heap.live_iff a).mp live
    obtain ⟨o, was, same⟩ := (emptying.spared a (member a live)).object there
      (((told.at_rest idle a).1 live).1.trans (unclaimed a (emptying.among a live)).symm)
    have adds := balance a live
    simp only [Heap.countAt, there, was, Option.elim_some] at adds
    exact ⟨o, x.word, was, same ▸ there, adds, (told.marked.objects a x there).mirrored valid⟩
  case handles => exact fun a live => (emptying.spared a (member a live)).handles
  case misuse => exact misuse
  case candidates =>
    intro a
    rw [← h.givenUp_pos_iff]
    constructor
    · intro holds
      obtain ⟨o, there, valid, _⟩ := told.marked.listed a holds
      have live := (m.heap.live_iff a).mpr ⟨o, there, valid⟩
      obtain ⟨eager, traced, less⟩ := (emptying.registered a (member a live)).2.mp holds
      have adds := balance a live
      exact ⟨eager, live, traced, by omega⟩
    · rintro ⟨eager, live, traced, positive⟩
      have adds := balance a live
      exact (emptying.registered a (member a live)).2.mpr ⟨eager, traced, by omega⟩

/-- A pass ends, whatever its settings and the order of the candidates. The objects of the groups it has
claimed are gone, and the answer tells how many they are. -/
theorem Run.pass_aftermath (settings : Settings) (entropy : UInt64) (heap : Heap)
    (made : Heap.create settings entropy = .ok heap) (log : List Event) (m : Machine)
    (run : Run { heap } log m) (idle : m.idle = true) (owned : Addr → Nat)
    (accounted : m.heap.Accounted owned) :
    ∃ i p n, (m.collect.steps i).Found p ∧ i < n ∧ (m.collect.steps n).idle = true ∧
      let groups :=
        ((m.collect.steps i).heap.claimGroups p.minimum p.walk.found.verdict.garbage).1
      m.heap.Aftermath groups (m.collect.steps n).heap ∧
        (m.collect.steps n).reclaimed = groups.flatten.length := by
  obtain rfl := Heap.create_initial made
  have told := run.told (Told.initial settings entropy)
  have filed := run.filed WeakTable.orderly_empty.filed
  have toldAt : ∀ i, (m.collect.steps i).Told (log ++ m.collect.story i) := fun i =>
    (Run.start.steps i).told_after told.collect
  obtain ⟨i, p, found, _, _, same, searching⟩ :=
    (collect_searching idle fun _ count => count < Trial.Discovery.edgeLimit).ends
      fun a _ => m.collect.heap.countAt_lt a
  obtain ⟨emptying, unclaimed, once, among, answers⟩ :=
    found.emptying told idle accounted same searching filed (toldAt i).marked
  obtain ⟨j, ends⟩ := emptying.accounts.cascade_ends emptying.cascade
  have later : m.collect.steps (i + (j + 1)) = (m.collect.steps i).step.steps j := by
    rw [steps_add]
    rfl
  obtain ⟨k, claimed, _⟩ := (m.collect.steps i).heap.claimGroups_fresh p.minimum
    p.walk.found.verdict.garbage searching.garbage_nodup
    fun a member => (searching.collectable found (fun _ _ small => small) a member).fresh
  have may : m.listens = true := by rw [listens, idle, Bool.true_or]
  have after := ((run.operate (.call .collect) may).steps (i + (j + 1))).counted
  have toldEnd := toldAt (i + (j + 1))
  refine ⟨i, p, i + (j + 1), found, by omega, later ▸ ends, ?_⟩
  rw [claimed]
  constructor
  · obtain ⟨disposed, fewer⟩ := emptying.steps (toldAt i).step j
    rw [← later] at disposed ends fewer
    exact disposed.aftermath toldEnd ends once among
      (fun a isOpen => ((unclaimed a).mp (fewer isOpen)).2)
      (fun a live => ((told.at_rest idle a).1 live).1) run.counted after
  · rw [later, (answers.steps j).told ends, Heap.garbage, List.length_map]

/-- Two objects hold each other; one of them holds an untraced third besides, and the other one a
fourth that the client owns and has a weak handle for. All but the third are candidates. -/
def aftermathScript : List (Operation × Nat) :=
  [(.call (.declare 1 (.leading 2)), 0), (.call (.alloc 16 1 none), 0), (.call (.alloc 16 2 none), 0),
    (.call (.alloc 16 1 none), 0), (.call (.alloc 16 1 none), 0),
    (.call (.assign 0x6b70000000c0 0 (some 0x6b7000000120)), 0),
    (.call (.assign 0x6b7000000120 0 (some 0x6b70000000c0)), 0),
    (.call (.assign 0x6b70000000c0 1 (some 0x6b7000000000)), 0),
    (.call (.assign 0x6b7000000120 1 (some 0x6b7000000060)), 0),
    (.call (.downgrade 0x6b7000000000), 0), (.call (.retain 0x6b7000000000), 0),
    (.releaseBatch [0x6b7000000060, 0x6b70000000c0, 0x6b7000000120, 0x6b7000000000], 4)]

def aftermathOwned (a : Addr) : Nat := if a = 0x6b7000000000 then 1 else 0

theorem pass_aftermath_ring :
    let start : Machine := { heap := .initial {} 0 }
    let m := (start.play aftermathScript).2
    start.Plays aftermathScript ∧ m.idle = true ∧ m.heap.Accounted aftermathOwned ∧
      m.heap.countAt 0x6b7000000000 = 2 ∧ (m.collect.steps 60).heap.live = {0x6b7000000000} ∧
      (m.collect.steps 60).heap.collector.registry.holds 0x6b7000000000 = true ∧
      ∃ i p n, (m.collect.steps i).Found p ∧ i < n ∧ (m.collect.steps n).idle = true ∧
        let groups :=
          ((m.collect.steps i).heap.claimGroups p.minimum p.walk.found.verdict.garbage).1
        m.heap.Aftermath groups (m.collect.steps n).heap ∧
          (m.collect.steps n).reclaimed = groups.flatten.length := by
  intro start m
  have made : Heap.create {} 0 = .ok start.heap := Heap.create_valid {} 0 (by decide +kernel)
  have plays : start.Plays aftermathScript := by decide +kernel
  have run := Run.start.play aftermathScript plays
  have idle : m.idle = true := by decide +kernel
  have accounted : m.heap.Accounted aftermathOwned := by decide +kernel
  exact ⟨plays, idle, accounted, by decide +kernel, by decide +kernel, by decide +kernel,
    Run.pass_aftermath {} 0 start.heap made _ m run idle aftermathOwned accounted⟩

/-- An object holds itself and another one, which is released once too often and gone by now. -/
def strayScript : List (Operation × Nat) :=
  [(.call (.declare 1 (.leading 2)), 0), (.call (.alloc 16 2 none), 0), (.call (.alloc 16 1 none), 0),
    (.call (.assign 0x6b7000000060 0 (some 0x6b7000000000)), 0),
    (.call (.assign 0x6b7000000060 1 (some 0x6b7000000060)), 0),
    (.releaseBatch [0x6b7000000000, 0x6b7000000000, 0x6b7000000060], 7)]

/-- An object holds itself and another one, which the client owns; and the registry is full. -/
def crowdedScript : List (Operation × Nat) :=
  [(.call (.declare 1 (.leading 2)), 0), (.call (.alloc 16 1 none), 0), (.call (.alloc 16 1 none), 0),
    (.call (.assign 0x6b7000000060 0 (some 0x6b7000000000)), 0),
    (.call (.assign 0x6b7000000060 1 (some 0x6b7000000060)), 0),
    (.call (.release 0x6b7000000060), 0), (.call (.room false), 0)]

/-- A pass may count a misuse, and a survivor that has lost a reference may stay out of the registry. -/
theorem pass_strays :
    let start : Machine := { heap := .initial { collector := { minimum := 1 } } 0 }
    (let m := (start.play strayScript).2
      let after := m.collect.steps 40
      start.Plays strayScript ∧ m.idle = true ∧ m.heap.Accounted (fun _ => 0) ∧ after.idle = true ∧
        after.heap.books.misuse ≠ m.heap.books.misuse) ∧
    (let m := (start.play crowdedScript).2
      let after := m.collect.steps 40
      start.Plays crowdedScript ∧ m.idle = true ∧ m.heap.Accounted aftermathOwned ∧
        after.idle = true ∧ m.heap.autoRegister = true ∧ after.heap.Live 0x6b7000000000 ∧
        m.heap.tracedAt 0x6b7000000000 = true ∧ 0x6b7000000060 ∈ m.heap.live \ after.heap.live ∧
        0x6b7000000000 ∈ m.heap.yields 0x6b7000000060 ∧
        after.heap.collector.registry.holds 0x6b7000000000 = false) := by
  intro start
  constructor
  · intro m after
    exact ⟨by decide +kernel, by decide +kernel, by decide +kernel, by decide +kernel,
      by decide +kernel⟩
  · intro m after
    exact ⟨by decide +kernel, by decide +kernel, by decide +kernel, by decide +kernel,
      by decide +kernel, by decide +kernel, by decide +kernel, by decide +kernel, by decide +kernel,
      by decide +kernel⟩

end Machine

end CountedHeap
