import CountedHeap.Proofs.Cascade

/-!
A whole cascade: the last release of an object, with all the steps it sets off and all that is told
of it. The destructors of the objects that hold one are over before its own is called.
-/

namespace CountedHeap

open Heap (Same)

namespace Machine

variable {h : Heap} {m : Machine} {o a : Addr} {owned : Addr → Nat} {log : List Event}

/-! What is told of a cascade -/

theorem tells_once (m : Machine) : m.tells = [] ∨ ∃ event, m.tells = [event] := by
  unfold tells
  split
  · rename_i a rest _
    cases (m.heap.objects[a]?).bind Object.destructor with
    | none => exact Or.inl rfl
    | some number => exact Or.inr ⟨_, rfl⟩
  · exact Or.inr ⟨_, rfl⟩
  · exact Or.inr ⟨_, rfl⟩
  · exact Or.inl rfl

theorem finalize_of_called {b : Addr} {number : Nat} (calls : m.tells = [.called b number]) :
    ∃ rest, m.tasks = .finalize b :: rest := by
  unfold tells at calls
  split at calls
  · rename_i a rest tasks
    obtain ⟨_, _, same⟩ := List.map_eq_singleton_iff.mp calls
    cases same
    exact ⟨rest, tasks⟩
  · cases calls
  · cases calls
  · cases calls

theorem story_unmade (m : Machine) (n : Nat) (a : Addr) :
    ∀ event ∈ m.story n, event.makes a = false := by
  induction n generalizing m with
  | zero => simp [story]
  | succ n ih =>
      intro event member
      rw [story, List.mem_append] at member
      rcases member with now | later
      · unfold tells at now
        split at now
        · obtain ⟨_, _, rfl⟩ := List.mem_map.mp now
          rfl
        · rw [List.mem_singleton.mp now]
          rfl
        · rw [List.mem_singleton.mp now]
          rfl
        · cases now
      · exact ih m.step event later

theorem story_split (m : Machine) (n : Nat) {before later : List Event} {event : Event}
    (split : m.story n = before ++ event :: later) :
    ∃ i, before = m.story i ∧ (m.steps i).tells = [event] := by
  induction n generalizing m before with
  | zero => simp [story] at split
  | succ n ih =>
      have goesOn : ∀ {rest : List Event}, m.step.story n = rest ++ event :: later →
          before = m.tells ++ rest → ∃ i, before = m.story i ∧ (m.steps i).tells = [event] := by
        intro rest further first
        obtain ⟨i, same, tells⟩ := ih m.step further
        exact ⟨i + 1, by rw [first, same, story], tells⟩
      rw [story] at split
      rcases m.tells_once with silent | ⟨first, tells⟩
      · rw [silent, List.nil_append] at split
        exact goesOn split (by rw [silent, List.nil_append])
      · rw [tells, List.singleton_append] at split
        cases before with
        | nil =>
            rw [List.nil_append, List.cons.injEq] at split
            exact ⟨0, rfl, by rw [steps, tells, split.1]⟩
        | cons head rest =>
            rw [List.cons_append, List.cons.injEq] at split
            exact goesOn split.2 (by rw [tells, split.1]; rfl)

theorem mem_agenda (a : Addr) (t : Task) (concerns : t.concerns a = true) :
    t ∈ m.agenda a ↔ t ∈ m.tasks := by
  rw [agenda, List.mem_filter, and_iff_left concerns]

theorem due_of_unloaded (told : m.Told log) (a : Addr) (unloaded : a ∉ m.loaded)
    (course : List Event × List Event) (counted : Event.recount a log = some course) :
    course.2 = [] ∨ course.2 = [.returned a] := by
  obtain ⟨course', stage, same⟩ := told.stages a
  rw [counted, Option.some.injEq] at same
  subst same
  have unloads : ∀ t ∈ m.agenda a, t.unloads a = true → m.Unloading a := fun t member unloads =>
    List.any_eq_true.mpr ⟨t, (List.mem_filter.mp member).1, unloads⟩
  have doomed : m.Doomed a → Task.reclaim a ∈ m.agenda a := by
    intro isDoomed
    obtain ⟨t, member, reclaims⟩ := List.any_eq_true.mp isDoomed
    cases t <;> simp [Task.reclaims] at reclaims
    subst reclaims
    exact (mem_agenda _ _ (beq_self_eq_true _)).mpr member
  have loaded : ∀ claimed destructor, m.heap.fateAt a = some (true, claimed, destructor) →
      (m.Doomed a → m.Unloading a) → False := by
    intro claimed destructor fate holds
    obtain ⟨x, there, valid, _⟩ := (Heap.fateAt_eq_some_iff ..).mp fate
    exact unloaded ((m.mem_loaded a).mpr ⟨(m.heap.live_iff a).mpr ⟨x, there, valid⟩, holds⟩)
  generalize m.heap.fateAt a = fate at stage loaded
  generalize m.agenda a = row at stage unloads doomed
  cases stage with
  | vacant | gone => exact Or.inl rfl
  | unloaded past => exact Or.inr rfl
  | standing destructor =>
      exact (loaded _ _ rfl fun isDoomed => absurd (doomed isDoomed) List.not_mem_nil).elim
  | claimed | detached | running | finished =>
      exact (loaded _ _ rfl fun _ => unloads (.unload a) (by simp) (beq_self_eq_true a)).elim
  | reading =>
      exact (loaded _ _ rfl fun _ => unloads (.releaseChildren a) (by simp) (beq_self_eq_true a)).elim

/-- When a destructor is called, those of all that hold its object are over. -/
theorem Falling.called {b : Addr} {number other : Nat} {tale : List Event}
    (falling : Falling h o owned m) (told : m.Told (log ++ tale))
    (unmade : ∀ event ∈ tale, event.makes a = false)
    (start : Event.recount a log = some ([], Event.destruction a (some other)))
    (points : h.Points a b) (calls : m.tells = [.called b number]) : .finished a other ∈ tale := by
  obtain ⟨rest, tasks⟩ := finalize_of_called calls
  have doomed := falling.accounts.served (.finalize b) (by rw [tasks]; exact List.mem_cons_self) b
    (beq_self_eq_true b)
  obtain ⟨live, claimed, _⟩ := falling.accounts.doomed b doomed
  have zero := falling.toll.spent b live claimed
  have enough := falling.accounts.enough b live
  have unloaded : a ∉ m.loaded := by
    intro loaded
    have held := (m.held_pos_iff b).mpr ⟨a, loaded, by rw [falling.body.edges]; exact points.2⟩
    rw [owed] at enough
    omega
  obtain ⟨course, _, counted⟩ := told.stages a
  obtain ⟨_, parts⟩ := Event.recount_unmade a log tale _ _ course start counted unmade
  have due : Event.finished a other ∈ Event.row a tale ++ course.2 := by
    rw [← parts]
    simp [Event.destruction]
  have notLeft : Event.finished a other ∉ course.2 := by
    rcases due_of_unloaded told a unloaded course counted with gone | one
    · rw [gone]
      exact List.not_mem_nil
    · rw [one]
      simp
  have inRow := (List.mem_append.mp due).resolve_right notLeft
  exact (List.takeWhile_sublist _).subset (List.mem_filter.mp inRow).1

/-! A whole cascade -/

theorem Told.at_rest (told : m.Told log) (idle : m.idle = true) (a : Addr) :
    (m.heap.Live a → m.heap.claimedAt a = false ∧
      Event.recount a log = some ([], Event.destruction a (m.heap.destructorAt a))) ∧
    (¬ m.heap.Live a → ∃ past, Event.recount a log = some (past, [])) := by
  obtain ⟨course, stage, counted⟩ := told.stages a
  have due := (told.live_iff_due counted).1
  constructor
  · intro live
    rw [agenda_idle idle] at stage
    obtain ⟨destructor, fate, rfl⟩ := stage.untouched (due.mp live)
    obtain ⟨x, there, _, unclaimed, rfl⟩ := (Heap.fateAt_eq_some_iff ..).mp fate
    refine ⟨(Heap.claimedAt_of_there there).trans unclaimed, ?_⟩
    rw [counted, Heap.destructorAt, there, Option.bind_some]
  · intro dead
    have spent : course.2 = [] := not_not.mp (mt due.mpr dead)
    exact ⟨course.1, by rw [counted, ← spent]⟩

theorem Told.counted_at_rest (told : m.Told log) (idle : m.idle = true) (a : Addr)
    (live : m.heap.Live a) : 0 < m.heap.countAt a := by
  obtain ⟨x, there, _⟩ := (m.heap.live_iff a).mp live
  have unclaimed := ((told.at_rest idle a).1 live).1
  rw [Heap.countAt_of_there there]
  rw [Heap.claimedAt_of_there there] at unclaimed
  exact (told.marked.objects a x there).vital unclaimed

theorem Told.unclaimed_at_rest (told : m.Told log) (idle : m.idle = true) :
    m.heap.unclaimed = m.heap.live := by
  ext a
  rw [Heap.mem_unclaimed, Heap.mem_live, and_iff_left_iff_imp]
  exact fun live => ((told.at_rest idle a).1 live).1

/-- Between two states at rest all of the destruction of the objects that are gone is told, and nothing
of any other, unless new ones were made. -/
theorem Told.destroyed {n : Machine} {tale : List Event} (told : m.Told log) (idle : m.idle = true)
    (after : n.Told (log ++ tale)) (ends : n.idle = true)
    (among : ∀ a, n.heap.Live a → m.heap.Live a) (a : Addr)
    (unmade : ∀ event ∈ tale, event.makes a = false) :
    tale.filter (Event.about a) =
      if a ∈ m.heap.live \ n.heap.live then Event.destruction a (m.heap.destructorAt a) else [] := by
  have all : tale.takeWhile (fun event => !event.makes a) = tale := by
    rw [List.takeWhile_eq_self_iff]
    intro event member
    rw [unmade event member]
    rfl
  have row : tale.filter (Event.about a) = Event.row a tale := by rw [Event.row, all]
  have gone : a ∈ m.heap.live \ n.heap.live ↔ m.heap.Live a ∧ ¬ n.heap.Live a := by
    rw [Finset.mem_sdiff, Heap.mem_live, Heap.mem_live]
  rw [row]
  by_cases live : m.heap.Live a
  · obtain ⟨_, counted⟩ := (told.at_rest idle a).1 live
    by_cases survives : n.heap.Live a
    · obtain ⟨_, total⟩ := (after.at_rest ends a).1 survives
      have parts := (Event.recount_unmade a log tale _ _ _ counted total unmade).1
      rw [if_neg fun member => (gone.mp member).2 survives]
      exact parts.symm
    · obtain ⟨past, total⟩ := (after.at_rest ends a).2 survives
      have parts := (Event.recount_unmade a log tale _ _ _ counted total unmade).2
      rw [if_pos (gone.mpr ⟨live, survives⟩), parts, List.append_nil]
  · obtain ⟨_, counted⟩ := (told.at_rest idle a).2 live
    obtain ⟨_, total⟩ := (after.at_rest ends a).2 fun survives => live (among a survives)
    have parts := (Event.recount_unmade a log tale _ _ _ counted total unmade).2
    rw [if_neg fun member => live (gone.mp member).1]
    simpa using parts.symm

end Machine

namespace Heap

structure Felled (h : Heap) (o : Addr) (tale : List Event) (k : Heap) : Prop where
  /-- What is destroyed is the least closed set. -/
  least : IsLeast {row | h.Closed o row} (h.live \ k.live)
  /-- All of the destruction of its members is told, and nothing of any other. -/
  destroyed : ∀ a, tale.filter (Event.about a) =
    if a ∈ h.live \ k.live then Event.destruction a (h.destructorAt a) else []
  /-- A destructor is called after those of all that hold its object. -/
  holdersFirst : ∀ a b number other before later, h.Points a b → h.destructorAt a = some other →
    tale = before ++ .called b number :: later → .finished a other ∈ before
  survivors : ∀ a, k.Live a → h.Live a ∧
    (k.objects[a]?).map Object.body = (h.objects[a]?).map Object.body ∧
    k.countAt a + h.givenUp (h.live \ k.live) a = h.countAt a
  candidates : h.Eager → ∀ a, k.Live a → h.tracedAt a = true →
    0 < h.givenUp (h.live \ k.live) a → k.collector.registry.holds a = true

end Heap

namespace Machine

variable {m : Machine} {o : Addr} {owned : Addr → Nat} {log : List Event}

theorem Falling.start (told : m.Told log) (idle : m.idle = true)
    (accounted : m.heap.Accounted owned) (owns : 0 < owned o) :
    Falling m.heap o (Client.lose owned o) { m with tasks := [.release o] } := by
  have unclaimed := told.unclaimed_at_rest idle
  have standing : ({ m with tasks := [.release o] } : Machine).fallen m.heap = ∅ := by
    rw [fallen, unclaimed, Finset.sdiff_self]
  have still : ({ m with tasks := [.release o] } : Machine).unloading = ∅ := by
    rw [unloading, Finset.filter_eq_empty_iff]
    intro a _
    simp [Unloading, Task.unloads]
  have accounts := (calm_of_idle idle).accounts_iff.mpr accounted
  refine ⟨accounts.handed owns (by rw [List.isEmpty_iff.mp idle]) rfl, ?_, Same.refl _, fun _ => id, id, ?_⟩
  · simp [Task.cascades]
  · constructor
    · intro a isLive claimed
      rw [((told.at_rest idle a).1 isLive).1] at claimed
      cases claimed
    · intro a _
      rw [standing, still, pending_release rfl]
      simp [Heap.givenUp]
    · intro row _
      rw [standing]
      exact Finset.empty_subset row
    · intro _ a _ _ less
      exact absurd less (Nat.lt_irrefl _)

theorem Falling.least_closed (falling : Falling h o owned m) (told : m.Told log)
    (idle : m.idle = true) (live : h.Live o) (last : h.countAt o = 1) :
    IsLeast {row | h.Closed o row} (h.live \ m.heap.live) ∧
      ∀ a, m.heap.Live a → m.heap.countAt a + h.givenUp (h.live \ m.heap.live) a = h.countAt a := by
  have unclaimed := told.unclaimed_at_rest idle
  have calm := calm_of_idle idle
  have still : m.unloading = ∅ := by
    rw [unloading, Finset.filter_eq_empty_iff]
    exact fun a _ => (calm.parts a).2.1
  have balance : ∀ a, m.heap.Live a →
      m.heap.countAt a + h.givenUp (h.live \ m.heap.live) a + (if o = a then 1 else 0) =
        h.countAt a := by
    intro a isLive
    have adds := falling.toll.balance a (unclaimed ▸ (m.heap.mem_live a).mpr isLive)
    rw [(calm.parts a).1, still, fallen, unclaimed] at adds
    simpa [Heap.givenUp] using adds
  -- An object that survived has a count left beside what the destroyed ones gave up.
  have gone : ∀ a, h.Live a → h.countAt a ≤ h.givenUp (h.live \ m.heap.live) a + (if o = a then 1 else 0) →
      a ∈ h.live \ m.heap.live := by
    intro a wasLive all
    rw [Finset.mem_sdiff, Heap.mem_live, Heap.mem_live]
    refine ⟨wasLive, fun survives => ?_⟩
    have left := told.counted_at_rest idle a survives
    have adds := balance a survives
    omega
  have first : o ∈ h.live \ m.heap.live := gone o live (by rw [last, if_pos rfl]; omega)
  refine ⟨⟨⟨Finset.sdiff_subset, first, fun a wasLive all => gone a wasLive (by omega)⟩, ?_⟩, ?_⟩
  · intro row closed
    have inside := falling.toll.least row closed
    rwa [fallen, unclaimed] at inside
  · intro a isLive
    have apart : o ≠ a := by
      rintro rfl
      exact (Finset.mem_sdiff.mp first).2 ((m.heap.mem_live o).mpr isLive)
    have adds := balance a isLive
    rwa [if_neg apart] at adds

/-- The last release of an object by its owner comes to an end, and destroys the least closed set. -/
theorem Run.release_cascade (settings : Settings) (entropy : UInt64) (heap : Heap)
    (made : Heap.create settings entropy = .ok heap) (log : List Event) (m : Machine)
    (run : Run { heap } log m) (idle : m.idle = true) (owned : Addr → Nat)
    (accounted : m.heap.Accounted owned) (o : Addr) (live : m.heap.Live o) (owns : 0 < owned o)
    (last : m.heap.countAt o = 1) :
    ∃ n, ((m.release o).steps n).idle = true ∧
      m.heap.Felled o ((m.release o).story n) ((m.release o).steps n).heap := by
  obtain rfl := Heap.create_initial made
  have told := run.told (Told.initial settings entropy)
  have enough : ∀ a, m.heap.Live a → m.heap.held a ≤ m.heap.countAt a := fun a isLive =>
    (Nat.le_add_left _ _).trans (accounted a isLive)
  have start := Falling.start told idle accounted owns
  have after : m.release o = ({ m with tasks := [.release o] } : Machine).step := by
    rw [Machine.idle, List.isEmpty_iff] at idle
    rw [step_cons rfl, perform, ← idle]
  have falling : Falling m.heap o (Client.lose owned o) (m.release o) := by
    rw [after]
    exact start.step told.marked enough
  have toldAt : ∀ i, ((m.release o).steps i).Told (log ++ (m.release o).story i) := fun i =>
    (Run.start.steps i).told_after (told.release o)
  have fallingAt := falling.steps (told.release o) enough
  obtain ⟨n, ends⟩ := falling.accounts.cascade_ends falling.cascade
  refine ⟨n, ends, ?_⟩
  obtain ⟨least, balance⟩ := (fallingAt n).least_closed (toldAt n) ends live last
  have unmade := fun a i => (m.release o).story_unmade i a
  constructor
  · exact least
  · intro a
    exact told.destroyed idle (toldAt n) ends (fallingAt n).among a (unmade a n)
  · intro a b number other before later points left split
    obtain ⟨i, rfl, calls⟩ := (m.release o).story_split n split
    obtain ⟨_, counted⟩ := (told.at_rest idle a).1 points.1
    exact (fallingAt i).called (toldAt i) (unmade a i) (left ▸ counted) points calls
  · intro a survives
    exact ⟨(fallingAt n).among a survives, (fallingAt n).body.objects a, balance a survives⟩
  · intro eager a survives traced positive
    refine (fallingAt n).toll.letGo eager a ?_ ?_ ?_
    · exact (Heap.mem_unclaimed _ a).mpr ⟨survives, (((toldAt n).at_rest ends a).1 survives).1⟩
    · rw [(fallingAt n).body.tracedAt]
      exact traced
    · have adds := balance a survives
      omega

/-- An object holds two others, and the first of them holds the second as well, and one that the client
owns. Each of the three has a destructor. -/
def fellingScript : List (Operation × Nat) :=
  [(.call (.declare 1 (.leading 2)), 0), (.call (.alloc 16 1 (some 7)), 0),
    (.call (.alloc 16 1 (some 8)), 0), (.call (.alloc 16 1 (some 9)), 0),
    (.call (.alloc 16 1 none), 0), (.call (.assign 0x6b7000000000 0 (some 0x6b7000000060)), 0),
    (.call (.assign 0x6b7000000000 1 (some 0x6b70000000c0)), 0),
    (.call (.assign 0x6b7000000060 0 (some 0x6b70000000c0)), 0),
    (.call (.assign 0x6b7000000060 1 (some 0x6b7000000120)), 0),
    (.call (.release 0x6b7000000060), 0), (.call (.release 0x6b70000000c0), 0)]

def fellingOwned (a : Addr) : Nat := if a = 0x6b7000000000 ∨ a = 0x6b7000000120 then 1 else 0

theorem release_cascade_diamond :
    let start : Machine := { heap := .initial {} 0 }
    let m := (start.play fellingScript).2
    start.Plays fellingScript ∧ m.idle = true ∧ m.heap.Accounted fellingOwned ∧
      m.heap.countAt 0x6b70000000c0 = 2 ∧
      ((m.release 0x6b7000000000).steps 30).heap.live = {0x6b7000000120} ∧
      ∃ n, ((m.release 0x6b7000000000).steps n).idle = true ∧
        m.heap.Felled 0x6b7000000000 ((m.release 0x6b7000000000).story n)
          ((m.release 0x6b7000000000).steps n).heap := by
  intro start m
  have made : Heap.create {} 0 = .ok start.heap := Heap.create_valid {} 0 (by decide +kernel)
  have plays : start.Plays fellingScript := by decide +kernel
  have run := Run.start.play fellingScript plays
  have idle : m.idle = true := by decide +kernel
  have accounted : m.heap.Accounted fellingOwned := by decide +kernel
  exact ⟨plays, idle, accounted, by decide +kernel, by decide +kernel,
    Run.release_cascade {} 0 start.heap made _ m run idle fellingOwned accounted 0x6b7000000000
      (by decide +kernel) (by decide +kernel) (by decide +kernel)⟩

end Machine

end CountedHeap
