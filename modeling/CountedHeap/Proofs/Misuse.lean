import CountedHeap.Proofs.Stages

/-!
What no client can break. It may release too often, hold on to handles that are stale, run whatever
it likes in a destructor or a tracer and find the registry full at any time: candidates and their
bits stay in step, and every object is destroyed once and as a whole.
-/

namespace CountedHeap

namespace Event

/-- What is told of the destruction of an object up to the next making at its address. -/
def row (a : Addr) (log : List Event) : List Event :=
  (log.takeWhile fun event => !event.makes a).filter (about a)

theorem row_cons (a : Addr) (event : Event) (log : List Event) :
    row a (event :: log) =
      if event.makes a then [] else if event.about a then event :: row a log else row a log := by
  unfold row
  rw [List.takeWhile_cons]
  cases event.makes a with
  | true => rfl
  | false =>
      simp only [Bool.not_false, if_true, Bool.false_eq_true, if_false, List.filter_cons]

theorem row_of_follow (a : Addr) (log past due : List Event) (last : List Event × List Event)
    (follows : log.foldlM (follow a) (past, due) = some last) :
    (∃ event ∈ log, event.makes a = true) ∧ row a log = due ∨
      (∀ event ∈ log, event.makes a = false) ∧ last.1 = past ++ row a log ∧ due = row a log ++ last.2 := by
  induction log generalizing past due with
  | nil =>
      cases follows
      exact Or.inr (by simp [row])
  | cons event rest ih =>
      rw [List.foldlM_cons] at follows
      obtain ⟨course, first, later⟩ := Option.bind_eq_some_iff.mp follows
      rw [row_cons]
      cases event with
      | made b destructor =>
          by_cases here : b = a
          · have spent : due = [] := by
              by_contra more
              simp [follow, here, more] at first
            exact Or.inl ⟨⟨_, List.mem_cons_self, by simp [makes, here]⟩, by simp [makes, here, spent]⟩
          · simp only [follow, here, if_false, Option.some.injEq] at first
            subst first
            simpa [makes, about, here] using ih past due later
      | called b number | finished b number | returned b =>
          by_cases here : b = a
          · simp only [follow, about, here, beq_self_eq_true, if_true] at first
            split at first
            · rename_i next
              obtain ⟨left, rfl⟩ := List.head?_eq_some_iff.mp next
              simp only [Option.some.injEq] at first
              subst first
              simpa [makes, about, here] using ih _ _ later
            · cases first
          · simp only [follow, about, beq_false_of_ne here, Bool.false_eq_true, if_false,
              Option.some.injEq] at first
            subst first
            simpa [makes, about, here] using ih past due later

theorem recount_append (a : Addr) (log since past due : List Event) (last : List Event × List Event)
    (counted : recount a log = some (past, due)) (total : recount a (log ++ since) = some last) :
    (∃ event ∈ since, event.makes a = true) ∧ row a since = due ∨
      (∀ event ∈ since, event.makes a = false) ∧ last.1 = past ++ row a since ∧
        due = row a since ++ last.2 := by
  rw [recount] at counted
  rw [recount, List.foldlM_append, counted] at total
  exact row_of_follow a since past due last total

theorem recount_unmade (a : Addr) (log since past due : List Event) (last : List Event × List Event)
    (counted : recount a log = some (past, due)) (total : recount a (log ++ since) = some last)
    (unmade : ∀ event ∈ since, event.makes a = false) :
    last.1 = past ++ row a since ∧ due = row a since ++ last.2 := by
  rcases recount_append a log since past due last counted total with
    ⟨⟨event, member, makes⟩, _⟩ | ⟨_, parts⟩
  · rw [unmade event member] at makes
    cases makes
  · exact parts

theorem recount_made (a : Addr) (destructor : Option Nat) (before after : List Event)
    (course : List Event × List Event)
    (counted : recount a (before ++ .made a destructor :: after) = some course) :
    (∃ event ∈ after, event.makes a = true) ∧ row a after = destruction a destructor ∨
      (∀ event ∈ after, event.makes a = false) ∧ course.1 = row a after ∧
        destruction a destructor = row a after ++ course.2 := by
  rw [recount, List.foldlM_append] at counted
  obtain ⟨old, _, later⟩ := Option.bind_eq_some_iff.mp counted
  rw [List.foldlM_cons] at later
  obtain ⟨new, first, later⟩ := Option.bind_eq_some_iff.mp later
  simp only [follow, if_true] at first
  split at first
  · cases first
    exact row_of_follow a after [] _ course later
  · cases first

end Event

open Event (destruction row)

/-- An entry of the registry, between passes, and the object that it is about. -/
structure Heap.Registered (h : Heap) (entry : Candidate) : Prop where
  live : h.Live entry.object
  traced : h.tracedAt entry.object = true
  unclaimed : h.claimedAt entry.object = false
  counted : 1 ≤ h.countAt entry.object
  state : entry.state = .unvisited ∨ entry.state = .inProgress
  unmarked : entry.marked = false

structure Heap.Mirrored (h : Heap) : Prop where
  bits : ∀ a, h.Live a → h.bufferedAt a = h.collector.registry.holds a
  once : (h.collector.registry.map Candidate.object).Nodup
  entries : ∀ entry ∈ h.collector.registry, h.Registered entry
  swept : h.startPass.2.collector.registry.map Candidate.object =
    h.collector.registry.map Candidate.object
  fresh : ∀ size type destructor a k, h.alloc size type destructor = .ok (a, k) →
    k.collector.registry.holds a = false ∧ k.bufferedAt a = false

namespace Machine

variable {n : Machine} {log : List Event}

theorem Told.whole (told : n.Told log) (idle : n.idle = true) (a : Addr)
    (course : List Event × List Event) (stage : Stage a (n.heap.fateAt a) (n.agenda a) course)
    (due : course.2 ≠ []) :
    course.1 = [] ∧ n.heap.Live a ∧ n.heap.claimedAt a = false ∧ 1 ≤ n.heap.countAt a ∧
      n.heap.countAt a ≤ CountWord.maxCount.toNat := by
  rw [agenda_idle idle] at stage
  obtain ⟨left, fate, rfl⟩ := stage.untouched due
  obtain ⟨o, there, valid, unclaimed, _⟩ := (Heap.fateAt_eq_some_iff ..).mp fate
  have limit : CountWord.maxCount.toNat = 2 ^ 31 - 1 := by decide
  have vital := (told.marked.objects a o there).vital unclaimed
  have small := o.word.toNat_count_lt
  refine ⟨rfl, (Heap.live_iff _ _).mpr ⟨o, there, valid⟩, ?_, ?_, ?_⟩
  · exact (Heap.claimedAt_of_there there).trans unclaimed
  · rw [Heap.countAt_of_there there]
    exact vital
  · simp only [Heap.countAt, there, Option.elim_some, Object.count, limit]
    omega

/-- The registry and the bit on an object never differ. So the sweep at the start of a pass removes
nothing, and no block is handed out while it is registered. -/
theorem registry_mirrored (settings : Settings) (entropy : UInt64) (heap : Heap)
    (made : Heap.create settings entropy = .ok heap) (log : List Event) (n : Machine)
    (run : Run { heap } log n) : n.heap.Mirrored := by
  obtain rfl := Heap.create_initial made
  have marked := (run.told (Told.initial settings entropy)).marked
  refine ⟨marked.bufferedAt, marked.once, fun entry member => ?_, marked.startPass_objects, ?_⟩
  · obtain ⟨o, there, valid, traced, unclaimed⟩ :=
      marked.listed _ ((Heap.holds_iff _ _).mpr ⟨entry, member, rfl⟩)
    have vital := (marked.objects _ o there).vital unclaimed
    obtain ⟨pending, _⟩ := marked.entries entry member
    refine ⟨(Heap.live_iff _ _).mpr ⟨o, there, valid⟩, ?_, ?_, ?_, pending.state, pending.unmarked⟩
    · exact (Heap.tracedAt_of_there there).trans traced
    · exact (Heap.claimedAt_of_there there).trans unclaimed
    · rw [Heap.countAt_of_there there]
      exact vital
  · intro size type destructor a k done
    obtain ⟨_, absent, _⟩ := marked.alloc done
    obtain ⟨_, _, _, _, _, _, collector, _⟩ := Heap.alloc_spec size type destructor a done
    obtain ⟨o, there, _, _, _, clear, _⟩ := (Heap.alloc_born size type destructor a done).here
    exact ⟨collector ▸ absent, (Heap.bufferedAt_of_there there).trans clear⟩

/-- Two objects that hold each other are dropped and collected. The destructor of the first releases
both again, more than once, and collects; and so does the client afterwards, with handles that are
stale by then. A new object is made in the block of the first and becomes a candidate. -/
def misuseScript : List (Operation × Nat) :=
  [(.call (.declare 1 (.leading 2)), 0), (.call (.alloc 16 1 (some 7)), 0),
    (.call (.alloc 16 1 none), 0), (.call (.assign 0x6b7000000000 0 (some 0x6b7000000060)), 0),
    (.call (.assign 0x6b7000000060 0 (some 0x6b7000000000)), 0), (.call (.room false), 0),
    (.call (.release 0x6b7000000000), 0), (.call (.room true), 0),
    (.call (.release 0x6b7000000060), 0), (.call .collect, 13),
    (.call (.release 0x6b7000000000), 0), (.call (.release 0x6b7000000060), 0),
    (.call .collect, 2), (.releaseBatch [0x6b7000000060, 0x6b7000000060], 2),
    (.retain 0x6b7000000000, 30), (.call (.release 0x6b7000000000), 0),
    (.call (.release 0x6b7000000060), 0), (.call (.alloc 16 1 (some 8)), 0),
    (.retain 0x6b7000000000, 0), (.call (.release 0x6b7000000000), 0)]

theorem registry_mirrored_misuse :
    let start : Machine := { heap := .initial {} 0 }
    let n := (start.play misuseScript).2
    start.Plays misuseScript ∧ n.heap.books.misuse = 7 ∧
      n.heap.collector.registry.holds 0x6b7000000000 = true ∧
      n.heap.bufferedAt 0x6b7000000000 = true := by
  intro start n
  have made : Heap.create {} 0 = .ok start.heap := Heap.create_valid {} 0 (by decide +kernel)
  have plays : start.Plays misuseScript := by decide +kernel
  have run := Run.start.play misuseScript plays
  have mirrored : n.heap.Mirrored := registry_mirrored {} 0 start.heap made _ n run
  have listed : n.heap.collector.registry.holds 0x6b7000000000 = true := by decide +kernel
  refine ⟨plays, by decide +kernel, listed, ?_⟩
  rw [mirrored.bits _ (by decide +kernel), listed]

/-- Every object is destroyed once: its destructor is called and comes back, and only then its block
is returned, before anything else is made there. Between operations an object whose block was not
returned is whole: its destruction has not begun, and its count is one that a word can hold. -/
theorem destroyed_once (settings : Settings) (entropy : UInt64) (heap : Heap)
    (made : Heap.create settings entropy = .ok heap) (log : List Event) (n : Machine)
    (run : Run { heap } log n) (a : Addr) :
    row a log = [] ∧
    ∀ before destructor after, log = before ++ .made a destructor :: after →
      row a after <+: destruction a destructor ∧
      ((∃ event ∈ after, event.makes a = true) → row a after = destruction a destructor) ∧
      (n.idle = true → .returned a ∉ row a after →
        row a after = [] ∧ n.heap.Live a ∧ n.heap.claimedAt a = false ∧
          1 ≤ n.heap.countAt a ∧ n.heap.countAt a ≤ CountWord.maxCount.toNat) := by
  obtain rfl := Heap.create_initial made
  have told := run.told (Told.initial settings entropy)
  obtain ⟨course, stage, counted⟩ := told.stages a
  constructor
  · rcases Event.row_of_follow a log [] [] course counted with ⟨_, empty⟩ | ⟨_, _, empty⟩
    · exact empty
    · exact (List.append_eq_nil_iff.mp empty.symm).1
  · rintro before destructor after rfl
    rcases Event.recount_made a destructor before after course counted with
      ⟨_, whole⟩ | ⟨unmade, past, whole⟩
    · refine ⟨whole ▸ List.prefix_refl _, fun _ => whole, fun _ unreturned => ?_⟩
      rw [whole] at unreturned
      exact absurd (by simp [destruction]) unreturned
    · refine ⟨⟨course.2, whole.symm⟩, fun again => ?_, fun idle unreturned => ?_⟩
      · obtain ⟨event, member, makes⟩ := again
        rw [unmade event member] at makes
        cases makes
      · have due : course.2 ≠ [] := by
          intro nothing
          rw [nothing, List.append_nil] at whole
          rw [← whole] at unreturned
          exact unreturned (by simp [destruction])
        rw [← past]
        exact told.whole idle a course stage due

theorem destroyed_once_misuse :
    let start : Machine := { heap := .initial {} 0 }
    let n := (start.play misuseScript).2
    let log := (start.play misuseScript).1
    start.Plays misuseScript ∧ n.idle = true ∧
      row 0x6b7000000000 (log.drop 1) = destruction 0x6b7000000000 (some 7) ∧
      n.heap.Live 0x6b7000000000 ∧ n.heap.countAt 0x6b7000000000 = 1 := by
  intro start n log
  have made : Heap.create {} 0 = .ok start.heap := Heap.create_valid {} 0 (by decide +kernel)
  have plays : start.Plays misuseScript := by decide +kernel
  have run := Run.start.play misuseScript plays
  have idle : n.idle = true := by decide +kernel
  obtain ⟨_, lives⟩ := destroyed_once {} 0 start.heap made _ n run 0x6b7000000000
  obtain ⟨_, whole, _⟩ := lives [] (some 7) (log.drop 1) (by decide +kernel)
  obtain ⟨_, _, stands⟩ := lives (log.take 6) (some 8) [] (by decide +kernel)
  obtain ⟨_, live, _⟩ := stands idle (by decide +kernel)
  exact ⟨plays, idle, whole (by decide +kernel), live, by decide +kernel⟩

end Machine

end CountedHeap
