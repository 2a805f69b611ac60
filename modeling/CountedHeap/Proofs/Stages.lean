import CountedHeap.Proofs.Gentle

/-!
The stages of an object's life, from its making until its memory is free again. At each stage the
heap holds certain tasks about the object and no others, and certain events are still to be told of
it. The stages are the same whatever a client does: no release and no pass takes an object that is
claimed, and no task about it comes from anywhere but the stage before.
-/

namespace CountedHeap

open Heap (Gentle Lowered)

namespace Event

def about (a : Addr) : Event → Bool
  | .made _ _ => false
  | .called b _ | .finished b _ | .returned b => b == a

def makes (a : Addr) : Event → Bool
  | .made b _ => b == a
  | _ => false

/-- All that is told of the destruction of an object, in order. -/
def destruction (a : Addr) (destructor : Option Nat) : List Event :=
  destructor.toList.flatMap (fun number => [.called a number, .finished a number]) ++ [.returned a]

/-- What has been told of the object at an address and what is left to tell, after one more event that
was due. A new object may be made there once nothing is left to tell. -/
def follow (a : Addr) (course : List Event × List Event) (event : Event) :
    Option (List Event × List Event) :=
  match event with
  | .made b destructor =>
      if b = a then if course.2 = [] then some ([], destruction a destructor) else none
      else some course
  | event =>
      if event.about a then
        if course.2.head? = some event then some (course.1 ++ [event], course.2.tail) else none
      else some course

/-- How far a row of events has come with the object that was made last, if they all were due. -/
def recount (a : Addr) (log : List Event) : Option (List Event × List Event) :=
  log.foldlM (follow a) ([], [])

theorem follow_other {a : Addr} {event : Event} (other : event.about a = false)
    (old : event.makes a = false) (course : List Event × List Event) :
    follow a course event = some course := by
  cases event with
  | made b destructor =>
      simp only [makes, beq_eq_false_iff_ne] at old
      simp [follow, old]
  | called b number | finished b number | returned b => simp [follow, other]

theorem follow_others {a : Addr} {events : List Event}
    (others : ∀ event ∈ events, event.about a = false ∧ event.makes a = false)
    (course : List Event × List Event) : events.foldlM (follow a) course = some course := by
  induction events with
  | nil => rfl
  | cons event rest ih =>
      obtain ⟨other, old⟩ := others event List.mem_cons_self
      rw [List.foldlM_cons, follow_other other old]
      exact ih fun event member => others event (List.mem_cons_of_mem _ member)

end Event

namespace Task

def concerns (a : Addr) : Task → Bool
  | .detach b | .finalize b | .callback (.destructor b _) | .unload b | .releaseChildren b
  | .reclaim b => b == a
  | .release _ | .callback (.tracer _) | .search _ | .expand _ _ | .answer _ => false

end Task

open Event (destruction follow recount)

/-- A stage of an object's life: whether it is live, whether it is claimed and which destructor it has
left; the tasks about it; and what has been told of it and what is left to tell. -/
inductive Stage (a : Addr) :
    Option (Bool × Bool × Option Nat) → List Task → List Event × List Event → Prop
  | vacant : Stage a none [] ([], [])
  | gone (claimed : Bool) (destructor : Option Nat) (past : List Event) :
      Stage a (some (false, claimed, destructor)) [] (past, [])
  | standing (destructor : Option Nat) :
      Stage a (some (true, false, destructor)) [] ([], destruction a destructor)
  | claimed (destructor : Option Nat) :
      Stage a (some (true, true, destructor)) [.detach a, .finalize a, .unload a, .reclaim a]
        ([], destruction a destructor)
  | detached (destructor : Option Nat) :
      Stage a (some (true, true, destructor)) [.finalize a, .unload a, .reclaim a]
        ([], destruction a destructor)
  | running (number : Nat) :
      Stage a (some (true, true, none)) [.callback (.destructor a number), .unload a, .reclaim a]
        ([.called a number], [.finished a number, .returned a])
  | finished (past : List Event) :
      Stage a (some (true, true, none)) [.unload a, .reclaim a] (past, [.returned a])
  | reading (past : List Event) :
      Stage a (some (true, true, none)) [.releaseChildren a, .reclaim a] (past, [.returned a])
  | unloaded (past : List Event) :
      Stage a (some (true, true, none)) [.reclaim a] (past, [.returned a])

/-- Of an object that no task is about, all was told, or its destruction has not begun. -/
theorem Stage.untouched {a : Addr} {fate : Option (Bool × Bool × Option Nat)}
    {course : List Event × List Event} (stage : Stage a fate [] course) (due : course.2 ≠ []) :
    ∃ destructor, fate = some (true, false, destructor) ∧ course = ([], destruction a destructor) := by
  cases stage with
  | vacant | gone => exact absurd rfl due
  | standing destructor => exact ⟨destructor, rfl, rfl⟩

namespace Machine

variable {m n : Machine} {log events : List Event}

def agenda (m : Machine) (a : Addr) : List Task := m.tasks.filter (Task.concerns a)

theorem agenda_idle (idle : m.idle = true) (a : Addr) : m.agenda a = [] := by
  rw [Machine.idle, List.isEmpty_iff] at idle
  rw [agenda, idle]
  rfl

/-- A machine that is where the events have brought it. -/
structure Told (m : Machine) (log : List Event) : Prop where
  marked : m.heap.Marked
  stages : ∀ a, ∃ course, Stage a (m.heap.fateAt a) (m.agenda a) course ∧
    recount a log = some course

/-- An object is live exactly while something of its destruction is left to tell, its end included. -/
theorem Told.live_iff_due {a : Addr} (told : m.Told log) {course : List Event × List Event}
    (counted : recount a log = some course) :
    (m.heap.Live a ↔ course.2 ≠ []) ∧ (course.2 ≠ [] → .returned a ∈ course.2) := by
  obtain ⟨course', stage, counted'⟩ := told.stages a
  rw [counted, Option.some.injEq] at counted'
  subst counted'
  rw [Heap.live_iff_fate]
  generalize m.heap.fateAt a = fate at stage
  generalize m.agenda a = agenda at stage
  cases stage <;> simp [destruction]

theorem Told.turn (told : m.Told log) (a : Addr) (marked : n.heap.Marked)
    (others : ∀ b, b ≠ a → n.heap.fateAt b = m.heap.fateAt b ∧ n.agenda b = m.agenda b)
    (silent : ∀ b, b ≠ a → ∀ event ∈ events, event.about b = false ∧ event.makes b = false)
    (here : ∀ course, Stage a (m.heap.fateAt a) (m.agenda a) course → ∃ course',
      Stage a (n.heap.fateAt a) (n.agenda a) course' ∧ events.foldlM (follow a) course = some course') :
    n.Told (log ++ events) := by
  refine ⟨marked, fun b => ?_⟩
  obtain ⟨course, stage, counted⟩ := told.stages b
  rw [recount] at counted
  rw [recount, List.foldlM_append, counted]
  by_cases isHere : b = a
  · subst isHere
    exact here course stage
  · obtain ⟨fate, agenda⟩ := others b isHere
    rw [fate, agenda]
    exact ⟨course, stage, Event.follow_others (silent b isHere) course⟩

theorem Told.gentle (told : m.Told log) (gentle : Gentle m.heap n.heap)
    (agendas : ∀ a, n.agenda a = m.agenda a) : n.Told log := by
  refine ⟨gentle.marked told.marked, fun a => ?_⟩
  rw [gentle.fates, agendas]
  exact told.stages a

theorem agenda_push (m : Machine) (news : List Task) (a : Addr) :
    (m.push news).agenda a = news.filter (Task.concerns a) ++ m.agenda a :=
  List.filter_append news m.tasks

theorem agenda_push_calm (m : Machine) (news : List Task)
    (calm : ∀ t ∈ news, ∀ a, t.concerns a = false) (a : Addr) :
    (m.push news).agenda a = m.agenda a := by
  have unconcerned : news.filter (Task.concerns a) = [] := by
    rw [List.filter_eq_nil_iff]
    intro t member
    simp [calm t member a]
  rw [agenda_push, unconcerned, List.nil_append]

theorem release_calm (objects : List Addr) : ∀ t ∈ objects.map Task.release, ∀ a, t.concerns a = false := by
  intro t member a
  obtain ⟨b, _, rfl⟩ := List.mem_map.mp member
  rfl

theorem tracing_concerns (m : Machine) (a : Addr) : ∀ t ∈ m.tracing a, ∀ b, t.concerns b = false := by
  intro t member b
  unfold tracing at member
  split at member
  · rw [List.mem_singleton.mp member]
    rfl
  · cases member

/-! Operations -/

/-- A release claims an object that nobody has claimed, and all of its destruction is to come. -/
theorem Told.release (told : m.Told log) (a : Addr) : (m.release a).Told log := by
  rcases m.release_cases a with ⟨o, last, k, there, valid, _, lowered, after⟩ | after
  · have marked := told.marked.lowered there valid lowered
    rw [after]
    cases lowered with
    | fell _ word count bit keeps changed registry enough =>
        exact told.gentle (.entered there changed fun _ => marked) fun b => rfl
    | entered _ word count bit many traced unclaimed unbuffered absent changed registry =>
        exact told.gentle (.entered there changed fun _ => marked) fun b => rfl
    | condemned _ word count one unclaimed changed registry =>
        -- Nobody had claimed the object, so it stood, and no task was about it.
        rw [← List.append_nil log]
        refine told.turn a marked (fun b apart => ⟨?_, ?_⟩) (fun b apart => by simp) fun course stage => ?_
        · rw [Heap.fateAt, Heap.fateAt, push, changed.others b apart]
        · rw [agenda_push]
          simp [Task.destruction, Task.concerns, Ne.symm apart, agenda]
        · have before : m.heap.fateAt a = some (true, false, o.destructor) :=
            (Heap.fateAt_eq_some_iff ..).mpr ⟨o, there, valid, unclaimed, rfl⟩
          have now : k.fateAt a = some (true, true, o.destructor) :=
            (Heap.fateAt_eq_some_iff ..).mpr ⟨_, changed.here, valid, rfl, rfl⟩
          have empty : m.agenda a = [] ∧ course = ([], destruction a o.destructor) := by
            rw [before] at stage
            generalize m.agenda a = tasks at stage
            cases stage
            exact ⟨rfl, rfl⟩
          refine ⟨course, ?_, rfl⟩
          have row : ({ m with heap := k }.push (Task.destruction a)).agenda a =
              Task.destruction a ++ m.agenda a := by
            rw [agenda_push]
            simp [Task.destruction, Task.concerns, agenda]
          rw [if_pos rfl, row, empty.1, empty.2, push, now]
          exact .claimed o.destructor
  · rw [after]
    exact told.gentle m.heap.absorb_edits.gentle fun b => rfl

theorem Told.collect (told : m.Told log) : m.collect.Told log :=
  told.gentle m.heap.startPass_gentle fun a => agenda_push_calm _ _ (by simp [Task.concerns]) a

theorem Told.trigger (told : m.Told log) : m.trigger.2.Told log := by
  have noted : (m.onHeap ({ · with collector := m.heap.collector.noteAllocation.2 })).Told log :=
    told.gentle m.heap.noteAllocation_edits.gentle fun _ => rfl
  simp only [Machine.trigger]
  split
  · exact noted.collect
  · exact noted

theorem Told.alloc (told : m.Told log) (size type : Nat) (destructor : Option Nat) (a : Addr)
    (k : Heap) (done : m.heap.alloc size type destructor = .ok (a, k)) :
    ({ m with heap := k } : Machine).Told (log ++ [.made a destructor]) := by
  obtain ⟨dead, _, marked⟩ := told.marked.alloc done
  have born := Heap.alloc_born size type destructor a done
  obtain ⟨_, _, _, _, objects, _⟩ := Heap.alloc_spec size type destructor a done
  refine told.turn a marked (fun b apart => ⟨?_, rfl⟩) (fun b apart => ?_) fun course stage => ?_
  · rw [Heap.fateAt, Heap.fateAt, born.others b apart]
  · simp [Event.about, Event.makes, Ne.symm apart]
  · have now : k.fateAt a = some (true, false, destructor) := by
      rw [Heap.fateAt, objects, Std.TreeMap.getElem?_insert_self]
      rfl
    -- The block was free, so all was told of what stood there before.
    have empty : m.agenda a = [] ∧ course.2 = [] := by
      have notLive : ∀ claimed destructor, m.heap.fateAt a ≠ some (true, claimed, destructor) := by
        intro claimed destructor fate
        obtain ⟨o, there, valid, _⟩ := (Heap.fateAt_eq_some_iff ..).mp fate
        exact dead ((m.heap.live_iff a).mpr ⟨o, there, valid⟩)
      generalize m.heap.fateAt a = fate at stage notLive
      generalize m.agenda a = tasks at stage
      cases stage with
      | vacant | gone => exact ⟨rfl, rfl⟩
      | _ => exact absurd rfl (notLive _ _)
    refine ⟨([], destruction a destructor), ?_, by simp [follow, empty.2]⟩
    rw [show ({ m with heap := k } : Machine).agenda a = m.agenda a from rfl, now, empty.1]
    exact .standing destructor

/-- Whatever a client asks for, no object is taken from its destruction or put through it twice. -/
theorem Told.operate (told : m.Told log) (operation : Operation) (may : m.May operation) :
    (m.operate operation).Told (log ++ m.told operation) := by
  have kept : ∀ {k : Heap}, Gentle m.heap k → ({ m with heap := k } : Machine).Told log :=
    fun gentle => told.gentle gentle fun _ => rfl
  have silent : ∀ {n : Machine}, n.Told log → n.Told (log ++ []) := fun told => by simpa using told
  have operated := m.operate_cases operation
  generalize m.operate operation = n at operated
  cases operated with
  | edited given edits quiet =>
      rw [quiet]
      exact silent (told.gentle edits.gentle fun b => agenda_push_calm _ _ (release_calm given) b)
  | made size type destructor done =>
      simp only [Machine.told, done]
      exact told.alloc size type destructor _ _ done
  | released a | tried a => exact silent (told.release a)
  | collected => exact silent told.collect
  | triggered => exact silent told.trigger
  | named objects => exact silent (kept (m.heap.downgradeBatch_gentle objects))
  | downgraded a => exact silent (kept (m.heap.downgradeBatch_gentle [a]))
  | cloned handle | dropped handle | recounted | resetObjects =>
      exact silent (kept (.of_frame rfl (.refl _) fun _ => id))
  | reordered registry => exact silent (kept (.of_frame rfl may fun _ => id))
  | bounded limit =>
      exact silent (kept (.of_frame rfl (.refl _) fun free stocked =>
        stocked.transfer (fun _ => rfl) rfl (Nat.le_refl _) fun _ => id))
  | resetPool =>
      refine silent (kept (.of_frame rfl (.refl _) fun free stocked =>
        stocked.transfer (fun c => ?_) rfl (Nat.le_refl _) fun _ => id))
      simp [Pool.shelf, Pool.resetStats, Vector.get_eq_getElem]

/-! Steps -/

theorem agenda_cons {t : Task} {rest : List Task} (tasks : m.tasks = t :: rest) (a : Addr) :
    m.agenda a = (if t.concerns a then [t] else []) ++ rest.filter (Task.concerns a) := by
  rw [agenda, tasks, List.filter_cons]
  split <;> rfl

/-- The tasks about one object among the destruction of a row of different ones. -/
theorem disposal_concerns {garbage : List Addr} (once : garbage.Nodup) (a : Addr) :
    (Task.disposal garbage).filter (Task.concerns a) =
      if a ∈ garbage then Task.destruction a else [] := by
  have one : ∀ task : Addr → Task, (∀ b, (task b).concerns a = (b == a)) →
      (garbage.map task).filter (Task.concerns a) = if a ∈ garbage then [task a] else [] := by
    intro task concerns
    have same : Task.concerns a ∘ task = (· == a) := funext concerns
    rw [List.filter_map, same, List.filter_beq, once.count]
    split <;> rfl
  rw [Task.disposal, List.filter_append, List.filter_append, List.filter_append,
    one Task.detach fun _ => rfl, one Task.finalize fun _ => rfl, one Task.unload fun _ => rfl,
    one Task.reclaim fun _ => rfl]
  split <;> rfl

theorem taken_of_fate {h : Heap} {a : Addr} {valid claimed : Bool} {destructor : Option Nat}
    (fate : h.fateAt a = some (valid, claimed, destructor)) :
    (h.takeDestructor a).1 = destructor ∧
      (h.takeDestructor a).2.fateAt a = some (valid, claimed, none) := by
  obtain ⟨o, there, isValid, isClaimed, isDestructor⟩ := (Heap.fateAt_eq_some_iff ..).mp fate
  refine ⟨by simp [Heap.takeDestructor, there, isDestructor], ?_⟩
  rw [Heap.fateAt, Heap.takeDestructor, Heap.getElem?_update, if_pos rfl, there, ← isValid, ← isClaimed]
  rfl

/-- The end of a pass claims objects that nobody has claimed, each of them once. -/
theorem Told.finish (told : m.Told log) (pass : Pass) :
    ({ m with heap := (m.heap.finishPass pass).2 }.push
      (Task.disposal (m.heap.finishPass pass).1 ++ [Task.answer (m.heap.finishPass pass).1.length])).Told
        log := by
  have finished := told.marked.finishPass pass
  generalize m.heap.finishPass pass = out at finished
  obtain ⟨garbage, k⟩ := out
  simp only at finished ⊢
  refine ⟨finished.marked told.marked, fun a => ?_⟩
  obtain ⟨course, stage, counted⟩ := told.stages a
  refine ⟨course, ?_, counted⟩
  have row : ∀ n : Nat, ({ m with heap := k }.push (Task.disposal garbage ++ [Task.answer n])).agenda a =
      (if a ∈ garbage then Task.destruction a else []) ++ m.agenda a := by
    intro n
    rw [agenda_push, List.filter_append, disposal_concerns finished.once]
    simp [Task.concerns, agenda]
  have fate := finished.fates a
  rw [row, push]
  simp only
  rw [fate]
  by_cases member : a ∈ garbage
  · obtain ⟨o, there, unclaimed⟩ := finished.fresh a member
    have live := told.marked.live_of_fresh a ⟨o, there, unclaimed⟩
    have valid : o.valid = true := by simpa [Heap.Live, there] using live
    have before : m.heap.fateAt a = some (true, false, o.destructor) :=
      (Heap.fateAt_eq_some_iff ..).mpr ⟨o, there, valid, unclaimed, rfl⟩
    rw [before] at stage ⊢
    generalize m.agenda a = tasks at stage ⊢
    cases stage
    simp only [member, if_true, List.append_nil, Option.map_some, decide_true, Bool.or_true]
    exact .claimed o.destructor
  · simp only [member, if_false, List.nil_append, decide_false, Bool.or_false]
    rw [show (fun fate : Bool × Bool × Option Nat => (fate.1, fate.2.1, fate.2.2)) = id from rfl,
      Option.map_id_fun, id]
    exact stage

variable {t : Task} {rest : List Task}

theorem Told.own (told : m.Told log) (tasks : m.tasks = t :: rest) (a : Addr) (news : List Task)
    (own : ∀ b, t.concerns b = (a == b)) {k : Heap} (marked : k.Marked)
    (fates : ∀ b, b ≠ a → k.fateAt b = m.heap.fateAt b)
    (calm : ∀ u ∈ news, ∀ b, b ≠ a → u.concerns b = false)
    (silent : ∀ b, b ≠ a → ∀ event ∈ events, event.about b = false ∧ event.makes b = false)
    (here : ∀ row course, Stage a (m.heap.fateAt a) (t :: row) course → ∃ course',
      Stage a (k.fateAt a) (news.filter (Task.concerns a) ++ row) course' ∧
        events.foldlM (follow a) course = some course') :
    ({ m with heap := k, tasks := news ++ rest } : Machine).Told (log ++ events) := by
  have split : ∀ b, ({ m with heap := k, tasks := news ++ rest } : Machine).agenda b =
      news.filter (Task.concerns b) ++ rest.filter (Task.concerns b) := fun b =>
    List.filter_append news rest
  refine told.turn a marked (fun b apart => ⟨fates b apart, ?_⟩) silent fun course stage => ?_
  · have unconcerned : news.filter (Task.concerns b) = [] := by
      rw [List.filter_eq_nil_iff]
      intro u member
      simp [calm u member b apart]
    rw [split, unconcerned, agenda_cons tasks, own, beq_false_of_ne (Ne.symm apart)]
    rfl
  · rw [agenda_cons tasks, own, beq_self_eq_true, if_pos rfl] at stage
    rw [split]
    exact here _ course stage

theorem Told.popped (told : m.Told log) (tasks : m.tasks = t :: rest)
    (calm : ∀ a, t.concerns a = false) : ({ m with tasks := rest } : Machine).Told log :=
  told.gentle (.refl _) fun a => by
    rw [agenda_cons tasks, calm a]
    rfl

theorem Told.searched (told : m.Told log) (pass : Pass) : (m.advance pass).Told log := by
  rw [advance]
  cases pass.walk.asks? with
  | some a =>
      refine told.gentle (.refl _) fun b => agenda_push_calm _ _ (fun u member c => ?_) b
      rcases List.mem_append.mp member with waits | isExpand
      · exact tracing_concerns _ a u waits c
      · rw [List.mem_singleton.mp isExpand]
        rfl
  | none =>
      simp only
      split
      · exact told.finish pass
      · exact told.gentle (.refl _) fun b => agenda_push_calm _ _ (by simp [Task.concerns]) b

theorem Told.returned {a : Addr} {number : Nat} (told : m.Told log)
    (tasks : m.tasks = .callback (.destructor a number) :: rest) :
    ({ m with tasks := rest } : Machine).Told (log ++ [.finished a number]) := by
  refine told.own tasks a [] (fun _ => rfl) told.marked (fun _ _ => rfl) (by simp)
    (fun b apart => by simp [Event.about, Event.makes, Ne.symm apart]) fun row course stage => ?_
  generalize m.heap.fateAt a = fate at stage
  cases stage
  exact ⟨_, .finished [.called a number, .finished a number], by simp [follow, Event.about]⟩

theorem Told.detached {a : Addr} (told : m.Told log) (tasks : m.tasks = .detach a :: rest) :
    ({ m with heap := m.heap.detachWeak a, tasks := rest } : Machine).Told log := by
  have gentle := m.heap.detachWeak_gentle a
  rw [← List.append_nil log]
  refine told.own tasks a [] (fun _ => rfl) (gentle.marked told.marked)
    (fun b _ => gentle.fates b) (by simp) (by simp) fun row course stage => ?_
  rw [gentle.fates]
  generalize m.heap.fateAt a = fate at stage ⊢
  cases stage
  exact ⟨_, .detached _, rfl⟩

/-- The destructor that is called is the one the object was made with. -/
theorem Told.finalized {a : Addr} (told : m.Told log) (tasks : m.tasks = .finalize a :: rest) :
    ({ m with
      heap := (m.heap.takeDestructor a).2
      tasks := (m.heap.takeDestructor a).1.toList.map (fun number =>
        .callback (.destructor a number)) ++ rest } : Machine).Told
      (log ++ ((m.heap.takeDestructor a).1.toList).map (.called a)) := by
  refine told.own tasks a _ (fun _ => rfl) (told.marked.takeDestructor a) (fun b apart => ?_)
    (fun u member b apart => ?_) (fun b apart event member => ?_) fun row course stage => ?_
  · exact congrArg (Option.map Object.fate)
      ((m.heap.getElem?_update a b _).trans (if_neg (Ne.symm apart)))
  · obtain ⟨number, _, rfl⟩ := List.mem_map.mp member
    exact beq_false_of_ne (Ne.symm apart)
  · obtain ⟨number, _, rfl⟩ := List.mem_map.mp member
    exact ⟨beq_false_of_ne (Ne.symm apart), rfl⟩
  · generalize isFate : m.heap.fateAt a = fate at stage
    cases stage with
    | detached destructor =>
        obtain ⟨taken, left⟩ := taken_of_fate isFate
        rw [taken, left]
        cases destructor with
        | none => exact ⟨_, .finished [], rfl⟩
        | some number =>
            refine ⟨([.called a number], [.finished a number, .returned a]), ?_,
              by simp [destruction, follow, Event.about]⟩
            simpa [Task.concerns] using Stage.running (a := a) number

theorem Told.unloaded {a : Addr} (told : m.Told log) (tasks : m.tasks = .unload a :: rest) :
    (({ m with tasks := rest } : Machine).perform (.unload a)).Told log := by
  rw [← List.append_nil log]
  simp only [perform]
  split
  · have calm := tracing_concerns ({ m with tasks := rest } : Machine) a
    refine told.own tasks a _ (fun _ => rfl) told.marked (fun _ _ => rfl) (fun u member b apart => ?_)
      (by simp) fun row course stage => ?_
    · rcases List.mem_append.mp member with waits | last
      · exact calm u waits b
      · rw [List.mem_singleton.mp last]
        exact beq_false_of_ne (Ne.symm apart)
    · have only : (({ m with tasks := rest } : Machine).tracing a ++
          [Task.releaseChildren a]).filter (Task.concerns a) = [.releaseChildren a] := by
        rw [List.filter_append, List.filter_eq_nil_iff.mpr fun u waits => by simp [calm u waits a]]
        simp [Task.concerns]
      rw [only]
      generalize m.heap.fateAt a = fate at stage ⊢
      cases stage
      exact ⟨_, .reading _, rfl⟩
  · refine told.own tasks a [] (fun _ => rfl) told.marked (fun _ _ => rfl) (by simp)
      (by simp) fun row course stage => ?_
    generalize m.heap.fateAt a = fate at stage ⊢
    cases stage
    exact ⟨_, .unloaded _, rfl⟩

theorem Told.emptied {a : Addr} (told : m.Told log) (tasks : m.tasks = .releaseChildren a :: rest) :
    ({ m with tasks := (m.heap.children a).map Task.release ++ rest } : Machine).Told log := by
  rw [← List.append_nil log]
  have calm := release_calm (m.heap.children a)
  refine told.own tasks a _ (fun _ => rfl) told.marked (fun _ _ => rfl)
    (fun u member b _ => calm u member b) (by simp) fun row course stage => ?_
  rw [List.filter_eq_nil_iff.mpr fun u member => by simp [calm u member a]]
  generalize m.heap.fateAt a = fate at stage ⊢
  cases stage
  exact ⟨_, .unloaded _, rfl⟩

/-- A block is given back at the last stage only, so it is that of an object under destruction. -/
theorem Told.reclaiming {a : Addr} (told : m.Told log) (tasks : m.tasks = .reclaim a :: rest) :
    ∃ o, m.heap.objects[a]? = some o ∧ o.valid = true ∧ o.claimed = true := by
  obtain ⟨course, stage, _⟩ := told.stages a
  rw [agenda_cons tasks] at stage
  simp only [Task.concerns, beq_self_eq_true, if_true, List.singleton_append] at stage
  generalize isFate : m.heap.fateAt a = fate at stage
  generalize rest.filter (Task.concerns a) = row at stage
  cases stage
  obtain ⟨o, there, valid, claimed, _⟩ := (Heap.fateAt_eq_some_iff ..).mp isFate
  exact ⟨o, there, valid, claimed⟩

theorem Told.reclaimed {a : Addr} (told : m.Told log) (tasks : m.tasks = .reclaim a :: rest) :
    ({ m with heap := m.heap.reclaim a, tasks := rest } : Machine).Told (log ++ [.returned a]) := by
  obtain ⟨o, there, valid, claimed⟩ := told.reclaiming tasks
  refine told.own tasks a [] (fun _ => rfl) (told.marked.reclaim there valid claimed)
    (fun b apart => ?_) (by simp) (fun b apart => ?_) fun row course stage => ?_
  · rw [Heap.fateAt, m.heap.reclaim_others a b apart, Heap.fateAt]
  · simp [Event.about, Event.makes, Ne.symm apart]
  · have gone : (m.heap.reclaim a).fateAt a = some (false, o.claimed, o.destructor) := by
      rw [Heap.fateAt, (m.heap.reclaim_spec a o there).1]
      rfl
    rw [gone]
    generalize m.heap.fateAt a = fate at stage
    cases stage with
    | unloaded past =>
        exact ⟨_, .gone _ _ (past ++ [.returned a]), by simp [follow, Event.about]⟩

/-- Each step about an object leads from one stage of its life to the next. -/
theorem Told.step (told : m.Told log) : m.step.Told (log ++ m.tells) := by
  cases tasks : m.tasks with
  | nil =>
      simpa [step_nil tasks, tells, tasks] using told
  | cons t rest =>
      rw [step_cons tasks]
      have silent : ∀ {n : Machine}, m.tells = [] → n.Told log → n.Told (log ++ m.tells) := by
        intro n silence after
        rwa [silence, List.append_nil]
      cases t with
      | release a =>
          exact silent (by simp [tells, tasks]) ((told.popped tasks fun _ => rfl).release a)
      | answer reclaimed =>
          exact silent (by simp [tells, tasks])
            ((told.popped tasks fun _ => rfl).gentle (.refl _) fun _ => rfl)
      | expand pass a =>
          exact silent (by simp [tells, tasks])
            ((told.popped tasks fun _ => rfl).gentle (.refl _) fun b =>
              agenda_push_calm _ _ (by simp [Task.concerns]) b)
      | search pass =>
          exact silent (by simp [tells, tasks]) ((told.popped tasks fun _ => rfl).searched pass)
      | callback code =>
          cases code with
          | tracer a => exact silent (by simp [tells, tasks]) (told.popped tasks fun _ => rfl)
          | destructor a number =>
              rw [show m.tells = [.finished a number] by simp [tells, tasks]]
              exact told.returned tasks
      | detach a => exact silent (by simp [tells, tasks]) (told.detached tasks)
      | finalize a =>
          rw [show m.tells = ((m.heap.takeDestructor a).1.toList).map (.called a) by
            simp [tells, tasks, Heap.takeDestructor]]
          exact told.finalized tasks
      | unload a => exact silent (by simp [tells, tasks]) (told.unloaded tasks)
      | releaseChildren a => exact silent (by simp [tells, tasks]) (told.emptied tasks)
      | reclaim a =>
          rw [show m.tells = [.returned a] by simp [tells, tasks]]
          exact told.reclaimed tasks

theorem Told.initial (settings : Settings) (entropy : UInt64) :
    ({ heap := .initial settings entropy } : Machine).Told [] := by
  refine ⟨Heap.Marked.initial settings entropy, fun a => ⟨([], []), ?_, rfl⟩⟩
  have unmade : (Heap.initial settings entropy).fateAt a = none := by simp [Heap.fateAt, Heap.initial]
  rw [unmade]
  exact .vacant

theorem Run.told_after (run : Run m events n) (told : m.Told log) : n.Told (log ++ events) := by
  induction run with
  | start => rwa [List.append_nil]
  | operate operation _ may ih =>
      rw [← List.append_assoc]
      exact ih.operate operation may
  | step _ ih =>
      rw [← List.append_assoc]
      exact ih.step

theorem Run.told (run : Run m log n) (start : m.Told []) : n.Told log := run.told_after start

end Machine

theorem Client.Run.marked {rule : Rule} {settings : Settings} {entropy : UInt64} {c : Client}
    (run : Client.Run rule.AtRest (Client.fresh (.initial settings entropy)) c) :
    c.machine.heap.Marked := by
  obtain ⟨log, told⟩ := run.operates
  exact (told.told (Machine.Told.initial settings entropy)).marked

end CountedHeap
