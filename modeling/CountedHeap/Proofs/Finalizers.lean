import CountedHeap.Proofs.Cascade
import CountedHeap.Proofs.Handles
import CountedHeap.Proofs.LateRetain

/-!
What a destructor can rely on. It may release what the client owns, and that may destroy a great deal
before it returns; but not its own object, and nothing that the object's slots hold. For what is held
there is still owed to the slots, as long as the object was not unloaded. And a pass unloads its garbage
only when all destructors have returned, and reclaims it last.
-/

namespace CountedHeap

open Client (gain lose)
open Event (destruction recount row)
open Heap (Same)

/-! A pool keeps no block on its free lists that is in use -/

namespace Pool

variable {p : Pool} {used : Addr → Prop} {free : SizeClass → List Addr}

theorem chain_subset (blocks : List Addr) (count : Nat) (head : Option Addr)
    (threaded : p.Threaded head blocks) : p.chain count head ⊆ blocks := by
  induction blocks generalizing count head with
  | nil =>
      rw [show head = none from threaded]
      cases count <;> exact List.nil_subset _
  | cons block rest ih =>
      rw [threaded.1]
      cases count with
      | zero => exact List.nil_subset _
      | succ count => exact List.cons_subset_cons block (ih count _ threaded.2)

theorem Stocked.unused (stocked : p.Stocked used free) (c : SizeClass) (a : Addr)
    (isFree : a ∈ p.freeList c) : ¬ used a :=
  stocked.idle c a (chain_subset (free c) _ _ (stocked.threaded c) isFree)

end Pool

/-! Releases in a destructor -/

namespace Machine

variable {m : Machine} {owned : Addr → Nat} {a : Addr}

theorem Sound.release (sound : m.Sound owned) (cascade : ∀ t ∈ m.tasks, t.cascades = true)
    (owns : 0 < owned a) : (m.release a).Sound (lose owned a) :=
  (sound.handed (n := { m with tasks := .release a :: m.tasks }) cascade owns rfl rfl).step

/-- Neither the registry nor the state of the system matters to the books. -/
theorem Sound.beside (sound : m.Sound owned) (pool : Pool) (collector : Collector)
    (stocked : ∀ free, m.heap.pool.Stocked m.heap.Live free → pool.Stocked m.heap.Live free) :
    ({ m with heap := { m.heap with pool, collector } } : Machine).Sound owned := by
  have accounts := sound.accounts
  refine ⟨⟨accounts.enough, accounts.ordered, accounts.doomed, accounts.served, accounts.traced⟩, ?_,
    sound.grounded, sound.intact.settled, ?_⟩
  · rcases sound.orderly with cascade | ⟨p, roots, searching⟩
    · exact Or.inl cascade
    · exact Or.inr ⟨p, roots, searching.tasks, searching.sound⟩
  · obtain ⟨free, isStocked⟩ := sound.intact.stocked
    exact ⟨free, stocked free isStocked⟩

def finalizing (m : Machine) : Bool :=
  match m.callback? with
  | some (.destructor _ _) => true
  | _ => false

theorem finalizing_iff : m.finalizing = true ↔ ∃ a number, m.callback? = some (.destructor a number) := by
  unfold finalizing
  split
  · rename_i a number called
    exact ⟨fun _ => ⟨a, number, called⟩, fun _ => rfl⟩
  · rename_i other
    exact ⟨fun no => (by cases no), fun ⟨a, number, called⟩ => absurd called (other a number)⟩

theorem Orderly.cascade (orderly : m.Orderly) (waits : (m.idle || m.finalizing) = true) :
    ∀ t ∈ m.tasks, t.cascades = true := by
  rw [Bool.or_eq_true, finalizing_iff] at waits
  rcases waits with idle | ⟨a, number, called⟩
  · rw [Machine.idle, List.isEmpty_iff] at idle
    simp [idle]
  · obtain ⟨rest, tasks⟩ := callback_tasks called
    refine orderly.resolve_right ?_
    rintro ⟨p, roots, searching⟩
    rcases searching.tasks with other | ⟨b, _, other | other⟩ <;> simp [tasks] at other

end Machine

namespace Client

/-- A client that releases only what it owns and lets its destructors do nothing but read and release.
It does all else while no operation is under way, and copies only handles that it holds. What the
surroundings do may come at any time. -/
def Careful (c : Client) : Call → Prop
  | .memory _ | .room _ => True
  | .reorder registry => registry.Perm c.machine.heap.collector.registry
  | .load _ _ => (c.machine.idle || c.machine.finalizing) = true
  | .release a | .tryRelease a => 0 < c.owned a ∧ (c.machine.idle || c.machine.finalizing) = true
  | .cloneHandle handle => c.machine.heap.weak.held handle = true ∧ c.machine.idle = true
  | _ => c.machine.idle = true

instance (c : Client) : (call : Call) → Decidable (c.Careful call)
  | .memory _ | .room _ => inferInstanceAs (Decidable True)
  | .reorder registry =>
      inferInstanceAs (Decidable (registry.Perm c.machine.heap.collector.registry))
  | .load _ _ => inferInstanceAs (Decidable ((c.machine.idle || c.machine.finalizing) = true))
  | .release a | .tryRelease a => inferInstanceAs
      (Decidable (0 < c.owned a ∧ (c.machine.idle || c.machine.finalizing) = true))
  | .cloneHandle handle =>
      inferInstanceAs (Decidable (c.machine.heap.weak.held handle = true ∧ c.machine.idle = true))
  | .declare _ _ | .alloc _ _ _ | .retain _ | .assign _ _ _ | .take _ _ | .addCandidate _ | .downgrade _
  | .upgrade _ | .dropHandle _ | .configure _ | .collect | .trigger =>
      inferInstanceAs (Decidable (c.machine.idle = true))

variable {c d : Client}

theorem Careful.sound {call : Call} (careful : c.Careful call) (sound : c.machine.Sound c.owned) :
    (c.call call).machine.Sound (c.call call).owned := by
  -- At rest the client does what it likes, apart from releases.
  have rest : c.machine.idle = true → Rule.lax.Permits c call →
      (c.call call).machine.Sound (c.call call).owned := fun idle permitted =>
    (Run.start.call call ⟨idle, permitted⟩ : Run Rule.lax.AtRest c (c.call call)).sound sound
  cases call with
  | memory limit =>
      exact sound.beside _ c.machine.heap.collector fun free stocked =>
        stocked.transfer (fun _ => rfl) rfl (Nat.le_refl _) fun _ => id
  | room canGrow => exact sound.beside c.machine.heap.pool _ fun _ => id
  | reorder registry => exact sound.beside c.machine.heap.pool _ fun _ => id
  | load a slot => exact sound
  | release a => exact sound.release (sound.orderly.cascade careful.2) careful.1
  | tryRelease a =>
      simp only [Client.call]
      split
      · rename_i m done
        rw [← tryRelease_release _ _ _ done]
        exact sound.release (sound.orderly.cascade careful.2) careful.1
      · exact sound
  | cloneHandle handle => exact rest careful.2 trivial
  | assign a slot value => exact rest careful fun no => absurd no id
  | trigger => exact rest careful fun _ => trivial
  | _ => exact rest careful trivial

theorem Run.careful_sound (run : Run Careful c d) (sound : c.machine.Sound c.owned) :
    d.machine.Sound d.owned := by
  induction run with
  | start => exact sound
  | call call run careful ih => exact careful.sound ih
  | step run ih => exact ih.step

theorem Run.careful_operates (run : Run Careful c d) :
    ∃ log, Machine.RunUnder Machine.Copies c.machine log d.machine := by
  induction run with
  | start => exact ⟨[], .start⟩
  | call call run careful ih =>
      rename_i e
      obtain ⟨log, before⟩ := ih
      rw [call_operates]
      have listens : (e.machine.idle || e.machine.finalizing) = true → e.machine.listens = true := by
        intro waits
        rw [Bool.or_eq_true, Machine.finalizing_iff] at waits
        rcases waits with idle | ⟨a, number, called⟩
        · rw [Machine.listens, idle, Bool.true_or]
        · rw [Machine.listens, called, Option.isSome_some, Bool.or_true]
      have rest : e.machine.idle = true → e.machine.listens = true := fun idle =>
        listens (by rw [idle, Bool.true_or])
      refine ⟨_, before.operate _ ?_ ?_⟩
      · cases call with
        | memory limit | room canGrow => trivial
        | reorder registry => exact careful
        | load a slot => exact listens careful
        | release a | tryRelease a => exact listens careful.2
        | cloneHandle handle => exact rest careful.2
        | _ => exact rest careful
      · cases call with
        | cloneHandle handle => exact careful.1
        | _ => rfl
  | step run ih =>
      obtain ⟨log, before⟩ := ih
      exact ⟨_, before.step⟩

end Client

/-! The end of a pass -/

namespace Machine

variable {m n : Machine} {h : Heap} {p : Pass} {rest : List Task} {garbage : List Addr}
  {log log' events : List Event} {a b : Addr}

def AllFinished (h : Heap) (garbage : List Addr) (log : List Event) : Prop :=
  ∀ b ∈ garbage, ∀ number, h.destructorAt b = some number → .finished b number ∈ log

def Patient (h : Heap) (garbage : List Addr) (log : List Event) : Prop :=
  ∀ before a after, log = before ++ .returned a :: after → a ∈ garbage → AllFinished h garbage before

theorem AllFinished.append (finished : AllFinished h garbage log) (events : List Event) :
    AllFinished h garbage (log ++ events) := fun b member number has =>
  List.mem_append_left events (finished b member number has)

theorem Patient.append (patient : Patient h garbage log)
    (ready : AllFinished h garbage log ∨ ∀ a ∈ garbage, .returned a ∉ events) :
    Patient h garbage (log ++ events) := by
  intro before a after whole member
  rcases List.append_eq_append_iff.mp whole with ⟨mid, rfl, later⟩ | ⟨mid, rfl, later⟩
  · rcases ready with finished | silent
    · exact finished.append mid
    · exact absurd (by simp [later]) (silent a member)
  · cases mid with
    | nil =>
        rw [List.append_nil] at ready
        rcases ready with finished | silent
        · exact finished
        · rw [List.nil_append] at later
          exact absurd (later ▸ List.mem_cons_self) (silent a member)
    | cons event mid =>
        rw [List.cons_append, List.cons.injEq] at later
        exact patient before a mid (by rw [later.1]) member

theorem Told.chosen (told : m.Told log) (pass : Pass) (member : b ∈ (m.heap.finishPass pass).1) :
    recount b log = some ([], destruction b (m.heap.destructorAt b)) := by
  have finished := told.marked.finishPass pass
  obtain ⟨o, there, unclaimed⟩ := finished.fresh b member
  have live := told.marked.live_of_fresh b ⟨o, there, unclaimed⟩
  have valid : o.valid = true := by simpa [Heap.Live, there] using live
  have fate : m.heap.fateAt b = some (true, false, o.destructor) :=
    (Heap.fateAt_eq_some_iff ..).mpr ⟨o, there, valid, unclaimed, rfl⟩
  obtain ⟨course, stage, counted⟩ := told.stages b
  rw [fate] at stage
  have destructor : m.heap.destructorAt b = o.destructor := by simp [Heap.destructorAt, there]
  rw [counted, destructor]
  generalize m.agenda b = agenda at stage
  cases stage
  rfl

theorem Told.last_task (told : m.Told log) {row : List Task} (agenda : m.agenda b = .reclaim b :: row) :
    row = [] ∧ ∃ past, recount b log = some (past, [.returned b]) := by
  obtain ⟨course, stage, counted⟩ := told.stages b
  rw [agenda] at stage
  generalize m.heap.fateAt b = fate at stage
  cases stage
  exact ⟨rfl, _, counted⟩

/-- How far the end of a pass has come: all destructors are back, or the reclaiming has not begun. -/
structure Parting (h : Heap) (garbage : List Addr) (rest : List Task) (log : List Event) (n : Machine) :
    Prop where
  patient : Patient h garbage log
  phase : AllFinished h garbage log ∨
    (∃ front, n.tasks = front ++ (garbage.map .reclaim ++ rest)) ∧ ∀ a ∈ garbage, .returned a ∉ log

theorem agenda_reclaiming (front : List Task) (member : b ∈ garbage)
    (tasks : n.tasks = front ++ (garbage.map .reclaim ++ rest)) :
    ∃ row, n.agenda b = front.filter (Task.concerns b) ++ .reclaim b :: row := by
  obtain ⟨k, count⟩ := Nat.exists_eq_succ_of_ne_zero (List.count_pos_iff.mpr member).ne'
  have same : Task.concerns b ∘ Task.reclaim = (· == b) := rfl
  refine ⟨(List.replicate k b).map .reclaim ++ rest.filter (Task.concerns b), ?_⟩
  rw [agenda, tasks, List.filter_append, List.filter_append, List.filter_map, same, List.filter_beq, count,
    List.replicate_succ, List.map_cons, List.cons_append]

theorem AllFinished.of_tasks
    (start : ∀ b ∈ garbage, recount b log = some ([], destruction b (h.destructorAt b)))
    (told : n.Told (log ++ log')) (tasks : n.tasks = garbage.map .reclaim ++ rest) :
    AllFinished h garbage log' := by
  intro b member number has
  obtain ⟨tail, agenda⟩ := agenda_reclaiming [] member tasks
  obtain ⟨_, past, counted⟩ := told.last_task agenda
  have due : .finished b number ∈ destruction b (h.destructorAt b) := by simp [destruction, has]
  have among : row b log' ⊆ log' := fun event isThere =>
    (List.takeWhile_sublist _).subset (List.mem_filter.mp isThere).1
  rcases Event.recount_append b log log' _ _ _ (start b member) counted with ⟨_, whole⟩ | ⟨_, _, whole⟩
  · exact among (whole ▸ due)
  · rw [whole, List.mem_append] at due
    rcases due with isThere | last
    · exact among isThere
    · cases List.mem_singleton.mp last

theorem reclaims_of_tells (member : .returned a ∈ n.tells) : ∃ rest, n.tasks = .reclaim a :: rest := by
  unfold tells at member
  split at member
  · obtain ⟨number, _, same⟩ := List.mem_map.mp member
    cases same
  · cases List.mem_singleton.mp member
  · rename_i b rest tasks
    cases List.mem_singleton.mp member
    exact ⟨rest, tasks⟩
  · cases member

theorem Parting.finished (parting : Parting h garbage rest log' n) (finished : AllFinished h garbage log')
    (events : List Event) (k : Machine) : Parting h garbage rest (log' ++ events) k :=
  ⟨parting.patient.append (Or.inl finished), Or.inl (finished.append events)⟩

theorem Parting.waits (parting : Parting h garbage rest log' n) (silent : ∀ a ∈ garbage, .returned a ∉ log')
    (quiet : ∀ a ∈ garbage, .returned a ∉ events) {k : Machine} {front : List Task}
    (tasks : k.tasks = front ++ (garbage.map .reclaim ++ rest)) :
    Parting h garbage rest (log' ++ events) k := by
  refine ⟨parting.patient.append (Or.inr quiet), Or.inr ⟨⟨front, tasks⟩, fun a member told => ?_⟩⟩
  exact (List.mem_append.mp told).elim (silent a member) (quiet a member)

theorem Parting.step
    (start : ∀ b ∈ garbage, recount b log = some ([], destruction b (h.destructorAt b)))
    (told : n.Told (log ++ log')) (parting : Parting h garbage rest log' n) :
    Parting h garbage rest (log' ++ n.tells) n.step := by
  rcases parting.phase with finished | ⟨⟨front, tasks⟩, silent⟩
  · exact parting.finished finished _ _
  · cases front with
    | nil => exact parting.finished (.of_tasks start told tasks) _ _
    | cons t front =>
        rw [List.cons_append] at tasks
        obtain ⟨news, left⟩ := step_tasks tasks
        rw [← List.append_assoc] at left
        refine parting.waits silent (fun a member tells => ?_) left
        -- An object of the garbage is not reclaimed twice.
        obtain ⟨_, first⟩ := reclaims_of_tells tells
        rw [tasks, List.cons.injEq] at first
        obtain ⟨tail, agenda⟩ := agenda_reclaiming (t :: front) member tasks
        rw [first.1, List.filter_cons_of_pos (by simp [Task.concerns]), List.cons_append] at agenda
        have alone := (told.last_task agenda).1
        simp at alone

theorem Parting.operate (parting : Parting h garbage rest log' n) (operation : Operation) :
    Parting h garbage rest (log' ++ n.told operation) (n.operate operation) := by
  rcases parting.phase with finished | ⟨⟨front, tasks⟩, silent⟩
  · exact parting.finished finished _ _
  · obtain ⟨news, left⟩ := operate_tasks n operation
    rw [tasks, ← List.append_assoc] at left
    refine parting.waits silent (fun a member told => ?_) left
    unfold Machine.told at told
    split at told
    · split at told
      · cases List.mem_singleton.mp told
      · cases told
    · cases told

theorem ended_tasks (tasks : m.tasks = .search p :: rest) (done : p.walk.finished = true) :
    m.step.tasks = Task.disposal (m.heap.finishPass p).1 ++
      (.answer (m.heap.finishPass p).1.length :: rest) := by
  rw [step_cons tasks]
  simp only [perform, advance, asks_of_finished _ done, done, if_true, push, List.append_assoc,
    List.singleton_append]

/-- From the end of a search on its garbage is reclaimed after all of its destructors, whatever comes in
between. -/
theorem Run.parting (told : m.Told log) (tasks : m.tasks = .search p :: rest)
    (done : p.walk.finished = true) (run : Run m.step log' n) :
    Patient m.heap (m.heap.finishPass p).1 log' := by
  have start := fun b (member : b ∈ (m.heap.finishPass p).1) => told.chosen p member
  have after := told.step
  rw [show m.tells = [] by simp [tells, tasks], List.append_nil] at after
  suffices parting : Parting m.heap (m.heap.finishPass p).1
      (.answer (m.heap.finishPass p).1.length :: rest) log' n from parting.patient
  induction run with
  | start =>
      refine ⟨fun before a after whole => by simp at whole, Or.inr ⟨?_, by simp⟩⟩
      exact ⟨_, (ended_tasks tasks done).trans (List.append_assoc _ _ _)⟩
  | operate operation run _ ih => exact ih.operate operation
  | step run ih => exact ih.step start (run.told_after after)

/-- The stage of an object whose destructor is running: it is claimed, and yet to be unloaded. -/
theorem Told.running_stage {number : Nat} (told : n.Told log)
    (called : n.callback? = some (.destructor a number)) :
    n.heap.Live a ∧ n.heap.claimedAt a = true ∧ n.Unloading a := by
  obtain ⟨course, stage, _⟩ := told.stages a
  obtain ⟨rest, tasks⟩ := callback_tasks called
  have head : .callback (.destructor a number) ∈ n.agenda a := by
    simp [agenda, tasks, Task.concerns]
  have among : n.agenda a ⊆ n.tasks := List.filter_subset_self _
  rw [Heap.live_iff_fate, Heap.claimedAt_eq_fate]
  generalize n.heap.fateAt a = fate at stage
  generalize n.agenda a = agenda at stage head among
  cases stage with
  | running =>
      refine ⟨rfl, rfl, List.any_eq_true.mpr ⟨.unload a, among (by simp), ?_⟩⟩
      simp [Task.unloads]
  | _ => simp at head

/-- What a destructor can rely on, in every run of a client that releases only what it owns and whose
destructors do nothing but read and release. Its object is valid and claimed and no weak handle names it;
everything that the object's slots hold, and so all that its tracer reports, is valid, with its block
still in use. And whatever happens, misuse included: of the garbage of a pass nothing is reclaimed before
the destructors of all of it have returned. -/
theorem destructor_reliance (settings : Settings) (entropy : UInt64) (heap : Heap)
    (made : Heap.create settings entropy = .ok heap) :
    (∀ c, Client.Run Client.Careful (Client.fresh heap) c →
      ∀ a number, c.machine.callback? = some (.destructor a number) →
        c.machine.heap.Live a ∧ c.machine.heap.claimedAt a = true ∧
        (∀ s, c.machine.heap.weak.held s = true → c.machine.heap.weak.target? s ≠ some a) ∧
        ∀ b, b ∈ c.machine.heap.children a ∨ 0 < c.machine.heap.edges a b →
          c.machine.heap.Live b ∧ ∀ k, b ∉ c.machine.heap.pool.freeList k) ∧
    ∀ log m, Run { heap } log m → ∀ p rest, m.tasks = .search p :: rest → p.walk.finished = true →
      ∀ log' n, Run m.step log' n → ∀ before a after, log' = before ++ .returned a :: after →
        a ∈ (m.heap.finishPass p).1 → ∀ b ∈ (m.heap.finishPass p).1, ∀ number,
          m.heap.destructorAt b = some number → .finished b number ∈ before := by
  obtain rfl := Heap.create_initial made
  have start := Told.initial settings entropy
  refine ⟨fun c run a number called => ?_, fun log m run p rest tasks done log' n later => ?_⟩
  · obtain ⟨log, operates⟩ := run.careful_operates
    have sound := run.careful_sound (Client.fresh_sound settings entropy)
    have told := operates.run.told start
    have named := operates.named start ⟨WeakTable.orderly_empty, fun a s listed => by cases listed⟩
    obtain ⟨due, counted⟩ := told.running called
    obtain ⟨live, claimed, unloading⟩ := told.running_stage called
    obtain ⟨free, stocked⟩ := sound.intact.stocked
    rw [← List.append_nil log] at told
    have nameless := (told.nameless named counted (by simp) (by simp)).1
    refine ⟨live, claimed, nameless, fun b holds => ?_⟩
    have edge : 0 < c.machine.heap.edges a b := by
      rcases holds with reported | held
      · exact (List.count_pos_iff.mpr reported).trans_le (c.machine.heap.children_le_edges a b)
      · exact held
    have loaded := (c.machine.mem_loaded a).mpr ⟨live, fun _ => unloading⟩
    have stays := sound.held_live a loaded b edge
    exact ⟨stays, fun k isFree => stocked.unused k b isFree stays⟩
  · exact later.parting (run.told start) tasks done

/-- Two objects with destructors hold each other and are dropped; the first has a weak handle. The client
keeps a third one, which has a destructor too. -/
def bereavedScript : List (Call × Nat) :=
  [(.declare 1 (.leading 2), 0), (.alloc 16 1 (some 7), 0), (.alloc 16 1 (some 8), 0),
    (.alloc 16 1 (some 9), 0), (.assign 0x6b7000000000 0 (some 0x6b7000000060), 0),
    (.assign 0x6b7000000060 0 (some 0x6b7000000000), 0), (.downgrade 0x6b7000000000, 0),
    (.release 0x6b7000000000, 0), (.release 0x6b7000000060, 0), (.collect, 9)]

-- The destructor of the second object releases the third one, which is gone when the first one's runs.
theorem destructor_reliance_ring :
    let start := Client.fresh (.initial { collector := { minimum := 1 } } 0)
    let c := start.session bereavedScript
    let d := (c.steps 4).session [(.release 0x6b70000000c0, 9)]
    let m := c.machine
    let tale := m.step.story 3 ++ ((m.step.steps 3).play [(.call (.release 0x6b70000000c0), 30)]).1
    start.Follows Client.Careful bereavedScript ∧
      (c.steps 4).Follows Client.Careful [(.release 0x6b70000000c0, 9)] ∧
      d.machine.callback? = some (.destructor 0x6b7000000000 7) ∧
      ¬ d.machine.heap.Live 0x6b70000000c0 ∧
      0x6b7000000060 ∈ d.machine.heap.children 0x6b7000000000 ∧
      d.machine.heap.Live 0x6b7000000000 ∧ d.machine.heap.claimedAt 0x6b7000000000 = true ∧
      d.machine.heap.weak.held 0 = true ∧ d.machine.heap.weak.target? 0 ≠ some 0x6b7000000000 ∧
      d.machine.heap.Live 0x6b7000000060 ∧
      (∃ p, m.tasks = [.search p] ∧ p.walk.finished = true ∧
        0x6b7000000000 ∈ (m.heap.finishPass p).1 ∧ 0x6b7000000060 ∈ (m.heap.finishPass p).1) ∧
      ∃ before after, tale = before ++ .returned 0x6b7000000060 :: after ∧
        .finished 0x6b7000000000 7 ∈ before := by
  intro start c d m tale
  have made : Heap.create { collector := { minimum := 1 } } 0 = .ok start.machine.heap :=
    Heap.create_valid _ 0 (by decide +kernel)
  have follows : start.Follows Client.Careful bereavedScript := by decide +kernel
  have goesOn : (c.steps 4).Follows Client.Careful [(.release 0x6b70000000c0, 9)] := by decide +kernel
  have run : Client.Run Client.Careful start c := Client.Run.session .start _ follows
  have called : d.machine.callback? = some (.destructor 0x6b7000000000 7) := by decide +kernel
  have child : 0x6b7000000060 ∈ d.machine.heap.children 0x6b7000000000 := by decide +kernel
  have held : d.machine.heap.weak.held 0 = true := by decide +kernel
  obtain ⟨reliance, order⟩ := destructor_reliance _ 0 _ made
  obtain ⟨live, claimed, nameless, kept⟩ := reliance d ((run.steps 4).session _ goesOn) _ 7 called
  have outcome : m.found?.any (fun p => decide (0x6b7000000000 ∈ (m.heap.finishPass p).1 ∧
      0x6b7000000060 ∈ (m.heap.finishPass p).1)) = true := by
    decide +kernel
  obtain ⟨p, same, isGarbage⟩ := (Option.any_eq_true _ _).mp outcome
  have found := found_of_found? same
  obtain ⟨first, second⟩ := of_decide_eq_true isGarbage
  obtain ⟨log, operates⟩ := run.careful_operates
  have plays : (m.step.steps 3).Plays [(.call (.release 0x6b70000000c0), 30)] := by decide +kernel
  have later := ((Run.start (m := m.step)).steps 3).play _ plays
  rw [List.nil_append] at later
  have whole : tale = tale.take 7 ++ .returned 0x6b7000000060 :: tale.drop 8 := by decide +kernel
  exact ⟨follows, goesOn, called, by decide +kernel, child, live, claimed, held, nameless 0 held,
    (kept _ (Or.inl child)).1, ⟨p, found.1, found.2, first, second⟩, _, _, whole,
    order log m operates.run p [] found.1 found.2 tale _ later _ _ _ whole second _ first 7
      (by decide +kernel)⟩

end Machine

end CountedHeap
