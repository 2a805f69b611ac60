import CountedHeap.Proofs.Ending
import CountedHeap.Proofs.NoDangling
import CountedHeap.Proofs.Watching

/-!
A pass with room for everything leaves no garbage. Between passes nothing live is out of sight of the
ledger and the registry; a pass claims what is out of sight of the ledger, and the cascade that
follows leaves what the ledger reaches.
-/

namespace CountedHeap

open Client (gain lose lose_of_ne)
open Heap (Same)

namespace Machine

variable {m n : Machine} {owned : Addr → Nat}

/-- What is to be destroyed is destroyed before the machine comes to rest; of the traced objects that
are not, all are reached from the ledger. -/
def Settled (m : Machine) (owned : Addr → Nat) : Prop :=
  ∀ a, m.heap.Live a → m.heap.tracedAt a = true → m.Doomed a ∨ m.heap.Reachable owned a

theorem Settled.step (settled : m.Settled owned) (accounts : m.Accounts owned)
    (orderly : m.Orderly) : m.step.Settled owned := by
  obtain ⟨body, alive⟩ := accounts.step_live orderly
  intro a live traced
  obtain ⟨wasLive, stays⟩ := (alive a).mp live
  rw [body.tracedAt] at traced
  rcases settled a wasLive traced with doomed | reachable
  · cases tasks : m.tasks with
    | nil => simp [Doomed, tasks] at doomed
    | cons t rest =>
        obtain ⟨news, after⟩ := step_tasks tasks
        rcases any_stays tasks after (·.reclaims a) doomed with first | later
        · cases t <;> simp only [Task.reclaims, beq_iff_eq, Bool.false_eq_true] at first
          exact absurd (first ▸ tasks) (stays rest)
        · exact Or.inl later
  · exact Or.inr ((accounts.reachable_step orderly a).1.mpr reachable)

theorem Settled.reachable (settled : m.Settled owned) (calm : m.Calm) (accurate : m.Exact owned)
    (tidy : m.Tidy) (a : Addr) (live : m.heap.Live a) : m.heap.Reachable owned a := by
  have heap := accurate.heap calm
  have traced : ∀ b, m.heap.Live b → m.heap.tracedAt b = true → m.heap.Reachable owned b :=
    fun b isLive isTraced => (settled b isLive isTraced).resolve_left (calm.parts b).2.2
  have positive := tidy.vital a live (tidy.unclaimed calm a live)
  rw [heap.balanced a live] at positive
  by_cases owns : 0 < owned a
  · exact .root owns
  · have held : 0 < m.heap.held a := by omega
    obtain ⟨b, edge⟩ := (m.heap.held_pos_iff a).mp held
    exact (traced b edge.1 (heap.reported.traced edge)).edge edge

/-- A machine whose client and surroundings keep to the thorough rule. Whatever it is at, it loses
nothing from sight. -/
structure Complete (m : Machine) (owned : Addr → Nat) : Prop where
  sound : m.Sound owned
  accurate : m.Exact owned
  tidy : m.Tidy
  eager : m.heap.Eager
  seen : (∀ t ∈ m.tasks, t.cascades = true) ∧ m.Covered owned ∨
    ∃ p before was, m.Watching p before was

theorem Watching.busy {p : Pass} {before : Heap} {was : Addr → Nat}
    (watching : m.Watching p before was) : m.idle = false := by
  rcases watching.searching.tasks with tasks | ⟨a, _, tasks | tasks⟩ <;> simp [Machine.idle, tasks]

theorem Complete.covered (complete : m.Complete owned) (idle : m.idle = true) :
    m.heap.Covered owned := by
  rcases complete.seen with ⟨_, covered⟩ | ⟨p, before, was, watching⟩
  · exact (calm_of_idle idle).covered_iff.mp covered
  · rw [watching.busy] at idle
    cases idle

theorem Complete.of_heap (idle : m.idle = true) (sound : m.heap.Sound owned)
    (accurate : m.heap.Exact owned) (tidy : m.heap.Tidy) (recorded : m.heap.Recorded)
    (eager : m.heap.Eager) (covered : m.heap.Covered owned) : m.Complete owned := by
  have calm := calm_of_idle idle
  refine ⟨Sound.of_calm calm (orderly_of_idle idle) sound, Exact.of_calm calm accurate,
    Tidy.of_heap tidy recorded, eager, Or.inl ⟨?_, calm.covered_iff.mpr covered⟩⟩
  rw [Machine.idle, List.isEmpty_iff] at idle
  simp [idle]

theorem Complete.step (complete : m.Complete owned) : m.step.Complete owned := by
  have accounts := complete.sound.accounts
  have orderly := complete.sound.orderly
  refine ⟨complete.sound.step, complete.accurate.step accounts orderly,
    complete.tidy.step accounts orderly, eager_step accounts orderly complete.eager, ?_⟩
  rcases complete.seen with ⟨cascade, covered⟩ | ⟨p, before, was, watching⟩
  · exact Or.inl ⟨cascades_step cascade,
      covered.step complete.sound complete.accurate complete.tidy complete.eager cascade⟩
  · rcases watching.step with found | ⟨q, _, goesOn⟩
    · exact Or.inl ⟨found.cascades,
        watching.covers found accounts complete.accurate complete.tidy orderly⟩
    · exact Or.inr ⟨q, before, was, goesOn⟩

theorem Complete.of_pass (idle : m.idle = true) (sound : m.heap.Sound owned)
    (accurate : m.heap.Exact owned) (tidy : m.heap.Tidy) (eager : m.heap.Eager)
    (covered : m.heap.Covered owned) (may : Rule.thorough.passes m.heap) :
    m.collect.Watching m.heap.startPass.1 m.collect.heap owned ∧ m.collect.Complete owned := by
  have watching := watching_collect idle accurate tidy covered may.1 may.2
  have calm := calm_of_idle idle
  refine ⟨watching, (Sound.of_calm calm (orderly_of_idle idle) sound).collect idle, ?_,
    Tidy.collect tidy, eager, Or.inr ⟨_, _, _, watching⟩⟩
  exact Exact.of_calm watching.searching.calm ⟨accurate.reported, accurate.balanced⟩

theorem Complete.collect (complete : m.Complete owned) (idle : m.idle = true)
    (may : Rule.thorough.passes m.heap) :
    m.collect.Watching m.heap.startPass.1 m.collect.heap owned ∧ m.collect.Complete owned := by
  have calm := calm_of_idle idle
  exact Complete.of_pass idle (complete.sound.heap calm) (complete.accurate.heap calm)
    (complete.tidy.heap calm) complete.eager (complete.covered idle) may

theorem Complete.steps (complete : m.Complete owned) (k : Nat) : (m.steps k).Complete owned := by
  induction k generalizing m with
  | zero => exact complete
  | succ k ih => exact ih complete.step

/-- Once a pass has started it is watched until it claims its garbage, and then all is settled. -/
theorem Complete.settles {p : Pass} {before : Heap} (complete : m.Complete owned)
    (seen : m.heap = before ∧ m.Watching p before owned ∨ m.Settled owned) (k : Nat) :
    (∃ q, (m.steps k).heap = before ∧ (m.steps k).Watching q before owned) ∨
      (m.steps k).Settled owned := by
  induction k generalizing m p with
  | zero => exact seen.imp (fun watching => ⟨p, watching⟩) id
  | succ k ih =>
      have accounts := complete.sound.accounts
      have orderly := complete.sound.orderly
      rcases seen with ⟨same, watching⟩ | settled
      · rcases watching.step with found | ⟨q, heap, goesOn⟩
        · refine ih (p := p) complete.step (Or.inr fun a live traced => ?_)
          obtain ⟨calm, tasks, ended, _⟩ := accounts.ended orderly found
          rw [ended.body.tracedAt] at traced
          have wasLive := (ended.live a).mp live
          refine (watching.exhaustive found (complete.accurate.heap calm) complete.tidy same a wasLive
            traced).imp (doomed_ended tasks a).mpr ?_
          exact (accounts.reachable_step orderly a).1.mpr
        · exact ih complete.step (Or.inl ⟨heap.trans same, goesOn⟩)
      · exact ih (p := p) complete.step (Or.inr (settled.step accounts orderly))

theorem unreachable_of_unowned (h : Heap) (nothing : ∀ a, owned a = 0) (a : Addr) :
    ¬ h.Reachable owned a := by
  intro reached
  induction reached with
  | root owns =>
      rw [nothing] at owns
      exact Nat.lt_irrefl 0 owns
  | edge before edge ih => exact ih

theorem Complete.collected (complete : m.Complete owned) (idle : m.idle = true)
    (may : Rule.thorough.passes m.heap) :
    (∃ k, (m.collect.steps k).idle = true) ∧
      ∀ k, (m.collect.steps k).idle = true → ∀ a,
        ((m.collect.steps k).heap.Live a ↔ m.heap.Reachable owned a) ∧
        ((m.collect.steps k).heap.Live a ↔ (m.collect.steps k).heap.Reachable owned a) := by
  obtain ⟨watching, started⟩ := complete.collect idle may
  refine ⟨started.sound.accounts.ends started.sound.orderly, fun k rests a => ?_⟩
  have calm := calm_of_idle rests
  have ended := started.steps k
  have settled : (m.collect.steps k).Settled owned := by
    rcases started.settles (Or.inl ⟨rfl, watching⟩) k with ⟨q, _, busy⟩ | settled
    · rw [busy.busy] at rests
      cases rests
    · exact settled
  have same : (m.collect.steps k).heap.Reachable owned a ↔ m.heap.Reachable owned a :=
    ((started.sound.accounts.steps started.sound.orderly k).2.2 a).1
  have exactly : (m.collect.steps k).heap.Live a ↔ (m.collect.steps k).heap.Reachable owned a :=
    ⟨settled.reachable calm ended.accurate ended.tidy a, ended.sound.reachable_live a⟩
  exact ⟨exactly.trans same, exactly⟩

end Machine

namespace Client

variable {c d : Client}

theorem hand_covered {m : Machine} {owned : Addr → Nat} (idle : m.idle = true)
    (covered : m.Covered owned) (a : Addr) :
    ({ m with tasks := [.release a] } : Machine).Covered (lose owned a) := by
  have undoomed : ∀ b, ¬ ({ m with tasks := [.release a] } : Machine).Doomed b := by
    intro b
    simp [Machine.Doomed, Task.reclaims]
  have calm := Machine.calm_of_idle idle
  intro b live _
  refine (covered b live (calm.parts b).2.2).mono (fun x y edge => ?_) fun x source => ?_
  · rw [Machine.Points, Machine.loaded_of_none undoomed]
    rw [Machine.Points, calm.loaded] at edge
    exact edge
  · by_cases here : x = a
    · subst here
      exact Or.inr (Or.inr (Or.inl (by simp [Machine.pending, Task.releases])))
    · rcases source with owns | listed | waits | waits
      · exact Or.inl (by rw [lose_of_ne owned here]; exact owns)
      · exact Or.inr (Or.inl listed)
      · rw [(calm.parts x).1] at waits
        cases waits
      · exact absurd waits (calm.parts x).2.1

theorem Small.complete (small : Small Rule.thorough c d) (complete : c.machine.Complete c.owned) :
    d.machine.Complete d.owned := by
  have sound := small.sound complete.sound
  have accurate := small.accurate trivial complete.sound complete.accurate
  have tidy := small.tidy complete.sound complete.tidy
  have eager := small.eager trivial complete.sound complete.eager
  cases small with
  | act idle act =>
      have calm := Machine.calm_of_idle idle
      have covered := act.covered (complete.sound.heap calm) (complete.covered idle)
      exact Machine.Complete.of_heap idle (sound.heap (Machine.calm_of_idle idle))
        (accurate.heap (Machine.calm_of_idle idle)) (tidy.heap (Machine.calm_of_idle idle))
        tidy.recorded eager covered
  | hand a idle owns =>
      have covered := (Machine.calm_of_idle idle).covered_iff.mpr (complete.covered idle)
      refine ⟨sound, accurate, tidy, eager, Or.inl ⟨?_, hand_covered idle covered a⟩⟩
      simp [Task.cascades]
  | collect idle may => exact (complete.collect idle may).2
  | step => exact complete.step

theorem fresh_complete (settings : Settings) (entropy : UInt64)
    (auto : settings.autoRegister = true) :
    (fresh (.initial settings entropy)).machine.Complete (fun _ => 0) := by
  have calm : (fresh (.initial settings entropy)).machine.Calm := Machine.calm_of_idle rfl
  have tidy := fresh_tidy settings entropy
  refine Machine.Complete.of_heap rfl ((fresh_sound settings entropy).heap calm)
    ((fresh_exact settings entropy).heap calm) (tidy.heap calm) tidy.recorded ⟨auto, rfl⟩ ?_
  exact fun a live => absurd live (Heap.initial_dead a)

theorem Run.complete (run : Run Rule.thorough.AtRest c d) (start : c.machine.Complete c.owned) :
    d.machine.Complete d.owned :=
  run.preserves (fun _ _ => Small.complete) start

def Starts (c : Client) : Call → Prop
  | .collect => True
  | .trigger => c.machine.heap.collector.noteAllocation.1 = true
  | _ => False

-- A trigger that is due counts the allocation first, which moves no reference.
theorem Starts.collects {request : Call} (starts : c.Starts request)
    (permitted : Rule.thorough.AtRest c request) (complete : c.machine.Complete c.owned) :
    ∃ m : Machine, (c.call request).machine = m.collect ∧ m.Complete c.owned ∧ m.idle = true ∧
      Rule.thorough.passes m.heap ∧
      ∀ a, m.heap.Reachable c.owned a ↔ c.machine.heap.Reachable c.owned a := by
  obtain ⟨idle, may⟩ := permitted
  cases request with
  | collect => exact ⟨c.machine, rfl, complete, idle, may, fun _ => Iff.rfl⟩
  | trigger =>
      have due : c.machine.heap.collector.noteAllocation.1 = true := starts
      have noted := (noted_small idle).complete complete
      refine ⟨_, ?_, noted, idle, may due, fun _ => Iff.rfl⟩
      simp only [call, Machine.trigger, due, if_true]
      rfl
  | _ => cases starts

/-- Completeness of collection. The client stores references only where they are reported, the
registry finds room for every candidate, and each pass has room for everything that is live. Then
between operations every live object is reached from the ledger or from a candidate; and after each
pass, in whatever order it took the candidates, the live objects are those that the ledger reaches. -/
theorem collect_complete (settings : Settings) (entropy : UInt64) (heap : Heap)
    (made : Heap.create settings entropy = .ok heap) (auto : settings.autoRegister = true) (c : Client)
    (run : Run Rule.thorough.AtRest (fresh heap) c) :
    (c.machine.idle = true → c.machine.heap.Covered c.owned) ∧
    ∀ request, Rule.thorough.AtRest c request → c.Starts request →
      (∃ n, ((c.call request).machine.steps n).idle = true) ∧
      ∀ n, ((c.call request).machine.steps n).idle = true →
        let after := ((c.call request).machine.steps n).heap
        (∀ a, after.Live a ↔ after.Reachable c.owned a) ∧
        (∀ a, after.Live a ↔ c.machine.heap.Reachable c.owned a) ∧
        ((∀ a, c.owned a = 0) → after.books.objects = 0) := by
  obtain rfl := Heap.create_initial made
  have complete := run.complete (fresh_complete settings entropy auto)
  refine ⟨complete.covered, fun request permitted starts => ?_⟩
  obtain ⟨m, same, ready, idle, may, reachable⟩ := starts.collects permitted complete
  rw [same]
  obtain ⟨ends, exactly⟩ := ready.collected idle may
  refine ⟨ends, fun n rests => ⟨fun a => (exactly n rests a).2, fun a => ?_, fun nothing => ?_⟩⟩
  · exact ((exactly n rests a).1).trans (reachable a)
  · have empty : (m.collect.steps n).heap.live = ∅ := by
      apply Finset.eq_empty_of_forall_notMem
      intro a member
      rw [Heap.mem_live, (exactly n rests a).1] at member
      exact Machine.unreachable_of_unowned m.heap nothing a member
    have later := ((run.call request permitted).steps n).booked
      (fresh_sound settings entropy) (fresh_booked settings entropy)
    rw [(machine_steps (c.call request) n).1, same] at later
    rw [later.objects, empty, Finset.card_empty]

theorem collect_complete_cycle :
    let heap := Heap.initial { collector := { minimum := 1 } } 0
    let c := (fresh heap).session cycleScript.dropLast
    let after := ((c.call .collect).machine.steps 40).heap
    c.machine.heap.Live 0x6b7000000060 ∧ ¬ c.machine.heap.Reachable c.owned 0x6b7000000060 ∧
      c.machine.heap.Reachable c.owned 0x6b70000000c0 ∧ after.Live 0x6b70000000c0 := by
  intro heap c after
  have made : Heap.create { collector := { minimum := 1 } } 0 = .ok heap :=
    Heap.create_valid _ 0 (by decide +kernel)
  have run : Run Rule.thorough.AtRest (fresh heap) c :=
    Run.session .start cycleScript.dropLast (by decide +kernel)
  have permitted : Rule.thorough.AtRest c .collect := by decide +kernel
  have rests : ((c.call .collect).machine.steps 40).idle = true := by decide +kernel
  have complete := collect_complete _ 0 heap made rfl c run
  have exactly := ((complete.2 .collect permitted trivial).2 40 rests).2.1
  have owns : c.machine.heap.Reachable c.owned 0x6b70000000c0 := .root (by decide +kernel)
  have dead : ¬ after.Live 0x6b7000000060 := by decide +kernel
  exact ⟨by decide +kernel, mt (exactly _).mpr dead, owns, (exactly _).mpr owns⟩

end Client

end CountedHeap
