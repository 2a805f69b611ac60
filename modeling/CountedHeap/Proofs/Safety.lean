import CountedHeap.Proofs.Ledger

/-!
No reference dangles, in any state that calls lead to. In the middle of an operation this is said
of the objects that have not been unloaded; between operations those are all live objects.
-/

namespace CountedHeap

open Client (gain lose)
open Heap (Same Changed)

namespace Machine

variable {m : Machine} {owned : Addr → Nat}

structure Sound (m : Machine) (owned : Addr → Nat) : Prop where
  accounts : m.Accounts owned
  orderly : m.Orderly
  grounded : ∀ a, 0 < m.owed owned a → m.heap.Live a
  intact : m.heap.Intact

theorem Sound.heap (sound : m.Sound owned) (calm : m.Calm) : m.heap.Sound owned := by
  refine ⟨calm.accounts_iff.mp sound.accounts, fun a owes => ?_, sound.intact⟩
  rw [← calm.owed] at owes
  exact sound.grounded a owes

theorem Sound.of_calm (calm : m.Calm) (orderly : m.Orderly) (sound : m.heap.Sound owned) :
    m.Sound owned := by
  refine ⟨calm.accounts_iff.mpr sound.accounted, orderly, fun a owes => ?_, sound.intact⟩
  rw [calm.owed] at owes
  exact sound.grounded a owes

theorem Sound.releasable (sound : m.Sound owned) {a : Addr} {rest : List Task}
    (tasks : m.tasks = .release a :: rest) : m.heap.Live a ∧ 0 < m.heap.countAt a := by
  have owes : 0 < m.owed owned a := by
    rw [owed, pending_release tasks, if_pos rfl]
    omega
  exact ⟨sound.grounded a owes, sound.accounts.positive tasks (sound.grounded a owes)⟩

theorem Sound.intact_step (sound : m.Sound owned) : m.step.heap.Intact := by
  have effect := step_effect sound.orderly
  have intact := sound.intact
  cases effect with
  | resting idle same =>
      rw [same]
      exact intact
  | quiet t rest news tasks calm after calmNews cascades lighter same frame =>
      have standing := same.standing_of_face
      exact intact.transfer standing.shape_of_standing.live_iff (fun a _ => standing.countAt a)
        (by rw [frame])
  | reading a rest news tasks traced calmNews cascades light done =>
      rw [done]
      exact intact
  | refused a rest tasks refused done => exact absurd (sound.releasable tasks) refused
  | released a o last k word rest tasks there valid changed count isLast noted done =>
      have live : m.heap.Live a := (m.heap.live_iff a).mpr ⟨o, there, valid⟩
      have frame := changed.rest
      rw [done]
      apply intact.transfer (changed.live_iff there rfl)
      · intro b dead
        apply changed.countAt_others
        rintro rfl
        exact dead live
      · rw [frame]
  | unloaded a t rest row tasks unloads dropped held light done =>
      rw [done]
      exact intact
  | reclaimed a rest tasks done =>
      obtain ⟨live, _, zero, _⟩ := sound.accounts.spent tasks
      obtain ⟨o, there, _⟩ := (m.heap.live_iff a).mp live
      obtain ⟨here, _, pool⟩ := m.heap.reclaim_spec a o there
      have lost := m.heap.reclaim_live a
      rw [done]
      constructor
      · intro b dead
        by_cases isHere : b = a
        · subst isHere
          rw [Heap.countAt, here]
          rw [Heap.countAt_of_there there] at zero
          exact zero
        · rw [Heap.countAt, m.heap.reclaim_others a b isHere]
          exact intact.settled b fun wasLive => dead ((lost b).mpr ⟨isHere, wasLive⟩)
      · rcases intact.stocked with ⟨free, stocked⟩
        obtain ⟨free', freed⟩ := Pool.free_stocked stocked o.totalBytes a live
        rw [pool]
        exact ⟨free', freed.transfer (fun _ => rfl) rfl (Nat.le_refl _) fun b => (lost b).mp⟩
  | ended p found done =>
      obtain ⟨_, _, ended, _⟩ := sound.accounts.ended sound.orderly found
      exact intact.transfer ended.live (fun a _ => ended.counts a) ended.frame.1

theorem Sound.step (sound : m.Sound owned) : m.step.Sound owned := by
  obtain ⟨accounts, owes⟩ := sound.accounts.step sound.orderly
  obtain ⟨_, alive⟩ := sound.accounts.step_live sound.orderly
  refine ⟨accounts, sound.orderly.step, fun a positive => ?_, sound.intact_step⟩
  have before : 0 < m.owed owned a := Nat.lt_of_lt_of_le positive (owes a)
  rw [alive]
  refine ⟨sound.grounded a before, fun rest tasks => ?_⟩
  have nothingOwed := (sound.accounts.spent tasks).2.2.2.1
  omega

/-! A release that is asked for -/

section Handed

variable {n : Machine} {a : Addr}

theorem handed_parts (after : n.tasks = .release a :: m.tasks) :
    (∀ b, n.Unloading b ↔ m.Unloading b) ∧ ∀ b, n.Doomed b ↔ m.Doomed b := by
  constructor <;> intro b
  · rw [Unloading, Unloading, after, List.any_cons]
    rfl
  · rw [Doomed, Doomed, after, List.any_cons]
    rfl

/-- A reference that leaves the ledger waits to be dropped: all in all nothing is owed anew. -/
theorem handed_owed (owns : 0 < owned a) (after : n.tasks = .release a :: m.tasks)
    (heap : n.heap = m.heap) (b : Addr) : n.owed (lose owned a) b = m.owed owned b := by
  obtain ⟨unloading, doomed⟩ := handed_parts after
  have same : Same Object.body m.heap n.heap := by
    rw [heap]
    exact Same.refl _
  have held := held_congr same (loaded_congr (by rw [heap]) unloading doomed) b
  rw [owed, owed, pending_release after, held, pending, lose]
  by_cases here : b = a
  · subst here
    simp only [Function.update_self, if_pos]
    omega
  · simp [here, Ne.symm here]

theorem Accounts.handed (accounts : m.Accounts owned) (owns : 0 < owned a)
    (after : n.tasks = .release a :: m.tasks) (heap : n.heap = m.heap) : n.Accounts (lose owned a) := by
  obtain ⟨unloading, doomed⟩ := handed_parts after
  constructor
  · intro b live
    rw [handed_owed owns after heap, heap]
    exact accounts.enough b (heap ▸ live)
  · rw [after, heap]
    exact List.pairwise_cons.mpr ⟨fun u _ => Task.before_release m.heap a u, accounts.ordered⟩
  · intro b isDoomed
    obtain ⟨live, claimed, count⟩ := accounts.doomed b ((doomed b).mp isDoomed)
    rw [heap, pending_release after, unloading_congr (by rw [heap]) unloading]
    rw [pending] at count
    exact ⟨live, claimed, by omega⟩
  · intro t member b serves
    rw [after] at member
    rcases List.mem_cons.mp member with rfl | old
    · cases serves
    · exact (doomed b).mpr (accounts.served t old b serves)
  · intro b member
    rw [after] at member
    rcases List.mem_cons.mp member with same | old
    · cases same
    · rw [heap]
      exact accounts.traced b old

theorem Sound.handed (sound : m.Sound owned) (cascade : ∀ t ∈ m.tasks, t.cascades = true)
    (owns : 0 < owned a) (after : n.tasks = .release a :: m.tasks) (heap : n.heap = m.heap) :
    n.Sound (lose owned a) := by
  refine ⟨sound.accounts.handed owns after heap, Or.inl fun t member => ?_, fun b positive => ?_,
    heap ▸ sound.intact⟩
  · rw [after] at member
    rcases List.mem_cons.mp member with rfl | old
    · rfl
    · exact cascade t old
  · rw [handed_owed owns after heap] at positive
    exact heap ▸ sound.grounded b positive

end Handed

theorem Sound.hand (sound : m.Sound owned) (idle : m.idle = true) (a : Addr) (owns : 0 < owned a) :
    ({ m with tasks := [.release a] } : Machine).Sound (lose owned a) := by
  have empty := List.isEmpty_iff.mp idle
  exact sound.handed (by simp [empty]) owns (by rw [empty]) rfl

theorem collect_searching (idle : m.idle = true) (counted : Addr → Nat → Prop) :
    m.collect.Searching m.heap.startPass.1 counted m.heap.startPass.1.walk.roots := by
  rw [Machine.idle, List.isEmpty_iff] at idle
  refine ⟨Or.inl ?_, ?_⟩
  · simp [collect, push, idle]
  · exact Trial.Walk.start_sound _

theorem Sound.collect (sound : m.Sound owned) (idle : m.idle = true) : m.collect.Sound owned := by
  have searching := collect_searching idle fun _ count => count < Trial.Discovery.edgeLimit
  have heap := sound.heap (calm_of_idle idle)
  refine Sound.of_calm searching.calm (Or.inr ⟨_, _, searching⟩) ⟨heap.accounted, heap.grounded, ?_⟩
  exact ⟨heap.intact.settled, heap.intact.stocked⟩

end Machine

namespace Client

variable {rule : Rule} {c d : Client}

theorem Small.sound (small : Small rule c d) (sound : c.machine.Sound c.owned) :
    d.machine.Sound d.owned := by
  cases small with
  | act idle act =>
      have heap := act.sound (sound.heap (Machine.calm_of_idle idle))
      exact Machine.Sound.of_calm (Machine.calm_of_idle idle) (Machine.orderly_of_idle idle) heap
  | hand a idle owns => exact sound.hand idle a owns
  | collect idle may => exact sound.collect idle
  | step => exact sound.step

theorem Run.preserves {p : Client → Prop}
    (small : ∀ c d, Small rule c d → p c → p d) (run : Run rule.AtRest c d)
    (start : p c) : p d := by
  have path : ∀ d e, Relation.ReflTransGen (Small rule) d e → p d → p e := by
    intro d e many
    induction many with
    | refl => exact id
    | tail before last ih => exact fun first => small _ _ last (ih first)
  induction run with
  | start => exact start
  | call request run permitted ih => exact path _ _ (call_small request permitted.1 permitted.2) ih
  | step run ih => exact small _ _ .step ih

/-- What each act and each step of a sound machine keeps is kept by a run. -/
theorem Run.keeps {p : Client → Prop}
    (small : ∀ c d, Small rule c d → c.machine.Sound c.owned → p c → p d)
    (run : Run rule.AtRest c d) (sound : c.machine.Sound c.owned) (start : p c) :
    d.machine.Sound d.owned ∧ p d := by
  apply run.preserves (p := fun e => e.machine.Sound e.owned ∧ p e)
  · exact fun _ _ act both => ⟨act.sound both.1, small _ _ act both.1 both.2⟩
  · exact ⟨sound, start⟩

theorem Run.sound (run : Run rule.AtRest c d) (sound : c.machine.Sound c.owned) :
    d.machine.Sound d.owned :=
  run.preserves (fun _ _ => Small.sound) sound

end Client

namespace Heap

/-- The heap that settings make which pass their check. -/
def initial (settings : Settings) (entropy : UInt64) : Heap :=
  { collector :=
      { settings := settings.collector
        draws := .seeded (settings.seed.getD entropy) }
    autoRegister := settings.autoRegister }

variable {settings : Settings} {entropy : UInt64}

theorem create_valid (settings : Settings) (entropy : UInt64)
    (checked : settings.collector.validate.isOk = true) :
    create settings entropy = .ok (initial settings entropy) := by
  unfold create
  cases result : settings.collector.validate with
  | error fault =>
      rw [result] at checked
      cases checked
  | ok done => rfl

theorem create_initial {heap : Heap} (made : create settings entropy = .ok heap) :
    heap = initial settings entropy := by
  unfold create at made
  split at made
  · cases made
  · simp only [Except.ok.injEq] at made
    exact made.symm

theorem initial_dead (a : Addr) : ¬ (initial settings entropy).Live a := by
  simp [Live, initial]

theorem initial_live : (initial settings entropy).live = ∅ := by
  apply Finset.eq_empty_of_forall_notMem
  intro a member
  exact initial_dead a ((mem_live _ a).mp member)

end Heap

theorem Client.fresh_sound (settings : Settings) (entropy : UInt64) :
    (fresh (.initial settings entropy)).machine.Sound (fun _ => 0) := by
  refine Machine.Sound.of_calm (Machine.calm_of_idle rfl) (Machine.orderly_of_idle rfl) ⟨?_, ?_, ?_⟩
  · exact fun a live => absurd live (Heap.initial_dead a)
  · intro a positive
    simp only [fresh, Heap.held, Heap.initial_live, Finset.sum_empty] at positive
    exact absurd positive (Nat.lt_irrefl 0)
  · constructor
    · intro a _
      simp [fresh, Heap.countAt, Heap.initial]
    · exact ⟨fun _ => [], Pool.stocked_empty.transfer (fun _ => rfl) rfl (Nat.le_refl _)
        Heap.initial_dead⟩

end CountedHeap
