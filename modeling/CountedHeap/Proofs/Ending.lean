import CountedHeap.Proofs.Reach
import CountedHeap.Proofs.Trial.Exact

/-!
Every operation comes to its end. A search asks a bounded number of questions. A cascade claims no
object twice, and between two claims each task makes way for lighter ones.
-/

namespace CountedHeap

open Trial (Walk)

namespace Heap

def unclaimed (h : Heap) : Finset Addr := h.live.filter fun a => h.claimedAt a = false

theorem mem_unclaimed (h : Heap) (a : Addr) :
    a ∈ h.unclaimed ↔ h.Live a ∧ h.claimedAt a = false := by
  rw [unclaimed, Finset.mem_filter, mem_live]

theorem Same.weight {h k : Heap} (same : Same Object.body h k) (t : Task) :
    t.weight k = t.weight h := by
  cases t <;> simp [Task.weight, same.children]

end Heap

namespace Machine

open Heap (Same)

variable {m : Machine} {owned : Addr → Nat} {p : Pass} {counted : Addr → Nat → Prop}
  {roots : List Addr}

theorem eventually {α : Type} {less : α → α → Prop} (grounded : WellFounded less)
    (measure : Machine → α) (during done : Machine → Prop)
    (falls : ∀ m, during m → done m ∨ during m.step ∧ less (measure m.step) (measure m))
    (m : Machine) (start : during m) : ∃ n, done (m.steps n) := by
  generalize size : measure m = x
  induction x using grounded.induction generalizing m with
  | _ x ih =>
      subst size
      rcases falls m start with isDone | ⟨goesOn, less⟩
      · exact ⟨0, isDone⟩
      · obtain ⟨n, isDone⟩ := ih _ less m.step goesOn rfl
        exact ⟨n + 1, isDone⟩

/-! Searches -/

/-- How far a search is from its end: the walk, and how far the machine is from its next step. -/
def progress (m : Machine) : (Nat × Nat) × Nat :=
  match m.tasks with
  | [.search p] => ((p.walk.roots.length, p.walk.left), 2)
  | [.callback _, .expand p _] => ((p.walk.roots.length, p.walk.left), 1)
  | [.expand p _] => ((p.walk.roots.length, p.walk.left), 0)
  | _ => ((0, 0), 0)

def Nearer : (Nat × Nat) × Nat → (Nat × Nat) × Nat → Prop :=
  Prod.Lex (Prod.Lex (· < ·) (· < ·)) (· < ·)

theorem nearer_grounded : WellFounded Nearer :=
  WellFounded.prod_lex (WellFounded.prod_lex Nat.lt_wfRel.wf Nat.lt_wfRel.wf) Nat.lt_wfRel.wf

theorem Searching.nearer (searching : m.Searching p counted roots) (unfinished : ¬ m.Found p) :
    Nearer m.step.progress m.progress := by
  rcases searching.tasks with tasks | ⟨a, asked, tasks | tasks⟩
  · have done := step_cons tasks
    simp only [perform, advance] at done
    cases asked : p.walk.asks? with
    | some a =>
        have before : m.progress = ((p.walk.roots.length, p.walk.left), 2) := by
          simp only [progress, tasks]
        simp only [asked, push, tracing, List.append_nil] at done
        rw [done, before]
        by_cases waits : (m.heap.tracer? a).isSome = true
        · simp only [waits, if_true, List.singleton_append, progress]
          exact .right _ Nat.one_lt_two
        · simp only [waits, progress]
          exact .right _ Nat.zero_lt_two
    | none =>
        have more : p.walk.finished = false :=
          Bool.eq_false_iff.mpr fun isOver => unfinished ⟨tasks, isOver⟩
        have walked : p.walk.step m.heap.graph = p.walk.turn m.heap.look := by
          simp only [Walk.step, asked, Heap.graph]
        have falls := Walk.step_decreases m.heap.graph p.walk more
        rw [walked] at falls
        simp only [asked, more, push] at done
        rw [done]
        simp only [progress, tasks]
        exact .left _ _ falls
  · have done := step_cons tasks
    simp only [perform, push] at done
    have more : p.walk.finished = false := Bool.eq_false_iff.mpr fun isOver => by
      rw [asks_of_finished p.walk isOver] at asked
      cases asked
    have walked : p.walk.step m.heap.graph = p.walk.expand m.heap.look (m.heap.children a) := by
      simp only [Walk.step, asked, Heap.graph]
    have falls := Walk.step_decreases m.heap.graph p.walk more
    rw [walked] at falls
    rw [done]
    simp only [progress, tasks]
    exact .left _ _ falls
  · have done := step_cons tasks
    simp only [perform] at done
    rw [done]
    simp only [progress, tasks]
    exact .right _ Nat.zero_lt_one

def searched? (m : Machine) : Option Pass :=
  match m.tasks with
  | [.search p] | [.expand p _] | [.callback _, .expand p _] => some p
  | _ => none

theorem Searching.searched (searching : m.Searching p counted roots) : m.searched? = some p := by
  rcases searching.tasks with tasks | ⟨a, _, tasks | tasks⟩ <;> simp only [searched?, tasks]

/-- A step of a search is a step of the walk over the heap as a graph, or leaves the walk as it is. -/
theorem Searching.walks (searching : m.Searching p counted roots) (unfinished : ¬ m.Found p) :
    ∃ q, m.step.searched? = some q ∧
      (q.walk = p.walk ∨ q.walk = p.walk.step m.heap.graph) := by
  rcases searching.tasks with tasks | ⟨a, asked, tasks | tasks⟩
  · have done := step_cons tasks
    simp only [perform, advance] at done
    cases asked : p.walk.asks? with
    | some a =>
        simp only [asked, push, tracing, List.append_nil] at done
        refine ⟨p, ?_, Or.inl rfl⟩
        rw [done]
        split <;> rfl
    | none =>
        have more : p.walk.finished = false :=
          Bool.eq_false_iff.mpr fun isOver => unfinished ⟨tasks, isOver⟩
        simp only [asked, more, push] at done
        refine ⟨{ p with walk := p.walk.turn m.heap.look }, by rw [done]; rfl, Or.inr ?_⟩
        simp only [Walk.step, asked, Heap.graph]
  · refine ⟨{ p with walk := p.walk.expand m.heap.look (m.heap.children a) }, ?_, Or.inr ?_⟩
    · rw [step_cons tasks]
      rfl
    · simp only [Walk.step, asked, Heap.graph]
  · refine ⟨p, ?_, Or.inl rfl⟩
    rw [step_cons tasks]
    rfl

/-- A search ends, with the heap as it was; what it has found is what the walk over the heap finds. -/
theorem Searching.runs (searching : m.Searching p counted roots)
    (now : ∀ a, m.heap.Collectable a → counted a (m.heap.countAt a)) :
    ∃ n q, (m.steps n).Found q ∧ q.minimum = p.minimum ∧ q.walk = Walk.run m.heap.graph p.walk ∧
      (m.steps n).heap = m.heap ∧ (m.steps n).Searching q counted roots := by
  refine eventually nearer_grounded progress
    (fun n => ∃ q, q.minimum = p.minimum ∧
      Walk.run m.heap.graph q.walk = Walk.run m.heap.graph p.walk ∧ n.heap = m.heap ∧
      n.Searching q counted roots)
    (fun n => ∃ q, n.Found q ∧ q.minimum = p.minimum ∧ q.walk = Walk.run m.heap.graph p.walk ∧
      n.heap = m.heap ∧ n.Searching q counted roots) ?_ m ⟨p, rfl, rfl, rfl, searching⟩
  rintro n ⟨q, minimum, ahead, same, goesOn⟩
  by_cases found : n.Found q
  · exact Or.inl ⟨q, found, minimum, (Walk.run_of_finished _ found.2).symm.trans ahead, same, goesOn⟩
  · have still : ∀ a, n.heap.Collectable a → counted a (n.heap.countAt a) := by
      rw [same]
      exact now
    obtain ⟨r, isMinimum, _, isHeap, further⟩ := (goesOn.step still).resolve_left found
    obtain ⟨r', searched, walked⟩ := goesOn.walks found
    obtain rfl : r' = r := Option.some.inj (searched.symm.trans further.searched)
    rw [same] at walked
    refine Or.inr ⟨⟨r', isMinimum.trans minimum, ?_, isHeap.trans same, further⟩, goesOn.nearer found⟩
    rcases walked with stays | moved
    · rw [stays, ahead]
    · rw [moved, Walk.run_step, ahead]

theorem Searching.ends (searching : m.Searching p counted roots)
    (now : ∀ a, m.heap.Collectable a → counted a (m.heap.countAt a)) :
    ∃ n q, (m.steps n).Found q ∧ q.minimum = p.minimum ∧ q.walk.budget = p.walk.budget ∧
      (m.steps n).heap = m.heap ∧ (m.steps n).Searching q counted roots := by
  obtain ⟨n, q, found, minimum, walked, same, goesOn⟩ := searching.runs now
  exact ⟨n, q, found, minimum, by rw [walked, Walk.run_budget], same, goesOn⟩

/-! Cascades -/

/-- How much is left of a cascade: what it may still claim, and the work that waits. -/
def labour (m : Machine) : Nat × Nat :=
  (m.heap.unclaimed.card, (m.tasks.map (Task.weight m.heap)).sum)

theorem lighter {n : Machine} {t : Task} {rest news : List Task} (tasks : m.tasks = t :: rest)
    (after : n.tasks = news ++ rest) (same : Same Object.body m.heap n.heap)
    (fewer : n.heap.unclaimed ⊆ m.heap.unclaimed)
    (light : (news.map (Task.weight m.heap)).sum < t.weight m.heap) :
    Prod.Lex (· < ·) (· < ·) n.labour m.labour := by
  have work : (n.tasks.map (Task.weight n.heap)).sum < (m.tasks.map (Task.weight m.heap)).sum := by
    have weights : Task.weight n.heap = Task.weight m.heap := funext same.weight
    rw [weights, after, tasks, List.map_append, List.sum_append, List.map_cons, List.sum_cons]
    omega
  rcases Nat.lt_or_eq_of_le (Finset.card_le_card fewer) with less | equal
  · exact .left _ _ less
  · rw [labour, labour, equal]
    exact .right _ work

theorem Accounts.lighter_step (accounts : m.Accounts owned)
    (cascade : ∀ t ∈ m.tasks, t.cascades = true) (busy : m.idle = false) :
    Prod.Lex (· < ·) (· < ·) m.step.labour m.labour := by
  obtain ⟨body, alive⟩ := accounts.step_live (Or.inl cascade)
  have fewer : (∀ b, m.step.heap.Live b → m.step.heap.claimedAt b = false →
      m.heap.claimedAt b = false) → m.step.heap.unclaimed ⊆ m.heap.unclaimed := by
    intro claims b member
    obtain ⟨live, unclaimed⟩ := (m.step.heap.mem_unclaimed b).mp member
    exact (m.heap.mem_unclaimed b).mpr ⟨((alive b).mp live).1, claims b live unclaimed⟩
  have effect := step_effect (Or.inl cascade)
  cases effect with
  | resting idle same =>
      simp [Machine.idle, idle] at busy
  | quiet t rest news tasks calm after calmNews cascades light same frame =>
      refine lighter tasks after body (fewer fun b _ unclaimed => ?_)
        (light (cascade t (by rw [tasks]; exact List.mem_cons_self)))
      rw [← same.standing_of_face.shape_of_standing.claimedAt]
      exact unclaimed
  | reading a rest news tasks traced calmNews cascades light done =>
      have after : m.step.tasks = (news ++ [.releaseChildren a]) ++ rest := by simp [done]
      rw [done] at fewer body after ⊢
      refine lighter tasks after body (fewer fun _ _ unclaimed => unclaimed) ?_
      rw [List.map_append, List.sum_append]
      simp only [Task.weight, List.map_cons, List.map_nil, List.sum_cons, List.sum_nil] at light ⊢
      omega
  | refused a rest tasks refused done =>
      have after : m.step.tasks = [] ++ rest := by simp [done]
      rw [done] at fewer body after ⊢
      exact lighter tasks after body (fewer fun _ _ unclaimed => unclaimed) Nat.zero_lt_one
  | released a o last k word rest tasks there valid changed count isLast noted done =>
      rw [done] at fewer body alive ⊢
      have claims : ∀ b, k.claimedAt b = false → m.heap.claimedAt b = false := by
        intro b unclaimed
        by_cases here : b = a
        · subst here
          rw [changed.claimedAt_here, Bool.or_eq_false_iff] at unclaimed
          exact (Heap.claimedAt_of_there there).trans unclaimed.1
        · rw [← changed.claimedAt_others b here]
          exact unclaimed
      cases last with
      | false => exact lighter tasks rfl body (fewer fun b _ => claims b) Nat.zero_lt_one
      | true =>
          -- The object is claimed now, and cannot be claimed again.
          obtain ⟨_, unclaimed⟩ := isLast.mp rfl
          have was : a ∈ m.heap.unclaimed := by
            rw [Heap.mem_unclaimed, Heap.live_iff]
            exact ⟨⟨o, there, valid⟩, (Heap.claimedAt_of_there there).trans unclaimed⟩
          have isNot : a ∉ k.unclaimed := by
            rw [Heap.mem_unclaimed, changed.claimedAt_here]
            simp
          refine .left _ _ (Finset.card_lt_card ⟨fewer fun b _ => claims b, fun back => ?_⟩)
          exact isNot (back was)
  | unloaded a t rest row tasks unloads dropped held light done =>
      rw [done] at fewer body ⊢
      refine lighter tasks rfl body (fewer fun _ _ unclaimed => unclaimed) ?_
      rw [List.map_map]
      have ones : (row.map (Task.weight m.heap ∘ Task.release)) = row.map fun _ => 1 := rfl
      rw [ones, List.map_const', List.sum_replicate, smul_eq_mul, Nat.mul_one]
      exact light
  | reclaimed a rest tasks done =>
      have after : m.step.tasks = [] ++ rest := by simp [done]
      rw [done] at fewer body alive after ⊢
      refine lighter tasks after body (fewer fun b stillLive unclaimed => ?_) Nat.zero_lt_one
      have apart := ((m.heap.reclaim_live a b).mp stillLive).1
      rw [Heap.claimedAt, m.heap.reclaim_others a b apart] at unclaimed
      exact unclaimed
  | ended p found done =>
      have impossible := cascade (.search p) (by rw [found.1]; exact List.mem_singleton_self _)
      cases impossible

theorem Accounts.cascade_ends (accounts : m.Accounts owned)
    (cascade : ∀ t ∈ m.tasks, t.cascades = true) : ∃ n, (m.steps n).idle = true := by
  refine eventually (WellFounded.prod_lex Nat.lt_wfRel.wf Nat.lt_wfRel.wf) labour
    (fun n => n.Accounts owned ∧ ∀ t ∈ n.tasks, t.cascades = true) (fun n => n.idle = true) ?_ m ⟨accounts, cascade⟩
  rintro n ⟨books, all⟩
  cases busy : n.idle with
  | true => exact Or.inl rfl
  | false =>
      exact Or.inr ⟨⟨(books.step (Or.inl all)).1, cascades_step all⟩, books.lighter_step all busy⟩

/-- Whatever a machine is at, it comes to rest. -/
theorem Accounts.ends (accounts : m.Accounts owned) (orderly : m.Orderly) :
    ∃ n, (m.steps n).idle = true := by
  rcases orderly with cascade | ⟨p, roots, searching⟩
  · exact accounts.cascade_ends cascade
  · obtain ⟨n, q, found, _, _, same, goesOn⟩ := searching.ends fun a _ => m.heap.countAt_lt a
    have books : (m.steps n).Accounts owned := by
      rw [goesOn.calm.accounts_iff, same]
      exact searching.calm.accounts_iff.mp accounts
    obtain ⟨k, idle⟩ := (books.step (Or.inr ⟨q, roots, goesOn⟩)).1.cascade_ends found.cascades
    exact ⟨n + (k + 1), by rw [steps_add]; exact idle⟩

end Machine

end CountedHeap
