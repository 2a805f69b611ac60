import CountedHeap.Proofs.Accounts
import CountedHeap.Proofs.Trial.Soundness

/-!
A machine while the search of a pass goes on. It reads the heap one object at a time and leaves it
as it is; what it has read stays true of a heap whose counts move between two questions.
-/

namespace CountedHeap

open Trial (Discovery Look Walk)

namespace Object

theorem count_lt (o : Object) : o.count < Discovery.edgeLimit :=
  Nat.lt_trans o.word.toNat_count_lt (by decide)

end Object

namespace Heap

/-- What a search may take for garbage. -/
def Collectable (h : Heap) (a : Addr) : Prop :=
  ∃ o, h.objects[a]? = some o ∧ o.valid = true ∧ o.claimed = false ∧ o.traced = true ∧ o.count ≠ 0

theorem Collectable.live {h : Heap} {a : Addr} (collectable : h.Collectable a) : h.Live a := by
  rcases collectable with ⟨o, there, valid, _⟩
  exact (h.live_iff a).mpr ⟨o, there, valid⟩

theorem Collectable.unclaimed {h : Heap} {a : Addr} (collectable : h.Collectable a) :
    h.claimedAt a = false := by
  rcases collectable with ⟨o, there, _, unclaimed, _⟩
  exact (claimedAt_of_there there).trans unclaimed

theorem Collectable.traced {h : Heap} {a : Addr} (collectable : h.Collectable a) :
    h.tracedAt a = true := by
  rcases collectable with ⟨o, there, _, _, traced, _⟩
  exact (tracedAt_of_there there).trans traced

theorem collectable_iff (h : Heap) (a : Addr) :
    h.Collectable a ↔
      h.Live a ∧ h.claimedAt a = false ∧ h.tracedAt a = true ∧ 0 < h.countAt a := by
  constructor
  · intro collectable
    refine ⟨collectable.live, collectable.unclaimed, collectable.traced, ?_⟩
    rcases collectable with ⟨o, there, _, _, _, positive⟩
    rw [countAt_of_there there]
    omega
  · rintro ⟨live, unclaimed, traced, positive⟩
    obtain ⟨o, there, valid⟩ := (h.live_iff a).mp live
    simp only [claimedAt, tracedAt, countAt, there, Option.any_some, Option.elim_some] at unclaimed traced positive
    exact ⟨o, there, valid, unclaimed, traced, by omega⟩

theorem countAt_lt (h : Heap) (a : Addr) : h.countAt a < Discovery.edgeLimit := by
  unfold countAt
  cases h.objects[a]? with
  | none => decide
  | some o => exact o.count_lt

theorem look_agrees (h : Heap) (counted : Addr → Nat → Prop)
    (now : ∀ a, h.Collectable a → counted a (h.countAt a)) :
    Trial.Agrees h.Collectable counted h.look := by
  have looks : ∀ a, h.look a =
      if h.Live a ∧ h.claimedAt a = false ∧ h.tracedAt a = true ∧ 0 < h.countAt a
      then .live (h.countAt a)
      else if h.Live a ∧ h.claimedAt a = false ∧ h.tracedAt a = false then .untracked else .dying := by
    intro a
    cases there : h.objects[a]? with
    | none => simp [look, Live, there]
    | some o =>
        simp only [look, Live, claimedAt, tracedAt, countAt, there, Option.any_some,
          Option.elim_some]
        cases o.valid <;> cases o.claimed <;> cases o.traced <;>
          by_cases zero : o.count = 0 <;> simp [zero, Nat.pos_iff_ne_zero]
  constructor
  · intro a count seen
    rw [looks] at seen
    split at seen
    · rename_i may
      have collectable := (h.collectable_iff a).mpr may
      cases seen
      exact ⟨collectable, now a collectable⟩
    · split at seen <;> cases seen
  · intro a collectable
    exact ⟨h.countAt a, by rw [looks, if_pos ((h.collectable_iff a).mp collectable)]⟩

end Heap

namespace Machine

open Heap (Same)

variable {m : Machine} {p : Pass} {counted : Addr → Nat → Prop} {roots : List Addr}

/-- The search of a pass goes on: it is up to a step, waits for a tracer, or is about to read what
the tracer reports. -/
structure Searching (m : Machine) (p : Pass) (counted : Addr → Nat → Prop) (roots : List Addr) :
    Prop where
  tasks : m.tasks = [.search p] ∨
    ∃ a, p.walk.asks? = some a ∧
      (m.tasks = [.expand p a] ∨ m.tasks = [.callback (.tracer a), .expand p a])
  sound : p.walk.Sound m.heap.Collectable counted m.heap.children roots

theorem Searching.mono {counted' : Addr → Nat → Prop} (searching : m.Searching p counted roots)
    (more : ∀ a count, counted a count → counted' a count) : m.Searching p counted' roots :=
  ⟨searching.tasks, searching.sound.mono more⟩

def Found (m : Machine) (p : Pass) : Prop := m.tasks = [.search p] ∧ p.walk.finished = true

def found? (m : Machine) : Option Pass :=
  match m.tasks with
  | [.search p] => if p.walk.finished then some p else none
  | _ => none

theorem found_of_found? (same : m.found? = some p) : m.Found p := by
  unfold found? at same
  split at same
  · rename_i q tasks
    split at same
    · rename_i finished
      cases same
      exact ⟨tasks, finished⟩
    · cases same
  · cases same

theorem Searching.unique {q : Pass} (searching : m.Searching q counted roots) (found : m.Found p) :
    q = p := by
  rcases searching.tasks with alone | ⟨a, _, alone | alone⟩ <;> rw [found.1] at alone <;>
    simp only [List.cons.injEq, Task.search.injEq, reduceCtorEq, false_and, and_true] at alone
  exact alone.symm

theorem asks_of_finished (w : Walk) (finished : w.finished = true) : w.asks? = none := by
  simp only [Walk.finished, Bool.and_eq_true, Option.isNone_iff_eq_none] at finished
  simp [Walk.asks?, finished.1]

theorem step_nil (tasks : m.tasks = []) : m.step = m := by
  simp only [step, tasks]

theorem step_cons {t : Task} {rest : List Task} (tasks : m.tasks = t :: rest) :
    m.step = { m with tasks := rest }.perform t := by
  simp only [step, tasks]

/-- A step of a search reads the heap, or the search is over. -/
theorem Searching.step (searching : m.Searching p counted roots)
    (now : ∀ a, m.heap.Collectable a → counted a (m.heap.countAt a)) :
    m.Found p ∨ ∃ q, q.minimum = p.minimum ∧ q.walk.budget = p.walk.budget ∧
      m.step.heap = m.heap ∧ m.step.Searching q counted roots := by
  have agrees := m.heap.look_agrees counted now
  have sound := searching.sound
  rcases searching.tasks with tasks | ⟨a, asked, tasks | tasks⟩
  · have done := step_cons tasks
    simp only [perform, advance] at done
    cases asked : p.walk.asks? with
    | some a =>
        -- The search wants the children of an object, and waits for its tracer if it has one.
        simp only [asked] at done
        refine Or.inr ⟨p, rfl, rfl, by rw [done]; rfl, ?_, ?_⟩
        · refine Or.inr ⟨a, asked, ?_⟩
          rw [done]
          unfold push tracing
          split
          · exact Or.inr (by simp)
          · exact Or.inl (by simp)
        · rw [done]
          exact sound
    | none =>
        by_cases finished : p.walk.finished = true
        · exact Or.inl ⟨tasks, finished⟩
        · simp only [asked, finished] at done
          refine Or.inr ⟨{ p with walk := p.walk.turn m.heap.look }, rfl, ?_, ?_, ?_, ?_⟩
          · simp only [Walk.turn]
            split
            · rfl
            · split <;> rfl
          · rw [done]
            rfl
          · rw [done]
            exact Or.inl (by simp [push])
          · rw [done]
            exact Walk.turn_sound m.heap.look agrees p.walk asked sound
  · have done := step_cons tasks
    simp only [perform] at done
    refine Or.inr ⟨{ p with walk := p.walk.expand m.heap.look (m.heap.children a) }, rfl, ?_, ?_, ?_, ?_⟩
    · simp only [Walk.expand]
      split <;> rfl
    · rw [done]
      rfl
    · rw [done]
      exact Or.inl (by simp [push])
    · rw [done]
      exact Walk.expand_sound m.heap.look agrees p.walk a asked sound
  · have done := step_cons tasks
    simp only [perform] at done
    refine Or.inr ⟨p, rfl, rfl, by rw [done], ?_, ?_⟩
    · exact Or.inr ⟨a, asked, Or.inl (by rw [done])⟩
    · rw [done]
      exact sound

/-- What the search has read stays true when counts move, as long as none moves from or to zero. -/
theorem Searching.moved {n : Machine} (searching : m.Searching p counted roots)
    (tasks : n.tasks = m.tasks) (same : Same Object.shape m.heap n.heap)
    (zero : ∀ a, m.heap.Live a → (0 < n.heap.countAt a ↔ 0 < m.heap.countAt a)) :
    n.Searching p counted roots := by
  have collectable : n.heap.Collectable = m.heap.Collectable := by
    funext a
    rw [Heap.collectable_iff, Heap.collectable_iff, same.live_iff, same.claimedAt,
      same.body_of_shape.tracedAt, eq_iff_iff, and_congr_right_iff]
    intro live
    rw [zero a live]
  have children : n.heap.children = m.heap.children := funext same.body_of_shape.children
  refine ⟨by rw [tasks]; exact searching.tasks, ?_⟩
  rw [collectable, children]
  exact searching.sound

end Machine

end CountedHeap
