import CountedHeap.Proofs.Misuse
import CountedHeap.Proofs.Shedding

/-!
What the last release of an object destroys. In which order a cascade works depends on the graph,
and on its way it may lower an object many times, and register one that it will destroy. But the
count of an object and what the condemned ones held of it add up, at any time, to what the count
was at the start and the releases still to come. So whatever the order, the cascade ends at the
least closed set: the released object, and every live one whose references are all given up within
the set.
-/

namespace CountedHeap

open Heap (Same)

namespace Heap

variable {h : Heap} {o : Addr} {row wider : Finset Addr}

def destructorAt (h : Heap) (a : Addr) : Option Nat := (h.objects[a]?).bind Object.destructor

/-- A set of live objects that has a certain one, and every other whose references are all given up
within the set. -/
structure Closed (h : Heap) (o : Addr) (row : Finset Addr) : Prop where
  among : row ⊆ h.live
  first : o ∈ row
  takes : ∀ a, h.Live a → h.countAt a = h.givenUp row a → a ∈ row

/-- No count is less than what is held, so what a part of a closed set gives up is all there is. -/
theorem Closed.member (closed : h.Closed o wider) (inside : row ⊆ wider) (a : Addr) (live : h.Live a)
    (enough : h.held a ≤ h.countAt a) (all : h.countAt a ≤ h.givenUp row a) : a ∈ wider := by
  refine closed.takes a live (Nat.le_antisymm (all.trans ?_) ?_)
  · exact Finset.sum_le_sum_of_subset inside
  · exact (givenUp_le_held closed.among a).trans enough

end Heap

namespace Machine

variable {h : Heap} {m n : Machine} {o a : Addr} {x : Object} {word : CountWord} {owned : Addr → Nat}
  {log : List Event}

/-- What a cascade has done to a heap so far that the release of one object set off. -/
structure Toll (h : Heap) (o : Addr) (m : Machine) : Prop where
  spent : ∀ a, m.heap.Live a → m.heap.claimedAt a = true → m.heap.countAt a = 0
  balance : ∀ a ∈ m.heap.unclaimed,
    m.heap.countAt a + h.givenUp (m.fallen h) a + (if o = a then 1 else 0) =
      h.countAt a + m.pending a + h.givenUp m.unloading a
  least : ∀ row, h.Closed o row → m.fallen h ⊆ row
  letGo : h.Eager → ∀ a ∈ m.heap.unclaimed, m.heap.tracedAt a = true →
    m.heap.countAt a < h.countAt a → m.heap.collector.registry.holds a = true

structure Falling (h : Heap) (o : Addr) (owned : Addr → Nat) (m : Machine) : Prop where
  accounts : m.Accounts owned
  cascade : ∀ t ∈ m.tasks, t.cascades = true
  body : Same Object.body h m.heap
  among : ∀ a, m.heap.Live a → h.Live a
  eager : h.Eager → m.heap.Eager
  toll : Toll h o m

namespace Falling

/-- When a release takes the only reference left, no object to be unloaded holds it: all there was of
it has been given up. -/
theorem all_given_up (falling : Falling h o owned m) (waits : 0 < m.pending a)
    (member : a ∈ m.heap.unclaimed) (one : m.heap.countAt a = 1) (other : o ≠ a) :
    h.countAt a ≤ h.givenUp (m.fallen h) a := by
  have balance := falling.toll.balance a member
  have enough := falling.accounts.enough a ((m.heap.mem_unclaimed a).mp member).1
  rw [owed, one] at enough
  have fewer : h.givenUp m.unloading a ≤ m.held a := by
    refine (Finset.sum_le_sum fun b _ => ?_).trans (Finset.sum_le_sum_of_subset m.unloading_subset)
    rw [falling.body.edges]
    exact h.drops_le_edges b a
  rw [if_neg other, one] at balance
  omega

theorem unclaimed (falling : Falling h o owned m) (there : m.heap.objects[a]? = some x)
    (valid : x.valid = true) (count : word.count.toNat + 1 = x.count) : x.claimed = false := by
  by_contra claimed
  rw [Bool.not_eq_false] at claimed
  have live : m.heap.Live a := (m.heap.live_iff a).mpr ⟨x, there, valid⟩
  have zero := falling.toll.spent a live ((Heap.claimedAt_of_there there).trans claimed)
  rw [Heap.countAt_of_there there] at zero
  omega

theorem spent_step (falling : Falling h o owned m) (felt : Felt m n) (b : Addr) (live : n.heap.Live b)
    (claimed : n.heap.claimedAt b = true) : n.heap.countAt b = 0 := by
  have before := falling.toll.spent b
  cases felt with
  | still unclaimed same =>
      obtain ⟨wasLive, count, claim⟩ := same b live
      rw [count]
      exact before wasLive (claim.symm.trans claimed)
  | missed a waiting dead unloading done =>
      rw [done] at live claimed ⊢
      exact before live claimed
  | lowered a x word waiting unloading there valid count many changed =>
      have apart : b ≠ a := by
        rintro rfl
        have unclaimed := falling.unclaimed there valid count
        rw [changed.claimedAt_here, unclaimed] at claimed
        cases claimed
      rw [changed.claimedAt_others b apart] at claimed
      rw [changed.countAt_others b apart]
      exact before ((changed.live_iff there rfl b).mp live) claimed
  | condemned a x word waiting fresh unloading there valid unclaimed one zero changed =>
      by_cases here : b = a
      · rw [here, changed.countAt_here]
        exact zero
      · rw [changed.claimedAt_others b here] at claimed
        rw [changed.countAt_others b here]
        exact before ((changed.live_iff there rfl b).mp live) claimed
  | unloaded a member unloading waiting done =>
      rw [done] at live claimed ⊢
      exact before live claimed

theorem least_step (falling : Falling h o owned m) (felt : Felt m n)
    (enough : ∀ a, h.Live a → h.held a ≤ h.countAt a) (row : Finset Addr) (closed : h.Closed o row) :
    n.fallen h ⊆ row := by
  have inside := falling.toll.least row closed
  rcases felt.fallen_cases falling.among with same | ⟨a, member, waits, one, same⟩
  · rwa [same]
  · have wasLive := falling.among a ((m.heap.mem_unclaimed a).mp member).1
    rw [same, Finset.insert_subset_iff]
    refine ⟨?_, inside⟩
    by_cases isFirst : o = a
    · exact isFirst ▸ closed.first
    · exact closed.member inside a wasLive (enough a wasLive)
        (falling.all_given_up waits member one isFirst)

theorem step_toll (falling : Falling h o owned m) (marked : m.heap.Marked)
    (enough : ∀ a, h.Live a → h.held a ≤ h.countAt a) : Toll h o m.step := by
  have felt := falling.accounts.felt falling.cascade
  refine ⟨falling.spent_step felt, fun a member => ?_, falling.least_step felt enough,
    fun eager a member traced less => ?_⟩
  · have before := falling.toll.balance a (felt.unclaimed_subset member)
    have moved := felt.balance falling.body falling.among a member
    omega
  · obtain ⟨_, listed⟩ := felt.registered marked a member
    have body := (falling.accounts.step_live (Or.inl falling.cascade)).1
    rw [body.tracedAt] at traced
    rw [listed]
    by_cases fell : m.step.heap.countAt a < m.heap.countAt a
    · exact Or.inr ⟨falling.eager eager, traced, fell⟩
    · exact Or.inl (falling.toll.letGo eager a (felt.unclaimed_subset member) traced (by omega))

theorem step (falling : Falling h o owned m) (marked : m.heap.Marked)
    (enough : ∀ a, h.Live a → h.held a ≤ h.countAt a) : Falling h o owned m.step := by
  have orderly : m.Orderly := Or.inl falling.cascade
  obtain ⟨body, alive⟩ := falling.accounts.step_live orderly
  exact {
    accounts := (falling.accounts.step orderly).1
    cascade := cascades_step falling.cascade
    body := falling.body.trans body
    among := fun a live => falling.among a ((alive a).mp live).1
    eager := fun eager => eager_step falling.accounts orderly (falling.eager eager)
    toll := falling.step_toll marked enough }

theorem steps (falling : Falling h o owned m) (told : m.Told log)
    (enough : ∀ a, h.Live a → h.held a ≤ h.countAt a) (n : Nat) :
    Falling h o owned (m.steps n) := by
  induction n generalizing m log with
  | zero => exact falling
  | succ n ih => exact ih (falling.step told.marked enough) told.step

end Falling

end Machine

end CountedHeap
