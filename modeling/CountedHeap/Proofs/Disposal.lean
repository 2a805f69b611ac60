import CountedHeap.Proofs.Destruction
import CountedHeap.Proofs.Judging

/-!
What a pass hands over for destruction. A group is claimed only if its counts are still the ones
that were seen, and those are the references that the group holds of itself; so nobody else holds
or owns a member, wherever the counts were in the meantime.
-/

namespace CountedHeap

open Trial (Discovery Group)

/-- A count is never less than what is owned and held. -/
def Heap.Accounted (h : Heap) (owned : Addr → Nat) : Prop :=
  ∀ a, h.Live a → owned a + h.held a ≤ h.countAt a

instance (h : Heap) (owned : Addr → Nat) : Decidable (h.Accounted owned) :=
  decidable_of_iff (∀ a ∈ h.live, owned a + h.held a ≤ h.countAt a)
    (forall_congr' fun a => imp_congr_left (h.mem_live a))

namespace Machine

open Heap (Same)

variable {m : Machine} {p : Pass} {owned : Addr → Nat} {counted : Addr → Nat → Prop}
  {roots : List Addr}

/-- A machine at rest, or one that waits for nothing but its client or a search. -/
def Calm (m : Machine) : Prop := ∀ t ∈ m.tasks, t.neutral = true ∧ ∀ a, t.serves a = false

theorem Calm.parts (calm : m.Calm) (a : Addr) :
    m.pending a = 0 ∧ ¬ m.Unloading a ∧ ¬ m.Doomed a := by
  obtain ⟨pending, unloading, doomed⟩ := parts_prepended (n := m) m.tasks []
    (List.append_nil _).symm (fun t member => (calm t member).1) a
  refine ⟨pending, ?_, ?_⟩
  · rw [unloading]
    exact Bool.false_ne_true
  · rw [doomed]
    exact Bool.false_ne_true

theorem Calm.loaded (calm : m.Calm) : m.loaded = m.heap.live :=
  loaded_of_none fun a => (calm.parts a).2.2

theorem Calm.owed (calm : m.Calm) (a : Addr) : m.owed owned a = owned a + m.heap.held a := by
  rw [Machine.owed, (calm.parts a).1, held_of_none fun b => (calm.parts b).2.2]
  rfl

theorem Calm.accounts_iff (calm : m.Calm) : m.Accounts owned ↔ m.heap.Accounted owned := by
  constructor
  · intro accounts a live
    rw [← calm.owed]
    exact accounts.enough a live
  · intro accounted
    constructor
    · intro a live
      rw [calm.owed]
      exact accounted a live
    · exact List.pairwise_of_forall_mem_list fun t member u _ =>
        Task.before_of_neutral m.heap t u (calm t member).1
    · exact fun a doomed => absurd doomed (calm.parts a).2.2
    · intro t member a serves
      rw [(calm t member).2 a] at serves
      cases serves
    · intro a member
      have impossible := (calm _ member).1
      cases impossible

theorem calm_of_idle (idle : m.idle = true) : m.Calm := by
  rw [Machine.idle, List.isEmpty_iff] at idle
  simp [Calm, idle]

theorem Searching.calm (searching : m.Searching p counted roots) : m.Calm := by
  intro t member
  rcases searching.tasks with tasks | ⟨a, _, tasks | tasks⟩ <;> rw [tasks] at member
  · rw [List.mem_singleton.mp member]
    exact ⟨rfl, fun _ => rfl⟩
  · rw [List.mem_singleton.mp member]
    exact ⟨rfl, fun _ => rfl⟩
  · rcases List.mem_cons.mp member with same | later
    · rw [same]
      exact ⟨rfl, fun _ => rfl⟩
    · rw [List.mem_singleton.mp later]
      exact ⟨rfl, fun _ => rfl⟩

/-! The groups of a search -/

section Groups

variable (searching : m.Searching p counted roots) (found : m.Found p)

include searching

theorem Searching.garbage_nodup :
    (p.walk.found.verdict.garbage.flatten.map Prod.fst).Nodup :=
  Discovery.garbage_nodup searching.sound.found

theorem Searching.group_nodup (group : Group)
    (isGarbage : group ∈ p.walk.found.verdict.garbage) : (group.map Prod.fst).Nodup :=
  Discovery.group_nodup searching.sound.found group isGarbage

include found

theorem Searching.member (small : ∀ a count, counted a count → count < Discovery.edgeLimit)
    (group : Group) (isGarbage : group ∈ p.walk.found.verdict.garbage)
    (member : Trial.Node × Nat) (inGroup : member ∈ group) :
    m.heap.Collectable member.1 ∧ counted member.1 member.2 ∧
      member.2 = (group.map fun other => (m.heap.children other.1).count member.1).sum :=
  Discovery.garbage_closed searching.sound.found (searching.sound.finished found.2) small group
    isGarbage member inGroup

theorem Searching.collectable (small : ∀ a count, counted a count → count < Discovery.edgeLimit)
    (a : Addr) (isGarbage : a ∈ p.walk.found.verdict.garbage.flatten.map Prod.fst) :
    m.heap.Collectable a := by
  obtain ⟨group, inGarbage, inGroup⟩ := (Trial.mem_groups _ a).mp isGarbage
  obtain ⟨member, listed, rfl⟩ := List.mem_map.mp inGroup
  exact (searching.member found small group inGarbage member listed).1

theorem Searching.group_collectable
    (small : ∀ a count, counted a count → count < Discovery.edgeLimit) (group : Group)
    (isGarbage : group ∈ p.walk.found.verdict.garbage) (a : Addr)
    (inGroup : a ∈ group.map Prod.fst) : m.heap.Collectable a :=
  searching.collectable found small a ((Trial.mem_groups _ a).mpr ⟨group, isGarbage, inGroup⟩)

/-- A group with the counts that were seen is owned by nobody and held by its own members only. -/
theorem Searching.isolated (small : ∀ a count, counted a count → count < Discovery.edgeLimit)
    (accounted : m.heap.Accounted owned) (group : Group)
    (isGarbage : group ∈ p.walk.found.verdict.garbage) (steady : m.heap.steady group = true)
    (a : Addr) (inGroup : a ∈ group.map Prod.fst) :
    owned a = 0 ∧ (∀ b, m.heap.Live b → 0 < m.heap.edges b a → b ∈ group.map Prod.fst) ∧
      m.heap.countAt a = ∑ b ∈ (group.map Prod.fst).toFinset, m.heap.drops b a := by
  obtain ⟨member, listed, same⟩ := List.mem_map.mp inGroup
  have collectable := searching.group_collectable found small group isGarbage
  have once := searching.group_nodup group isGarbage
  have seen : m.heap.countAt a = member.2 := by
    have all := List.all_eq_true.mp steady member listed
    rw [← same]
    exact beq_iff_eq.mp all
  have count : m.heap.countAt a = ∑ b ∈ (group.map Prod.fst).toFinset, m.heap.drops b a := by
    have total := (searching.member found small group isGarbage member listed).2.2
    rw [seen, total, same, List.sum_toFinset _ once, List.map_map]
    congr 1
    apply List.map_congr_left
    intro other alsoListed
    have traced := (collectable other.1 (List.mem_map_of_mem alsoListed)).traced
    simp [Heap.drops, traced]
  have enough := accounted a (collectable a inGroup).live
  have fewer : ∑ b ∈ (group.map Prod.fst).toFinset, m.heap.drops b a ≤
      ∑ b ∈ (group.map Prod.fst).toFinset, m.heap.edges b a :=
    Finset.sum_le_sum fun b _ => m.heap.drops_le_edges b a
  have among : (group.map Prod.fst).toFinset ⊆ m.heap.live := by
    intro b isMember
    exact (m.heap.mem_live b).mpr (collectable b (List.mem_toFinset.mp isMember)).live
  have part : ∑ b ∈ (group.map Prod.fst).toFinset, m.heap.edges b a ≤ m.heap.held a :=
    Finset.sum_le_sum_of_subset among
  have all : m.heap.held a ≤ ∑ b ∈ (group.map Prod.fst).toFinset, m.heap.edges b a := by omega
  refine ⟨by omega, fun b alive holds => ?_, count⟩
  exact List.mem_toFinset.mp (m.heap.holders_within _ among a all b ⟨alive, holds⟩)

end Groups

/-! The end of a search -/

section Tasks

variable {garbage : List Addr} {reclaimed : Nat}
  (tasks : m.tasks = Task.disposal garbage ++ [.answer reclaimed])

include tasks

theorem unloading_ended (a : Addr) : m.Unloading a ↔ a ∈ garbage := by
  rw [unloading_disposal (m := { m with tasks := [.answer reclaimed] }) tasks]
  simp [Unloading, Task.unloads]

theorem doomed_ended (a : Addr) : m.Doomed a ↔ a ∈ garbage := by
  rw [doomed_disposal (m := { m with tasks := [.answer reclaimed] }) tasks]
  simp [Doomed, Task.reclaims]

theorem loaded_ended : m.loaded = m.heap.live := by
  ext a
  rw [mem_loaded, Heap.mem_live, doomed_ended tasks, unloading_ended tasks]
  simp

end Tasks

theorem Found.step (found : m.Found p) :
    m.step = { m with
      heap := (m.heap.finishPass p).2
      tasks := Task.disposal (m.heap.finishPass p).1 ++ [.answer (m.heap.finishPass p).1.length] } := by
  rw [step_cons found.1]
  simp only [perform, advance, asks_of_finished _ found.2, found.2, if_true, push, List.append_nil]

-- What a group holds of itself is all that its members are owed.
theorem Searching.closed (searching : m.Searching p counted roots) (found : m.Found p)
    (small : ∀ a count, counted a count → count < Discovery.edgeLimit)
    (accounted : m.heap.Accounted owned) (a : Addr) (isGarbage : a ∈ m.heap.garbage p) :
    m.heap.Live a ∧ m.heap.countAt a ≤ ∑ b ∈ (m.heap.garbage p).toFinset, m.heap.drops b a := by
  obtain ⟨group, claimed, inGroup⟩ := (Trial.mem_groups _ a).mp isGarbage
  obtain ⟨isGroup, may⟩ := List.mem_filter.mp claimed
  rw [Bool.and_eq_true] at may
  refine ⟨(searching.group_collectable found small group isGroup a inGroup).live, ?_⟩
  rw [(searching.isolated found small accounted group isGroup may.2 a inGroup).2.2]
  apply Finset.sum_le_sum_of_subset
  intro b isMember
  rw [List.mem_toFinset] at isMember ⊢
  exact (Trial.mem_groups _ b).mpr ⟨group, claimed, isMember⟩

/-- The end of a search leaves books that are in order. -/
theorem Searching.disposed (searching : m.Searching p counted roots) (found : m.Found p)
    (small : ∀ a count, counted a count → count < Discovery.edgeLimit)
    (accounted : m.heap.Accounted owned) :
    (m.heap.garbage p).Nodup ∧
      m.step.tasks = Task.disposal (m.heap.garbage p) ++ [.answer (m.heap.garbage p).length] ∧
      Heap.Ended m.heap p m.step.heap ∧ m.step.Accounts owned ∧
      ∀ a, m.step.owed owned a = m.owed owned a := by
  have fresh := fun a isGarbage => (searching.collectable found small a isGarbage).fresh
  have closed := searching.closed found small accounted
  obtain ⟨garbage, ended⟩ := m.heap.finishPass_ended p searching.garbage_nodup fresh
  have done := found.step
  rw [garbage] at done
  have heap : m.step.heap = (m.heap.finishPass p).2 := by rw [done]
  have tasks : m.step.tasks =
      Task.disposal (m.heap.garbage p) ++ [.answer (m.heap.garbage p).length] := by rw [done]
  rw [← heap] at ended
  have once : (m.heap.garbage p).Nodup :=
    (List.filter_sublist.flatten.map Prod.fst).nodup searching.garbage_nodup
  -- The answer that waits behind the disposal needs no object.
  obtain ⟨waits, owes⟩ := (searching.calm.accounts_iff.mpr accounted).quiet
    (n := { m with tasks := [.answer (m.heap.garbage p).length] }) found.1 rfl
    [.answer (m.heap.garbage p).length] rfl (by simp [Task.neutral, Task.serves]) (Same.refl _)
  have disposed := waits.disposal tasks ended.body ended.live ended.counts
    (fun a live claimed => by rw [ended.claims a live, claimed, Bool.true_or]) once
    (fun a _ t member => by
      rw [List.mem_singleton.mp member]
      simp [Task.Needs, Task.releases, Task.serves, Task.reclaims, Task.unloads])
    (fun a isGarbage => by
      obtain ⟨live, count⟩ := closed a isGarbage
      refine ⟨live, ?_, count⟩
      rw [ended.claims a live, decide_eq_true isGarbage, Bool.or_true])
  exact ⟨once, tasks, ended, disposed.1, fun a => (disposed.2 a).trans (owes a)⟩

end Machine

end CountedHeap
