import CountedHeap.Proofs.Coverage

/-!
A pass with room for everything that is live, while counts may fall. What the search found and the
scan does not claim hangs from an owned object, or from a candidate whose count has moved since the
pass started; and such a candidate stays in the registry.
-/

namespace CountedHeap

open Trial (Discovery)
open Heap (Same)

namespace Heap

variable {h : Heap} {owned : Addr → Nat}

/-- The references that a row of live objects reports to one are among all that are held. -/
theorem sum_children_le (h : Heap) (row : List Addr) (once : row.Nodup)
    (live : ∀ a ∈ row, h.Live a) (b : Addr) :
    (row.map fun a => (h.children a).count b).sum ≤ h.held b := by
  rw [← List.sum_toFinset _ once, held]
  refine (Finset.sum_le_sum fun a _ => h.children_le_edges a b).trans ?_
  apply Finset.sum_le_sum_of_subset
  intro a member
  exact (h.mem_live a).mpr (live a (List.mem_toFinset.mp member))

theorem held_le_sum (h : Heap) (reported : h.Reported) (row : List Addr) (once : row.Nodup) (b : Addr)
    (all : ∀ a, h.Points a b → a ∈ row) :
    h.held b ≤ (row.map fun a => (h.children a).count b).sum := by
  rw [← List.sum_toFinset _ once, held]
  have inside : ∀ a ∈ h.live, h.edges a b = if a ∈ row then (h.children a).count b else 0 := by
    intro a member
    have live := (h.mem_live a).mp member
    by_cases holds : 0 < h.edges a b
    · have drops := reported.drops_eq a b live
      rw [drops.symm, drops, if_pos (all a ⟨live, holds⟩), ← drops, Heap.drops,
        if_pos (reported.traced ⟨live, holds⟩)]
    · have fewer := h.children_le_edges a b
      split <;> omega
  rw [Finset.sum_congr rfl inside, ← Finset.sum_filter]
  apply Finset.sum_le_sum_of_subset
  intro a member
  exact List.mem_toFinset.mpr (Finset.mem_filter.mp member).2

theorem points_of_child (h : Heap) (a b : Addr) (live : h.Live a) (child : b ∈ h.children a) :
    h.Points a b :=
  ⟨live, (List.count_pos_iff.mpr child).trans_le (h.children_le_edges a b)⟩

theorem Reported.child (reported : h.Reported) {a b : Addr} (points : h.Points a b) :
    b ∈ h.children a := by
  have drops := reported.drops_eq a b points.1
  rw [Heap.drops, if_pos (reported.traced points)] at drops
  exact List.count_pos_iff.mp (drops ▸ points.2)

end Heap

namespace Machine

variable {m n : Machine} {p : Pass} {before : Heap} {was owned : Addr → Nat}

/-- A search with room for everything, on a heap whose counts have only fallen since it started. -/
structure Watching (m : Machine) (p : Pass) (before : Heap) (was : Addr → Nat) : Prop where
  searching : m.Searching p
    (fun a count => m.heap.countAt a ≤ count ∧ count ≤ before.countAt a)
    (before.collector.registry.map Candidate.object)
  same : Same Object.shape before m.heap
  registry : m.heap.collector.registry = before.collector.registry
  entries : ∀ entry ∈ before.collector.registry,
    entry.recorded.toNat = before.countAt entry.object
  minimum : p.minimum = 1
  roomy : before.live.card ≤ p.walk.budget
  accurate : before.Exact was
  covered : before.Covered was
  fallen : ∀ a, before.Live a → m.heap.countAt a ≤ before.countAt a
  letGo : ∀ a, before.Live a → m.heap.countAt a < before.countAt a →
    before.tracedAt a = true → before.collector.registry.holds a = true

/-- What a pass may not take for garbage: owned objects, and candidates whose count has moved. -/
def Anchor (m : Machine) (before : Heap) (owned : Addr → Nat) (a : Addr) : Prop :=
  0 < owned a ∨
    m.heap.collector.registry.holds a = true ∧ m.heap.countAt a < before.countAt a

theorem seen_small (h before : Heap) (a : Addr) (count : Nat)
    (seen : h.countAt a ≤ count ∧ count ≤ before.countAt a) : count < Discovery.edgeLimit :=
  seen.2.trans_lt (before.countAt_lt a)

section Found

variable (watching : m.Watching p before was) (found : m.Found p) (accurate : m.heap.Exact owned)
  (tidy : m.Tidy)

include watching

theorem Watching.now (a : Addr) (collectable : m.heap.Collectable a) :
    m.heap.countAt a ≤ m.heap.countAt a ∧ m.heap.countAt a ≤ before.countAt a :=
  ⟨Nat.le_refl _, watching.fallen a ((watching.same.live_iff a).mp collectable.live)⟩

theorem Watching.nodes (a : Addr) (member : a ∈ p.walk.found.nodes) : m.heap.Collectable a := by
  obtain ⟨place, v, there, same⟩ := Discovery.vertex_of_node a member
  exact same ▸ (watching.searching.sound.found.seen place v there).1

theorem Watching.unpinned (place : Nat) (v : Trial.Vertex)
    (there : p.walk.found.vertices[place]? = some v) : v.pinned = false := by
  have sound := watching.searching.sound
  refine sound.roomy ?_ place v there
  have once := Discovery.nodes_nodup sound.found
  have among : p.walk.found.nodes.toFinset ⊆ before.live := by
    intro a member
    rw [Heap.mem_live, ← watching.same.live_iff]
    exact (watching.nodes a (List.mem_toFinset.mp member)).live
  have size : p.walk.found.nodes.toFinset.card = p.walk.found.vertices.size := by
    rw [List.toFinset_card_of_nodup once, Discovery.nodes, List.length_map, Array.length_toList]
  have fewer := Finset.card_le_card among
  have room := watching.roomy
  omega

include found accurate in
/-- No garbage group is refused: what was seen of its members is what they hold of each other, and
so much is held still. -/
theorem Watching.claimed (group : Trial.Group) (isGarbage : group ∈ p.walk.found.verdict.garbage)
    (a : Addr) (inGroup : a ∈ group.map Prod.fst) : a ∈ m.heap.garbage p := by
  have searching := watching.searching
  have members := searching.member found (seen_small m.heap before) group isGarbage
  have once := searching.group_nodup group isGarbage
  have live : ∀ b ∈ group.map Prod.fst, m.heap.Live b := fun b isMember =>
    (searching.group_collectable found (seen_small m.heap before) group isGarbage b isMember).live
  have steady : m.heap.steady group = true := by
    rw [Heap.steady, List.all_eq_true]
    intro member listed
    obtain ⟨collectable, seen, total⟩ := members member listed
    have held := m.heap.sum_children_le (group.map Prod.fst) once live member.1
    have balance := accurate.balanced member.1 collectable.live
    rw [List.map_map] at held
    have enough : member.2 ≤ m.heap.held member.1 := total.trans_le held
    rw [beq_iff_eq]
    omega
  have big : 1 ≤ group.length := Discovery.garbage_inhabited group isGarbage
  refine (Trial.mem_groups _ a).mpr ⟨group, List.mem_filter.mpr ⟨isGarbage, ?_⟩, inGroup⟩
  rw [watching.minimum, steady, Bool.and_true, decide_eq_true_eq]
  exact big

include found tidy

theorem Watching.root_found (a : Addr) (live : m.heap.Live a) (traced : m.heap.tracedAt a = true)
    (listed : before.collector.registry.holds a = true) : a ∈ p.walk.found.nodes := by
  have sound := watching.searching.sound
  have unclaimed := tidy.unclaimed watching.searching.calm a live
  have collectable := (m.heap.collectable_iff a).mpr
    ⟨live, unclaimed, traced, tidy.vital a live unclaimed⟩
  obtain ⟨entry, member, same⟩ := (Heap.holds_iff _ a).mp listed
  rw [Discovery.mem_nodes sound.found]
  exact (sound.finished found.2).roots a (List.mem_map.mpr ⟨entry, member, same⟩) collectable

theorem Watching.child_found (a b : Addr) (member : a ∈ p.walk.found.nodes)
    (child : b ∈ m.heap.children a) (live : m.heap.Live b) (traced : m.heap.tracedAt b = true) :
    b ∈ p.walk.found.nodes := by
  have sound := watching.searching.sound
  have unclaimed := tidy.unclaimed watching.searching.calm b live
  exact Discovery.nodes_closed sound.found (sound.finished found.2) watching.unpinned a b member child
    ((m.heap.collectable_iff b).mpr ⟨live, unclaimed, traced, tidy.vital b live unclaimed⟩)

include accurate

/-- What the search did not find needs no search: it hangs from an owned object. -/
theorem Watching.unfound (a : Addr) (live : m.heap.Live a) (traced : m.heap.tracedAt a = true) :
    a ∈ p.walk.found.nodes ∨ m.heap.Reachable owned a := by
  have alive := watching.same.live_iff
  have known : ∀ b, m.heap.Live b → before.collector.registry.holds b = true →
      b ∈ p.walk.found.nodes ∨ m.heap.Reachable owned b ∨ m.heap.tracedAt b = false := by
    intro b isLive listed
    cases isTraced : m.heap.tracedAt b with
    | false => exact Or.inr (Or.inr rfl)
    | true => exact Or.inl (watching.root_found found tidy b isLive isTraced listed)
  have key : ∀ b, Reached before.Points
      (fun c => 0 < was c ∨ before.collector.registry.holds c = true) b → m.heap.Live b →
      b ∈ p.walk.found.nodes ∨ m.heap.Reachable owned b ∨ m.heap.tracedAt b = false := by
    intro b reached isLive
    induction reached with
    | root source =>
        rename_i b
        rcases source with owns | listed
        · have wasLive := (alive b).mp isLive
          have balance := accurate.balanced b isLive
          have balanceWas := watching.accurate.balanced b wasLive
          rw [watching.same.held] at balance
          rcases Nat.lt_or_eq_of_le (watching.fallen b wasLive) with less | equal
          · -- The reference was let go, so the object is a candidate or holds nothing.
            cases isTraced : m.heap.tracedAt b with
            | false => exact Or.inr (Or.inr rfl)
            | true =>
                have tracedBefore : before.tracedAt b = true := by
                  rw [← watching.same.body_of_shape.tracedAt]
                  exact isTraced
                exact Or.inl (watching.root_found found tidy b isLive isTraced
                  (watching.letGo b wasLive less tracedBefore))
          · exact Or.inr (Or.inl (.root (by omega)))
        · exact known b isLive listed
    | edge first edge ih =>
        rename_i b c
        have points : m.heap.Points b c := (watching.same.points b c).mpr edge
        rcases ih points.1 with isFound | reachable | untraced
        · cases isTraced : m.heap.tracedAt c with
          | false => exact Or.inr (Or.inr rfl)
          | true => exact Or.inl (watching.child_found found tidy b c isFound
              (accurate.reported.child points) isLive isTraced)
        · exact Or.inr (Or.inl (reachable.edge points))
        · rw [accurate.reported.traced points] at untraced
          cases untraced
  rcases key a (watching.covered a ((alive a).mp live)) live with isFound | reachable | untraced
  · exact Or.inl isFound
  · exact Or.inr reachable
  · rw [traced] at untraced
    cases untraced

/-- The verdict on a traced object: it is claimed, or hangs from something that is not. -/
theorem Watching.verdict (a : Addr) (live : m.heap.Live a) (traced : m.heap.tracedAt a = true) :
    a ∈ m.heap.garbage p ∨ Reached m.heap.Points (m.Anchor before owned) a := by
  have sound := watching.searching.sound
  have anchored : ∀ b, m.heap.Reachable owned b →
      Reached m.heap.Points (m.Anchor before owned) b := fun b reachable =>
    reachable.mono (fun _ _ => id) fun _ => Or.inl
  rcases watching.unfound found accurate tidy a live traced with isFound | reachable
  · rcases Discovery.found_or_garbage sound.found (sound.finished found.2) watching.unpinned a isFound
      with ⟨group, isGarbage, inGroup⟩ | ⟨root, count, rootFound, seen, differs, path⟩
    · exact Or.inl (watching.claimed found accurate group isGarbage a inGroup)
    · refine Or.inr (Reached.along ?_ (Relation.ReflTransGen.mono (fun b c edge => ?_) _ _ path))
      · have rootLive := (watching.nodes root rootFound).live
        have once := Discovery.nodes_nodup sound.found
        have fewer := m.heap.sum_children_le p.walk.found.nodes once
          (fun b member => (watching.nodes b member).live) root
        have balance := accurate.balanced root rootLive
        have limit := seen_small m.heap before root count seen
        have other : count ≠ min (p.walk.found.nodes.map fun b => (m.heap.children b).count root).sum
          Discovery.edgeLimit := differs
        rcases Nat.lt_or_eq_of_le
          (watching.fallen root ((watching.same.live_iff root).mp rootLive)) with less | equal
        · -- The count has moved, so the candidate is kept.
          have tracedBefore : before.tracedAt root = true := by
            rw [← watching.same.body_of_shape.tracedAt]
            exact (watching.nodes root rootFound).traced
          have listed := watching.letGo root ((watching.same.live_iff root).mp rootLive) less tracedBefore
          exact .root (Or.inr ⟨watching.registry ▸ listed, less⟩)
        · by_cases owns : 0 < owned root
          · exact .root (Or.inl owns)
          · -- Somebody whom the search did not find holds the root.
            have outside : ∃ b, m.heap.Points b root ∧ b ∉ p.walk.found.nodes := by
              by_contra enclosed
              simp only [not_exists, not_and, not_not] at enclosed
              have all := m.heap.held_le_sum accurate.reported p.walk.found.nodes once root enclosed
              omega
            obtain ⟨b, points, notFound⟩ := outside
            have reachable := (watching.unfound found accurate tidy b points.1
              (accurate.reported.traced points)).resolve_left notFound
            exact (anchored b reachable).edge points
      · exact m.heap.points_of_child b c (watching.nodes b edge.1).live edge.2.2
  · exact Or.inr (anchored a reachable)

theorem Watching.exhaustive (still : m.heap = before) (a : Addr) (live : m.heap.Live a)
    (traced : m.heap.tracedAt a = true) : a ∈ m.heap.garbage p ∨ m.heap.Reachable owned a := by
  refine (watching.verdict found accurate tidy a live traced).imp id fun reached => ?_
  refine reached.mono (fun _ _ => id) fun b anchor => anchor.resolve_right fun moved => ?_
  rw [still] at moved
  exact Nat.lt_irrefl _ moved.2

end Found

theorem Watching.step (watching : m.Watching p before was) :
    m.Found p ∨ ∃ q, m.step.heap = m.heap ∧ m.step.Watching q before was := by
  rcases watching.searching.step watching.now with found | ⟨q, minimum, budget, heap, searching⟩
  · exact Or.inl found
  · refine Or.inr ⟨q, heap, ?_⟩
    constructor
    · rw [heap]
      exact searching
    · rw [heap]
      exact watching.same
    · rw [heap]
      exact watching.registry
    · exact watching.entries
    · exact minimum.trans watching.minimum
    · rw [budget]
      exact watching.roomy
    · exact watching.accurate
    · exact watching.covered
    · rw [heap]
      exact watching.fallen
    · rw [heap]
      exact watching.letGo

/-- A pass loses nothing from sight: what it leaves hangs from owned objects, from the candidates it
keeps, and from its garbage. -/
theorem Watching.covers (watching : m.Watching p before was) (found : m.Found p)
    (accounts : m.Accounts owned) (accurate : m.Exact owned) (tidy : m.Tidy) (orderly : m.Orderly) :
    m.step.Covered owned := by
  obtain ⟨calm, tasks, ended, _⟩ := accounts.ended orderly found
  obtain ⟨_, moved, _⟩ := ended.bits tidy.recorded
  have exactHeap := accurate.heap calm
  have points : ∀ b c, m.heap.Points b c → m.step.Points b c := by
    intro b c edge
    rw [Points, loaded_ended tasks, Heap.mem_live, ended.live, ended.body.edges]
    exact edge
  have sources : ∀ b, m.Anchor before owned b → m.step.Source owned b := by
    intro b anchor
    rcases anchor with owns | ⟨listed, less⟩
    · exact Or.inl owns
    · by_cases isGarbage : b ∈ m.heap.garbage p
      · exact Or.inr (Or.inr (Or.inr ((unloading_ended tasks b).mpr isGarbage)))
      · obtain ⟨entry, member, same⟩ := (Heap.holds_iff _ b).mp listed
        have recorded := watching.entries entry (watching.registry ▸ member)
        subst same
        exact Or.inr (Or.inl (moved entry member isGarbage (by omega)))
  have traced : ∀ b, m.heap.Live b → m.heap.tracedAt b = true →
      Reached m.step.Points (m.step.Source owned) b := by
    intro b live isTraced
    rcases watching.verdict found exactHeap tidy b live isTraced with isGarbage | reached
    · exact .root (Or.inr (Or.inr (Or.inr ((unloading_ended tasks b).mpr isGarbage))))
    · exact reached.mono points sources
  intro a live _
  have wasLive := (ended.live a).mp live
  cases isTraced : m.heap.tracedAt a with
  | true => exact traced a wasLive isTraced
  | false =>
      have positive := tidy.vital a wasLive (tidy.unclaimed calm a wasLive)
      rw [exactHeap.balanced a wasLive] at positive
      by_cases owns : 0 < owned a
      · exact .root (Or.inl owns)
      · have held : 0 < m.heap.held a := by omega
        obtain ⟨b, edge⟩ := (m.heap.held_pos_iff a).mp held
        exact (traced b edge.1 (exactHeap.reported.traced edge)).edge (points b a edge)

theorem watching_collect (idle : m.idle = true) (accurate : m.heap.Exact owned) (tidy : m.heap.Tidy)
    (covered : m.heap.Covered owned) (minimum : m.heap.collector.settings.minimum = 1)
    (roomy : m.heap.live.card ≤ m.heap.collector.settings.budget) :
    m.collect.Watching m.heap.startPass.1 m.collect.heap owned := by
  have searching := collect_searching idle fun a count =>
    m.collect.heap.countAt a ≤ count ∧ count ≤ m.collect.heap.countAt a
  constructor
  · exact searching
  · exact Same.refl _
  · rfl
  · exact fun entry member => m.heap.startPass_entries entry member
  · exact minimum
  · exact roomy
  · exact ⟨accurate.reported, accurate.balanced⟩
  · -- Candidates that are dead have left the registry, but they held nothing.
    intro a live
    have reached := covered a live
    induction reached with
    | root source =>
        rename_i b
        refine .root (source.imp id fun listed => ?_)
        exact (m.heap.startPass_registry b).mpr ⟨listed, live, tidy.unclaimed b live⟩
    | edge before edge ih => exact .edge (ih edge.1) edge
  · exact fun a _ => Nat.le_refl _
  · exact fun a _ less => absurd less (Nat.lt_irrefl _)

end Machine

end CountedHeap
