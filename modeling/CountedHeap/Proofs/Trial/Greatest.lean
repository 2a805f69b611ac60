import CountedHeap.Proofs.Trial.Exact

/-!
The garbage as the greatest set that accounts for itself. With room for all that can be reached, its
members are live nodes that are counted no more often than they have edges to each other, and every
other such set is a part of theirs. So if some groups of it go and the rest is left, nothing new
turns to garbage where they led: an analysis that starts there finds none.
-/

namespace CountedHeap.Trial

variable {g rest : Graph} {roots : List Node} {row members : Finset Node} {budget : Nat}

namespace Graph

theorem SelfHeld.insert {node : Node} (selfHeld : g.SelfHeld row) (count : Nat)
    (seen : g.look node = .live count) (few : count ≤ g.into row node) :
    g.SelfHeld (insert node row) := by
  have more := fun x => g.into_mono (Finset.subset_insert node row) x
  intro x isOne
  rcases Finset.mem_insert.mp isOne with rfl | member
  · exact ⟨count, seen, few.trans (more x)⟩
  · obtain ⟨other, found, enough⟩ := selfHeld x member
    exact ⟨other, found, enough.trans (more x)⟩

end Graph

section Members

variable (g roots budget)

theorem member_reached (node : Node) (member : node ∈ (analyze g roots budget).members) :
    g.Reached roots node := by
  have start : Walk.Sound g.Live (fun node count => g.look node = .live count) g.children roots
      { budget, roots } := Walk.start_sound budget
  obtain ⟨sound, _⟩ := Walk.run_sound g _ start
  have confined := Walk.run_confined g _ start (Walk.start_confined g roots budget)
  obtain ⟨place, v, there, rfl, _⟩ := (Discovery.mem_garbage node).mp member
  exact confined.found _
    ((Discovery.mem_nodes sound.found _).mp (Discovery.node_of_vertex place v there))

/-- Where there is garbage, a root is garbage: whatever leads to a member is one. -/
theorem root_member (counted : g.Counted) (node : Node)
    (member : node ∈ (analyze g roots budget).members) :
    ∃ root ∈ roots, root ∈ (analyze g roots budget).members := by
  induction member_reached g roots budget node member with
  | root isRoot live => exact ⟨_, isRoot, member⟩
  | step before edge live ih =>
      exact ih (edge_member counted roots budget _ _ ⟨before.live, edge⟩ member)

/-- With room for all nodes that the roots reach, the garbage is the greatest set of them that accounts
for itself. -/
theorem analyze_greatest (counted : g.Counted)
    (small : ∀ node count, g.look node = .live count → count < Discovery.edgeLimit)
    (reach : Finset Node) (exactly : ∀ node, node ∈ reach ↔ g.Reached roots node)
    (room : reach.card ≤ budget) :
    IsGreatest {row | g.SelfHeld row ∧ ∀ node ∈ row, g.Reached roots node}
      (analyze g roots budget).members.toFinset := by
  refine ⟨⟨members_selfHeld counted roots budget, fun node member =>
    member_reached g roots budget node (List.mem_toFinset.mp member)⟩, ?_⟩
  rintro row ⟨selfHeld, reached⟩ a member
  have alive : ∀ x ∈ reach, g.Live x := fun x isIn => ((exactly x).mp isIn).live
  have few : ∀ node ∈ reach, g.into reach node ≤ Discovery.edgeLimit := by
    intro node isIn
    obtain ⟨count, seen⟩ := alive node isIn
    exact (counted node count seen reach alive).trans (small node count seen).le
  rw [List.mem_toFinset, members_exact g roots reach exactly budget room few]
  refine ⟨(exactly a).mpr (reached a member), fun u isIn count seen differs path => ?_⟩
  -- A path to a member runs inside the set from its start on.
  have inside : ∀ x, Relation.ReflTransGen
      (fun x y => x ∈ reach ∧ y ∈ reach ∧ y ∈ g.children x) x a → x ∈ row := by
    intro x leads
    induction leads using Relation.ReflTransGen.head_induction_on with
    | refl => exact member
    | head edge later ih => exact selfHeld.source counted ⟨alive _ edge.1, edge.2.2⟩ ih
  obtain ⟨other, found, enough⟩ := selfHeld u (inside u path)
  rw [seen, Look.live.injEq] at found
  have within : row ⊆ reach := fun x inRow => (exactly x).mpr (reached x inRow)
  have most := counted u count seen reach alive
  have part := g.into_mono within u
  omega

end Members

/-- A part of the garbage that no edge joins to the rest of it. -/
structure Severed (g : Graph) (members row : Finset Node) : Prop where
  within : row ⊆ members
  joined : ∀ a ∈ row, ∀ b ∈ members, b ∈ g.children a ∨ a ∈ g.children b → b ∈ row

theorem groups_severed (g : Graph) (roots : List Node) (budget : Nat) (chosen : Group → Bool) :
    Severed g (analyze g roots budget).members.toFinset
      (((analyze g roots budget).garbage.filter chosen).flatten.map Prod.fst).toFinset := by
  obtain ⟨sound, done⟩ := Walk.run_sound g { budget, roots } (Walk.start_sound budget)
  constructor
  · intro a member
    rw [List.mem_toFinset, mem_groups] at member
    obtain ⟨group, isChosen, inGroup⟩ := member
    exact List.mem_toFinset.mpr
      ((mem_groups _ a).mpr ⟨group, (List.mem_filter.mp isChosen).1, inGroup⟩)
  · intro a member b isMember edge
    rw [List.mem_toFinset, mem_groups] at member
    obtain ⟨group, isChosen, inGroup⟩ := member
    have isGroup := (List.mem_filter.mp isChosen).1
    have unmarked : ∀ x ∈ (analyze g roots budget).members,
        (Walk.run g { budget, roots }).found.Unmarked x := fun x => (Discovery.mem_garbage x).mp
    have here := unmarked a ((mem_groups _ a).mpr ⟨group, isGroup, inGroup⟩)
    have there := unmarked b (List.mem_toFinset.mp isMember)
    have joined := (Discovery.group_component sound.found (sound.finished done) group isGroup a b
      inGroup).mpr (.single ⟨here, there, edge⟩)
    exact List.mem_toFinset.mpr ((mem_groups _ b).mpr ⟨group, isChosen, joined⟩)

namespace Severed

variable (severed : Severed g members row)

include severed

theorem selfHeld (selfHeld : g.SelfHeld members) : g.SelfHeld row := by
  intro a member
  obtain ⟨count, seen, few⟩ := selfHeld a (severed.within member)
  have same : g.into row a = g.into members a := by
    refine Finset.sum_subset severed.within fun x isMember outside => ?_
    rw [List.count_eq_zero]
    exact fun edge => outside (severed.joined a member x isMember (Or.inr edge))
  exact ⟨count, seen, few.trans same.ge⟩

variable (greatest : IsGreatest {row | g.SelfHeld row ∧ ∀ node ∈ row, g.Reached roots node} members)

include greatest

/-- What the part leads to and does not contain is counted more often than the part has edges to it. -/
theorem beyond {a node : Node} (member : a ∈ row) (edge : node ∈ g.children a) (outside : node ∉ row)
    (count : Nat) (seen : g.look node = .live count) : g.into row node < count := by
  by_contra enough
  have reached : ∀ x ∈ insert node row, g.Reached roots x := by
    intro x isOne
    rcases Finset.mem_insert.mp isOne with rfl | inRow
    · exact (greatest.1.2 a (severed.within member)).step edge ⟨count, seen⟩
    · exact greatest.1.2 x (severed.within inRow)
  have selfHeld := (severed.selfHeld greatest.1.1).insert count seen (not_lt.mp enough)
  have isMember := greatest.2 ⟨selfHeld, reached⟩ (Finset.mem_insert_self node row)
  exact outside (severed.joined a member node isMember (Or.inl edge))

end Severed

/-- What is left of a graph when some nodes are gone, with all the edges they had. -/
structure Graph.Without (g : Graph) (row : Finset Node) (rest : Graph) : Prop where
  look : ∀ node count, rest.look node = .live count →
    node ∉ row ∧ g.look node = .live (count + g.into row node)
  children : ∀ node, rest.Live node → rest.children node = g.children node

namespace Graph.Without

variable (without : g.Without row rest)

include without

theorem live {node : Node} (live : rest.Live node) : node ∉ row ∧ g.Live node := by
  obtain ⟨count, seen⟩ := live
  obtain ⟨outside, was⟩ := without.look node count seen
  exact ⟨outside, _, was⟩

theorem selfHeld {found : Finset Node} (gone : g.SelfHeld row) (left : rest.SelfHeld found) :
    g.SelfHeld (row ∪ found) := by
  intro x isOne
  rcases Finset.mem_union.mp isOne with inRow | inFound
  · obtain ⟨count, seen, few⟩ := gone x inRow
    exact ⟨count, seen, few.trans (g.into_mono Finset.subset_union_left x)⟩
  · obtain ⟨count, seen, few⟩ := left x inFound
    obtain ⟨_, was⟩ := without.look x count seen
    have apart : Disjoint row found := Finset.disjoint_right.mpr fun y isLeft =>
      (without.live (left.live y isLeft)).1
    have same : rest.into found x = g.into found x := Finset.sum_congr rfl fun y isLeft => by
      rw [without.children y (left.live y isLeft)]
    have both : g.into (row ∪ found) x = g.into row x + g.into found x := Finset.sum_union apart
    exact ⟨_, was, by omega⟩

variable (severed : Severed g members row)
  (greatest : IsGreatest {row | g.SelfHeld row ∧ ∀ node ∈ row, g.Reached roots node} members)
  {others : List Node}
  (near : ∀ root ∈ others, rest.Live root → ∃ a ∈ row, root ∈ g.children a)

include severed greatest near

theorem reached {node : Node} (reached : rest.Reached others node) : g.Reached roots node := by
  induction reached with
  | root isRoot live =>
      obtain ⟨a, inRow, edge⟩ := near _ isRoot live
      exact (greatest.1.2 a (severed.within inRow)).step edge (without.live live).2
  | step before edge live ih =>
      rw [without.children _ before.live] at edge
      exact ih.step edge (without.live live).2

/-- Nothing is garbage among what the nodes that are gone led to. -/
theorem quiet (counted : rest.Counted) (budget : Nat) : (analyze rest others budget).members = [] := by
  by_contra something
  obtain ⟨node, member⟩ := List.exists_mem_of_ne_nil _ something
  obtain ⟨root, isRoot, isGarbage⟩ := root_member rest others budget counted node member
  have left := members_selfHeld counted others budget
  have selfHeld := without.selfHeld (severed.selfHeld greatest.1.1) left
  have found : root ∈ (analyze rest others budget).members.toFinset := List.mem_toFinset.mpr isGarbage
  have reached : ∀ x ∈ row ∪ (analyze rest others budget).members.toFinset, g.Reached roots x := by
    intro x isOne
    rcases Finset.mem_union.mp isOne with inRow | inFound
    · exact greatest.1.2 x (severed.within inRow)
    · exact without.reached severed greatest near
        (member_reached rest others budget x (List.mem_toFinset.mp inFound))
  -- The root was garbage before, with an edge from what is gone; so it would be gone as well.
  have before := greatest.2 ⟨selfHeld, reached⟩ (Finset.mem_union_right row found)
  obtain ⟨a, inRow, edge⟩ := near root isRoot (left.live root found)
  exact (without.live (left.live root found)).1 (severed.joined a inRow root before (Or.inl edge))

end Graph.Without

end CountedHeap.Trial
