import CountedHeap.Proofs.Trial.Isolation

/-!
The garbage groups are the connected components of the garbage, edges taken in either direction.
Garbage is what was found and is kept alive by nothing: no place that is held from outside or
pinned leads there. How the groups come about, by sweeps over lists of neighbours, does not show
in the statement; only their order does.
-/

namespace CountedHeap.Trial

namespace Discovery

variable {collectable : Node → Prop} {counted : Node → Nat → Prop} {kids : Node → List Node}
  {roots : List Node} {d : Discovery}

theorem dead_of_leads {source place : Nat} (leads : d.Leads source place) (dead : d.Dead place) :
    d.Dead source := by
  induction leads with
  | here inside => exact dead
  | step before edge inside ih =>
      rename_i middle target
      apply ih
      apply (judged d).backward middle target dead _ edge
      by_contra beyond
      have missing : d.vertices[middle]? = none := by simp at beyond ⊢; exact beyond
      simp [childrenAt, missing] at edge

theorem dead_iff (place : Nat) :
    d.Dead place ↔ place < d.vertices.size ∧ ∀ source ∈ d.held, ¬ d.Leads source place := by
  constructor
  · intro dead
    refine ⟨(judged d).size ▸ Sweep.fresh_inside _ _ dead, ?_⟩
    intro source isHeld leads
    obtain ⟨v, there, why⟩ := (mem_held d source).mp isHeld
    obtain ⟨u, same, unpinned, balance⟩ := (judged d).balanced source (dead_of_leads leads dead)
    rw [there, Option.some.injEq] at same
    subst same
    rcases why with pinned | differs
    · rw [unpinned] at pinned
      cases pinned
    · exact differs balance
  · rintro ⟨inside, unheld⟩
    by_contra alive
    obtain ⟨source, isHeld, leads⟩ := (judged d).reached place inside alive
    exact unheld source isHeld leads

def Unmarked (d : Discovery) (node : Node) : Prop :=
  ∃ (place : Nat) (v : Vertex), d.vertices[place]? = some v ∧ v.node = node ∧ v.pinned = false ∧
    ∀ source ∈ d.held, ¬ d.Leads source place

/-- An edge between two unmarked nodes, whichever way it runs. -/
def Adjacent (kids : Node → List Node) (d : Discovery) (x y : Node) : Prop :=
  d.Unmarked x ∧ d.Unmarked y ∧ (y ∈ kids x ∨ x ∈ kids y)

instance : Std.Symm (d.Adjacent kids) :=
  ⟨fun _ _ adjacent => ⟨adjacent.2.1, adjacent.1, adjacent.2.2.symm⟩⟩

theorem unmarked_iff (node : Node) :
    d.Unmarked node ↔ ∃ (place : Nat) (v : Vertex), d.vertices[place]? = some v ∧
      v.node = node ∧ d.Dead place := by
  constructor
  · rintro ⟨place, v, there, same, _, unheld⟩
    exact ⟨place, v, there, same,
      (dead_iff place).mpr ⟨(Array.getElem?_eq_some_iff.mp there).1, unheld⟩⟩
  · rintro ⟨place, v, there, same, dead⟩
    obtain ⟨u, isThere, unpinned, _⟩ := (judged d).balanced place dead
    rw [there, Option.some.injEq] at isThere
    subst isThere
    exact ⟨place, v, there, same, unpinned, ((dead_iff place).mp dead).2⟩

/-- Two dead places are neighbours when there is an edge between their nodes. -/
theorem mem_beside_iff (sound : d.Sound collectable counted)
    (finished : Walk.Finished collectable kids roots d) (place other : Nat) (v u : Vertex)
    (there : d.vertices[place]? = some v) (isThere : d.vertices[other]? = some u)
    (dead : d.Dead place) (otherDead : d.Dead other) :
    other ∈ d.beside place ↔ other ≠ place ∧ (u.node ∈ kids v.node ∨ v.node ∈ kids u.node) := by
  have edges : ∀ (p q : Nat) (w x : Vertex), d.vertices[p]? = some w → d.vertices[q]? = some x →
      d.Dead p → (q ∈ d.childrenAt p ↔ x.node ∈ kids w.node) := by
    intro p q w x atP atQ deadP
    obtain ⟨w', same, whole, _⟩ := dead_whole finished p deadP
    rw [atP, Option.some.injEq] at same
    subst same
    rw [childrenAt_of_vertex w p atP, ← List.count_pos_iff, whole_count sound w x q whole atQ,
      List.count_pos_iff]
  rw [mem_beside d place other (Array.getElem?_eq_some_iff.mp there).1, mem_deadEdges,
    mem_deadEdges, edges place other v u there isThere dead,
    edges other place u v isThere there otherDead]
  simp only [dead, otherDead, true_and]
  rw [ne_comm (a := place), ← and_or_left]

theorem dead_of_beside (place other : Nat) (inside : place < d.vertices.size)
    (edge : other ∈ d.beside place) : d.Dead place ∧ d.Dead other := by
  rcases (mem_beside d place other inside).mp edge with out | back
  · obtain ⟨dead, otherDead, _⟩ := (mem_deadEdges d place other).mp out
    exact ⟨dead, otherDead⟩
  · obtain ⟨otherDead, dead, _⟩ := (mem_deadEdges d other place).mp back
    exact ⟨dead, otherDead⟩

theorem beside_joined (sound : d.Sound collectable counted)
    (finished : Walk.Finished collectable kids roots d) (place other : Nat) (v : Vertex)
    (there : d.vertices[place]? = some v) (dead : d.Dead place)
    (path : Relation.ReflTransGen (fun x y => y ∈ d.beside x) place other) :
    ∃ u, d.vertices[other]? = some u ∧ d.Dead other ∧
      Relation.ReflTransGen (d.Adjacent kids) v.node u.node := by
  induction path with
  | refl => exact ⟨v, there, dead, .refl⟩
  | tail before edge ih =>
      rename_i middle target
      obtain ⟨w, atMiddle, middleDead, joined⟩ := ih
      obtain ⟨_, targetDead⟩ :=
        dead_of_beside middle target (Array.getElem?_eq_some_iff.mp atMiddle).1 edge
      obtain ⟨u, atTarget, _⟩ := dead_whole finished target targetDead
      refine ⟨u, atTarget, targetDead, joined.tail ⟨?_, ?_, ?_⟩⟩
      · exact (unmarked_iff _).mpr ⟨middle, w, atMiddle, rfl, middleDead⟩
      · exact (unmarked_iff _).mpr ⟨target, u, atTarget, rfl, targetDead⟩
      · exact ((mem_beside_iff sound finished middle target w u atMiddle atTarget middleDead
          targetDead).mp edge).2

theorem mem_places (places : List Nat) (node : Node) :
    node ∈ (places.filterMap d.entry).map Prod.fst ↔
      ∃ place ∈ places, ∃ v, d.vertices[place]? = some v ∧ v.node = node := by
  rw [List.mem_map]
  constructor
  · rintro ⟨m, member, same⟩
    obtain ⟨place, here, v, there, equal⟩ := (mem_entries places m).mp member
    subst equal
    exact ⟨place, here, v, there, same⟩
  · rintro ⟨place, here, v, there, same⟩
    exact ⟨(v.node, v.count), (mem_entries places _).mpr ⟨place, here, v, there, rfl⟩, same⟩

theorem mem_garbage (node : Node) :
    node ∈ d.verdict.garbage.flatten.map Prod.fst ↔ d.Unmarked node := by
  obtain ⟨groups, listed, grouped⟩ := garbage_grouped d
  rw [listed, ← List.filterMap_flatten, mem_places, unmarked_iff]
  constructor
  · rintro ⟨place, here, v, there, same⟩
    exact ⟨place, v, there, same, grouped.fresh place here⟩
  · rintro ⟨place, v, there, same, dead⟩
    have inside := (Array.getElem?_eq_some_iff.mp there).1
    exact ⟨place, grouped.covers place (List.mem_range.mpr inside) dead, v, there, same⟩

/-- A group is all that is joined to any one of its nodes. -/
theorem group_component (sound : d.Sound collectable counted)
    (finished : Walk.Finished collectable kids roots d) (group : Group)
    (isGarbage : group ∈ d.verdict.garbage) (x y : Node) (member : x ∈ group.map Prod.fst) :
    y ∈ group.map Prod.fst ↔ Relation.ReflTransGen (d.Adjacent kids) x y := by
  obtain ⟨groups, listed, grouped, led⟩ := garbage_led d
  rw [listed, List.mem_map] at isGarbage
  obtain ⟨places, inGroups, rfl⟩ := isGarbage
  obtain ⟨seed, seedIn, linked⟩ := led.linked places inGroups
  have deadAll : ∀ q ∈ places, d.Dead q := fun q inPlaces =>
    grouped.fresh q (List.mem_flatten_of_mem inGroups inPlaces)
  obtain ⟨s, atSeed, _⟩ := dead_whole finished seed (deadAll seed seedIn)
  have fromSeed : ∀ node ∈ (places.filterMap d.entry).map Prod.fst,
      Relation.ReflTransGen (d.Adjacent kids) s.node node := by
    intro node isIn
    obtain ⟨place, here, v, there, same⟩ := (mem_places places node).mp isIn
    obtain ⟨u, isThere, _, joined⟩ :=
      beside_joined sound finished seed place s atSeed (deadAll seed seedIn) (linked place here)
    rw [there, Option.some.injEq] at isThere
    subst isThere
    exact same ▸ joined
  constructor
  · intro other
    have back := Relation.ReflTransGen.stdSymm.symm _ _ (fromSeed x member)
    exact back.trans (fromSeed y other)
  · intro path
    induction path with
    | refl => exact member
    | tail before edge ih =>
        rename_i middle target
        obtain ⟨p, here, v, atP, rfl⟩ := (mem_places places middle).mp ih
        obtain ⟨q, u, atQ, rfl, deadQ⟩ := (unmarked_iff target).mp edge.2.1
        rw [mem_places]
        by_cases same : q = p
        · exact ⟨q, same ▸ here, u, atQ, rfl⟩
        · have adjacent := (mem_beside_iff sound finished p q v u atP atQ (deadAll p here)
            deadQ).mpr ⟨same, edge.2.2⟩
          exact ⟨q, grouped.closed places inGroups p here q adjacent deadQ, u, atQ, rfl⟩

theorem sublist_nodes (p q : Nat) (v u : Vertex) (before : p < q)
    (atP : d.vertices[p]? = some v) (atQ : d.vertices[q]? = some u) :
    [v.node, u.node].Sublist d.nodes := by
  have first : v.node ∈ d.nodes.take q := by
    refine List.mem_iff_getElem?.mpr ⟨p, ?_⟩
    simp [nodes, before, atP]
  have second : u.node ∈ d.nodes.drop q := by
    refine List.mem_iff_getElem?.mpr ⟨0, ?_⟩
    simp [nodes, atQ]
  have both := (List.singleton_sublist.mpr first).append (List.singleton_sublist.mpr second)
  rwa [List.take_append_drop] at both

/-- The first node found of a group comes before all nodes of the groups behind it. -/
theorem garbage_ordered (finished : Walk.Finished collectable kids roots d) :
    d.verdict.garbage.Pairwise fun before after => ∃ first ∈ before.map Prod.fst,
      ∀ other ∈ after.map Prod.fst, [first, other].Sublist d.nodes := by
  obtain ⟨groups, listed, grouped, led⟩ := garbage_led d
  rw [listed, List.pairwise_map]
  refine led.ordered.imp_of_mem ?_
  rintro before after inGroups _ ⟨p, here, earlier⟩
  obtain ⟨v, there, _⟩ :=
    dead_whole finished p (grouped.fresh p (List.mem_flatten_of_mem inGroups here))
  refine ⟨v.node, (mem_places before _).mpr ⟨p, here, v, there, rfl⟩, ?_⟩
  intro other isIn
  obtain ⟨q, later, u, isThere, rfl⟩ := (mem_places after other).mp isIn
  exact sublist_nodes p q v u (earlier q later) there isThere

end Discovery

/-- For every graph, all roots and any budget, the groups part the nodes that were found and are
neither pinned nor kept alive: each is in one group, once, with the count it has. Two of them share
a group when a path of edges through such nodes joins them, in whichever direction the edges run.
No group is empty, and the groups come in the order in which their first nodes were found. -/
theorem analyze_components (g : Graph) (roots : List Node) (budget : Nat) :
    let found := (Walk.run g { budget, roots }).found
    let groups := (analyze g roots budget).garbage
    (analyze g roots budget).members.Nodup ∧
    (∀ node, node ∈ (analyze g roots budget).members ↔ found.Unmarked node) ∧
    (∀ m ∈ groups.flatten, g.look m.1 = .live m.2) ∧
    (∀ group ∈ groups, group ≠ [] ∧ ∀ x ∈ group.map Prod.fst, ∀ y,
      y ∈ group.map Prod.fst ↔ Relation.ReflTransGen (found.Adjacent g.children) x y) ∧
    groups.Pairwise fun before after => ∃ first ∈ before.map Prod.fst,
      ∀ other ∈ after.map Prod.fst, [first, other].Sublist found.nodes := by
  intro found groups
  obtain ⟨sound, done⟩ := Walk.run_sound g { budget, roots } (Walk.start_sound budget)
  have finished := sound.finished done
  refine ⟨members_nodup g roots budget, Discovery.mem_garbage, ?_, ?_,
    Discovery.garbage_ordered finished⟩
  · intro m member
    obtain ⟨group, isGarbage, inGroup⟩ := List.mem_flatten.mp member
    exact (Discovery.garbage_balance sound.found finished group isGarbage m inGroup).2.1
  · intro group isGarbage
    refine ⟨List.length_pos_iff.mp (Discovery.garbage_inhabited group isGarbage), ?_⟩
    intro x member y
    exact Discovery.group_component sound.found finished group isGarbage x y member

end CountedHeap.Trial
