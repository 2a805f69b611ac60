import CountedHeap.Proofs.Trial.Garbage
import CountedHeap.Proofs.Trial.Search

/-!
What the verdict on a finished walk says about the graph itself. Each member of a garbage group was
seen with exactly as many references as its own group holds of it. A node that is in no group hangs
from a node that was seen with another count than the nodes found can account for.
-/

namespace CountedHeap.Trial

theorem mem_groups (groups : List Group) (node : Node) :
    node ∈ groups.flatten.map Prod.fst ↔ ∃ group ∈ groups, node ∈ group.map Prod.fst := by
  simp only [List.map_flatten, List.mem_flatten, List.mem_map (l := groups),
    exists_exists_and_eq_and]

namespace Discovery

variable {collectable : Node → Prop} {counted : Node → Nat → Prop} {kids : Node → List Node}
  {roots : List Node} {d : Discovery}

def nodes (d : Discovery) : List Node := d.vertices.toList.map Vertex.node

theorem mem_nodes (sound : d.Sound collectable counted) (node : Node) :
    node ∈ d.nodes ↔ (d.index[node]?).isSome := by
  rw [nodes, List.mem_map, Option.isSome_iff_exists]
  constructor
  · rintro ⟨v, member, same⟩
    obtain ⟨place, there⟩ := List.mem_iff_getElem?.mp member
    rw [Array.getElem?_toList] at there
    exact ⟨place, (sound.indexed node place).mpr (by rw [there, Option.map_some, same])⟩
  · rintro ⟨place, found⟩
    obtain ⟨v, there, same⟩ := Option.map_eq_some_iff.mp ((sound.indexed node place).mp found)
    exact ⟨v, Array.mem_toList_iff.mpr (Array.mem_of_getElem? there), same⟩

theorem nodes_nodup (sound : d.Sound collectable counted) : d.nodes.Nodup := by
  rw [List.nodup_iff_getElem?_ne_getElem?]
  intro i j before inside equal
  rw [nodes, List.getElem?_map, List.getElem?_map, Array.getElem?_toList, Array.getElem?_toList]
    at equal
  rw [nodes, List.length_map, Array.length_toList] at inside
  have named : (d.vertices[j]?).map Vertex.node = some d.vertices[j].node := by
    rw [Array.getElem?_eq_getElem inside, Option.map_some]
  have first := (sound.indexed _ i).mpr (equal.trans named)
  have second := (sound.indexed _ j).mpr named
  rw [first, Option.some.injEq] at second
  omega

theorem vertex_of_node (node : Node) (found : node ∈ d.nodes) :
    ∃ (place : Nat) (v : Vertex), d.vertices[place]? = some v ∧ v.node = node := by
  obtain ⟨v, member, same⟩ := List.mem_map.mp found
  obtain ⟨place, there⟩ := List.mem_iff_getElem?.mp member
  rw [Array.getElem?_toList] at there
  exact ⟨place, v, there, same⟩

theorem node_of_vertex (place : Nat) (v : Vertex) (there : d.vertices[place]? = some v) :
    v.node ∈ d.nodes :=
  List.mem_map.mpr ⟨v, Array.mem_toList_iff.mpr (Array.mem_of_getElem? there), rfl⟩

theorem nodes_closed (sound : d.Sound collectable counted)
    (finished : Walk.Finished collectable kids roots d)
    (unpinned : ∀ (place : Nat) (v : Vertex), d.vertices[place]? = some v → v.pinned = false)
    (node child : Node) (found : node ∈ d.nodes) (isChild : child ∈ kids node)
    (may : collectable child) : child ∈ d.nodes := by
  obtain ⟨place, v, there, same⟩ := vertex_of_node node found
  rcases finished.expanded place v there with whole | ⟨_, pinned⟩
  · rw [mem_nodes sound]
    exact whole.2 child (same ▸ isChild) may
  · rw [unpinned place v there] at pinned
    cases pinned

/-- An expanded vertex has one edge to a place for each reference to the node there. -/
theorem whole_count (sound : d.Sound collectable counted) (v u : Vertex) (place : Nat)
    (whole : d.Whole collectable kids v) (there : d.vertices[place]? = some u) :
    v.children.count place = (kids v.node).count u.node := by
  rw [whole.1, List.count_filterMap, List.count]
  apply List.countP_congr
  intro child _
  rw [beq_iff_eq, beq_iff_eq, sound.indexed, there, Option.map_some, Option.some.injEq]
  exact eq_comm

theorem childrenAt_of_vertex (v : Vertex) (place : Nat) (there : d.vertices[place]? = some v) :
    d.childrenAt place = v.children := by
  simp [childrenAt, there]

theorem edgesInto_eq_sum (d : Discovery) (place : Nat) :
    d.edgesInto place =
      ((List.range d.vertices.size).map fun q => (d.childrenAt q).count place).sum := by
  rw [edgesInto]
  congr 1
  apply List.ext_getElem?
  intro q
  rw [List.getElem?_map, List.getElem?_map, Array.getElem?_toList]
  by_cases inside : q < d.vertices.size
  · have there := Array.getElem?_eq_getElem inside
    rw [there, List.getElem?_range inside, Option.map_some, Option.map_some,
      childrenAt_of_vertex _ q there]
  · simp [inside]

/-- A dead place was expanded: nothing that is pinned is dead. -/
theorem dead_whole (finished : Walk.Finished collectable kids roots d) (place : Nat)
    (dead : d.Dead place) : ∃ v, d.vertices[place]? = some v ∧ d.Whole collectable kids v ∧
      v.count = min (d.edgesInto place) edgeLimit := by
  obtain ⟨v, there, unpinned, balance⟩ := (judged d).balanced place dead
  rcases finished.expanded place v there with whole | ⟨_, pinned⟩
  · exact ⟨v, there, whole, balance⟩
  · rw [unpinned] at pinned
    cases pinned

theorem edgesInto_group {groups : List (List Nat)} {seeds : List Nat}
    (grouped : Grouped d.beside seeds d.live groups)
    (group : List Nat) (member : group ∈ groups) (place : Nat) (here : place ∈ group) :
    d.edgesInto place = (group.map fun q => (d.childrenAt q).count place).sum := by
  have once : group.Nodup := (List.nodup_flatten.mp grouped.once).1 group member
  have dead : d.Dead place := grouped.fresh place (List.mem_flatten_of_mem member here)
  have inside : place < d.vertices.size := by
    rw [← (judged d).size]
    exact Sweep.fresh_inside _ _ dead
  rw [edgesInto_eq_sum, ← List.sum_toFinset _ List.nodup_range, ← List.sum_toFinset _ once]
  symm
  apply Finset.sum_subset
  · intro q inGroup
    rw [List.mem_toFinset] at inGroup ⊢
    have qDead := grouped.fresh q (List.mem_flatten_of_mem member inGroup)
    rw [List.mem_range, ← (judged d).size]
    exact Sweep.fresh_inside _ _ qDead
  · intro q inRange outside
    rw [List.mem_toFinset, List.mem_range] at inRange
    rw [List.mem_toFinset] at outside
    rw [List.count_eq_zero]
    intro edge
    have qDead := (judged d).backward q place dead inRange edge
    have apart : place ≠ q := fun same => outside (same ▸ here)
    have adjacent : q ∈ d.beside place := (mem_beside d place q inside).mpr
      (Or.inr ((mem_deadEdges d q place).mpr ⟨qDead, dead, apart, edge⟩))
    exact outside (grouped.closed group member place here q adjacent qDead)

theorem garbage_places (group : Group) (member : group ∈ d.verdict.garbage) :
    ∃ groups places, Grouped d.beside (List.range d.vertices.size) d.live groups ∧
      places ∈ groups ∧ group = places.filterMap d.entry := by
  obtain ⟨groups, listed, grouped⟩ := garbage_grouped d
  rw [listed, List.mem_map] at member
  obtain ⟨places, inGroups, same⟩ := member
  exact ⟨groups, places, grouped, inGroups, same.symm⟩

theorem mem_entries (places : List Nat) (m : Node × Nat) :
    m ∈ places.filterMap d.entry ↔
      ∃ place ∈ places, ∃ v, d.vertices[place]? = some v ∧ m = (v.node, v.count) := by
  simp only [List.mem_filterMap, entry, Option.map_eq_some_iff]
  constructor
  · rintro ⟨place, member, v, there, same⟩
    exact ⟨place, member, v, there, same.symm⟩
  · rintro ⟨place, member, v, there, same⟩
    exact ⟨place, member, v, there, same.symm⟩

theorem references_of_dead (sound : d.Sound collectable counted)
    (finished : Walk.Finished collectable kids roots d) (place : Nat) (v : Vertex)
    (there : d.vertices[place]? = some v) (row : List Nat) (dead : ∀ q ∈ row, d.Dead q) :
    (row.map fun q => (d.childrenAt q).count place).sum =
      ((row.filterMap d.entry).map fun other => (kids other.1).count v.node).sum := by
  induction row with
  | nil => rfl
  | cons q rest ih =>
      obtain ⟨w, isThere, whole, _⟩ := dead_whole finished q (dead q List.mem_cons_self)
      have entry : d.entry q = some (w.node, w.count) := by simp [Discovery.entry, isThere]
      rw [List.map_cons, List.sum_cons, List.filterMap_cons, entry,
        childrenAt_of_vertex w q isThere, whole_count sound w v place whole there,
        ih fun p later => dead p (List.mem_cons_of_mem q later)]
      rfl

/-- A member of a garbage group was seen with as many references as the group holds of it, as far as
the counter of edges goes. -/
theorem garbage_balance (sound : d.Sound collectable counted)
    (finished : Walk.Finished collectable kids roots d)
    (group : Group) (member : group ∈ d.verdict.garbage) (m : Node × Nat) (inGroup : m ∈ group) :
    collectable m.1 ∧ counted m.1 m.2 ∧
      m.2 = min (group.map fun other => (kids other.1).count m.1).sum edgeLimit := by
  obtain ⟨groups, places, grouped, inGroups, same⟩ := garbage_places group member
  subst same
  obtain ⟨place, here, v, there, same⟩ := (mem_entries places m).mp inGroup
  subst same
  have seen := sound.seen place v there
  refine ⟨seen.1, seen.2, ?_⟩
  have deadAll : ∀ q ∈ places, d.Dead q := fun q inPlaces =>
    grouped.fresh q (List.mem_flatten_of_mem inGroups inPlaces)
  obtain ⟨u, same, _, balance⟩ := dead_whole finished place (deadAll place here)
  rw [there] at same
  cases same
  rw [balance, edgesInto_group grouped places inGroups place here]
  exact congrArg (min · edgeLimit)
    (references_of_dead sound finished place v there places deadAll)

theorem garbage_closed (sound : d.Sound collectable counted)
    (finished : Walk.Finished collectable kids roots d)
    (small : ∀ node count, counted node count → count < edgeLimit)
    (group : Group) (member : group ∈ d.verdict.garbage) (m : Node × Nat) (inGroup : m ∈ group) :
    collectable m.1 ∧ counted m.1 m.2 ∧
      m.2 = (group.map fun other => (kids other.1).count m.1).sum := by
  obtain ⟨may, seen, balance⟩ := garbage_balance sound finished group member m inGroup
  have few := small m.1 m.2 seen
  exact ⟨may, seen, by omega⟩

theorem garbage_inhabited (group : Group) (member : group ∈ d.verdict.garbage) :
    0 < group.length := by
  obtain ⟨groups, places, grouped, inGroups, same⟩ := garbage_places group member
  obtain ⟨place, here⟩ := List.exists_mem_of_ne_nil _ (grouped.inhabited places inGroups)
  have dead := grouped.fresh place (List.mem_flatten_of_mem inGroups here)
  obtain ⟨v, there, _⟩ := (judged d).balanced place dead
  have inGroup : (v.node, v.count) ∈ group := by
    rw [same]
    exact (mem_entries places _).mpr ⟨place, here, v, there, rfl⟩
  exact List.length_pos_of_mem inGroup

theorem entries_nodup (sound : d.Sound collectable counted) (places : List Nat)
    (once : places.Nodup) : ((places.filterMap d.entry).map Prod.fst).Nodup := by
  have nodes : (places.filterMap d.entry).map Prod.fst =
      places.filterMap fun place => (d.vertices[place]?).map Vertex.node := by
    rw [List.map_filterMap]
    congr 1
    funext place
    simp [entry, Function.comp_def]
  rw [nodes]
  refine once.filterMap ?_
  intro p q node atP atQ
  simp only [Option.mem_def] at atP atQ
  rw [← sound.indexed] at atP atQ
  rw [atP] at atQ
  exact Option.some.inj atQ

theorem garbage_nodup (sound : d.Sound collectable counted) :
    (d.verdict.garbage.flatten.map Prod.fst).Nodup := by
  obtain ⟨groups, listed, grouped⟩ := garbage_grouped d
  rw [listed, ← List.filterMap_flatten]
  exact entries_nodup sound groups.flatten grouped.once

theorem group_nodup (sound : d.Sound collectable counted) (group : Group)
    (isGarbage : group ∈ d.verdict.garbage) : (group.map Prod.fst).Nodup := by
  have all := garbage_nodup sound
  rw [List.map_flatten, List.nodup_flatten] at all
  exact all.1 _ (List.mem_map_of_mem isGarbage)

theorem found_leads (sound : d.Sound collectable counted)
    (finished : Walk.Finished collectable kids roots d) (source target : Nat)
    (leads : d.Leads source target) (u v : Vertex) (first : d.vertices[source]? = some u)
    (last : d.vertices[target]? = some v) :
    Relation.ReflTransGen (fun x y => x ∈ d.nodes ∧ y ∈ d.nodes ∧ y ∈ kids x) u.node v.node := by
  induction leads generalizing v with
  | here inside =>
      rw [first] at last
      cases last
      exact .refl
  | step before edge inside ih =>
      rename_i middle target
      cases there : d.vertices[middle]? with
      | none =>
          simp [childrenAt, there] at edge
      | some w =>
          refine (ih w there).tail ?_
          rw [childrenAt_of_vertex w middle there] at edge
          have whole : d.Whole collectable kids w := by
            rcases finished.expanded middle w there with whole | ⟨empty, _⟩
            · exact whole
            · rw [empty] at edge
              cases edge
          have once := whole_count sound w v target whole last
          have positive := List.count_pos_iff.mpr edge
          rw [once, List.count_pos_iff] at positive
          exact ⟨node_of_vertex middle w there, node_of_vertex target v last, positive⟩

/-- If nothing was cut off, the edges into a place are the references that the nodes found hold. -/
theorem edgesInto_nodes (sound : d.Sound collectable counted)
    (finished : Walk.Finished collectable kids roots d)
    (unpinned : ∀ (place : Nat) (v : Vertex), d.vertices[place]? = some v → v.pinned = false)
    (place : Nat) (v : Vertex) (there : d.vertices[place]? = some v) :
    d.edgesInto place = (d.nodes.map fun x => (kids x).count v.node).sum := by
  rw [edgesInto, nodes, List.map_map]
  congr 1
  apply List.map_congr_left
  intro w member
  obtain ⟨q, isThere⟩ := List.mem_iff_getElem?.mp member
  rw [Array.getElem?_toList] at isThere
  rcases finished.expanded q w isThere with whole | ⟨_, pinned⟩
  · exact whole_count sound w v place whole there
  · rw [unpinned q w isThere] at pinned
    cases pinned

/-- What is found and no garbage hangs, if nothing was cut off, from a node whose count is not the
number of references that the found nodes hold of it. -/
theorem found_or_garbage (sound : d.Sound collectable counted)
    (finished : Walk.Finished collectable kids roots d)
    (unpinned : ∀ (place : Nat) (v : Vertex), d.vertices[place]? = some v → v.pinned = false)
    (node : Node) (found : node ∈ d.nodes) :
    (∃ group ∈ d.verdict.garbage, node ∈ group.map Prod.fst) ∨
      ∃ root count, root ∈ d.nodes ∧ counted root count ∧
        count ≠ min (d.nodes.map fun x => (kids x).count root).sum edgeLimit ∧
        Relation.ReflTransGen (fun x y => x ∈ d.nodes ∧ y ∈ d.nodes ∧ y ∈ kids x) root node := by
  obtain ⟨place, index⟩ := Option.isSome_iff_exists.mp ((mem_nodes sound node).mp found)
  obtain ⟨v, there, same⟩ := Option.map_eq_some_iff.mp ((sound.indexed node place).mp index)
  have inside := (Array.getElem?_eq_some_iff.mp there).1
  subst same
  by_cases dead : d.Dead place
  · obtain ⟨groups, listed, grouped⟩ := garbage_grouped d
    have covered := grouped.covers place (List.mem_range.mpr inside) dead
    obtain ⟨places, inGroups, here⟩ := List.mem_flatten.mp covered
    refine Or.inl ⟨places.filterMap d.entry, ?_, ?_⟩
    · rw [listed]
      exact List.mem_map_of_mem inGroups
    · exact List.mem_map.mpr ⟨(v.node, v.count),
        (mem_entries places _).mpr ⟨place, here, v, there, rfl⟩, rfl⟩
  · obtain ⟨root, isHeld, leads⟩ := (judged d).reached place inside dead
    obtain ⟨u, placed, why⟩ := (mem_held d root).mp isHeld
    refine Or.inr ⟨u.node, u.count, ?_, (sound.seen root u placed).2, ?_,
      found_leads sound finished root place leads u v placed there⟩
    · exact node_of_vertex root u placed
    · rcases why with pinned | differs
      · rw [unpinned root u placed] at pinned
        cases pinned
      · rw [← edgesInto_nodes sound finished unpinned root u placed]
        exact differs

end Discovery

end CountedHeap.Trial
