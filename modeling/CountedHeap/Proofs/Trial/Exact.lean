import CountedHeap.Proofs.Trial.Components

/-!
Trial deletion with a budget for all that can be reached. No search is cut off then: the walk finds
the reachable nodes and nothing else, and a node escapes being garbage only because a found node,
with a count other than the number of edges into it, leads there. Neither the order of the roots
nor their number matters.
-/

namespace CountedHeap.Trial

/-- Reachable from the roots through live nodes. -/
inductive Graph.Reached (g : Graph) (roots : List Node) : Node → Prop where
  | root {node} : node ∈ roots → g.Live node → Reached g roots node
  | step {node child} : Reached g roots node → child ∈ g.children node → g.Live child →
      Reached g roots child

theorem Graph.Reached.live {g : Graph} {roots : List Node} {node : Node}
    (reached : g.Reached roots node) : g.Live node := by
  cases reached with
  | root member live => exact live
  | step before edge live => exact live

theorem Graph.Reached.mono {g : Graph} {roots others : List Node}
    (within : ∀ root ∈ roots, root ∈ others) {node : Node} (reached : g.Reached roots node) :
    g.Reached others node := by
  induction reached with
  | root member live => exact .root (within _ member) live
  | step _ edge live ih => exact ih.step edge live

namespace Discovery

/-- Looking for nodes finds no others than those, and these only if they are collectable. -/
theorem visit_known (look : Node → Look) (d : Discovery) (node other : Node)
    (known : ((d.visit look node).2.index[other]?).isSome) :
    (d.index[other]?).isSome ∨ other = node ∧ ∃ count, look node = .live count := by
  unfold visit at known
  split at known
  · exact Or.inl known
  · split at known
    · exact Or.inl known
    · split at known
      · rename_i count seen
        simp only [Std.TreeMap.getElem?_insert, compare_eq_iff_eq] at known
        split at known
        · rename_i same
          exact Or.inr ⟨same.symm, count, seen⟩
        · exact Or.inl known
      · exact Or.inl known
      · exact Or.inl known

theorem visitAll_known (look : Node → Look) (nodes : List Node) (d : Discovery) (other : Node)
    (known : ((d.visitAll look nodes).2.index[other]?).isSome) :
    (d.index[other]?).isSome ∨ other ∈ nodes ∧ ∃ count, look other = .live count := by
  induction nodes generalizing d with
  | nil => exact Or.inl known
  | cons node rest ih =>
      rcases ih (d.visit look node).2 known with before | ⟨later, live⟩
      · rcases visit_known look d node other before with old | ⟨rfl, live⟩
        · exact Or.inl old
        · exact Or.inr ⟨List.mem_cons_self, live⟩
      · exact Or.inr ⟨List.mem_cons_of_mem node later, live⟩

end Discovery

variable {g : Graph} {roots : List Node} {w : Walk}

namespace Walk

/-- All that was found, and all that is still to be looked for, is where the roots lead. -/
structure Confined (g : Graph) (roots : List Node) (w : Walk) : Prop where
  found : ∀ node, (w.found.index[node]?).isSome → g.Reached roots node
  roots : ∀ root ∈ w.roots, root ∈ roots

theorem start_confined (g : Graph) (roots : List Node) (budget : Nat) :
    Confined g roots { budget, roots } :=
  ⟨fun node known => by simp at known, fun _ member => member⟩

theorem asked_found {node : Node} (sound : w.Sound g.Live (fun node count => g.look node = .live count)
      g.children roots) (asked : w.asks? = some node) : (w.found.index[node]?).isSome := by
  obtain ⟨s, v, _, there, same⟩ := asked_vertex w node asked
  rw [(sound.found.indexed node s.cursor).mpr (by rw [there, Option.map_some, same])]
  rfl

theorem step_confined (sound : w.Sound g.Live (fun node count => g.look node = .live count)
      g.children roots) (confined : w.Confined g roots) : (w.step g).Confined g roots := by
  unfold step
  split
  · rename_i node asked
    obtain ⟨s, _, searching, _⟩ := asked_vertex w node asked
    have reached := confined.found node (asked_found sound asked)
    simp only [expand, searching]
    refine ⟨fun other known => ?_, confined.roots⟩
    rcases Discovery.visitAll_known g.look (g.children node) w.found other known with old | ⟨edge, live⟩
    · exact confined.found other old
    · exact reached.step edge live
  · unfold turn
    split
    · rename_i s searching
      obtain ⟨_, _, index, _⟩ := close_found w s
      refine ⟨fun other known => ?_, confined.roots⟩
      rw [index] at known
      exact confined.found other known
    · split
      · exact confined
      · rename_i root rest more
        have member : root ∈ roots := confined.roots root (more ▸ List.mem_cons_self)
        refine ⟨fun other known => ?_, fun later isLater => ?_⟩
        · rcases Discovery.visit_known g.look w.found root other known with old | ⟨rfl, live⟩
          · exact confined.found other old
          · exact .root member live
        · exact confined.roots later (more ▸ List.mem_cons_of_mem root isLater)

theorem run_confined (g : Graph) (w : Walk)
    (sound : w.Sound g.Live (fun node count => g.look node = .live count) g.children roots)
    (confined : w.Confined g roots) : (run g w).Confined g roots := by
  fun_induction run g w with
  | case1 w done => exact confined
  | case2 w unfinished ih => exact ih (step_sound sound) (step_confined sound confined)

theorem step_budget (g : Graph) (w : Walk) : (w.step g).budget = w.budget := by
  unfold step
  split
  · unfold expand
    split <;> rfl
  · unfold turn
    split
    · rfl
    · split <;> rfl

theorem run_budget (g : Graph) (w : Walk) : (run g w).budget = w.budget := by
  fun_induction run g w with
  | case1 w done => rfl
  | case2 w unfinished ih => exact ih.trans (step_budget g w)

end Walk

namespace Discovery

variable {collectable : Node → Prop} {counted : Node → Nat → Prop} {kids : Node → List Node}
  {d : Discovery}

theorem leads_of_path (sound : d.Sound collectable counted)
    (finished : Walk.Finished collectable kids roots d)
    (unpinned : ∀ (place : Nat) (v : Vertex), d.vertices[place]? = some v → v.pinned = false)
    (source : Nat) (u : Vertex) (there : d.vertices[source]? = some u) (node : Node)
    (path : Relation.ReflTransGen (fun x y => x ∈ d.nodes ∧ y ∈ d.nodes ∧ y ∈ kids x) u.node node) :
    ∃ (place : Nat) (v : Vertex), d.vertices[place]? = some v ∧ v.node = node ∧
      d.Leads source place := by
  induction path with
  | refl => exact ⟨source, u, there, rfl, .here (Array.getElem?_eq_some_iff.mp there).1⟩
  | tail before edge ih =>
      rename_i middle target
      obtain ⟨p, w, atP, rfl, leads⟩ := ih
      obtain ⟨q, v, atQ, rfl⟩ := vertex_of_node target edge.2.1
      refine ⟨q, v, atQ, rfl, leads.step ?_ (Array.getElem?_eq_some_iff.mp atQ).1⟩
      rcases finished.expanded p w atP with whole | ⟨_, pinned⟩
      · have positive := List.count_pos_iff.mpr edge.2.2
        rw [← whole_count sound w v q whole atQ, List.count_pos_iff] at positive
        rwa [childrenAt_of_vertex w p atP]
      · rw [unpinned p w atP] at pinned
        cases pinned

/-- Where nothing was cut off, what is found is garbage unless a found node that has another count
than the found nodes account for leads there. -/
theorem unmarked_exact (sound : d.Sound collectable counted)
    (finished : Walk.Finished collectable kids roots d)
    (unpinned : ∀ (place : Nat) (v : Vertex), d.vertices[place]? = some v → v.pinned = false)
    (node : Node) : d.Unmarked node ↔ node ∈ d.nodes ∧ ∀ (p : Nat) (u : Vertex),
      d.vertices[p]? = some u →
      u.count ≠ min (d.nodes.map fun x => (kids x).count u.node).sum edgeLimit →
      ¬ Relation.ReflTransGen (fun x y => x ∈ d.nodes ∧ y ∈ d.nodes ∧ y ∈ kids x) u.node node := by
  constructor
  · rintro ⟨place, v, there, rfl, _, unheld⟩
    refine ⟨node_of_vertex place v there, fun p u atP differs path => ?_⟩
    obtain ⟨q, w, atQ, same, leads⟩ := leads_of_path sound finished unpinned p u atP v.node path
    have onePlace : q = place := by
      have first := (sound.indexed v.node q).mpr (by rw [atQ, Option.map_some, same])
      have second := (sound.indexed v.node place).mpr (by rw [there, Option.map_some])
      rw [first] at second
      exact Option.some.inj second
    refine unheld p ((mem_held d p).mpr ⟨u, atP, Or.inr ?_⟩) (onePlace ▸ leads)
    rwa [edgesInto_nodes sound finished unpinned p u atP]
  · rintro ⟨found, free⟩
    obtain ⟨place, v, there, rfl⟩ := vertex_of_node node found
    refine ⟨place, v, there, rfl, unpinned place v there, fun source isHeld leads => ?_⟩
    obtain ⟨u, atSource, why⟩ := (mem_held d source).mp isHeld
    have differs := why.resolve_left (by simp [unpinned source u atSource])
    rw [edgesInto_nodes sound finished unpinned source u atSource] at differs
    exact free source u atSource differs
      (found_leads sound finished source place leads u v atSource there)

theorem mem_visited (d : Discovery) (m : Node × Nat) :
    m ∈ d.verdict.visited ↔
      ∃ (place : Nat) (v : Vertex), d.vertices[place]? = some v ∧ m = (v.node, v.count) := by
  rw [verdict, mem_entries]
  constructor
  · rintro ⟨place, _, v, there, same⟩
    exact ⟨place, v, there, same⟩
  · rintro ⟨place, v, there, same⟩
    exact ⟨place, List.mem_range.mpr (Array.getElem?_eq_some_iff.mp there).1, v, there, same⟩

end Discovery

section Analysis

variable (g) (roots) (reach : Finset Node) (exactly : ∀ node, node ∈ reach ↔ g.Reached roots node)
  (budget : Nat) (room : reach.card ≤ budget)
include exactly room

theorem run_found :
    (∀ node, node ∈ (Walk.run g { budget, roots }).found.nodes ↔ node ∈ reach) ∧
      ∀ (place : Nat) (v : Vertex),
        (Walk.run g { budget, roots }).found.vertices[place]? = some v → v.pinned = false := by
  have start : Walk.Sound g.Live (fun node count => g.look node = .live count) g.children roots
      { budget, roots } := Walk.start_sound budget
  obtain ⟨sound, done⟩ := Walk.run_sound g _ start
  have confined := Walk.run_confined g _ start (Walk.start_confined g roots budget)
  have limit : (Walk.run g { budget, roots }).budget = budget := Walk.run_budget g _
  generalize Walk.run g { budget, roots } = w at sound done confined limit
  have within : ∀ node ∈ w.found.nodes, node ∈ reach := by
    intro node found
    rw [exactly]
    exact confined.found node ((Discovery.mem_nodes sound.found node).mp found)
  have fits : w.found.vertices.size ≤ w.budget := by
    have few := Finset.card_le_card (s := w.found.nodes.toFinset) (t := reach) fun node member =>
      within node (List.mem_toFinset.mp member)
    rw [List.toFinset_card_of_nodup (Discovery.nodes_nodup sound.found), Discovery.nodes,
      List.length_map, Array.length_toList] at few
    omega
  have unpinned := sound.roomy fits
  have finished := sound.finished done
  refine ⟨fun node => ⟨within node, fun isIn => ?_⟩, unpinned⟩
  induction (exactly node).mp isIn with
  | root member live =>
      exact (Discovery.mem_nodes sound.found _).mpr (finished.roots _ member live)
  | step before edge live ih =>
      exact Discovery.nodes_closed sound.found finished unpinned _ _
        (ih ((exactly _).mpr before)) edge live

theorem visited_exact (node : Node) (count : Nat) :
    (node, count) ∈ (analyze g roots budget).visited ↔
      node ∈ reach ∧ g.look node = .live count := by
  obtain ⟨sound, _⟩ := Walk.run_sound g { budget, roots } (Walk.start_sound budget)
  obtain ⟨found, _⟩ := run_found g roots reach exactly budget room
  rw [analyze, Discovery.mem_visited]
  constructor
  · rintro ⟨place, v, there, same⟩
    obtain ⟨rfl, rfl⟩ := Prod.mk.inj same
    exact ⟨(found v.node).mp (Discovery.node_of_vertex place v there), (sound.found.seen place v there).2⟩
  · rintro ⟨isIn, seen⟩
    obtain ⟨place, v, there, rfl⟩ := Discovery.vertex_of_node node ((found node).mpr isIn)
    have same := (sound.found.seen place v there).2
    rw [seen, Look.live.injEq] at same
    exact ⟨place, v, there, by rw [same]⟩

theorem found_into (node : Node) :
    ((Walk.run g { budget, roots }).found.nodes.map fun x => (g.children x).count node).sum =
      g.into reach node := by
  obtain ⟨sound, _⟩ := Walk.run_sound g { budget, roots } (Walk.start_sound budget)
  obtain ⟨found, _⟩ := run_found g roots reach exactly budget room
  rw [← g.into_toFinset _ (Discovery.nodes_nodup sound.found)]
  congr 1
  ext x
  rw [List.mem_toFinset, found]

theorem members_exact (few : ∀ node ∈ reach, g.into reach node ≤ Discovery.edgeLimit)
    (node : Node) : node ∈ (analyze g roots budget).members ↔
      node ∈ reach ∧ ∀ u ∈ reach, ∀ count, g.look u = .live count → count ≠ g.into reach u →
        ¬ Relation.ReflTransGen (fun x y => x ∈ reach ∧ y ∈ reach ∧ y ∈ g.children x) u node := by
  obtain ⟨sound, done⟩ := Walk.run_sound g { budget, roots } (Walk.start_sound budget)
  have into := found_into g roots reach exactly budget room
  obtain ⟨found, unpinned⟩ := run_found g roots reach exactly budget room
  rw [analyze, Verdict.members, Discovery.mem_garbage,
    Discovery.unmarked_exact sound.found (sound.finished done) unpinned]
  simp only [found, into]
  refine and_congr_right fun _ => ⟨?_, ?_⟩
  · intro free u isIn count seen differs
    obtain ⟨p, v, atP, rfl⟩ := Discovery.vertex_of_node u ((found u).mpr isIn)
    have same := (sound.found.seen p v atP).2
    rw [seen, Look.live.injEq] at same
    refine free p v atP ?_
    rw [Nat.min_eq_left (few v.node isIn), ← same]
    exact differs
  · intro free p v atP differs
    have isIn := (found v.node).mp (Discovery.node_of_vertex p v atP)
    rw [Nat.min_eq_left (few v.node isIn)] at differs
    exact free v.node isIn v.count (sound.found.seen p v atP).2 differs

end Analysis

theorem visited_nodup (g : Graph) (roots : List Node) (budget : Nat) :
    ((analyze g roots budget).visited.map Prod.fst).Nodup :=
  Discovery.entries_nodup (Walk.run_sound g _ (Walk.start_sound budget)).1.found _ List.nodup_range

/-- With a budget for all nodes that the roots reach through live ones, trial deletion visits just
those, with their counts. Its garbage is those of them to which no reachable node leads that has
another count than there are edges into it from reachable nodes. A root that is given twice, or
elsewhere in the row, changes neither, and nor does more budget. -/
theorem analyze_exact (g : Graph) (roots : List Node) (reach : Finset Node)
    (exactly : ∀ node, node ∈ reach ↔ g.Reached roots node) (budget : Nat)
    (room : reach.card ≤ budget)
    (few : ∀ node ∈ reach, g.into reach node ≤ Discovery.edgeLimit) :
    ((analyze g roots budget).visited.map Prod.fst).Nodup ∧
    (∀ node count, (node, count) ∈ (analyze g roots budget).visited ↔
      node ∈ reach ∧ g.look node = .live count) ∧
    (∀ node, node ∈ (analyze g roots budget).members ↔
      node ∈ reach ∧ ∀ u ∈ reach, ∀ count, g.look u = .live count → count ≠ g.into reach u →
        ¬ Relation.ReflTransGen (fun x y => x ∈ reach ∧ y ∈ reach ∧ y ∈ g.children x) u node) ∧
    ∀ others more, (∀ root, root ∈ others ↔ root ∈ roots) → reach.card ≤ more →
      (analyze g others more).visited.Perm (analyze g roots budget).visited ∧
      (analyze g others more).members.Perm (analyze g roots budget).members := by
  have visited := visited_exact g roots reach exactly budget room
  have members := members_exact g roots reach exactly budget room few
  refine ⟨visited_nodup g roots budget, visited, members, ?_⟩
  intro others more same roomy
  have exactlyToo : ∀ node, node ∈ reach ↔ g.Reached others node := fun node =>
    (exactly node).trans ⟨.mono fun root => (same root).mpr, .mono fun root => (same root).mp⟩
  constructor
  · rw [List.perm_ext_iff_of_nodup (visited_nodup g others more).of_map
      (visited_nodup g roots budget).of_map]
    rintro ⟨node, count⟩
    rw [visited, visited_exact g others reach exactlyToo more roomy]
  · rw [List.perm_ext_iff_of_nodup (members_nodup g others more) (members_nodup g roots budget)]
    intro node
    rw [members, members_exact g others reach exactlyToo more roomy few]

theorem rings_reached (node : Node) :
    node ∈ Finset.range 7 \ {2, 3, 4} ↔ rings.Reached [5, 0, 5] node := by
  have isLive : ∀ node < 7, rings.Live node := fun node inside => ⟨1, by simp [rings, inside]⟩
  have five : rings.Reached [5, 0, 5] 5 := .root (by decide) (isLive 5 (by decide))
  have zero : rings.Reached [5, 0, 5] 0 := .root (by decide) (isLive 0 (by decide))
  constructor
  · intro member
    fin_cases member
    · exact zero
    · exact zero.step (by decide) (isLive 1 (by decide))
    · exact five
    · exact five.step (by decide) (isLive 6 (by decide))
  · intro reached
    induction reached with
    | root member live =>
        rename_i root
        fin_cases member <;> decide
    | step before edge live ih =>
        fin_cases ih <;> fin_cases edge
        all_goals first | decide | (obtain ⟨count, seen⟩ := live; cases seen)

-- The ring of two is garbage; the node that is held from outside and the one behind it are not.
theorem analyze_exact_rings :
    0 ∈ (analyze rings [5, 0, 5] 4).members ∧ 6 ∉ (analyze rings [5, 0, 5] 4).members ∧
      (analyze rings [0, 5] 9).members.Perm (analyze rings [5, 0, 5] 4).members := by
  obtain ⟨_, _, members, steady⟩ := analyze_exact rings [5, 0, 5] (Finset.range 7 \ {2, 3, 4})
    rings_reached 4 (by decide) (by decide)
  refine ⟨(members 0).mpr ⟨by decide, ?_⟩, fun member => ?_, ?_⟩
  · intro u isIn count seen differs path
    have one := (rings_live u count seen).2
    -- Only the held node and the one behind it lack an edge, and no path leaves these two.
    have apart : u = 5 ∨ u = 6 := by
      subst one
      fin_cases isIn <;> first | exact absurd rfl differs | decide
    have stays : ∀ target, Relation.ReflTransGen (fun x y => x ∈ Finset.range 7 \ {2, 3, 4} ∧
        y ∈ Finset.range 7 \ {2, 3, 4} ∧ y ∈ rings.children x) u target →
        target = 5 ∨ target = 6 := by
      intro target path
      induction path with
      | refl => exact apart
      | tail before edge ih =>
          obtain ⟨_, inside, child⟩ := edge
          rcases ih with rfl | rfl
          · fin_cases child
            · decide
            · exact absurd inside (by decide)
          · cases child
    rcases stays 0 path with zero | zero <;> cases zero
  · refine ((members 6).mp member).2 5 (by decide) 1 rfl (by decide) ?_
    exact .single ⟨by decide, by decide, by decide⟩
  · exact (steady [0, 5] 9 (by simp) (by decide)).2

end CountedHeap.Trial
