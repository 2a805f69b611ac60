import CountedHeap.Proofs.Trial.Cutoff

/-!
How much a search finds. What it has found is compared with the budget before each expansion, not at
each find. So the budget bounds what all expansions but the last one find; the last one may find as many
nodes as the node it expands has children.
-/

namespace CountedHeap.Trial

instance Graph.decidableLive (g : Graph) : DecidablePred g.Live := fun node =>
  match seen : g.look node with
  | .live count => isTrue ⟨count, seen⟩
  | .dying => isFalse fun ⟨_, live⟩ => by simp [seen] at live
  | .untracked => isFalse fun ⟨_, live⟩ => by simp [seen] at live

variable {g : Graph} {roots : List Node} {root : Node} {w : Walk}

theorem Discovery.mem_visitAll {d : Discovery}
    (sound : d.Sound g.Live (fun node count => g.look node = .live count)) (nodes : List Node) (node : Node) :
    node ∈ (d.visitAll g.look nodes).2.nodes ↔ node ∈ d.nodes ∨ node ∈ nodes ∧ g.Live node := by
  obtain ⟨after, grows, _, found⟩ := Discovery.visitAll_sound g.look g.agrees nodes d sound
  rw [Discovery.mem_nodes after, Discovery.mem_nodes sound]
  constructor
  · exact Discovery.visitAll_known g.look nodes d node
  · rintro (old | ⟨member, live⟩)
    · exact grows.known sound after node old
    · exact found node member live

theorem Discovery.length_visited (d : Discovery) : d.verdict.visited.length = d.vertices.size := by
  have all : ∀ place ∈ List.range d.vertices.size, (d.entry place).isSome := by
    intro place member
    simp [entry, List.mem_range.mp member]
  simp only [verdict]
  rw [List.length_filterMap_eq_countP, List.countP_eq_length.mpr all, List.length_range]

namespace Walk

def newly (w : Walk) : Nat := w.found.vertices.size - w.base

def finds (g : Graph) (w : Walk) (node : Node) : Finset Node :=
  {child ∈ (g.children node).toFinset | g.Live child ∧ child ∉ w.found.nodes}

/-- No expansion of the walk takes its search beyond so many nodes. -/
def Keeps (g : Graph) (limit : Nat) (w : Walk) : Prop :=
  ∀ v ∈ w.trace g, ∀ node, v.asks? = some node → v.newly + (v.finds g node).card ≤ limit

def gain (g : Graph) (budget : Nat) (before : List Node) (root : Node) : Nat :=
  (foundBy g budget (before ++ [root])).vertices.size - (foundBy g budget before).vertices.size

theorem expand_finds (sound : w.Reads g roots) {node : Node} (asks : w.asks? = some node) :
    (w.step g).found.vertices.size = w.found.vertices.size + (w.finds g node).card := by
  obtain ⟨_, _, _, _, _, _, _, _, _, found, _⟩ := expand_onward sound asks
  have onceBefore := Discovery.nodes_nodup sound.found
  have onceAfter := Discovery.nodes_nodup (step_sound sound).found
  have apart : Disjoint w.found.nodes.toFinset (w.finds g node) := by
    rw [Finset.disjoint_left]
    intro child old new
    exact (Finset.mem_filter.mp new).2.2 (List.mem_toFinset.mp old)
  have together : (w.step g).found.nodes.toFinset = w.found.nodes.toFinset ∪ w.finds g node := by
    ext child
    rw [List.mem_toFinset, found, Discovery.mem_visitAll sound.found, Finset.mem_union, List.mem_toFinset,
      finds, Finset.mem_filter, List.mem_toFinset]
    tauto
  rw [← Discovery.length_nodes, ← Discovery.length_nodes, ← List.toFinset_card_of_nodup onceAfter,
    ← List.toFinset_card_of_nodup onceBefore, together, Finset.card_union_of_disjoint apart]

theorem turn_idle (budget : Nat) (before : List Node)
    (idle : ¬ (g.Live root ∧ root ∉ (foundBy g budget before).nodes)) :
    (turnOf g budget before root).trace g = [turnOf g budget before root] ∧ gain g budget before root = 0 := by
  have sound := (run_reads g budget before).found
  have unfinished := turnOf_unfinished g budget before root
  have same : ((foundBy g budget before).visit g.look root).2.vertices =
      (foundBy g budget before).vertices := by
    unfold Discovery.visit
    split
    · rfl
    · rename_i absent
      have new : root ∉ (foundBy g budget before).nodes := by
        rw [Discovery.mem_nodes (d := foundBy g budget before) sound, absent]
        exact Bool.false_ne_true
      split
      · rfl
      · split
        · rename_i count seen
          exact absurd ⟨⟨count, seen⟩, new⟩ idle
        all_goals rfl
  have stepped : (turnOf g budget before root).step g =
      { budget, roots := [], found := ((foundBy g budget before).visit g.look root).2 } := by
    simp [step, asks?, turn, turnOf, Walk.start, same]
  have done : ((turnOf g budget before root).step g).finished = true := by
    rw [stepped]
    rfl
  constructor
  · rw [trace_unfinished unfinished, trace_finished done]
  · rw [gain, foundBy_snoc, ← run_step, run_of_finished g done, stepped]
    simp only [same, Nat.sub_self]

/-- What one turn finds, exactly: it stays within a limit if and only if each of its expansions does. -/
theorem gain_le_iff (budget : Nat) (before : List Node) (root : Node) {limit : Nat} (positive : 0 < limit) :
    gain g budget before root ≤ limit ↔ (turnOf g budget before root).Keeps g limit := by
  by_cases fits : g.Live root ∧ root ∉ (foundBy g budget before).nodes
  · obtain ⟨front, e, t, last, _, trace, _, run, _⟩ := turn_last budget before fits.1 fits.2
    have size : (foundBy g budget (before ++ [root])).vertices.size = e.found.vertices.size := by
      rw [foundBy_snoc, run]
      exact (close_found e t).2.1
    have found : ∀ v ∈ front, ∀ node, v.asks? = some node →
        v.newly + (v.finds g node).card =
          (v.step g).found.vertices.size - (foundBy g budget before).vertices.size := by
      intro v member node asks
      obtain ⟨u, seeking, _, _⟩ := last.states v member
      have grown := expand_finds seeking.sound asks
      have inside := seeking.within
      have start := seeking.start
      simp only [newly, base, seeking.search, Option.elim_some]
      omega
    rw [gain, size]
    constructor
    · intro few v member node asks
      rw [trace, List.mem_cons, List.mem_append, List.mem_singleton] at member
      rcases member with rfl | asking | rfl
      · cases asks
      · obtain ⟨_, _, _, before'⟩ := last.states v asking
        have shorter := before'.length_le
        rw [Discovery.length_nodes, Discovery.length_nodes] at shorter
        rw [found v asking node asks]
        omega
      · rw [last.asks] at asks
        cases asks
    · intro keeps
      rcases last.follows with ⟨_, rfl⟩ | ⟨v, member, rfl⟩
      · obtain ⟨_, _, one⟩ := turn_seeking budget before fits.1 fits.2
        omega
      · obtain ⟨node, asks⟩ := Option.isSome_iff_exists.mp (last.asking v member)
        rw [← found v member node asks]
        exact keeps v (by simp [trace, member]) node asks
  · obtain ⟨trace, unchanged⟩ := turn_idle budget before fits
    rw [unchanged]
    refine ⟨fun _ v member node asks => ?_, fun _ => Nat.zero_le limit⟩
    rw [trace, List.mem_singleton] at member
    subst member
    cases asks

theorem trace_reads (g : Graph) (w : Walk) (sound : w.Reads g roots) :
    ∀ v ∈ w.trace g, v.Reads g roots ∧ v.budget = w.budget := by
  fun_induction run g w with
  | case1 w done => simp [trace_finished done]
  | case2 w going ih =>
      rw [trace_unfinished (Bool.eq_false_iff.mpr going)]
      intro v member
      rcases List.mem_cons.mp member with rfl | later
      · exact ⟨sound, rfl⟩
      · obtain ⟨reads, same⟩ := ih (step_sound sound) v later
        exact ⟨reads, same.trans (step_budget g w)⟩

/-- An expansion starts within the budget, so it leads beyond it by no more than it finds. -/
theorem turn_keeps (budget : Nat) (before : List Node) (root : Node) {fan : Nat}
    (narrow : ∀ node, g.Live node → {child ∈ (g.children node).toFinset | g.Live child}.card ≤ fan) :
    (turnOf g budget before root).Keeps g (budget + fan) := by
  intro v member node asks
  obtain ⟨reads, same⟩ := trace_reads g _ (turnOf_reads g budget before root).1 v member
  obtain ⟨s, searching, _, room, isNode, _⟩ := expand_onward reads asks
  obtain ⟨u, there, rfl⟩ := Option.map_eq_some_iff.mp isNode
  have fewer : (v.finds g u.node).card ≤ fan := by
    refine (Finset.card_le_card fun child found => ?_).trans (narrow u.node (reads.found.seen _ u there).1)
    obtain ⟨edge, live, _⟩ := Finset.mem_filter.mp found
    exact Finset.mem_filter.mpr ⟨edge, live⟩
  have limit : v.budget = budget := same
  simp only [newly, base, searching, Option.elim_some]
  omega

theorem size_foundBy_le {budget limit : Nat} (roots : List Node)
    (few : ∀ before root after, roots = before ++ root :: after → gain g budget before root ≤ limit) :
    (foundBy g budget roots).vertices.size ≤ roots.length * limit := by
  induction roots using List.reverseRecOn with
  | nil => simp [foundBy, Walk.run, finished]
  | append_singleton before root ih =>
      have earlier := ih fun first other after split => few first other (after ++ [root]) (by simp [split])
      have one : gain g budget before root ≤ limit := few before root [] rfl
      rw [gain] at one
      rw [List.length_append, List.length_singleton, Nat.succ_mul]
      omega

end Walk

/-- The nodes that an analysis visits, each of them once. In one turn they are no more than any positive
limit if and only if each expansion of the turn keeps it. So they are at most one more than the budget for
each root if no expansion finds more than one node beyond the budget; and in any case the budget and the
largest number of live children of one node bound them together. -/
theorem visited_within_budget (g : Graph) (roots : List Node) (budget : Nat) :
    let visited := (analyze g roots budget).visited
    (visited.map Prod.fst).Nodup ∧
      (∀ before root limit, 0 < limit →
        (Walk.gain g budget before root ≤ limit ↔ (Walk.turnOf g budget before root).Keeps g limit)) ∧
      ((∀ before root after, roots = before ++ root :: after →
          (Walk.turnOf g budget before root).Keeps g (budget + 1)) →
        visited.length ≤ roots.length * (budget + 1)) ∧
      ∀ fan, (∀ node, g.Live node → {child ∈ (g.children node).toFinset | g.Live child}.card ≤ fan) →
        visited.length ≤ roots.length * max 1 (budget + fan) := by
  intro visited
  have size : visited.length = (Walk.foundBy g budget roots).vertices.size :=
    Discovery.length_visited _
  refine ⟨visited_nodup g roots budget, fun before root limit => Walk.gain_le_iff budget before root, ?_, ?_⟩
  · intro keeps
    rw [size]
    refine Walk.size_foundBy_le roots fun before root after split => ?_
    exact (Walk.gain_le_iff budget before root budget.succ_pos).mpr (keeps before root after split)
  · intro fan narrow
    rw [size]
    refine Walk.size_foundBy_le roots fun before root after _ => ?_
    refine (Walk.gain_le_iff budget before root (by omega)).mpr fun v member node asks => ?_
    exact (Walk.turn_keeps budget before root narrow v member node asks).trans (Nat.le_max_right 1 _)

-- In the two rings every node has one child, so the last expansion finds at most one node too many.
theorem visited_within_budget_rings :
    (∀ node, rings.Live node → {child ∈ (rings.children node).toFinset | rings.Live child}.card ≤ 1) ∧
      (analyze rings [0, 2, 5, 0] 2).visited.length ≤ 4 * (2 + 1) := by
  have narrow : ∀ node, rings.Live node →
      {child ∈ (rings.children node).toFinset | rings.Live child}.card ≤ 1 := by
    rintro node ⟨count, seen⟩
    obtain ⟨inside, _⟩ := rings_live node count seen
    interval_cases node <;> decide
  exact ⟨narrow, (visited_within_budget rings [0, 2, 5, 0] 2).2.2.2 1 narrow⟩

/-! No bound without the number of children -/

/-- A node with many children, each of them with this one reference. -/
def star (leaves : Nat) : Graph where
  look node := if node ≤ leaves then .live 1 else .untracked
  children node := if node = 0 then (List.range leaves).map (· + 1) else []

/-- With a budget of one, the first expansion still finds all the leaves. -/
theorem star_visited (leaves : Nat) : leaves < (analyze (star leaves) [0] 1).visited.length := by
  have centre : (star leaves).look 0 = .live 1 := by simp [star]
  let first : Walk := { budget := 1, roots := [0] }
  have reads : Walk.Reads (star leaves) [0] first := Walk.start_sound 1
  have begun : (first.step (star leaves)).search = some ⟨0, 0⟩ ∧
      (first.step (star leaves)).found.vertices = #[{ node := 0, count := 1 }] := by
    simp [first, Walk.step, Walk.asks?, Walk.turn, Walk.start, Discovery.visit, centre]
  have budget : (first.step (star leaves)).budget = 1 := Walk.step_budget (star leaves) first
  have asks : (first.step (star leaves)).asks? = some 0 := by
    simp [Walk.asks?, begun, budget]
  have all : (first.step (star leaves)).finds (star leaves) 0 =
      ((List.range leaves).map (· + 1)).toFinset := by
    refine Finset.filter_true_of_mem fun child member => ?_
    obtain ⟨leaf, inside, rfl⟩ := List.mem_map.mp (List.mem_toFinset.mp member)
    refine ⟨⟨1, if_pos (List.mem_range.mp inside)⟩, ?_⟩
    simp [Discovery.nodes, begun.2]
  have once : ((List.range leaves).map (· + 1)).Nodup :=
    List.nodup_range.map (add_left_injective 1)
  have found := Walk.expand_finds (Walk.step_sound reads) asks
  rw [all, List.toFinset_card_of_nodup once, List.length_map, List.length_range, begun.2] at found
  have within : first.Within := Walk.start_within 1 [0] {}
  have onward := Walk.run_onward (star leaves) _ (Walk.step_sound (Walk.step_sound reads))
    (Walk.step_onward (Walk.step_sound reads) (Walk.step_onward reads within).2).2
  have run : Walk.run (star leaves) first =
      Walk.run (star leaves) ((first.step (star leaves)).step (star leaves)) := by
    rw [Walk.run_step, Walk.run_step]
  have longer := onward.nodes.length_le
  rw [Discovery.length_nodes, Discovery.length_nodes, found, ← run] at longer
  calc leaves < 1 + leaves := by omega
    _ ≤ (Walk.run (star leaves) first).found.vertices.size := longer
    _ = (analyze (star leaves) [0] 1).visited.length := (Discovery.length_visited _).symm

/-- One root and a budget of one do not keep the analysis to two nodes. -/
theorem visited_beyond_budget :
    ¬ (analyze (star 3) [0] 1).visited.length ≤ [0].length * (1 + 1) := by
  have many := star_visited 3
  simp only [List.length_singleton]
  omega

end CountedHeap.Trial
