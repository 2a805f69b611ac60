import CountedHeap.Proofs.Trial.Trace

/-!
The turn of one root. Its search goes through the live nodes that no earlier root has found, nearest
first, and is cut off when they are more than the budget. The test stands between two expansions, and a
last expansion may find many nodes at once; but a search that has found too much always has a vertex
left to expand, so the test comes in time.
-/

namespace CountedHeap.Trial

def Graph.without (g : Graph) (gone : List Node) : Graph :=
  { g with look := fun node => if node ∈ gone then .dying else g.look node }

theorem Graph.live_without (g : Graph) (gone : List Node) (node : Node) :
    (g.without gone).Live node ↔ node ∉ gone ∧ g.Live node := by
  by_cases isGone : node ∈ gone <;> simp [Graph.Live, Graph.without, isGone]

namespace Discovery

def Recorded (d : Discovery) (x y : Node) : Prop :=
  ∃ (p q : Nat) (v u : Vertex), d.vertices[p]? = some v ∧ v.node = x ∧ q ∈ v.children ∧
    d.vertices[q]? = some u ∧ u.node = y

variable {collectable : Node → Prop} {counted : Node → Nat → Prop} {d : Discovery}

theorem Sound.one_place (sound : d.Sound collectable counted) {p q : Nat} {v u : Vertex}
    (atP : d.vertices[p]? = some v) (atQ : d.vertices[q]? = some u) (same : v.node = u.node) : p = q := by
  have first := (sound.indexed v.node p).mpr (by rw [atP, Option.map_some])
  have second := (sound.indexed v.node q).mpr (by rw [atQ, Option.map_some, same])
  rw [first] at second
  exact Option.some.inj second

theorem leads_of_recorded (sound : d.Sound collectable counted) {p : Nat} {v : Vertex}
    (there : d.vertices[p]? = some v) {node : Node}
    (path : Relation.ReflTransGen d.Recorded v.node node) :
    ∃ (q : Nat) (u : Vertex), d.vertices[q]? = some u ∧ u.node = node ∧ d.Leads p q := by
  induction path with
  | refl => exact ⟨p, v, there, rfl, .here (Array.getElem?_eq_some_iff.mp there).1⟩
  | tail before edge ih =>
      obtain ⟨q, u, atQ, rfl, leads⟩ := ih
      obtain ⟨q', r, u', x, atQ', same, child, atR, rfl⟩ := edge
      obtain rfl := sound.one_place atQ' atQ same
      rw [atQ, Option.some.injEq] at atQ'
      subst atQ'
      refine ⟨r, x, atR, rfl, leads.step ?_ (Array.getElem?_eq_some_iff.mp atR).1⟩
      rwa [childrenAt_of_vertex u q' atQ]

/-- Nothing that a pinned vertex leads to along recorded edges is garbage. -/
theorem not_garbage_of_pinned (sound : d.Sound collectable counted) {p : Nat} {v : Vertex}
    (there : d.vertices[p]? = some v) (pinned : v.pinned = true) {node : Node}
    (path : Relation.ReflTransGen d.Recorded v.node node) :
    node ∉ d.verdict.garbage.flatten.map Prod.fst := by
  rw [mem_garbage]
  rintro ⟨q, u, atQ, same, _, unheld⟩
  obtain ⟨r, x, atR, isNode, leads⟩ := leads_of_recorded sound there path
  obtain rfl := sound.one_place atQ atR (same.trans isNode.symm)
  exact unheld p ((mem_held d p).mpr ⟨v, there, Or.inl pinned⟩) leads

theorem fresh_of_place (sound : d.Sound collectable counted) {first : List Node} (begins : first <+: d.nodes)
    {p : Nat} {v : Vertex} (there : d.vertices[p]? = some v) (behind : first.length ≤ p) :
    v.node ∉ first := by
  intro member
  obtain ⟨q, inside, same⟩ := List.mem_iff_getElem.mp member
  have early := List.prefix_iff_getElem?.mp begins q inside
  rw [nodes_getElem?, same] at early
  obtain ⟨u, atQ, isNode⟩ := Option.map_eq_some_iff.mp early
  have onePlace := sound.one_place there atQ isNode.symm
  omega

end Discovery

variable {g : Graph} {w : Walk} {earlier : Discovery} {root : Node} {s : Search}

namespace Walk

/-- A vertex is left to expand, but the search has found more than its budget. -/
def Exhausted (w : Walk) : Prop :=
  ∃ s, w.search = some s ∧ s.cursor < w.found.vertices.size ∧
    w.budget < w.found.vertices.size - s.start

/-- A search of the walk is cut off. -/
def CutOff (g : Graph) (w : Walk) : Prop := ∃ v ∈ w.trace g, v.Exhausted

theorem room_of_asks {node : Node} (asks : w.asks? = some node) : ¬ w.Exhausted := by
  rintro ⟨s, same, _, full⟩
  have overfull : ¬ w.found.vertices.size - s.start ≤ w.budget := by omega
  simp [asks?, same, overfull] at asks

theorem exhausted_iff (same : w.search = some s) (asks : w.asks? = none) :
    w.Exhausted ↔ s.cursor < w.found.vertices.size := by
  constructor
  · rintro ⟨t, searching, left, _⟩
    rw [same, Option.some.injEq] at searching
    exact searching ▸ left
  · intro left
    refine ⟨s, same, left, ?_⟩
    by_contra room
    have few : w.found.vertices.size - s.start ≤ w.budget := by omega
    simp [asks?, same, few, left] at asks

/-- The search of one root goes on, over what earlier roots have found. -/
structure Seeking (g : Graph) (earlier : Discovery) (root : Node) (w : Walk) (s : Search) : Prop where
  search : w.search = some s
  roots : w.roots = []
  start : s.start = earlier.vertices.size
  sound : w.Reads g [root]
  begins : earlier.nodes <+: w.found.nodes
  within : s.start ≤ s.cursor ∧ s.cursor ≤ w.found.vertices.size
  /-- A search that has found more than its budget has a vertex left to expand. -/
  ahead : s.cursor < w.found.vertices.size ∨ w.found.vertices.size - s.start ≤ w.budget
  spent : s.cursor - s.start ≤ w.budget
  confined : ∀ node ∈ w.found.nodes,
    node ∈ earlier.nodes ∨ (g.without earlier.nodes).Reached [root] node
  unpinned : ∀ (place : Nat) (v : Vertex), s.start ≤ place → w.found.vertices[place]? = some v →
    v.pinned = false

theorem Seeking.node_new (seeking : Seeking g earlier root w s) {place : Nat} {v : Vertex}
    (behind : s.start ≤ place) (there : w.found.vertices[place]? = some v) :
    v.node ∉ earlier.nodes := by
  apply Discovery.fresh_of_place seeking.sound.found seeking.begins there
  rw [earlier.length_nodes]
  exact seeking.start ▸ behind

theorem Seeking.reached (seeking : Seeking g earlier root w s) {place : Nat} {v : Vertex}
    (behind : s.start ≤ place) (there : w.found.vertices[place]? = some v) :
    (g.without earlier.nodes).Reached [root] v.node :=
  (seeking.confined v.node (Discovery.node_of_vertex place v there)).resolve_left
    (seeking.node_new behind there)

theorem Seeking.place (seeking : Seeking g earlier root w s) {node : Node} (found : node ∈ w.found.nodes)
    (new : node ∉ earlier.nodes) :
    ∃ (p : Nat) (v : Vertex), w.found.vertices[p]? = some v ∧ v.node = node ∧ s.start ≤ p := by
  obtain ⟨p, v, there, same⟩ := Discovery.vertex_of_node node found
  refine ⟨p, v, there, same, ?_⟩
  by_contra early
  have inside : p < earlier.nodes.length := by
    rw [earlier.length_nodes, ← seeking.start]
    omega
  have known := List.prefix_iff_getElem?.mp seeking.begins p inside
  rw [Discovery.nodes_getElem?, there, Option.map_some, Option.some.injEq, same] at known
  exact new (known ▸ List.getElem_mem inside)

theorem Seeking.step (seeking : Seeking g earlier root w s) {node : Node} (asks : w.asks? = some node) :
    Seeking g earlier root (w.step g) { s with cursor := s.cursor + 1 } := by
  obtain ⟨t, same, inside, room, isNode, next, waiting, budget, nodes, found, kept⟩ :=
    expand_onward seeking.sound asks
  rw [seeking.search, Option.some.injEq] at same
  subst same
  obtain ⟨v, there, isV⟩ := Option.map_eq_some_iff.mp isNode
  have longer := nodes.length_le
  rw [Discovery.length_nodes, Discovery.length_nodes] at longer
  have sound := step_sound (g := g) seeking.sound
  constructor
  case search => exact next
  case roots => exact waiting.trans seeking.roots
  case start => exact seeking.start
  case sound => exact sound
  case begins => exact seeking.begins.trans nodes
  case within =>
    have before := seeking.within
    simp only
    omega
  case ahead =>
    rw [budget]
    simp only
    omega
  case spent =>
    rw [budget]
    simp only
    omega
  case confined =>
    intro other isFound
    rw [Discovery.mem_nodes sound.found] at isFound
    have known : ((w.found.visitAll g.look (g.children node)).2.index[other]?).isSome := by
      simpa [Walk.step, asks, expand, seeking.search, Discovery.setChildren] using isFound
    rcases Discovery.visitAll_known g.look _ _ other known with old | ⟨child, live⟩
    · exact seeking.confined other ((Discovery.mem_nodes seeking.sound.found other).mpr old)
    · by_cases early : other ∈ earlier.nodes
      · exact Or.inl early
      · have reached := seeking.reached seeking.within.1 there
        rw [isV] at reached
        exact Or.inr (reached.step child ((g.live_without _ _).mpr ⟨early, live⟩))
  case unpinned =>
    intro place u behind isThere
    obtain ⟨_, grows, _, _⟩ :=
      Discovery.visitAll_sound g.look g.agrees (g.children node) w.found seeking.sound.found
    simp only [Walk.step, asks, expand, seeking.search, Discovery.setChildren, Array.getElem?_modify] at isThere
    obtain ⟨x, atX, samePin⟩ : ∃ x, (w.found.visitAll g.look (g.children node)).2.vertices[place]? =
        some x ∧ u.pinned = x.pinned := by
      split at isThere
      · obtain ⟨x, atX, rfl⟩ := Option.map_eq_some_iff.mp isThere
        exact ⟨x, atX, rfl⟩
      · exact ⟨u, isThere, rfl⟩
    rw [samePin]
    rcases grows.2 place x atX with old | ⟨_, _, new⟩
    · exact seeking.unpinned place x behind old
    · exact new

/-- The last state of a search: it asks for nothing, and ends. Until then each state expanded one
vertex. -/
structure Last (g : Graph) (earlier : Discovery) (root : Node) (w : Walk) (s : Search) (front : List Walk)
    (e : Walk) (t : Search) : Prop where
  trace : w.trace g = front ++ [e]
  asking : ∀ v ∈ front, v.asks?.isSome
  states : ∀ v ∈ front, ∃ u, Seeking g earlier root v u ∧ v.budget = w.budget ∧
    (v.step g).found.nodes <+: e.found.nodes
  seeking : Seeking g earlier root e t
  asks : e.asks? = none
  budget : e.budget = w.budget
  run : run g w = e.close t
  nodes : w.found.nodes <+: e.found.nodes
  length : front.length + s.cursor = t.cursor
  expanded : ∀ (place : Nat) (v : Vertex), s.cursor ≤ place → place < t.cursor →
    e.found.vertices[place]? = some v → v.node ∈ front.filterMap asks?
  follows : front = [] ∧ e = w ∨ ∃ v ∈ front, e = v.step g

theorem Seeking.unfinished (seeking : Seeking g earlier root w s) : w.finished = false := by
  simp [finished, seeking.search]

theorem Last.now (seeking : Seeking g earlier root w s) (asks : w.asks? = none) :
    Last g earlier root w s [] w s := by
  have ended : w.step g = w.close s := by
    simp only [Walk.step, asks, turn, seeking.search]
  have done : (w.close s).finished = true := by
    simp [finished, close, seeking.roots]
  constructor
  case trace => rw [trace_unfinished seeking.unfinished, ended, trace_finished done]; rfl
  case asking => simp
  case states => simp
  case seeking => exact seeking
  case asks => exact asks
  case budget => rfl
  case run => rw [← run_step, ended, run_of_finished g done]
  case nodes => exact List.prefix_rfl
  case length => simp
  case expanded => exact fun place v since before => absurd before (by omega)
  case follows => exact Or.inl ⟨rfl, rfl⟩

theorem Last.later (seeking : Seeking g earlier root w s) {node : Node} (asks : w.asks? = some node)
    {front : List Walk} {e : Walk} {t : Search}
    (last : Last g earlier root (w.step g) { s with cursor := s.cursor + 1 } front e t) :
    Last g earlier root w s (w :: front) e t := by
  obtain ⟨u, same, inside, _, isNode, _, _, budget, nodes, _, _⟩ := expand_onward seeking.sound asks
  rw [seeking.search, Option.some.injEq] at same
  subst same
  constructor
  case trace => rw [trace_unfinished seeking.unfinished, last.trace]; rfl
  case asking =>
    intro v member
    rcases List.mem_cons.mp member with rfl | later
    · rw [asks]
      rfl
    · exact last.asking v later
  case states =>
    intro v member
    rcases List.mem_cons.mp member with rfl | later
    · exact ⟨s, seeking, rfl, last.nodes⟩
    · obtain ⟨u, still, limit, within⟩ := last.states v later
      exact ⟨u, still, limit.trans budget, within⟩
  case seeking => exact last.seeking
  case asks => exact last.asks
  case budget => exact last.budget.trans budget
  case run => exact (run_step g w).symm.trans last.run
  case nodes => exact nodes.trans last.nodes
  case length =>
    have shorter := last.length
    simp only [List.length_cons] at shorter ⊢
    omega
  case expanded =>
    intro place v since before there
    rw [List.filterMap_cons_some asks]
    rcases Nat.eq_or_lt_of_le since with here | later
    · subst here
      have first : s.cursor < w.found.nodes.length := w.found.length_nodes ▸ inside
      have same := List.prefix_iff_getElem?.mp (nodes.trans last.nodes) s.cursor first
      rw [Discovery.nodes_getElem?, there, ← List.getElem?_eq_getElem first,
        Discovery.nodes_getElem?, isNode, Option.map_some, Option.some.injEq] at same
      exact same ▸ List.mem_cons_self
    · exact List.mem_cons_of_mem node (last.expanded place v later before there)
  case follows =>
    rcases last.follows with ⟨rfl, rfl⟩ | ⟨v, member, rfl⟩
    · exact Or.inr ⟨w, List.mem_cons_self, rfl⟩
    · exact Or.inr ⟨v, List.mem_cons_of_mem w member, rfl⟩

/-- Every search comes to a last state. -/
theorem Seeking.last (seeking : Seeking g earlier root w s) :
    ∃ front e t, Last g earlier root w s front e t := by
  fun_induction Walk.run g w generalizing s with
  | case1 w done =>
      rw [seeking.unfinished] at done
      cases done
  | case2 w going ih =>
      cases asks : w.asks? with
      | some node =>
          obtain ⟨front, e, t, last⟩ := ih (seeking.step asks)
          exact ⟨w :: front, e, t, last.later seeking asks⟩
      | none => exact ⟨[], w, s, .now seeking asks⟩

/-! The turn of a root -/

def foundBy (g : Graph) (budget : Nat) (roots : List Node) : Discovery :=
  (run g { budget, roots }).found

/-- A walk when the turn of a root has come. -/
def turnOf (g : Graph) (budget : Nat) (before : List Node) (root : Node) : Walk :=
  { budget, roots := [root], found := foundBy g budget before }

theorem run_reads (g : Graph) (budget : Nat) (roots : List Node) :
    Reads g roots (run g { budget, roots }) :=
  (run_sound g _ (start_sound budget)).1

theorem asked_nodup (g : Graph) (budget : Nat) (roots : List Node) :
    (asked g { budget, roots }).Nodup := by
  have sublist := asked_sublist g _ (start_sound budget) (start_within budget roots {})
  exact (Discovery.nodes_nodup (run_reads g budget roots).found).sublist
    (sublist.trans (List.drop_sublist _ _))

theorem more_foundBy (g : Graph) (budget : Nat) (before after : List Node) :
    (run g { budget, roots := before }).more after =
      { budget, roots := after, found := foundBy g budget before } := by
  rw [more_finished after (run_finished g _), run_budget, foundBy]

theorem run_foundBy (g : Graph) (budget : Nat) (before after : List Node) :
    run g { budget, roots := before ++ after } =
      run g { budget, roots := after, found := foundBy g budget before } := by
  have whole := (trace_more g { budget, roots := before } after).2
  rwa [more_foundBy] at whole

theorem asked_foundBy (g : Graph) (budget : Nat) (before after : List Node) :
    asked g { budget, roots := before ++ after } = asked g { budget, roots := before } ++
      asked g { budget, roots := after, found := foundBy g budget before } := by
  have whole := asked_more g { budget, roots := before } after
  rwa [more_foundBy] at whole

theorem foundBy_snoc (g : Graph) (budget : Nat) (before : List Node) (root : Node) :
    foundBy g budget (before ++ [root]) = (run g (turnOf g budget before root)).found := by
  rw [foundBy, run_foundBy, turnOf]

theorem turnOf_reads (g : Graph) (budget : Nat) (before : List Node) (root : Node) :
    Reads g [root] (turnOf g budget before root) ∧ (turnOf g budget before root).Within := by
  have resumed := (run_reads g budget before).resume (run_finished g _) [root]
  rwa [run_budget] at resumed

theorem turnOf_unfinished (g : Graph) (budget : Nat) (before : List Node) (root : Node) :
    (turnOf g budget before root).finished = false := by
  simp [turnOf, finished]

section Turn

variable (budget : Nat) (before : List Node) (live : g.Live root)
  (new : root ∉ (foundBy g budget before).nodes)

include live new

theorem turn_seeking :
    Seeking g (foundBy g budget before) root ((turnOf g budget before root).step g)
        ⟨(foundBy g budget before).vertices.size, (foundBy g budget before).vertices.size⟩ ∧
      ((turnOf g budget before root).step g).budget = budget ∧
      ((turnOf g budget before root).step g).found.vertices.size =
        (foundBy g budget before).vertices.size + 1 := by
  obtain ⟨reads, within⟩ := turnOf_reads g budget before root
  obtain ⟨onward, _⟩ := step_onward reads within
  have sound : (foundBy g budget before).Sound g.Live fun node count => g.look node = .live count :=
    reads.found
  have absent : (foundBy g budget before).index[root]? = none := by
    rw [← Option.not_isSome_iff_eq_none, ← Discovery.mem_nodes sound]
    exact new
  have fit : (foundBy g budget before).excluded.contains root = false := by
    rw [← Bool.not_eq_true, Std.TreeSet.contains_iff_mem]
    exact fun isOut => sound.excluded root isOut live
  obtain ⟨count, seen⟩ := live
  have found : ((turnOf g budget before root).step g).found.vertices =
      (foundBy g budget before).vertices.push { node := root, count } := by
    simp [step, asks?, turn, turnOf, Walk.start, Discovery.visit, absent, fit, seen]
  have size : ((turnOf g budget before root).step g).found.vertices.size =
      (foundBy g budget before).vertices.size + 1 := by
    rw [found, Array.size_push]
  have reads' := step_sound reads
  refine ⟨?_, step_budget g _, size⟩
  constructor
  case search =>
    simp [step, asks?, turn, turnOf, Walk.start, Discovery.visit, absent, fit, seen]
  case roots => simp [step, asks?, turn, turnOf, Walk.start]
  case start => rfl
  case sound => exact reads'
  case begins => exact onward.nodes
  case within => simp only [size]; omega
  case ahead => simp only [size]; omega
  case spent => simp only; omega
  case confined =>
    intro node isFound
    rw [Discovery.mem_nodes reads'.found] at isFound
    have known : (((foundBy g budget before).visit g.look root).2.index[node]?).isSome := by
      simpa [step, asks?, turn, turnOf, Walk.start] using isFound
    rcases Discovery.visit_known g.look _ root node known with old | ⟨rfl, isLive⟩
    · exact Or.inl ((Discovery.mem_nodes sound node).mpr old)
    · exact Or.inr (.root List.mem_cons_self ((g.live_without _ _).mpr ⟨new, isLive⟩))
  case unpinned =>
    intro place v behind there
    rw [found, Array.getElem?_push] at there
    split at there
    · cases there
      rfl
    · have inside := (Array.getElem?_eq_some_iff.mp there).1
      simp only at behind
      omega

end Turn

/-- What a search has found is all that earlier roots have not. -/
theorem Seeking.mem_new (seeking : Seeking g earlier root w s) (node : Node) :
    node ∈ w.found.nodes.drop s.start ↔ node ∈ w.found.nodes ∧ node ∉ earlier.nodes := by
  constructor
  · intro member
    obtain ⟨i, placed⟩ := List.mem_iff_getElem?.mp member
    rw [List.getElem?_drop, Discovery.nodes_getElem?] at placed
    obtain ⟨v, there, rfl⟩ := Option.map_eq_some_iff.mp placed
    exact ⟨(List.drop_sublist _ _).subset member, seeking.node_new (Nat.le_add_right _ _) there⟩
  · rintro ⟨found, new⟩
    obtain ⟨p, v, there, rfl, behind⟩ := seeking.place found new
    refine List.mem_iff_getElem?.mpr ⟨p - s.start, ?_⟩
    rw [List.getElem?_drop, Nat.add_sub_cancel' behind, Discovery.nodes_getElem?, there, Option.map_some]

theorem Seeking.encard_new (seeking : Seeking g earlier root w s) :
    ((w.found.nodes.drop s.start).toFinset : Set Node).encard =
      ((w.found.vertices.size - s.start : Nat) : ℕ∞) := by
  have once := (Discovery.nodes_nodup seeking.sound.found).sublist (List.drop_sublist s.start w.found.nodes)
  rw [Set.encard_coe_eq_coe_finsetCard, List.toFinset_card_of_nodup once, List.length_drop,
    Discovery.length_nodes]

/-- The nodes that a search has found are all ahead of it, and there are as many as it has found. -/
theorem Seeking.least (seeking : Seeking g earlier root w s) :
    ((w.found.vertices.size - s.start : Nat) : ℕ∞) ≤
      {node | (g.without earlier.nodes).Reached [root] node}.encard := by
  rw [← seeking.encard_new]
  refine Set.encard_le_encard fun node member => ?_
  rw [Finset.mem_coe, List.mem_toFinset, seeking.mem_new] at member
  exact (seeking.confined node member.1).resolve_left member.2

/-- A search with nothing left to expand has found all that is ahead. -/
theorem Seeking.all (seeking : Seeking g earlier root w s) (done : s.cursor = w.found.vertices.size)
    (node : Node) :
    (g.without earlier.nodes).Reached [root] node ↔ node ∈ w.found.nodes ∧ node ∉ earlier.nodes := by
  constructor
  · intro reached
    have fresh := ((g.live_without _ node).mp reached.live).1
    refine ⟨?_, fresh⟩
    induction reached with
    | root member live =>
        rename_i node
        rw [Discovery.mem_nodes seeking.sound.found]
        refine (seeking.sound.roots node member ((g.live_without _ _).mp live).2).resolve_left ?_
        rw [seeking.roots]
        exact List.not_mem_nil
    | step before edge live ih =>
        rename_i node child
        have old := ((g.live_without _ node).mp before.live).1
        obtain ⟨p, v, there, rfl, behind⟩ := seeking.place (ih old) old
        have inside := (Array.getElem?_eq_some_iff.mp there).1
        rcases seeking.sound.expanded p v there with whole | ⟨_, pinned | ⟨t, same, later⟩⟩
        · rw [Discovery.mem_nodes seeking.sound.found]
          exact whole.2 child edge ((g.live_without _ child).mp live).2
        · rw [seeking.unpinned p v behind there] at pinned
          cases pinned
        · rw [seeking.search, Option.some.injEq] at same
          subst same
          omega
  · rintro ⟨found, new⟩
    exact (seeking.confined node found).resolve_left new

theorem Seeking.most (seeking : Seeking g earlier root w s) (done : s.cursor = w.found.vertices.size) :
    {node | (g.without earlier.nodes).Reached [root] node}.encard ≤ (w.budget : ℕ∞) := by
  have few := seeking.ahead.resolve_left (by omega)
  have same : {node | (g.without earlier.nodes).Reached [root] node} =
      ((w.found.nodes.drop s.start).toFinset : Set Node) := by
    ext node
    rw [Set.mem_ofPred_eq, Finset.mem_coe, List.mem_toFinset, seeking.mem_new, seeking.all done]
  rw [same, seeking.encard_new]
  exact_mod_cast few

/-- A search that asks for nothing more leaves a vertex if and only if more than its budget is ahead. -/
theorem Seeking.overfull_iff (seeking : Seeking g earlier root w s) (asks : w.asks? = none) :
    s.cursor < w.found.vertices.size ↔
      (w.budget : ℕ∞) < {node | (g.without earlier.nodes).Reached [root] node}.encard := by
  constructor
  · intro left
    obtain ⟨t, same, _, many⟩ := (exhausted_iff seeking.search asks).mpr left
    rw [seeking.search, Option.some.injEq] at same
    subst same
    calc (w.budget : ℕ∞) < ((w.found.vertices.size - s.start : Nat) : ℕ∞) := by exact_mod_cast many
      _ ≤ _ := seeking.least
  · intro many
    by_contra done
    have most := seeking.most (Nat.le_antisymm seeking.within.2 (Nat.le_of_not_lt done))
    exact absurd many (not_lt_of_ge most)

theorem turn_last (budget : Nat) (before : List Node) (live : g.Live root)
    (new : root ∉ (foundBy g budget before).nodes) :
    ∃ front e t, Last g (foundBy g budget before) root ((turnOf g budget before root).step g)
        ⟨(foundBy g budget before).vertices.size, (foundBy g budget before).vertices.size⟩ front e t ∧
      e.budget = budget ∧
      (turnOf g budget before root).trace g = turnOf g budget before root :: (front ++ [e]) ∧
      (turnOf g budget before root).asked g = front.filterMap asks? ∧
      run g (turnOf g budget before root) = e.close t ∧
      ((turnOf g budget before root).CutOff g ↔ t.cursor < e.found.vertices.size) := by
  obtain ⟨seeking, limit, _⟩ := turn_seeking budget before live new
  obtain ⟨front, e, t, last⟩ := seeking.last
  have unfinished := turnOf_unfinished g budget before root
  have trace := trace_unfinished (g := g) unfinished
  rw [last.trace] at trace
  refine ⟨front, e, t, last, last.budget.trans limit, trace, ?_, ?_, ?_⟩
  · rw [asked, trace, List.filterMap_cons_none rfl, List.filterMap_append, List.filterMap_cons_none last.asks,
      List.filterMap_nil, List.append_nil]
  · rw [← run_step, last.run]
  · rw [← exhausted_iff last.seeking.search last.asks, CutOff, trace]
    constructor
    · rintro ⟨v, member, exhausted⟩
      rcases List.mem_cons.mp member with rfl | later
      · obtain ⟨s, searching, _⟩ := exhausted
        cases searching
      · rcases List.mem_append.mp later with asking | isLast
        · obtain ⟨node, asks⟩ := Option.isSome_iff_exists.mp (last.asking v asking)
          exact absurd exhausted (room_of_asks asks)
        · exact List.mem_singleton.mp isLast ▸ exhausted
    · exact fun exhausted => ⟨e, by simp, exhausted⟩

theorem stays_pinned (budget : Nat) (before : List Node) (after : List Node) {p : Nat} {v : Vertex}
    (there : (foundBy g budget before).vertices[p]? = some v) :
    (foundBy g budget (before ++ after)).vertices[p]? = some v := by
  obtain ⟨resumed, within⟩ := (run_reads g budget before).resume (run_finished g _) after
  have onward := run_onward g _ resumed within
  rw [run_budget] at onward
  rw [foundBy, run_foundBy]
  exact (onward.kept p (Array.getElem?_eq_some_iff.mp there).1).trans there

end Walk

/-- The turn of a root that is live and not found yet, in a walk over a row of roots with any budget. Its
search asks for the children of at most so many nodes as the budget allows, and no node is asked twice in
the whole walk. It is cut off if and only if more live nodes than that can be reached from the root
through live nodes that no earlier root has found. If it is not, it finds just these nodes and asks each
of them for its children; if it is, nothing that it found first is garbage, and nothing to which recorded
edges lead from there. -/
theorem cut_off_exact (g : Graph) (budget : Nat) (before : List Node) (root : Node) (after : List Node)
    (live : g.Live root) (new : root ∉ (Walk.foundBy g budget before).nodes) :
    let earlier := Walk.foundBy g budget before
    let later := Walk.foundBy g budget (before ++ [root])
    let turn := Walk.turnOf g budget before root
    let whole : Walk := { budget, roots := before ++ root :: after }
    let ahead := {node | (g.without earlier.nodes).Reached [root] node}
    whole.asked g = Walk.asked g { budget, roots := before } ++ turn.asked g ++
        Walk.asked g { budget, roots := after, found := later } ∧
      (whole.asked g).Nodup ∧ (turn.asked g).length ≤ budget ∧
      (turn.CutOff g ↔ (budget : ℕ∞) < ahead.encard) ∧
      (¬ turn.CutOff g → ∀ node,
        (node ∈ ahead ↔ node ∈ later.nodes ∧ node ∉ earlier.nodes) ∧
          (node ∈ ahead → node ∈ turn.asked g)) ∧
      (turn.CutOff g → ∀ node ∈ later.nodes, node ∉ earlier.nodes → ∀ target,
        Relation.ReflTransGen (Walk.run g whole).found.Recorded node target →
          target ∉ (analyze g (before ++ root :: after) budget).members) := by
  intro earlier later turn whole ahead
  obtain ⟨front, e, t, last, limit, _, asks, run, cut⟩ := Walk.turn_last budget before live new
  have seeking := last.seeking
  have closed : later = (e.close t).found := by
    rw [← run]
    exact Walk.foundBy_snoc g budget before root
  have nodes : later.nodes = e.found.nodes := by
    rw [closed, Walk.close_nodes]
  refine ⟨?_, ?_, ?_, ?_, ?_, ?_⟩
  · have split : before ++ root :: after = (before ++ [root]) ++ after := by simp
    simp only [whole]
    rw [split, Walk.asked_foundBy, Walk.asked_foundBy]
    rfl
  · exact Walk.asked_nodup g budget (before ++ root :: after)
  · have spent := seeking.spent
    have length := last.length
    have start := seeking.start
    rw [limit, start] at spent
    rw [asks]
    have fewer := List.length_filterMap_le Walk.asks? front
    simp only at length
    omega
  · rw [cut, seeking.overfull_iff last.asks, limit]
  · intro notCut node
    rw [cut] at notCut
    have done := Nat.le_antisymm seeking.within.2 (Nat.le_of_not_lt notCut)
    refine ⟨nodes ▸ seeking.all done node, fun reached => ?_⟩
    obtain ⟨found, fresh⟩ := (seeking.all done node).mp reached
    obtain ⟨p, v, there, rfl, behind⟩ := seeking.place found fresh
    rw [asks]
    refine last.expanded p v (seeking.start ▸ behind) ?_ there
    rw [done]
    exact (Array.getElem?_eq_some_iff.mp there).1
  · intro isCut node found fresh target path
    obtain ⟨p, v, there, rfl, behind⟩ := seeking.place (nodes ▸ found) fresh
    obtain ⟨lookup, _⟩ := Walk.close_found e t
    have pinned : later.vertices[p]? = some { v with pinned := true } := by
      rw [closed, lookup, there, Option.map_some, if_pos ⟨cut.mp isCut, behind⟩]
    have stays := Walk.stays_pinned budget (before ++ [root]) after pinned
    rw [List.append_assoc, List.singleton_append] at stays
    exact Discovery.not_garbage_of_pinned (Walk.run_reads g budget _).found stays rfl path

-- A budget of two is too small for the ring of three: its last node is found, but not asked.
theorem cut_off_exact_rings :
    let turn := Walk.turnOf rings 2 [0] 2
    (Walk.foundBy rings 2 [0]).nodes = [0, 1] ∧ turn.CutOff rings ∧ (turn.asked rings).length ≤ 2 ∧
      (Walk.foundBy rings 2 [0, 2]).nodes = [0, 1, 2, 3, 4] ∧
      ∀ node ∈ [2, 3, 4], node ∉ (analyze rings [0, 2, 5, 0] 2).members := by
  intro turn
  have first : Walk.foundBy rings 2 [0] = (Walk.steps rings 10 { budget := 2, roots := [0] }).found := by
    rw [Walk.foundBy, Walk.run_eq_steps rings 10 _ (by decide +kernel)]
  have second : Walk.foundBy rings 2 [0, 2] =
      (Walk.steps rings 20 { budget := 2, roots := [0, 2] }).found := by
    rw [Walk.foundBy, Walk.run_eq_steps rings 20 _ (by decide +kernel)]
  have earlier : (Walk.foundBy rings 2 [0]).nodes = [0, 1] := by
    rw [first]
    decide +kernel
  have later : (Walk.foundBy rings 2 [0, 2]).nodes = [0, 1, 2, 3, 4] := by
    rw [second]
    decide +kernel
  obtain ⟨_, _, few, cut, _, pinned⟩ := cut_off_exact rings 2 [0] 2 [5, 0] ⟨1, rfl⟩ (by simp [earlier])
  have ahead : (({2, 3, 4} : Finset Node) : Set Node) ⊆
      {node | (rings.without (Walk.foundBy rings 2 [0]).nodes).Reached [2] node} := by
    have alive : ∀ node ∈ [2, 3, 4], (rings.without (Walk.foundBy rings 2 [0]).nodes).Live node := by
      intro node member
      rw [Graph.live_without, earlier]
      fin_cases member <;> exact ⟨by decide, 1, rfl⟩
    have two : (rings.without (Walk.foundBy rings 2 [0]).nodes).Reached [2] 2 :=
      .root List.mem_cons_self (alive 2 (by decide))
    have three : (rings.without (Walk.foundBy rings 2 [0]).nodes).Reached [2] 3 :=
      two.step (by decide) (alive 3 (by decide))
    have four : (rings.without (Walk.foundBy rings 2 [0]).nodes).Reached [2] 4 :=
      three.step (by decide) (alive 4 (by decide))
    intro node member
    rw [Finset.mem_coe] at member
    fin_cases member
    · exact two
    · exact three
    · exact four
  have isCut : turn.CutOff rings := by
    refine cut.mpr (lt_of_lt_of_le ?_ (Set.encard_le_encard ahead))
    rw [Set.encard_coe_eq_coe_finsetCard]
    decide
  refine ⟨earlier, isCut, few, later, fun node member => ?_⟩
  refine pinned isCut node ?_ ?_ node .refl
  · simp only [List.cons_append, List.nil_append, later]
    fin_cases member <;> decide
  · rw [earlier]
    fin_cases member <;> decide

end CountedHeap.Trial
