import CountedHeap.Proofs.Trial.Exact

/-!
The states of a walk, one after the other. What a search has found stays where it is once the search
is over, and what is found later goes behind it. So a walk with more roots begins with the states of
the walk without them, and each node is asked for its children once.
-/

namespace CountedHeap.Trial

namespace Discovery

theorem nodes_getElem? (d : Discovery) (place : Nat) :
    d.nodes[place]? = (d.vertices[place]?).map Vertex.node := by
  rw [nodes, List.getElem?_map, Array.getElem?_toList]

theorem length_nodes (d : Discovery) : d.nodes.length = d.vertices.size := by
  rw [nodes, List.length_map, Array.length_toList]

theorem Grows.nodes {d e : Discovery} (grows : d.Grows e) : d.nodes <+: e.nodes := by
  rw [List.prefix_iff_getElem?]
  intro place inside
  rw [nodes_getElem?]
  have there : place < d.vertices.size := d.length_nodes ▸ inside
  have same := grows.1 place _ (Array.getElem?_eq_getElem there)
  simp [same, Discovery.nodes]

theorem nodes_congr {d e : Discovery}
    (same : ∀ place : Nat, (e.vertices[place]?).map Vertex.node = (d.vertices[place]?).map Vertex.node) :
    e.nodes = d.nodes := by
  apply List.ext_getElem?
  intro place
  rw [nodes_getElem?, nodes_getElem?, same]

theorem nodes_setChildren (d : Discovery) (place : Nat) (row : List Nat) :
    (d.setChildren place row).nodes = d.nodes := by
  apply nodes_congr
  intro other
  simp only [setChildren, Array.getElem?_modify]
  split <;> cases d.vertices[other]? <;> rfl

end Discovery

variable {g : Graph} {roots : List Node} {w v : Walk}

namespace Walk

/-- A walk that has seen nothing but the graph. -/
abbrev Reads (g : Graph) (roots : List Node) (w : Walk) : Prop :=
  w.Sound g.Live (fun node count => g.look node = .live count) g.children roots

def trace (g : Graph) (w : Walk) : List Walk :=
  if _ : w.finished then [] else w :: trace g (w.step g)
  termination_by (w.roots.length, w.left)
  decreasing_by exact step_decreases g w (by simp_all)

def asked (g : Graph) (w : Walk) : List Node := (w.trace g).filterMap asks?

theorem trace_finished (done : w.finished = true) : w.trace g = [] := by
  rw [trace, dif_pos done]

theorem trace_unfinished (unfinished : w.finished = false) :
    w.trace g = w :: (w.step g).trace g := by
  rw [trace, dif_neg (by rw [unfinished]; exact Bool.false_ne_true)]

theorem asked_unfinished (unfinished : w.finished = false) :
    w.asked g = w.asks?.toList ++ (w.step g).asked g := by
  rw [asked, trace_unfinished unfinished, List.filterMap_cons, asked]
  cases w.asks? <;> rfl

/-! More roots -/

def more (w : Walk) (after : List Node) : Walk := { w with roots := w.roots ++ after }

theorem asks_more (w : Walk) (after : List Node) : (w.more after).asks? = w.asks? := rfl

theorem step_more (after : List Node) (unfinished : w.finished = false) :
    (w.more after).step g = (w.step g).more after := by
  unfold step
  rw [asks_more]
  cases asks : w.asks? with
  | some node =>
      obtain ⟨s, _, same, _⟩ := asked_vertex w node asks
      simp [expand, more, same]
  | none =>
      cases searching : w.search with
      | some s => simp [turn, more, searching, close]
      | none =>
          cases waiting : w.roots with
          | nil => simp [finished, searching, waiting] at unfinished
          | cons root rest => simp [turn, more, searching, waiting, start]

theorem finished_more (after : List Node) (unfinished : w.finished = false) :
    (w.more after).finished = false := by
  simp only [finished, Bool.and_eq_false_iff, more] at unfinished ⊢
  refine unfinished.imp id fun waiting => ?_
  rw [← Bool.not_eq_true, List.isEmpty_iff] at waiting ⊢
  simp [waiting]

theorem run_finished (g : Graph) (w : Walk) : (run g w).finished = true := by
  fun_induction run g w with
  | case1 w done => exact done
  | case2 w unfinished ih => exact ih

/-- A finished walk goes on like one that starts with what it has found. -/
theorem more_finished (after : List Node) (done : w.finished = true) :
    w.more after = { budget := w.budget, roots := after, found := w.found } := by
  simp only [finished, Bool.and_eq_true, Option.isNone_iff_eq_none, List.isEmpty_iff] at done
  rw [more, done.1, done.2, List.nil_append]

/-- Later roots do not matter to earlier ones. -/
theorem trace_more (g : Graph) (w : Walk) (after : List Node) :
    (w.more after).trace g =
        (w.trace g).map (·.more after) ++ ((run g w).more after).trace g ∧
      run g (w.more after) = run g ((run g w).more after) := by
  fun_induction run g w with
  | case1 w done => exact ⟨by rw [trace_finished done]; rfl, rfl⟩
  | case2 w going ih =>
      have unfinished : w.finished = false := Bool.eq_false_iff.mpr going
      have goesOn := finished_more after unfinished
      rw [trace_unfinished goesOn, ← run_step g (w.more after), step_more after unfinished,
        trace_unfinished unfinished, ih.1, ih.2]
      exact ⟨rfl, rfl⟩

theorem asked_more (g : Graph) (w : Walk) (after : List Node) :
    (w.more after).asked g = w.asked g ++ ((run g w).more after).asked g := by
  rw [asked, (trace_more g w after).1, List.filterMap_append, List.filterMap_map]
  rfl

/-! What stays -/

def base (w : Walk) : Nat := w.search.elim w.found.vertices.size Search.start

def passed (w : Walk) : Nat := w.search.elim w.found.vertices.size Search.cursor

def Within (w : Walk) : Prop := w.base ≤ w.passed ∧ w.passed ≤ w.found.vertices.size

/-- From one state of a walk to a later one: vertices are added at the end, and the vertices of searches
that are over stay as they are. -/
structure Onward (w v : Walk) : Prop where
  base : w.base ≤ v.base
  passed : w.passed ≤ v.passed
  nodes : w.found.nodes <+: v.found.nodes
  kept : ∀ place < w.base, v.found.vertices[place]? = w.found.vertices[place]?

theorem Onward.refl (w : Walk) : Onward w w :=
  ⟨Nat.le_refl _, Nat.le_refl _, List.prefix_rfl, fun _ _ => rfl⟩

theorem Onward.trans {u : Walk} (first : Onward w v) (second : Onward v u) : Onward w u :=
  ⟨first.base.trans second.base, first.passed.trans second.passed, first.nodes.trans second.nodes,
    fun place before => (second.kept place (before.trans_le first.base)).trans
      (first.kept place before)⟩

theorem expand_onward (sound : w.Reads g roots) {node : Node} (asks : w.asks? = some node) :
    ∃ s, w.search = some s ∧ s.cursor < w.found.vertices.size ∧
      w.found.vertices.size - s.start ≤ w.budget ∧
      (w.found.vertices[s.cursor]?).map Vertex.node = some node ∧
      (w.step g).search = some { s with cursor := s.cursor + 1 } ∧
      (w.step g).roots = w.roots ∧ (w.step g).budget = w.budget ∧
      w.found.nodes <+: (w.step g).found.nodes ∧
      (w.step g).found.nodes = (w.found.visitAll g.look (g.children node)).2.nodes ∧
      ∀ place ≠ s.cursor, place < w.found.vertices.size →
        (w.step g).found.vertices[place]? = w.found.vertices[place]? := by
  obtain ⟨s, v, same, there, isNode⟩ := asked_vertex w node asks
  obtain ⟨_, grows, _, _⟩ := Discovery.visitAll_sound g.look g.agrees (g.children node) w.found sound.found
  have room : w.found.vertices.size - s.start ≤ w.budget := by
    unfold asks? at asks
    rw [same] at asks
    by_contra full
    simp [full] at asks
  have stepped : w.step g = { w with
      found := (w.found.visitAll g.look (g.children node)).2.setChildren s.cursor
        (w.found.visitAll g.look (g.children node)).1
      search := some { s with cursor := s.cursor + 1 } } := by
    simp only [step, asks, expand, same]
  rw [stepped]
  refine ⟨s, same, (Array.getElem?_eq_some_iff.mp there).1, room, by rw [there, ← isNode]; rfl, rfl, rfl, rfl,
    ?_, Discovery.nodes_setChildren _ _ _, ?_⟩
  · rw [Discovery.nodes_setChildren]
    exact grows.nodes
  · intro place other inside
    simp only [Discovery.setChildren, Array.getElem?_modify, if_neg (Ne.symm other)]
    rw [Array.getElem?_eq_getElem inside]
    exact grows.1 place _ (Array.getElem?_eq_getElem inside)

theorem close_nodes (w : Walk) (s : Search) : (w.close s).found.nodes = w.found.nodes := by
  obtain ⟨lookup, _⟩ := close_found w s
  apply Discovery.nodes_congr
  intro place
  rw [lookup, Option.map_map]
  congr 1
  funext v
  simp only [Function.comp_apply]
  split <;> rfl

theorem step_onward (sound : w.Reads g roots) (within : w.Within) :
    Onward w (w.step g) ∧ (w.step g).Within := by
  cases asks : w.asks? with
  | some node =>
      obtain ⟨s, same, inside, _, _, next, _, _, nodes, _, kept⟩ := expand_onward sound asks
      have longer := nodes.length_le
      rw [Discovery.length_nodes, Discovery.length_nodes] at longer
      simp only [Within, base, passed, same, Option.elim_some] at within
      refine ⟨⟨?_, ?_, nodes, fun place before => kept place ?_ ?_⟩, ?_⟩
      all_goals simp only [Within, base, passed, same, next, Option.elim_some] at *
      all_goals omega
  | none =>
      simp only [step, asks, turn]
      cases searching : w.search with
      | some s =>
          obtain ⟨lookup, size, _, _⟩ := close_found w s
          have ended : (w.close s).search = none := rfl
          simp only [Within, base, passed, searching, Option.elim_some] at within
          refine ⟨⟨?_, ?_, close_nodes w s ▸ List.prefix_rfl, fun place before => ?_⟩, ?_⟩
          all_goals simp only [Within, base, passed, searching, ended, size, Option.elim_some,
            Option.elim_none] at *
          · omega
          · omega
          · rw [lookup]
            have early : ¬ (s.cursor < w.found.vertices.size ∧ s.start ≤ place) := by omega
            simp [early]
          · omega
      | none =>
          cases waiting : w.roots with
          | nil =>
              exact ⟨Onward.refl w, within⟩
          | cons root rest =>
              obtain ⟨_, grows, _, _⟩ := Discovery.visit_sound g.look g.agrees w.found root sound.found
              have fewer := grows.size
              simp only [start]
              refine ⟨⟨?_, ?_, grows.nodes, fun place before => ?_⟩, ?_⟩
              · simp only [base, searching, Option.elim_none]
                split <;> simp only [Option.elim_some, Option.elim_none] <;> omega
              · simp only [passed, searching, Option.elim_none]
                split <;> simp only [Option.elim_some, Option.elim_none] <;> omega
              · simp only [base, searching, Option.elim_none] at before
                rw [Array.getElem?_eq_getElem before]
                exact grows.1 place _ (Array.getElem?_eq_getElem before)
              · simp only [Within, base, passed]
                split <;> simp only [Option.elim_some, Option.elim_none] <;> omega

theorem run_onward (g : Graph) (w : Walk) (sound : w.Reads g roots) (within : w.Within) :
    Onward w (run g w) := by
  fun_induction run g w with
  | case1 w done => exact Onward.refl w
  | case2 w going ih =>
      obtain ⟨onward, still⟩ := step_onward sound within
      exact onward.trans (ih (step_sound sound) still)

/-- The nodes that are asked for stand in the order of discovery, behind those that were passed. -/
theorem asked_sublist (g : Graph) (w : Walk) (sound : w.Reads g roots) (within : w.Within) :
    (w.asked g).Sublist ((run g w).found.nodes.drop w.passed) := by
  fun_induction run g w with
  | case1 w done =>
      rw [asked, trace_finished done]
      exact List.nil_sublist _
  | case2 w going ih =>
      have unfinished : w.finished = false := Bool.eq_false_iff.mpr going
      obtain ⟨onward, still⟩ := step_onward sound within
      have later := ih (step_sound sound) still
      rw [asked_unfinished unfinished]
      cases asks : w.asks? with
      | none => exact later.trans (List.drop_sublist_drop_left _ onward.passed)
      | some node =>
          obtain ⟨s, same, inside, _, isNode, next, _⟩ := expand_onward sound asks
          have nodes := onward.nodes.trans (run_onward g _ (step_sound sound) still).nodes
          simp only [passed, same, next, Option.elim_some] at later ⊢
          have here : (run g (w.step g)).found.nodes[s.cursor]? = some node := by
            rw [← isNode, ← Discovery.nodes_getElem?]
            have there : s.cursor < w.found.nodes.length := w.found.length_nodes ▸ inside
            rw [List.getElem?_eq_getElem there]
            exact List.prefix_iff_getElem?.mp nodes s.cursor there
          rw [List.drop_eq_getElem?_toList_append, here]
          exact later.cons_cons node

theorem start_within (budget : Nat) (roots : List Node) (found : Discovery) :
    Within { budget, roots, found } := by
  simp [Within, base, passed]

theorem Reads.resume (sound : w.Reads g roots) (done : w.finished = true) (after : List Node) :
    Reads g after { budget := w.budget, roots := after, found := w.found } ∧
      Within { budget := w.budget, roots := after, found := w.found } := by
  refine ⟨⟨sound.found, fun place v there => ?_, fun s searching => ?_, fun root member _ => Or.inl member,
    sound.roomy⟩, start_within w.budget after w.found⟩
  · rcases (sound.finished done).expanded place v there with whole | ⟨empty, pinned⟩
    · exact Or.inl whole
    · exact Or.inr ⟨empty, Or.inl pinned⟩
  · cases searching

end Walk

end CountedHeap.Trial
