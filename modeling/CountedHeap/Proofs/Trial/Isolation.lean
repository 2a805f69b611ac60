import CountedHeap.Proofs.Trial.Soundness

/-!
Trial deletion on a graph that stays put. Every node has a count at least as high as the number of
edges into it; what else it counts are references from outside the graph. Whatever the roots, their
order and the budget, the garbage is held by nothing but itself: a search that is cut off may find
less garbage, but the edges that it missed are never taken for absent ones.
-/

namespace CountedHeap.Trial

namespace Graph

def Live (g : Graph) (node : Node) : Prop := ∃ count, g.look node = .live count

def into (g : Graph) (sources : Finset Node) (node : Node) : Nat :=
  ∑ x ∈ sources, (g.children x).count node

/-- A live node is counted at least once for each edge from live nodes. The graph may be infinite,
so this is said of every finite part of it. -/
def Counted (g : Graph) : Prop :=
  ∀ node count, g.look node = .live count →
    ∀ sources : Finset Node, (∀ x ∈ sources, g.Live x) → g.into sources node ≤ count

/-- A live node is counted more often than there are edges from live nodes: it is held from outside
the graph. -/
def Held (g : Graph) (node : Node) : Prop :=
  ∃ count, g.look node = .live count ∧
    ∀ sources : Finset Node, (∀ x ∈ sources, g.Live x) → g.into sources node < count

def Edge (g : Graph) (source target : Node) : Prop := g.Live source ∧ target ∈ g.children source

theorem into_mono (g : Graph) {few many : Finset Node} (subset : few ⊆ many) (node : Node) :
    g.into few node ≤ g.into many node :=
  Finset.sum_le_sum_of_subset subset

theorem into_insert (g : Graph) (sources : Finset Node) (x node : Node) (new : x ∉ sources) :
    g.into (insert x sources) node = (g.children x).count node + g.into sources node :=
  Finset.sum_insert new

theorem into_toFinset (g : Graph) (row : List Node) (once : row.Nodup) (node : Node) :
    g.into row.toFinset node = (row.map fun x => (g.children x).count node).sum :=
  List.sum_toFinset _ once

/-- Live nodes that are counted no more often than they have edges to each other. -/
def SelfHeld (g : Graph) (row : Finset Node) : Prop :=
  ∀ node ∈ row, ∃ count, g.look node = .live count ∧ count ≤ g.into row node

theorem SelfHeld.live {g : Graph} {row : Finset Node} (selfHeld : g.SelfHeld row) (node : Node)
    (member : node ∈ row) : g.Live node := by
  obtain ⟨count, seen, _⟩ := selfHeld node member
  exact ⟨count, seen⟩

/-- The members account for every edge there is to one of them, so whoever has one is a member. -/
theorem SelfHeld.source {g : Graph} {row : Finset Node} (selfHeld : g.SelfHeld row)
    (counted : g.Counted) {source target : Node} (edge : g.Edge source target)
    (member : target ∈ row) : source ∈ row := by
  obtain ⟨count, seen, few⟩ := selfHeld target member
  by_contra outside
  have live : ∀ x ∈ insert source row, g.Live x := by
    intro x isOne
    rcases Finset.mem_insert.mp isOne with rfl | inRow
    · exact edge.1
    · exact selfHeld.live x inRow
  have enough := counted target count seen _ live
  rw [g.into_insert _ _ _ outside] at enough
  have positive := List.count_pos_iff.mpr edge.2
  omega

theorem agrees (g : Graph) :
    Agrees g.Live (fun node count => g.look node = .live count) g.look :=
  ⟨fun _ count seen => ⟨⟨count, seen⟩, seen⟩, fun _ live => live⟩

end Graph

variable {g : Graph} {roots : List Node} {w : Walk}

namespace Walk

def steps (g : Graph) : Nat → Walk → Walk
  | 0, w => w
  | n + 1, w => (w.step g).steps g n

theorem step_finished (done : w.finished = true) : w.step g = w := by
  simp only [finished, Bool.and_eq_true, Option.isNone_iff_eq_none, List.isEmpty_iff] at done
  simp [step, asks?, turn, done]

theorem run_of_finished (g : Graph) (done : w.finished = true) : run g w = w := by
  rw [run, dif_pos done]

theorem run_step (g : Graph) (w : Walk) : run g (w.step g) = run g w := by
  by_cases done : w.finished = true
  · rw [step_finished done]
  · conv_rhs => rw [run, dif_neg done]

/-- A run is as many steps as it takes. -/
theorem run_eq_steps (g : Graph) (n : Nat) (w : Walk) (done : (w.steps g n).finished = true) :
    run g w = w.steps g n := by
  induction n generalizing w with
  | zero => exact run_of_finished g done
  | succ n ih => exact (run_step g w).symm.trans (ih (w.step g) done)

theorem step_sound (sound : w.Sound g.Live (fun node count => g.look node = .live count)
      g.children roots) :
    (w.step g).Sound g.Live (fun node count => g.look node = .live count) g.children roots := by
  unfold step
  split
  · rename_i node asked
    exact expand_sound g.look g.agrees w node asked sound
  · rename_i asked
    exact turn_sound g.look g.agrees w asked sound

theorem run_sound (g : Graph) (w : Walk)
    (sound : w.Sound g.Live (fun node count => g.look node = .live count) g.children roots) :
    (run g w).Sound g.Live (fun node count => g.look node = .live count) g.children roots ∧
      (run g w).finished = true := by
  fun_induction run g w with
  | case1 w done => exact ⟨sound, done⟩
  | case2 w unfinished ih => exact ih (step_sound sound)

end Walk

def Verdict.members (v : Verdict) : List Node := v.garbage.flatten.map Prod.fst

section Members

variable (counted : g.Counted) (roots : List Node) (budget : Nat)

theorem members_nodup (g : Graph) (roots : List Node) (budget : Nat) :
    (analyze g roots budget).members.Nodup :=
  Discovery.garbage_nodup (Walk.run_sound g _ (Walk.start_sound budget)).1.found

include counted

theorem member_balance (m : Node × Nat)
    (member : m ∈ (analyze g roots budget).garbage.flatten) :
    g.look m.1 = .live m.2 ∧ m.2 = g.into (analyze g roots budget).members.toFinset m.1 := by
  have start : Walk.Sound g.Live (fun node count => g.look node = .live count) g.children roots
      { budget, roots } := Walk.start_sound budget
  obtain ⟨sound, done⟩ := Walk.run_sound g _ start
  have finished := sound.finished done
  have balance := Discovery.garbage_balance sound.found finished
  have live : ∀ x ∈ (analyze g roots budget).members.toFinset, g.Live x := by
    intro x isMember
    obtain ⟨group, isGroup, inGroup⟩ := (mem_groups _ x).mp (List.mem_toFinset.mp isMember)
    obtain ⟨other, listed, rfl⟩ := List.mem_map.mp inGroup
    exact (balance group isGroup other listed).1
  obtain ⟨group, isGroup, inGroup⟩ := List.mem_flatten.mp member
  obtain ⟨_, seen, own⟩ := balance group isGroup m inGroup
  have once := Discovery.group_nodup sound.found group isGroup
  have within : (group.map Prod.fst).toFinset ⊆ (analyze g roots budget).members.toFinset := by
    intro x isMember
    rw [List.mem_toFinset] at isMember ⊢
    exact (mem_groups _ x).mpr ⟨group, isGroup, isMember⟩
  have ownSum : g.into (group.map Prod.fst).toFinset m.1 =
      (group.map fun other => (g.children other.1).count m.1).sum := by
    rw [g.into_toFinset _ once, List.map_map]
    rfl
  -- The group accounts for the count, and what all members hold can be no more than that.
  have fewer := g.into_mono within m.1
  have enough := counted m.1 m.2 seen _ live
  exact ⟨seen, by omega⟩

theorem member_seen (node : Node) (member : node ∈ (analyze g roots budget).members) :
    ∃ count, g.look node = .live count ∧
      count = g.into (analyze g roots budget).members.toFinset node := by
  obtain ⟨m, listed, rfl⟩ := List.mem_map.mp member
  exact ⟨m.2, member_balance counted roots budget m listed⟩

theorem members_selfHeld : g.SelfHeld (analyze g roots budget).members.toFinset := by
  intro node member
  obtain ⟨count, seen, balance⟩ := member_seen counted roots budget node (List.mem_toFinset.mp member)
  exact ⟨count, seen, balance.le⟩

theorem edge_member (source target : Node) (edge : g.Edge source target)
    (member : target ∈ (analyze g roots budget).members) :
    source ∈ (analyze g roots budget).members :=
  List.mem_toFinset.mp <|
    (members_selfHeld counted roots budget).source counted edge (List.mem_toFinset.mpr member)

theorem path_member (source target : Node) (path : Relation.ReflTransGen g.Edge source target)
    (member : target ∈ (analyze g roots budget).members) :
    source ∈ (analyze g roots budget).members := by
  induction path with
  | refl => exact member
  | tail before edge ih => exact ih (edge_member counted roots budget _ _ edge member)

end Members

/-- Trial deletion is sound, whatever the roots and the budget. Its garbage lists live nodes, each
once and with the count it has, which is the number of edges into it from the garbage. No live node
outside leads into the garbage, and nothing that is held from outside the graph does. -/
theorem analyze_sound (g : Graph) (counted : g.Counted) (roots : List Node) (budget : Nat) :
    (analyze g roots budget).members.Nodup ∧
    (∀ m ∈ (analyze g roots budget).garbage.flatten, g.look m.1 = .live m.2 ∧
      m.2 = g.into (analyze g roots budget).members.toFinset m.1) ∧
    (∀ source target, g.Live source → target ∈ g.children source →
      target ∈ (analyze g roots budget).members → source ∈ (analyze g roots budget).members) ∧
    (∀ source target, Relation.ReflTransGen g.Edge source target →
      source ∉ (analyze g roots budget).members ∨ g.Held source →
      target ∉ (analyze g roots budget).members) := by
  refine ⟨members_nodup g roots budget, member_balance counted roots budget, ?_, ?_⟩
  · intro source target live child
    exact edge_member counted roots budget source target ⟨live, child⟩
  · intro source target path away member
    have inside := path_member counted roots budget source target path member
    rcases away with outside | held
    · exact outside inside
    · obtain ⟨count, seen, balance⟩ := member_seen counted roots budget source inside
      obtain ⟨other, found, more⟩ := held
      have less := more (analyze g roots budget).members.toFinset fun x isMember => by
        obtain ⟨same, isLive, _⟩ := member_seen counted roots budget x (List.mem_toFinset.mp isMember)
        exact ⟨same, isLive⟩
      rw [seen, Look.live.injEq] at found
      omega

/-- A ring of two, a ring of three, and a node that is held from outside and leads to another. -/
def rings : Graph where
  look node := if node < 7 then .live 1 else .untracked
  children node := [[1], [0], [3], [4], [2], [6, 7]].getD node []

theorem rings_live (node count : Nat) (seen : rings.look node = .live count) :
    node < 7 ∧ count = 1 := by
  simp only [rings] at seen
  split at seen
  · rename_i inside
    rw [Look.live.injEq] at seen
    exact ⟨inside, seen.symm⟩
  · cases seen

theorem rings_counted : rings.Counted := by
  intro node count seen sources live
  have inside : sources ⊆ Finset.range 7 := by
    intro x member
    obtain ⟨other, found⟩ := live x member
    exact Finset.mem_range.mpr (rings_live x other found).1
  have few : rings.into (Finset.range 7) node ≤ 1 := by
    have known := (rings_live node count seen).1
    interval_cases node <;> decide
  have one := (rings_live node count seen).2
  have fewer := rings.into_mono inside node
  omega

-- A budget of two is enough for the ring of two only.
theorem analyze_sound_rings :
    (analyze rings [0, 2, 5, 0] 2).members = [0, 1] ∧
      (∀ source target, Relation.ReflTransGen rings.Edge source target → source ∉ [0, 1] →
        target ∉ [0, 1]) := by
  have walked : Walk.run rings { budget := 2, roots := [0, 2, 5, 0] } =
      Walk.steps rings 20 { budget := 2, roots := [0, 2, 5, 0] } :=
    Walk.run_eq_steps rings 20 _ (by decide +kernel)
  have members : (analyze rings [0, 2, 5, 0] 2).members = [0, 1] := by
    rw [analyze, walked]
    decide +kernel
  obtain ⟨_, _, _, apart⟩ := analyze_sound rings rings_counted [0, 2, 5, 0] 2
  rw [members] at apart
  exact ⟨members, fun source target path outside => apart source target path (Or.inl outside)⟩

end CountedHeap.Trial
