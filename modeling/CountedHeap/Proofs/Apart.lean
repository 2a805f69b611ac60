import CountedHeap.Proofs.Reach

/-!
A row of objects that nobody outside the row holds, and that no waiting task releases or reclaims.
A cascade passes it by: it leaves each member alive, with the same holders, and registered as it was.
-/

namespace CountedHeap

/-- What is found in a row that no edge leads into is found from sources in the row. -/
theorem Reached.within_iff {points : Addr → Addr → Prop} {source : Addr → Prop} {row : List Addr}
    (closed : ∀ a b, points a b → b ∈ row → a ∈ row) {a : Addr} (member : a ∈ row) :
    Reached points source a ↔ ∃ b ∈ row, source b ∧ Relation.ReflTransGen points b a := by
  constructor
  · -- Backwards from a member the edges lead through members only.
    intro reached
    induction reached with
    | root isSource => exact ⟨_, member, isSource, .refl⟩
    | edge before edge ih =>
        obtain ⟨b, isIn, isSource, path⟩ := ih (closed _ _ edge member)
        exact ⟨b, isIn, isSource, path.tail edge⟩
  · rintro ⟨b, _, isSource, path⟩
    exact Reached.along (.root isSource) path

theorem Reached.within_congr {points points' : Addr → Addr → Prop} {source source' : Addr → Prop}
    {row : List Addr} (closed : ∀ a b, points a b → b ∈ row → a ∈ row)
    (edges : ∀ a b, b ∈ row → (points' a b ↔ points a b))
    (sources : ∀ a ∈ row, source' a ↔ source a) {a : Addr} (member : a ∈ row) :
    Reached points' source' a ↔ Reached points source a := by
  constructor
  · intro reached
    induction reached with
    | root isSource => exact .root ((sources _ member).mp isSource)
    | edge before edge ih =>
        have same := (edges _ _ member).mp edge
        exact .edge (ih (closed _ _ same member)) same
  · intro reached
    induction reached with
    | root isSource => exact .root ((sources _ member).mpr isSource)
    | edge before edge ih => exact .edge (ih (closed _ _ edge member)) ((edges _ _ member).mpr edge)

namespace Machine

variable {m : Machine} {owned : Addr → Nat} {row : List Addr}

structure Apart (m : Machine) (row : List Addr) : Prop where
  live : ∀ a ∈ row, m.heap.Live a
  spared : ∀ t ∈ m.tasks, ∀ a ∈ row, t.releases a = false ∧ t.reclaims a = false
  closed : ∀ a b, m.heap.Points a b → b ∈ row → a ∈ row

theorem Apart.outside (apart : m.Apart row) (a : Addr) (doomed : m.Doomed a) : a ∉ row := by
  intro member
  obtain ⟨t, waits, reclaims⟩ := List.any_eq_true.mp doomed
  rw [(apart.spared t waits a member).2] at reclaims
  cases reclaims

theorem Apart.spared_rest (apart : m.Apart row) {t : Task} {rest : List Task}
    (tasks : m.tasks = t :: rest) :
    ∀ u ∈ rest, ∀ a ∈ row, u.releases a = false ∧ u.reclaims a = false := by
  intro u waits
  exact apart.spared u (by rw [tasks]; exact List.mem_cons_of_mem t waits)

theorem Apart.spared_after (apart : m.Apart row) {t : Task} {rest news : List Task}
    (tasks : m.tasks = t :: rest)
    (calm : ∀ u ∈ news, ∀ a ∈ row, u.releases a = false ∧ u.reclaims a = false) :
    ∀ u ∈ news ++ rest, ∀ a ∈ row, u.releases a = false ∧ u.reclaims a = false := by
  intro u waits
  rcases List.mem_append.mp waits with isNew | old
  · exact calm u isNew
  · exact apart.spared_rest tasks u old

theorem Apart.spares (apart : m.Apart row) (accounts : m.Accounts owned)
    (cascade : ∀ t ∈ m.tasks, t.cascades = true) :
    (∀ t ∈ m.step.tasks, ∀ a ∈ row, t.releases a = false ∧ t.reclaims a = false) ∧
      ∀ a ∈ row, m.step.heap.collector.registry.holds a = m.heap.collector.registry.holds a := by
  have effect := step_effect (Or.inl cascade)
  cases effect with
  | resting idle same =>
      rw [same]
      exact ⟨apart.spared, fun _ _ => rfl⟩
  | quiet t rest news tasks calm after calmNews cascades light same frame =>
      rw [after, frame]
      refine ⟨apart.spared_after tasks fun u isNew a _ => ?_, fun _ _ => rfl⟩
      obtain ⟨releases, _, reclaims⟩ := u.neutral_parts (calmNews u isNew).1 a
      exact ⟨releases, reclaims⟩
  | reading a rest news tasks traced calmNews cascades light done =>
      rw [done]
      refine ⟨?_, fun _ _ => rfl⟩
      rw [List.append_cons]
      refine apart.spared_after tasks fun u isNew b _ => ?_
      rcases List.mem_append.mp isNew with calm | last
      · obtain ⟨releases, _, reclaims⟩ := u.neutral_parts (calmNews u calm).1 b
        exact ⟨releases, reclaims⟩
      · rw [List.mem_singleton.mp last]
        exact ⟨rfl, rfl⟩
  | refused a rest tasks refused done =>
      rw [done]
      exact ⟨apart.spared_rest tasks, fun _ _ => rfl⟩
  | released a o last k word rest tasks there valid changed count isLast noted done =>
      rw [done]
      have other : ∀ b ∈ row, b ≠ a := by
        rintro b member rfl
        have spared := (apart.spared (.release b) (by rw [tasks]; exact List.mem_cons_self) b member).1
        simp [Task.releases] at spared
      refine ⟨apart.spared_after tasks fun u isNew b member => ?_,
        fun b member => noted.others b (other b member)⟩
      split at isNew
      · simp only [Task.destruction, List.mem_cons, List.not_mem_nil, or_false] at isNew
        rcases isNew with rfl | rfl | rfl | rfl
        · exact ⟨rfl, rfl⟩
        · exact ⟨rfl, rfl⟩
        · exact ⟨rfl, rfl⟩
        · exact ⟨rfl, beq_false_of_ne (other b member).symm⟩
      · cases isNew
  | unloaded a t rest out tasks unloads dropped held light done =>
      rw [done]
      -- The one that gives its references up is doomed, so none of them is to a member.
      have doomed := accounts.served t (by rw [tasks]; exact List.mem_cons_self) a
        (t.serves_of_unloads a unloads)
      have foreign : ∀ b ∈ row, b ∉ out := by
        intro b member listed
        have positive := (List.count_pos_iff.mpr listed).trans_le (held b)
        exact apart.outside a doomed (apart.closed a b ⟨(accounts.doomed a doomed).1, positive⟩ member)
      refine ⟨apart.spared_after tasks fun u isNew b member => ?_, fun _ _ => rfl⟩
      obtain ⟨c, listed, rfl⟩ := List.mem_map.mp isNew
      refine ⟨beq_false_of_ne ?_, rfl⟩
      rintro rfl
      exact foreign c member listed
  | reclaimed a rest tasks done =>
      obtain ⟨_, collector, _⟩ := m.heap.reclaim_frame a
      rw [done]
      exact ⟨apart.spared_rest tasks, fun _ _ => by rw [collector]⟩
  | ended p found done =>
      have impossible := cascade (.search p) (by rw [found.1]; exact List.mem_singleton_self _)
      cases impossible

theorem Apart.step (apart : m.Apart row) (accounts : m.Accounts owned)
    (cascade : ∀ t ∈ m.tasks, t.cascades = true) :
    m.step.Apart row ∧ ∀ a b, b ∈ row → (m.step.heap.Points a b ↔ m.heap.Points a b) := by
  obtain ⟨body, alive⟩ := accounts.step_live (Or.inl cascade)
  have lives : ∀ a ∈ row, m.step.heap.Live a := by
    intro a member
    refine (alive a).mpr ⟨apart.live a member, fun rest tasks => ?_⟩
    have spared := (apart.spared (.reclaim a) (by rw [tasks]; exact List.mem_cons_self) a member).2
    simp [Task.reclaims] at spared
  have points : ∀ a b, b ∈ row → (m.step.heap.Points a b ↔ m.heap.Points a b) := by
    intro a b member
    rw [Heap.Points, body.edges]
    constructor
    · exact fun edge => ⟨((alive a).mp edge.1).1, edge.2⟩
    · exact fun edge => ⟨lives a (apart.closed a b edge member), edge.2⟩
  exact ⟨⟨lives, (apart.spares accounts cascade).1, fun a b edge member =>
    apart.closed a b ((points a b member).mp edge) member⟩, points⟩

/-- However long the cascade works, nothing happens to the row. -/
theorem Apart.steps (apart : m.Apart row) (accounts : m.Accounts owned)
    (cascade : ∀ t ∈ m.tasks, t.cascades = true) (n : Nat) :
    (m.steps n).Apart row ∧
      (∀ a b, b ∈ row → ((m.steps n).heap.Points a b ↔ m.heap.Points a b)) ∧
      ∀ a ∈ row,
        (m.steps n).heap.collector.registry.holds a = m.heap.collector.registry.holds a := by
  induction n generalizing m with
  | zero => exact ⟨apart, fun _ _ _ => Iff.rfl, fun _ _ => rfl⟩
  | succ n ih =>
      obtain ⟨still, points⟩ := apart.step accounts cascade
      obtain ⟨later, laterPoints, laterHolds⟩ :=
        ih still (accounts.step (Or.inl cascade)).1 (cascades_step cascade)
      refine ⟨later, fun a b member => (laterPoints a b member).trans (points a b member),
        fun a member => (laterHolds a member).trans ((apart.spares accounts cascade).2 a member)⟩

end Machine

end CountedHeap
