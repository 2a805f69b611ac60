import CountedHeap.Proofs.Steps

/-!
What can be reached from the objects that a client owns is never destroyed: an object that waits
to be reclaimed is owned by nobody, and only others that wait with it hold it.
-/

namespace CountedHeap

/-- What is found from some sources along some edges. -/
inductive Reached (points : Addr → Addr → Prop) (source : Addr → Prop) : Addr → Prop where
  | root {a : Addr} (isSource : source a) : Reached points source a
  | edge {a b : Addr} (before : Reached points source a) (edge : points a b) :
      Reached points source b

theorem Reached.mono {points points' : Addr → Addr → Prop} {source source' : Addr → Prop}
    (edges : ∀ a b, points a b → points' a b) (sources : ∀ a, source a → source' a) {a : Addr}
    (reached : Reached points source a) : Reached points' source' a := by
  induction reached with
  | root isSource => exact .root (sources _ isSource)
  | edge before edge ih => exact .edge ih (edges _ _ edge)

theorem Reached.along {points : Addr → Addr → Prop} {source : Addr → Prop} {a b : Addr}
    (reached : Reached points source a) (path : Relation.ReflTransGen points a b) :
    Reached points source b := by
  induction path with
  | refl => exact reached
  | tail before edge ih => exact .edge ih edge

/-- Where one node goes out of sight, and what hangs from it does not, nothing else does. -/
theorem Reached.around {points points' : Addr → Addr → Prop} {source source' : Addr → Prop}
    {a b : Addr} (sources : ∀ b, b ≠ a → source b → source' b)
    (edges : ∀ b c, b ≠ a → points b c → points' b c)
    (next : ∀ c, points a c → Reached points' source' c) (reached : Reached points source b) :
    Reached points' source' b ∨ b = a := by
  induction reached with
  | root isSource =>
      rename_i b
      by_cases here : b = a
      · exact Or.inr here
      · exact Or.inl (.root (sources b here isSource))
  | edge before edge ih =>
      rename_i b c
      by_cases here : b = a
      · subst here
        exact Or.inl (next c edge)
      · exact Or.inl (.edge (ih.resolve_right here) (edges b c here edge))

/-- Found from an owned object through slots of live objects. -/
def Heap.Reachable (h : Heap) (owned : Addr → Nat) : Addr → Prop :=
  Reached h.Points fun a => 0 < owned a

namespace Machine

variable {m : Machine} {owned : Addr → Nat}

theorem unloading_subset (m : Machine) : m.unloading ⊆ m.loaded := by
  intro a member
  rw [mem_unloading] at member
  exact (m.mem_loaded a).mpr ⟨member.1, fun _ => member.2⟩

theorem Accounts.doomed_alone (accounts : m.Accounts owned) (a : Addr) (doomed : m.Doomed a) :
    owned a = 0 ∧ ∀ b ∈ m.loaded, 0 < m.heap.edges b a → m.Doomed b := by
  obtain ⟨live, _, count⟩ := accounts.doomed a doomed
  have enough := accounts.enough a live
  have fewer : ∑ b ∈ m.unloading, m.heap.drops b a ≤ ∑ b ∈ m.unloading, m.heap.edges b a :=
    Finset.sum_le_sum fun b _ => m.heap.drops_le_edges b a
  have split : ∑ b ∈ m.loaded \ m.unloading, m.heap.edges b a + ∑ b ∈ m.unloading, m.heap.edges b a =
      ∑ b ∈ m.loaded, m.heap.edges b a := Finset.sum_sdiff m.unloading_subset
  rw [owed, held] at enough
  refine ⟨by omega, fun b loaded holds => ?_⟩
  have nothing : ∑ b ∈ m.loaded \ m.unloading, m.heap.edges b a = 0 := by omega
  rw [Finset.sum_eq_zero_iff] at nothing
  by_cases unloading : b ∈ m.unloading
  · obtain ⟨t, member, unloads⟩ := ((m.mem_unloading b).mp unloading).2.task
    exact accounts.served t member b (t.serves_of_unloads b unloads)
  · have unheld := nothing b (Finset.mem_sdiff.mpr ⟨loaded, unloading⟩)
    omega

/-- Along a path from an owned object nothing waits to be reclaimed. -/
theorem Accounts.reachable_spared (accounts : m.Accounts owned) (a : Addr)
    (reachable : m.heap.Reachable owned a) : ¬ m.Doomed a := by
  induction reachable with
  | root owns =>
      rename_i root
      intro doomed
      have unowed := (accounts.doomed_alone root doomed).1
      omega
  | edge before edge ih =>
      rename_i b c
      intro doomed
      have loaded : b ∈ m.loaded := (m.mem_loaded b).mpr ⟨edge.1, fun isDoomed => absurd isDoomed ih⟩
      exact ih ((accounts.doomed_alone c doomed).2 b loaded edge.2)

theorem Accounts.reachable_step (accounts : m.Accounts owned) (orderly : m.Orderly) (a : Addr) :
    (m.step.heap.Reachable owned a ↔ m.heap.Reachable owned a) ∧
      (m.heap.Reachable owned a → (m.step.heap.Live a ↔ m.heap.Live a)) := by
  obtain ⟨body, alive⟩ := accounts.step_live orderly
  have kept : ∀ b, m.heap.Reachable owned b → (m.step.heap.Live b ↔ m.heap.Live b) := by
    intro b reachable
    rw [alive, and_iff_left_iff_imp]
    intro _ rest tasks
    apply accounts.reachable_spared b reachable
    rw [Doomed, tasks, List.any_cons]
    simp [Task.reclaims]
  have narrower : ∀ b c, m.step.heap.Points b c → m.heap.Points b c := by
    intro b c edge
    rw [Heap.Points, body.edges] at edge
    exact ⟨((alive b).mp edge.1).1, edge.2⟩
  refine ⟨⟨Reached.mono narrower fun _ => id, fun reachable => ?_⟩, kept a⟩
  induction reachable with
  | root owns => exact .root owns
  | edge before edge ih =>
      refine .edge ih ⟨(kept _ before).mpr edge.1, ?_⟩
      rw [body.edges]
      exact edge.2

theorem steps_add (m : Machine) (n k : Nat) : m.steps (n + k) = (m.steps n).steps k := by
  induction n generalizing m with
  | zero => rw [Nat.zero_add, steps]
  | succ n ih => rw [Nat.succ_add, steps, steps, ih]

/-- However long a machine works, the books stay in order, and what can be reached from owned
objects stays as it is. -/
theorem Accounts.steps (accounts : m.Accounts owned) (orderly : m.Orderly) (n : Nat) :
    (m.steps n).Accounts owned ∧ (m.steps n).Orderly ∧
      ∀ a, ((m.steps n).heap.Reachable owned a ↔ m.heap.Reachable owned a) ∧
        (m.heap.Reachable owned a → ((m.steps n).heap.Live a ↔ m.heap.Live a)) := by
  induction n generalizing m with
  | zero => exact ⟨accounts, orderly, fun a => ⟨Iff.rfl, fun _ => Iff.rfl⟩⟩
  | succ n ih =>
      obtain ⟨still, stillOrderly, later⟩ := ih (accounts.step orderly).1 orderly.step
      refine ⟨still, stillOrderly, fun a => ?_⟩
      obtain ⟨same, alive⟩ := accounts.reachable_step orderly a
      rw [Machine.steps, (later a).1, same]
      exact ⟨Iff.rfl, fun reachable => ((later a).2 (same.mpr reachable)).trans (alive reachable)⟩

end Machine

end CountedHeap
