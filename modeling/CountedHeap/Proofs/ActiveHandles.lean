import CountedHeap.Boundary
import CountedHeap.Proofs.Handles

/-!
How many slots are in use across batches of weak handles. Each handle that a batch makes has a new
slot of its own, and dropping it empties that slot and no other. So a batch that is made and
destroyed leaves as many slots in use as there were.
-/

namespace CountedHeap

namespace WeakTable

variable {t u v : WeakTable} {a : Addr} {s : SlotId} {fresh more : List SlotId}

def inUse (t : WeakTable) : List SlotId :=
  (t.listed.filter fun entry => t.held entry.2).map Prod.snd

theorem active_eq (t : WeakTable) : t.stats.active = t.inUse.length := by
  rw [stats, List.countP_eq_length_filter, inUse, List.length_map]

theorem Orderly.known_inUse (orderly : t.Orderly) : ∀ s ∈ t.inUse, s ∈ t.slots := by
  intro s member
  obtain ⟨⟨a, r⟩, kept, rfl⟩ := List.mem_map.mp member
  exact mem_of_target (orderly.names a r (List.mem_filter.mp kept).1)

theorem insert_slots (t : WeakTable) (a : Addr) (s : SlotId) (apart : s ≠ (t.insert a).1) :
    (t.insert a).2.slots[s]? = t.slots[s]? := by
  have other : t.slots.size ≠ s := Ne.symm apart
  simp [WeakTable.insert, Std.TreeMap.getElem?_insert, other]

theorem Orderly.inUse_insert (orderly : t.Orderly) (a : Addr) :
    (t.insert a).2.inUse = t.inUse ++ [(t.insert a).1] := by
  obtain ⟨absent, isHeld, _⟩ := orderly.fresh a
  have held : ∀ entry ∈ t.listed, (t.insert a).2.held entry.2 = t.held entry.2 := by
    intro entry listed
    have known := mem_of_target (orderly.names entry.1 entry.2 listed)
    have apart : entry.2 ≠ (t.insert a).1 := by
      intro same
      rw [same, ← Std.TreeMap.isSome_getElem?_iff_mem, absent] at known
      cases known
    rw [WeakTable.held, insert_slots t a entry.2 apart, WeakTable.held]
  have kept : ((t.listed.filter fun entry => entry.1 != a || t.held entry.2).filter
      fun entry => (t.insert a).2.held entry.2) = t.listed.filter fun entry => t.held entry.2 := by
    rw [List.filter_filter]
    refine List.filter_congr fun entry listed => ?_
    rw [held entry listed]
    cases t.held entry.2 <;> simp
  have listed : (t.insert a).2.listed =
      (t.listed.filter fun entry => entry.1 != a || t.held entry.2) ++ [(a, (t.insert a).1)] := rfl
  rw [inUse, listed, List.filter_append, kept, List.map_append, inUse]
  simp [isHeld]

theorem drop_slots (t : WeakTable) (s r : SlotId) (apart : r ≠ s) :
    (t.drop s).slots[r]? = t.slots[r]? := by
  simp [drop, modify_views, Ne.symm apart]

theorem inUse_drop (t : WeakTable) (s : SlotId) : (t.drop s).inUse =
    if (t.slots[s]?).any (·.handles == 1) then t.inUse.filter (· != s) else t.inUse := by
  have listed : (t.drop s).listed = t.listed := rfl
  have others : ∀ r, r ≠ s → (t.drop s).held r = t.held r := fun r apart => by
    rw [WeakTable.held, drop_slots t s r apart, WeakTable.held]
  have here : (t.drop s).held s = (t.slots[s]?).any (1 < ·.handles) := by
    simp only [WeakTable.held, drop, modify_views, if_true, Option.any_map]
    congr 1
    funext slot
    simp only [decide_eq_decide]
    omega
  rw [inUse, listed]
  split
  · rename_i lastOne
    have gone : (t.drop s).held s = false := by
      rw [here]
      cases there : t.slots[s]? with
      | none => rfl
      | some slot =>
          rw [there] at lastOne
          simp only [Option.any_some, beq_iff_eq] at lastOne
          simp [lastOne]
    rw [inUse, List.filter_map, List.filter_filter]
    congr 1
    refine List.filter_congr fun entry _ => ?_
    by_cases same : entry.2 = s
    · simp [same, gone]
    · simp [same, others entry.2 same]
  · rename_i notLast
    have same : ∀ r, (t.drop s).held r = t.held r := by
      intro r
      by_cases isHere : r = s
      · subst isHere
        rw [here, WeakTable.held]
        cases there : t.slots[r]? with
        | none => rfl
        | some slot =>
            rw [there] at notLast
            simp only [Option.any_some, beq_iff_eq] at notLast
            simp only [Option.any_some, decide_eq_decide]
            omega
      · exact others r isHere
    simp only [same, inUse]

/-- A table that differs by slots that are new, each with the one handle it was made with. -/
structure Grown (t u : WeakTable) (fresh : List SlotId) : Prop where
  old : ∀ s ∈ t.slots, u.slots[s]? = t.slots[s]?
  new : ∀ s ∈ fresh, s ∉ t.slots ∧ (u.slots[s]?).any (·.handles == 1) = true
  once : fresh.Nodup
  inUse : u.inUse = t.inUse ++ fresh

namespace Grown

theorem refl (t : WeakTable) : Grown t t [] :=
  ⟨fun _ _ => rfl, by simp, List.nodup_nil, by simp⟩

theorem kept (grown : Grown t u fresh) (s : SlotId) (known : s ∈ t.slots) : s ∈ u.slots := by
  rw [← Std.TreeMap.isSome_getElem?_iff_mem] at known ⊢
  rwa [grown.old s (Std.TreeMap.isSome_getElem?_iff_mem.mp known)]

theorem made (grown : Grown t u fresh) (s : SlotId) (member : s ∈ fresh) : s ∈ u.slots := by
  have there := (grown.new s member).2
  rw [← Std.TreeMap.isSome_getElem?_iff_mem]
  cases found : u.slots[s]? with
  | none => simp [found] at there
  | some slot => rfl

theorem trans (first : Grown t u fresh) (second : Grown u v more) : Grown t v (fresh ++ more) := by
  constructor
  · intro s known
    exact (second.old s (first.kept s known)).trans (first.old s known)
  · intro s member
    rcases List.mem_append.mp member with before | after
    · rw [second.old s (first.made s before)]
      exact first.new s before
    · obtain ⟨unknown, single⟩ := second.new s after
      exact ⟨fun known => unknown (first.kept s known), single⟩
  · rw [List.nodup_append]
    refine ⟨first.once, second.once, ?_⟩
    rintro s before r after rfl
    exact (second.new s after).1 (first.made s before)
  · rw [second.inUse, first.inUse, List.append_assoc]

theorem inserted (orderly : t.Orderly) (a : Addr) : Grown t (t.insert a).2 [(t.insert a).1] := by
  obtain ⟨absent, _⟩ := orderly.fresh a
  have unknown : (t.insert a).1 ∉ t.slots := by
    rw [← Std.TreeMap.isSome_getElem?_iff_mem, absent]
    simp
  constructor
  · intro s known
    exact insert_slots t a s fun same => unknown (same ▸ known)
  · intro s member
    rw [List.mem_singleton.mp member]
    exact ⟨unknown, by simp [WeakTable.insert]⟩
  · exact List.nodup_singleton _
  · exact orderly.inUse_insert a

theorem dropped_new (grown : Grown t u (s :: fresh)) (orderly : t.Orderly) :
    Grown t (u.drop s) fresh := by
  obtain ⟨unknown, single⟩ := grown.new s List.mem_cons_self
  obtain ⟨absent, once⟩ := List.nodup_cons.mp grown.once
  constructor
  · intro r known
    rw [drop_slots u s r fun same => unknown (same ▸ known)]
    exact grown.old r known
  · intro r member
    rw [drop_slots u s r fun same => absent (same ▸ member)]
    exact grown.new r (List.mem_cons_of_mem s member)
  · exact once
  · have others : ∀ row : List SlotId, s ∉ row → row.filter (· != s) = row := by
      intro row missing
      rw [List.filter_eq_self]
      intro r member
      exact bne_iff_ne.mpr fun same => missing (same ▸ member)
    rw [inUse_drop, if_pos single, grown.inUse, List.filter_append, List.filter_cons_of_neg (by simp),
      others fresh absent, others t.inUse fun member => unknown (orderly.known_inUse s member)]

theorem dropped_old (grown : Grown t u []) (s : SlotId) (known : s ∈ t.slots) :
    Grown (t.drop s) (u.drop s) [] := by
  constructor
  · intro r member
    have before : r ∈ t.slots := Std.TreeMap.mem_modify.mp member
    simp only [drop, modify_views, grown.old r before]
  · simp
  · exact List.nodup_nil
  · have same : u.inUse = t.inUse := by rw [grown.inUse, List.append_nil]
    rw [inUse_drop, inUse_drop, grown.old s known, same, List.append_nil]

end Grown

end WeakTable

/-! Tables along turns -/

theorem WeakTable.orderly_lasting : WeakTable.Lasting WeakTable.Orderly :=
  ⟨fun _ a orderly => (orderly.inserted a).1, fun _ a orderly => (orderly.detached a).1,
    fun _ s orderly => (orderly.dropped s).1, fun _ orderly => orderly.recounted.1⟩

namespace Machine

variable {m n : Machine}

theorem orderly_step (orderly : m.heap.weak.Orderly) : m.step.heap.weak.Orderly :=
  lasting_step WeakTable.orderly_lasting orderly

theorem orderly_steps (orderly : m.heap.weak.Orderly) (n : Nat) : (m.steps n).heap.weak.Orderly := by
  induction n generalizing m with
  | zero => exact orderly
  | succ n ih => exact ih (orderly_step orderly)

end Machine

/-! Batches -/

namespace Boundary

open WeakTable (Grown)

variable {m n : Machine}

/-- A batch makes handles for the objects at the front, in new slots, and leaves the entries behind
them alone. -/
theorem weakFill_grown (orderly : m.heap.weak.Orderly) (objects : List (Option Addr))
    (row : List (Option SlotId)) :
    ∃ made n, weakFill (some m) objects row = (made ++ row.drop objects.length, some n) ∧
      Grown m.heap.weak n.heap.weak (made.filterMap id) := by
  induction objects generalizing m row with
  | nil => exact ⟨[], m, by simp [weakFill], .refl _⟩
  | cons object objects ih =>
      cases row with
      | nil => exact ⟨[], m, by simp [weakFill], .refl _⟩
      | cons entry row =>
          have goesOn : ∀ (handle : Option SlotId) (k : Machine),
              weakCreate (some m) object = (handle, some k) → k.heap.weak.Orderly →
              Grown m.heap.weak k.heap.weak handle.toList →
              ∃ made n, weakFill (some m) (object :: objects) (entry :: row) =
                  (made ++ (entry :: row).drop (object :: objects).length, some n) ∧
                Grown m.heap.weak n.heap.weak (made.filterMap id) := by
            intro handle k created orderly grown
            obtain ⟨made, n, filled, further⟩ := ih orderly row
            refine ⟨handle :: made, n, by simp [weakFill, created, filled], ?_⟩
            have both := grown.trans further
            cases handle <;> exact both
          cases object with
          | none => exact goesOn none m rfl orderly (.refl _)
          | some a =>
              cases done : m.heap.downgrade a with
              | error fault =>
                  exact goesOn none m (by simp [weakCreate, onObject, onMachine, done]) orderly (.refl _)
              | ok made =>
                  obtain ⟨handle, k⟩ := made
                  obtain ⟨_, _, _, _, rfl, isHeap⟩ := Heap.downgrade_spec done
                  have weak : k.weak = (m.heap.weak.insert a).2 := by rw [isHeap]
                  refine goesOn (some (m.heap.weak.insert a).1) { m with heap := k }
                    (by simp [weakCreate, onObject, onMachine, done]) ?_ ?_
                  · rw [weak]
                    exact (orderly.inserted a).1
                  · rw [weak]
                    exact .inserted orderly a

theorem weakDestroy_new (orderly : m.heap.weak.Orderly) (made : List (Option SlotId))
    (grown : Grown m.heap.weak n.heap.weak (made.filterMap id)) :
    ∃ l, made.foldl weakDestroy (some n) = some l ∧ Grown m.heap.weak l.heap.weak [] := by
  induction made generalizing n with
  | nil => exact ⟨n, rfl, grown⟩
  | cons handle rest ih =>
      cases handle with
      | none => exact ih grown
      | some s => exact ih (n := n.onHeap (·.dropHandle s)) (grown.dropped_new orderly)

theorem weakDestroy_old (rest : List (Option SlotId)) (known : ∀ s, some s ∈ rest → s ∈ m.heap.weak.slots)
    (grown : Grown m.heap.weak n.heap.weak []) :
    ∃ l r, rest.foldl weakDestroy (some n) = some l ∧ rest.foldl weakDestroy (some m) = some r ∧
      Grown r.heap.weak l.heap.weak [] := by
  induction rest generalizing m n with
  | nil => exact ⟨n, m, rfl, rfl, grown⟩
  | cons handle rest ih =>
      cases handle with
      | none => exact ih (fun s member => known s (List.mem_cons_of_mem _ member)) grown
      | some s =>
          refine ih (m := m.onHeap (·.dropHandle s)) (n := n.onHeap (·.dropHandle s)) (fun r member => ?_)
            (grown.dropped_old s (known s List.mem_cons_self))
          exact Std.TreeMap.mem_modify.mpr (known r (List.mem_cons_of_mem _ member))

/-- After a batch is made and the whole array destroyed, as many slots are in use as if only the
entries had been destroyed that the batch did not write. -/
theorem batch_restores (orderly : m.heap.weak.Orderly) (objects : List (Option Addr))
    (row : List (Option SlotId)) (count : Nat)
    (known : ∀ s, some s ∈ row.drop (objects.take count).length → s ∈ m.heap.weak.slots) :
    ∃ created n l r, weakCreateBatch (some m) (some objects) (some row) count = (some created, some n) ∧
      (weakDestroyBatch (some n) (some created)).2 = some l ∧
      (weakDestroyBatch (some m) (some (row.drop (objects.take count).length))).2 = some r ∧
      l.heap.weak.stats.active = r.heap.weak.stats.active := by
  obtain ⟨made, n, filled, grown⟩ := weakFill_grown orderly (objects.take count) row
  obtain ⟨k, cleared, still⟩ := weakDestroy_new orderly made grown
  obtain ⟨l, r, left, right, last⟩ := weakDestroy_old _ known still
  refine ⟨made ++ row.drop (objects.take count).length, n, l, r,
    by simp only [weakCreateBatch, Option.getD_some, filled], ?_, right, ?_⟩
  · simp only [weakDestroyBatch, Option.getD_some, List.foldl_append, cleared, left]
  · rw [WeakTable.active_eq, WeakTable.active_eq, last.inUse, List.append_nil]

end Boundary

end CountedHeap
