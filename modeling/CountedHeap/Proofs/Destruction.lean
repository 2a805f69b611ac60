import CountedHeap.Proofs.Accounts

/-!
The stages of a destruction. Objects that are owed nothing, or only what they hold of each other,
are claimed together; they are unloaded before the first of them is reclaimed, and what they held
is released. So when the turn of an object comes its count is zero.
-/

namespace CountedHeap

namespace Task

variable {garbage : List Addr}

theorem mem_disposal (t : Task) : t ∈ disposal garbage ↔
    ∃ a ∈ garbage, t = detach a ∨ t = finalize a ∨ t = unload a ∨ t = reclaim a := by
  simp only [disposal, List.mem_append, List.mem_map, eq_comm (b := t)]
  constructor
  · rintro (((⟨a, member, same⟩ | ⟨a, member, same⟩) | ⟨a, member, same⟩) | ⟨a, member, same⟩)
    · exact ⟨a, member, Or.inl same⟩
    · exact ⟨a, member, Or.inr (Or.inl same)⟩
    · exact ⟨a, member, Or.inr (Or.inr (Or.inl same))⟩
    · exact ⟨a, member, Or.inr (Or.inr (Or.inr same))⟩
  · rintro ⟨a, member, same | same | same | same⟩
    · exact Or.inl (Or.inl (Or.inl ⟨a, member, same⟩))
    · exact Or.inl (Or.inl (Or.inr ⟨a, member, same⟩))
    · exact Or.inl (Or.inr ⟨a, member, same⟩)
    · exact Or.inr ⟨a, member, same⟩

theorem releases_disposal (t : Task) (member : t ∈ disposal garbage) (a : Addr) :
    t.releases a = false := by
  rcases (mem_disposal t).mp member with ⟨b, _, rfl | rfl | rfl | rfl⟩ <;> rfl

theorem serves_disposal (t : Task) (member : t ∈ disposal garbage) (a : Addr)
    (serves : t.serves a = true) : a ∈ garbage := by
  rcases (mem_disposal t).mp member with ⟨b, isGarbage, rfl | rfl | rfl | rfl⟩
  · exact beq_iff_eq.mp serves ▸ isGarbage
  · exact beq_iff_eq.mp serves ▸ isGarbage
  · exact beq_iff_eq.mp serves ▸ isGarbage
  · cases serves

theorem reclaims_disposal (t : Task) (member : t ∈ disposal garbage) (a : Addr)
    (reclaims : t.reclaims a = true) : a ∈ garbage := by
  rcases (mem_disposal t).mp member with ⟨b, isGarbage, rfl | rfl | rfl | rfl⟩
  · cases reclaims
  · cases reclaims
  · cases reclaims
  · exact beq_iff_eq.mp reclaims ▸ isGarbage

theorem any_unloads_disposal (a : Addr) :
    (disposal garbage).any (·.unloads a) = true ↔ a ∈ garbage := by
  rw [List.any_eq_true]
  constructor
  · rintro ⟨t, member, unloads⟩
    exact serves_disposal t member a (t.serves_of_unloads a unloads)
  · intro isGarbage
    refine ⟨unload a, (mem_disposal _).mpr ⟨a, isGarbage, ?_⟩, beq_self_eq_true a⟩
    exact Or.inr (Or.inr (Or.inl rfl))

theorem any_reclaims_disposal (a : Addr) :
    (disposal garbage).any (·.reclaims a) = true ↔ a ∈ garbage := by
  rw [List.any_eq_true]
  constructor
  · rintro ⟨t, member, reclaims⟩
    exact reclaims_disposal t member a reclaims
  · intro isGarbage
    refine ⟨reclaim a, (mem_disposal _).mpr ⟨a, isGarbage, ?_⟩, beq_self_eq_true a⟩
    exact Or.inr (Or.inr (Or.inr rfl))

/-- No object is unloaded twice, or needed after it is reclaimed. -/
theorem ordered_disposal (h : Heap) (once : garbage.Nodup) :
    (disposal garbage).Pairwise (Before h) := by
  have neutral : ∀ (make : Addr → Task), (∀ a, (make a).neutral = true) →
      ∀ rest : List Task, rest.Pairwise (Before h) →
        (garbage.map make ++ rest).Pairwise (Before h) := by
    intro make neutral rest ordered
    have first : ∀ t ∈ garbage.map make, ∀ u, Before h t u := by
      intro t member u
      obtain ⟨a, _, rfl⟩ := List.mem_map.mp member
      exact before_of_neutral h _ u (neutral a)
    rw [List.pairwise_append]
    exact ⟨List.pairwise_of_forall_mem_list fun t member u _ => first t member u, ordered,
      fun t member u _ => first t member u⟩
  rw [disposal, List.append_assoc, List.append_assoc]
  apply neutral _ fun _ => rfl
  apply neutral _ fun _ => rfl
  rw [List.pairwise_append]
  refine ⟨?_, ?_, ?_⟩
  · rw [List.pairwise_map]
    refine once.imp fun {a b} apart c => ⟨fun yes => (by cases yes), fun isA => ?_⟩
    rw [unloads, beq_iff_eq] at isA
    exact beq_eq_false_iff_ne.mpr fun isB => apart (isA.trans isB.symm)
  · rw [List.pairwise_map]
    refine once.imp fun {a b} apart c => ⟨fun isA needs => ?_, fun yes => (by cases yes)⟩
    rw [reclaims, beq_iff_eq] at isA
    rcases needs with yes | yes | isB | ⟨d, yes, _⟩
    · cases yes
    · cases yes
    · exact apart (isA.trans (beq_iff_eq.mp isB).symm)
    · cases yes
  · intro t member u later c
    obtain ⟨a, _, rfl⟩ := List.mem_map.mp member
    obtain ⟨b, _, rfl⟩ := List.mem_map.mp later
    exact ⟨fun yes => (by cases yes), fun _ => rfl⟩

end Task

namespace Machine

open Heap (Same)

variable {m n : Machine} {owned : Addr → Nat} {t : Task} {rest : List Task}

/-! Claimed objects -/

section Disposal

variable {garbage : List Addr}

theorem pending_disposal (after : n.tasks = Task.disposal garbage ++ m.tasks) (a : Addr) :
    n.pending a = m.pending a := by
  rw [pending, pending, after, List.countP_append,
    countP_neutral _ _ fun t member => t.releases_disposal member a, Nat.zero_add]

theorem unloading_disposal (after : n.tasks = Task.disposal garbage ++ m.tasks) (a : Addr) :
    n.Unloading a ↔ a ∈ garbage ∨ m.Unloading a := by
  rw [Unloading, Unloading, after, List.any_append, Bool.or_eq_true, Task.any_unloads_disposal]

theorem doomed_disposal (after : n.tasks = Task.disposal garbage ++ m.tasks) (a : Addr) :
    n.Doomed a ↔ a ∈ garbage ∨ m.Doomed a := by
  rw [Doomed, Doomed, after, List.any_append, Bool.or_eq_true, Task.any_reclaims_disposal]

-- Nothing that waits may need an object whose destruction goes in front of it.
theorem before_disposal (h : Heap) (t u : Task) (member : t ∈ Task.disposal garbage)
    (free : ∀ a ∈ garbage, ¬ Task.Needs h a u) : Task.Before h t u := by
  intro a
  constructor
  · intro reclaims
    exact free a (t.reclaims_disposal member a reclaims)
  · intro unloads
    rw [← Bool.not_eq_true]
    intro again
    apply free a (t.serves_disposal member a (t.serves_of_unloads a unloads))
    exact Or.inr (Or.inl (u.serves_of_unloads a again))

/-- Objects without a reference from elsewhere are claimed, and their destruction goes in front of
all that waits. -/
theorem Accounts.disposal (accounts : m.Accounts owned)
    (after : n.tasks = Task.disposal garbage ++ m.tasks) (body : Same Object.body m.heap n.heap)
    (alive : ∀ a, n.heap.Live a ↔ m.heap.Live a)
    (counts : ∀ a, n.heap.countAt a = m.heap.countAt a)
    (claims : ∀ a, m.heap.Live a → m.heap.claimedAt a = true → n.heap.claimedAt a = true)
    (once : garbage.Nodup) (free : ∀ a ∈ garbage, ∀ t ∈ m.tasks, ¬ Task.Needs m.heap a t)
    (closed : ∀ a ∈ garbage, m.heap.Live a ∧ n.heap.claimedAt a = true ∧
      m.heap.countAt a ≤ ∑ b ∈ garbage.toFinset, m.heap.drops b a) :
    n.Accounts owned ∧ ∀ a, n.owed owned a = m.owed owned a := by
  have unloading := unloading_disposal after
  have doomed := doomed_disposal after
  have pending := pending_disposal after
  have spared : ∀ a ∈ garbage, ¬ m.Doomed a := by
    intro a isGarbage isDoomed
    rw [Doomed, List.any_eq_true] at isDoomed
    obtain ⟨t, member, reclaims⟩ := isDoomed
    exact free a isGarbage t member (Or.inr (Or.inr (Or.inl reclaims)))
  have loaded : n.loaded = m.loaded := by
    ext a
    rw [mem_loaded, mem_loaded, alive, unloading, doomed]
    by_cases isGarbage : a ∈ garbage
    · simp [isGarbage, spared a isGarbage]
    · simp [isGarbage]
  have owes : ∀ a, n.owed owned a = m.owed owned a := by
    intro a
    rw [owed, owed, pending, held_congr body loaded]
  -- The sum of what is dropped ranges over more objects than before.
  have more : ∀ a, ∑ b ∈ m.unloading, m.heap.drops b a ≤ ∑ b ∈ n.unloading, n.heap.drops b a := by
    intro a
    simp only [body.drops]
    apply Finset.sum_le_sum_of_subset
    intro b member
    rw [mem_unloading] at member ⊢
    exact ⟨(alive b).mpr member.1, (unloading b).mpr (Or.inr member.2)⟩
  have among : ∀ a, ∑ b ∈ garbage.toFinset, m.heap.drops b a ≤
      ∑ b ∈ n.unloading, n.heap.drops b a := by
    intro a
    simp only [body.drops]
    apply Finset.sum_le_sum_of_subset
    intro b member
    rw [List.mem_toFinset] at member
    rw [mem_unloading]
    exact ⟨(alive b).mpr (closed b member).1, (unloading b).mpr (Or.inl member)⟩
  refine ⟨?_, owes⟩
  constructor
  · intro a live
    rw [owes, counts]
    exact accounts.enough a ((alive a).mp live)
  · rw [after, List.pairwise_append]
    have ordered := accounts.ordered.imp fun {t u} before => (before_congr body t u).mpr before
    refine ⟨Task.ordered_disposal n.heap once, ordered, fun t member u waits => ?_⟩
    rw [before_congr body]
    exact before_disposal m.heap t u member fun a isGarbage => free a isGarbage u waits
  · intro a isDoomed
    rcases (doomed a).mp isDoomed with isGarbage | already
    · obtain ⟨live, claimed, count⟩ := closed a isGarbage
      refine ⟨(alive a).mpr live, claimed, ?_⟩
      have bound := among a
      rw [counts]
      omega
    · obtain ⟨live, claimed, count⟩ := accounts.doomed a already
      refine ⟨(alive a).mpr live, claims a live claimed, ?_⟩
      have bound := more a
      rw [counts, pending]
      omega
  · intro t member a serves
    rw [after, List.mem_append] at member
    rcases member with inFront | waits
    · exact (doomed a).mpr (Or.inl (t.serves_disposal inFront a serves))
    · exact (doomed a).mpr (Or.inr (accounts.served t waits a serves))
  · intro a member
    rw [after, List.mem_append] at member
    rw [body.tracedAt]
    rcases member with inFront | waits
    · obtain ⟨b, _, same | same | same | same⟩ := (Task.mem_disposal _).mp inFront <;> cases same
    · exact accounts.traced a waits

theorem Accounts.unneeded (accounts : m.Accounts owned) {a : Addr} (live : m.heap.Live a)
    (zero : m.heap.countAt a = 0) (spared : ¬ m.Doomed a) :
    ∀ t ∈ m.tasks, ¬ Task.Needs m.heap a t := by
  have enough := accounts.enough a live
  rw [owed, zero] at enough
  intro t member
  rintro (releases | serves | reclaims | ⟨b, unloads, drops⟩)
  · have waits : 0 < m.pending a := List.countP_pos_iff.mpr ⟨t, member, releases⟩
    omega
  · exact spared (accounts.served t member a serves)
  · exact spared (List.any_eq_true.mpr ⟨t, member, reclaims⟩)
  · have doomed := accounts.served t member b (t.serves_of_unloads b unloads)
    have unloading : m.Unloading b := List.any_eq_true.mpr ⟨t, member, unloads⟩
    have loaded := (m.mem_loaded b).mpr ⟨(accounts.doomed b doomed).1, fun _ => unloading⟩
    have holds := Nat.lt_of_lt_of_le drops (m.heap.drops_le_edges b a)
    have held : 0 < m.held a := (m.held_pos_iff a).mpr ⟨b, loaded, holds⟩
    omega

theorem Accounts.condemned (accounts : m.Accounts owned) {a : Addr}
    (after : n.tasks = Task.destruction a ++ m.tasks) (live : m.heap.Live a)
    (zero : m.heap.countAt a = 0) (unclaimed : m.heap.claimedAt a = false)
    (body : Same Object.body m.heap n.heap) (alive : ∀ b, n.heap.Live b ↔ m.heap.Live b)
    (counts : ∀ b, n.heap.countAt b = m.heap.countAt b) (claimed : n.heap.claimedAt a = true)
    (claims : ∀ b, m.heap.Live b → m.heap.claimedAt b = true → n.heap.claimedAt b = true) :
    n.Accounts owned ∧ ∀ b, n.owed owned b = m.owed owned b := by
  have single : n.tasks = Task.disposal [a] ++ m.tasks := after
  have spared : ¬ m.Doomed a := by
    intro doomed
    rw [(accounts.doomed a doomed).2.1] at unclaimed
    cases unclaimed
  apply accounts.disposal single body alive counts claims (List.nodup_singleton a)
  · intro b isA
    rw [List.mem_singleton.mp isA]
    exact accounts.unneeded live zero spared
  · intro b isA
    rw [List.mem_singleton.mp isA, zero]
    exact ⟨live, claimed, Nat.zero_le _⟩

end Disposal

/-! Unloading -/

section Unload

variable {a : Addr} {row : List Addr}

theorem unloads_only (unloads : t.unloads a = true) (b : Addr) :
    t.releases b = false ∧ t.reclaims b = false ∧ t.unloads b = (a == b) := by
  cases t <;> simp [Task.unloads] at unloads <;> subst unloads <;>
    exact ⟨rfl, rfl, by simp [Task.unloads]⟩

theorem pending_unloaded (tasks : m.tasks = t :: rest) (unloads : t.unloads a = true)
    (after : n.tasks = row.map .release ++ rest) (b : Addr) :
    n.pending b = row.count b + m.pending b := by
  have released : (row.map Task.release).countP (·.releases b) = row.count b := by
    rw [List.countP_map]
    rfl
  rw [pending, pending, after, List.countP_append, released,
    countP_pop _ tasks (unloads_only unloads b).1]

theorem row_parts (row : List Addr) (u : Task) (member : u ∈ row.map Task.release) (b : Addr) :
    u.unloads b = false ∧ u.reclaims b = false ∧ u.serves b = false := by
  obtain ⟨c, _, rfl⟩ := List.mem_map.mp member
  exact ⟨rfl, rfl, rfl⟩

theorem doomed_unloaded (tasks : m.tasks = t :: rest) (unloads : t.unloads a = true)
    (after : n.tasks = row.map .release ++ rest) (b : Addr) : n.Doomed b ↔ m.Doomed b := by
  rw [Doomed, Doomed, after, any_pop _ tasks (unloads_only unloads b).2.1, List.any_append,
    any_neutral _ _ fun u member => (row_parts row u member b).2.1, Bool.false_or]

variable (accounts : m.Accounts owned)

include accounts

-- An object is unloaded once, so it does not wait for another task that does it.
theorem Accounts.unloading_unloaded (tasks : m.tasks = t :: rest) (unloads : t.unloads a = true)
    (after : n.tasks = row.map .release ++ rest) (b : Addr) :
    n.Unloading b ↔ b ≠ a ∧ m.Unloading b := by
  have left : n.Unloading b ↔ rest.any (·.unloads b) = true := by
    rw [Unloading, after, List.any_append,
      any_neutral _ _ fun u member => (row_parts row u member b).1, Bool.false_or]
  rw [left, Unloading, tasks, List.any_cons, (unloads_only unloads b).2.2]
  by_cases isHere : b = a
  · subst isHere
    have once : rest.any (·.unloads b) = false := any_neutral _ _ fun u member =>
      ((ordered_rest accounts tasks).1 u member b).2 unloads
    simp [once]
  · simp [isHere, Ne.symm isHere]

theorem Accounts.unloads_live (tasks : m.tasks = t :: rest) (unloads : t.unloads a = true) :
    m.Doomed a ∧ m.Unloading a ∧ m.heap.Live a := by
  have doomed := accounts.served t (by rw [tasks]; exact List.mem_cons_self) a
    (t.serves_of_unloads a unloads)
  have unloading : m.Unloading a := by
    rw [Unloading, tasks, List.any_cons, unloads, Bool.true_or]
  exact ⟨doomed, unloading, (accounts.doomed a doomed).1⟩

theorem Accounts.held_unloaded (tasks : m.tasks = t :: rest) (unloads : t.unloads a = true)
    (after : n.tasks = row.map .release ++ rest) (heap : n.heap = m.heap) (b : Addr) :
    m.held b = m.heap.edges a b + n.held b := by
  obtain ⟨doomed, unloading, live⟩ := accounts.unloads_live tasks unloads
  have loaded : n.loaded = m.loaded.erase a := by
    ext c
    rw [Finset.mem_erase, mem_loaded, mem_loaded, heap, doomed_unloaded tasks unloads after,
      accounts.unloading_unloaded tasks unloads after]
    by_cases isHere : c = a
    · subst isHere
      simp [doomed]
    · simp [isHere]
  rw [held, held, loaded, heap]
  exact (Finset.add_sum_erase _ _ ((m.mem_loaded a).mpr ⟨live, fun _ => unloading⟩)).symm

theorem Accounts.drops_unloaded (tasks : m.tasks = t :: rest) (unloads : t.unloads a = true)
    (after : n.tasks = row.map .release ++ rest) (heap : n.heap = m.heap) (b : Addr) :
    ∑ c ∈ m.unloading, m.heap.drops c b =
      m.heap.drops a b + ∑ c ∈ n.unloading, m.heap.drops c b := by
  obtain ⟨_, unloading, live⟩ := accounts.unloads_live tasks unloads
  have stillUnloading : n.unloading = m.unloading.erase a := by
    ext c
    rw [Finset.mem_erase, mem_unloading, mem_unloading, heap,
      accounts.unloading_unloaded tasks unloads after]
    tauto
  rw [stillUnloading]
  exact (Finset.add_sum_erase _ _ ((m.mem_unloading a).mpr ⟨live, unloading⟩)).symm

/-- An object's slots let go of what they hold, and the releases of a row of objects wait instead.
The row has all that the object drops, and no more than it holds. -/
theorem Accounts.unloaded (tasks : m.tasks = t :: rest) (unloads : t.unloads a = true)
    (row : List Addr) (dropped : ∀ b, m.heap.drops a b ≤ row.count b)
    (held : ∀ b, row.count b ≤ m.heap.edges a b) :
    ({ m with tasks := row.map .release ++ rest } : Machine).Accounts owned ∧
      ∀ b, m.owed owned b + row.count b =
        ({ m with tasks := row.map .release ++ rest } : Machine).owed owned b +
          m.heap.edges a b := by
  generalize now : ({ m with tasks := row.map .release ++ rest } : Machine) = n
  have heap : n.heap = m.heap := by rw [← now]
  have after : n.tasks = row.map .release ++ rest := by rw [← now]
  have pending := pending_unloaded tasks unloads after
  have doomed := doomed_unloaded tasks unloads after
  have holds := accounts.held_unloaded tasks unloads after heap
  have released : ∀ u ∈ row.map Task.release, ∀ v, Task.Before m.heap u v := by
    intro u member v
    obtain ⟨b, _, rfl⟩ := List.mem_map.mp member
    exact Task.before_release m.heap b v
  refine ⟨?_, fun b => by rw [owed, owed, pending, holds]; omega⟩
  constructor
  · intro b live
    rw [heap] at live ⊢
    have enough := accounts.enough b live
    have fewer := held b
    rw [owed, holds] at enough
    rw [owed, pending]
    omega
  · rw [heap, after, List.pairwise_append]
    exact ⟨List.pairwise_of_forall_mem_list fun u member v _ => released u member v,
      (ordered_rest accounts tasks).2, fun u member v _ => released u member v⟩
  · intro b isDoomed
    obtain ⟨live, claimed, count⟩ := accounts.doomed b ((doomed b).mp isDoomed)
    have enough := dropped b
    rw [accounts.drops_unloaded tasks unloads after heap] at count
    rw [heap, pending]
    exact ⟨live, claimed, by omega⟩
  · intro u member b serves
    rw [after, List.mem_append] at member
    rcases member with isNew | old
    · rw [(row_parts row u isNew b).2.2] at serves
      cases serves
    · exact (doomed b).mpr (accounts.served_rest tasks u old b serves)
  · intro b member
    rw [after, List.mem_append] at member
    rw [heap]
    rcases member with isNew | old
    · simp at isNew
    · exact accounts.traced_rest tasks b old

theorem Accounts.traced_unload (tasks : m.tasks = .unload a :: rest)
    (traced : m.heap.tracedAt a = true) (after : n.tasks = .releaseChildren a :: rest)
    (heap : n.heap = m.heap) : n.Accounts owned ∧ ∀ b, n.owed owned b = m.owed owned b := by
  obtain ⟨first, ordered⟩ := ordered_rest accounts tasks
  have same : Same Object.standing m.heap n.heap := by
    rw [heap]
    exact Same.refl _
  apply accounts.transfer same
  · intro b
    rw [pending, pending, after, tasks, List.countP_cons, List.countP_cons]
    rfl
  · intro b
    rw [Unloading, Unloading, after, tasks, List.any_cons, List.any_cons]
    rfl
  · intro b
    rw [Doomed, Doomed, after, tasks, List.any_cons, List.any_cons]
    rfl
  · rw [after]
    refine List.pairwise_cons.mpr ⟨fun u member b => ?_, ordered⟩
    exact ⟨fun yes => (by cases yes), (first u member b).2⟩
  · intro u member b serves
    rw [after] at member
    rcases List.mem_cons.mp member with same | old
    · subst same
      exact accounts.served (.unload a) (by rw [tasks]; exact List.mem_cons_self) b serves
    · exact accounts.served_rest tasks u old b serves
  · intro b member
    rw [after] at member
    rcases List.mem_cons.mp member with same | old
    · cases same
      exact traced
    · exact accounts.traced_rest tasks b old

theorem Accounts.reading (tasks : m.tasks = .unload a :: rest)
    (traced : m.heap.tracedAt a = true) (news : List Task)
    (calmNews : ∀ u ∈ news, u.neutral = true ∧ ∀ a, u.serves a = false) :
    ({ m with tasks := news ++ .releaseChildren a :: rest } : Machine).Accounts owned ∧
      ∀ b, ({ m with tasks := news ++ .releaseChildren a :: rest } : Machine).owed owned b =
        m.owed owned b := by
  obtain ⟨waits, owes⟩ := accounts.traced_unload
    (n := { m with tasks := .releaseChildren a :: rest }) tasks traced rfl rfl
  obtain ⟨still, stillOwes⟩ := waits.prepend
    (n := { m with tasks := news ++ .releaseChildren a :: rest }) news rfl rfl calmNews
  exact ⟨still, fun b => (stillOwes b).trans (owes b)⟩

end Unload

/-! Reclaiming -/

section Reclaim

variable {a : Addr}

/-- When its turn comes an object to be reclaimed has lost all its references, and is owed none. -/
theorem Accounts.spent (accounts : m.Accounts owned) (tasks : m.tasks = .reclaim a :: rest) :
    m.heap.Live a ∧ m.heap.claimedAt a = true ∧ m.heap.countAt a = 0 ∧ m.owed owned a = 0 ∧
      a ∉ m.loaded ∧ rest.any (·.reclaims a) = false := by
  obtain ⟨first, _⟩ := ordered_rest accounts tasks
  have isDoomed : m.Doomed a := by
    rw [Doomed, tasks, List.any_cons]
    simp [Task.reclaims]
  obtain ⟨live, claimed, count⟩ := accounts.doomed a isDoomed
  have isHere : (Task.reclaim a).reclaims a = true := beq_self_eq_true a
  have later : ∀ u ∈ rest, ¬ Task.Needs m.heap a u := fun u member => (first u member a).1 isHere
  have unloadsLater : ∀ b, m.Unloading b → ∃ u ∈ rest, u.unloads b = true := by
    intro b unloading
    rw [Unloading, any_pop _ tasks rfl] at unloading
    exact List.any_eq_true.mp unloading
  have noRelease : m.pending a = 0 := by
    rw [pending, countP_pop _ tasks rfl, List.countP_eq_zero]
    intro u member releases
    exact later u member (Or.inl releases)
  have noDrop : ∑ b ∈ m.unloading, m.heap.drops b a = 0 := by
    apply Finset.sum_eq_zero
    intro b member
    obtain ⟨u, inRest, unloads⟩ := unloadsLater b ((m.mem_unloading b).mp member).2
    by_contra drops
    exact later u inRest (Or.inr (Or.inr (Or.inr ⟨b, unloads, Nat.pos_of_ne_zero drops⟩)))
  have uncounted : m.heap.countAt a = 0 := by omega
  have enough := accounts.enough a live
  refine ⟨live, claimed, uncounted, by omega, ?_, ?_⟩
  · intro member
    obtain ⟨u, inRest, unloads⟩ := unloadsLater a (((m.mem_loaded a).mp member).2 isDoomed)
    exact later u inRest (Or.inr (Or.inl (u.serves_of_unloads a unloads)))
  · rw [List.any_eq_false]
    intro u member reclaims
    exact later u member (Or.inr (Or.inr (Or.inl reclaims)))

theorem Accounts.doomed_reclaimed (accounts : m.Accounts owned)
    (tasks : m.tasks = .reclaim a :: rest) (after : n.tasks = rest) (b : Addr) :
    n.Doomed b ↔ b ≠ a ∧ m.Doomed b := by
  obtain ⟨_, _, _, _, _, once⟩ := accounts.spent tasks
  rw [Doomed, Doomed, after, tasks, List.any_cons]
  by_cases isHere : b = a
  · subst isHere
    simp [once]
  · simp [Task.reclaims, isHere, Ne.symm isHere]

-- The object was unloaded before, so it is missed in neither set.
theorem Accounts.sets_reclaimed (accounts : m.Accounts owned)
    (tasks : m.tasks = .reclaim a :: rest) (after : n.tasks = rest)
    (alive : ∀ b, n.heap.Live b ↔ b ≠ a ∧ m.heap.Live b) :
    n.loaded = m.loaded ∧ n.unloading = m.unloading := by
  obtain ⟨live, _, _, _, unloaded, _⟩ := accounts.spent tasks
  have doomed := accounts.doomed_reclaimed tasks after
  have unloading : ∀ b, n.Unloading b ↔ m.Unloading b := by
    intro b
    rw [Unloading, Unloading, after, any_pop _ tasks rfl]
  have notUnloading : ¬ m.Unloading a := fun isUnloading =>
    unloaded ((m.mem_loaded a).mpr ⟨live, fun _ => isUnloading⟩)
  constructor
  · ext b
    by_cases isHere : b = a
    · subst isHere
      simp only [unloaded, iff_false]
      rw [mem_loaded, alive]
      simp
    · rw [mem_loaded, mem_loaded, alive, doomed, unloading]
      simp [isHere]
  · ext b
    rw [mem_unloading, mem_unloading, alive, unloading]
    by_cases isHere : b = a
    · subst isHere
      simp [notUnloading]
    · simp [isHere]

theorem Accounts.reclaimed (accounts : m.Accounts owned) (tasks : m.tasks = .reclaim a :: rest) :
    ({ m with heap := m.heap.reclaim a, tasks := rest } : Machine).Accounts owned ∧
      ∀ b, m.owed owned b =
        ({ m with heap := m.heap.reclaim a, tasks := rest } : Machine).owed owned b := by
  have body := m.heap.reclaim_body a
  have alive := m.heap.reclaim_live a
  have others := m.heap.reclaim_others a
  obtain ⟨first, ordered⟩ := ordered_rest accounts tasks
  generalize now : ({ m with heap := m.heap.reclaim a, tasks := rest } : Machine) = n
  have heap : n.heap = m.heap.reclaim a := by rw [← now]
  have after : n.tasks = rest := by rw [← now]
  rw [← heap] at body others
  simp only [← heap] at alive
  have doomed := accounts.doomed_reclaimed tasks after
  obtain ⟨loaded, unloading⟩ := accounts.sets_reclaimed tasks after alive
  have pending : ∀ b, n.pending b = m.pending b := by
    intro b
    rw [pending, pending, after, countP_pop _ tasks rfl]
  have owes : ∀ b, m.owed owned b = n.owed owned b := by
    intro b
    rw [owed, owed, pending, held_congr body loaded]
  refine ⟨?_, owes⟩
  constructor
  · intro b isLive
    obtain ⟨apart, wasLive⟩ := (alive b).mp isLive
    rw [← owes, Heap.countAt, others b apart]
    exact accounts.enough b wasLive
  · rw [after]
    exact ordered.imp fun {t u} before => (before_congr body t u).mpr before
  · intro b isDoomed
    obtain ⟨apart, wasDoomed⟩ := (doomed b).mp isDoomed
    obtain ⟨wasLive, claimed, count⟩ := accounts.doomed b wasDoomed
    refine ⟨(alive b).mpr ⟨apart, wasLive⟩, ?_, ?_⟩
    · rw [Heap.claimedAt, others b apart]
      exact claimed
    · rw [pending, unloading, Heap.countAt, others b apart]
      simp only [body.drops]
      exact count
  · intro u member b serves
    rw [after] at member
    refine (doomed b).mpr ⟨?_, accounts.served_rest tasks u member b serves⟩
    rintro rfl
    exact (first u member b).1 (beq_self_eq_true b) (Or.inr (Or.inl serves))
  · intro b member
    rw [after] at member
    rw [body.tracedAt]
    exact accounts.traced_rest tasks b member

end Reclaim

end Machine

end CountedHeap
