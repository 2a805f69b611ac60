import CountedHeap.Machine
import CountedHeap.Proofs.Changes

/-!
The books of a machine at work. References to an object are owed to its owners, to the slots of
objects that have not been unloaded, and to releases that wait. A count is never less than what is
owed. An object to be reclaimed is owed nothing but what the waiting tasks will take back before
its turn comes, so its count is zero by then.
-/

namespace CountedHeap

namespace Task

def releases (a : Addr) : Task → Bool
  | release b => b == a
  | _ => false

def unloads (a : Addr) : Task → Bool
  | unload b | releaseChildren b => b == a
  | _ => false

def reclaims (a : Addr) : Task → Bool
  | reclaim b => b == a
  | _ => false

def serves (a : Addr) : Task → Bool
  | detach b | finalize b | unload b | releaseChildren b => b == a
  | _ => false

def neutral : Task → Bool
  | release _ | unload _ | releaseChildren _ | reclaim _ => false
  | _ => true

/-- The task still needs the object, or will release it. -/
def Needs (h : Heap) (a : Addr) (t : Task) : Prop :=
  t.releases a = true ∨ t.serves a = true ∨ t.reclaims a = true ∨
    ∃ b, t.unloads b = true ∧ 0 < h.drops b a

/-- An order of tasks: nothing needs an object after it is reclaimed, and none is unloaded twice. -/
def Before (h : Heap) (t u : Task) : Prop :=
  ∀ a, (t.reclaims a = true → ¬ Needs h a u) ∧ (t.unloads a = true → u.unloads a = false)

theorem neutral_parts (t : Task) (neutral : t.neutral = true) (a : Addr) :
    t.releases a = false ∧ t.unloads a = false ∧ t.reclaims a = false := by
  cases t <;> simp [Task.neutral] at neutral <;> exact ⟨rfl, rfl, rfl⟩

theorem before_of_neutral (h : Heap) (t u : Task) (neutral : t.neutral = true) : Before h t u := by
  intro a
  obtain ⟨_, unloads, reclaims⟩ := t.neutral_parts neutral a
  refine ⟨fun yes => ?_, fun yes => ?_⟩
  · rw [reclaims] at yes
    cases yes
  · rw [unloads] at yes
    cases yes

theorem before_release (h : Heap) (a : Addr) (u : Task) : Before h (release a) u := by
  intro b
  exact ⟨fun yes => (by cases yes), fun yes => (by cases yes)⟩

theorem serves_of_unloads (t : Task) (a : Addr) (unloads : t.unloads a = true) :
    t.serves a = true := by
  cases t <;> simp [Task.unloads] at unloads <;> simp [serves, unloads]

end Task

namespace Machine

open Heap (Same Changed)

variable {m : Machine} {owned : Addr → Nat}

def pending (m : Machine) (a : Addr) : Nat := m.tasks.countP (·.releases a)

def Unloading (m : Machine) (a : Addr) : Prop := m.tasks.any (·.unloads a) = true

def Doomed (m : Machine) (a : Addr) : Prop := m.tasks.any (·.reclaims a) = true

instance (m : Machine) (a : Addr) : Decidable (m.Unloading a) :=
  inferInstanceAs (Decidable (_ = true))

instance (m : Machine) (a : Addr) : Decidable (m.Doomed a) :=
  inferInstanceAs (Decidable (_ = true))

/-- The live objects whose slots still hold what they hold. -/
def loaded (m : Machine) : Finset Addr := m.heap.live.filter fun a => m.Doomed a → m.Unloading a

def unloading (m : Machine) : Finset Addr := m.heap.live.filter m.Unloading

def held (m : Machine) (b : Addr) : Nat := ∑ a ∈ m.loaded, m.heap.edges a b

/-- How many references to an object there are: owned, waiting to be released, and in slots. -/
def owed (m : Machine) (owned : Addr → Nat) (a : Addr) : Nat := owned a + m.pending a + m.held a

/-- The books of a machine whose client owns so many references to each object. -/
structure Accounts (m : Machine) (owned : Addr → Nat) : Prop where
  enough : ∀ a, m.heap.Live a → m.owed owned a ≤ m.heap.countAt a
  ordered : m.tasks.Pairwise (Task.Before m.heap)
  doomed : ∀ a, m.Doomed a → m.heap.Live a ∧ m.heap.claimedAt a = true ∧
    m.heap.countAt a ≤ m.pending a + ∑ b ∈ m.unloading, m.heap.drops b a
  served : ∀ t ∈ m.tasks, ∀ a, t.serves a = true → m.Doomed a
  traced : ∀ a, Task.releaseChildren a ∈ m.tasks → m.heap.tracedAt a = true

theorem mem_loaded (m : Machine) (a : Addr) :
    a ∈ m.loaded ↔ m.heap.Live a ∧ (m.Doomed a → m.Unloading a) := by
  rw [loaded, Finset.mem_filter, Heap.mem_live]

theorem mem_unloading (m : Machine) (a : Addr) :
    a ∈ m.unloading ↔ m.heap.Live a ∧ m.Unloading a := by
  rw [unloading, Finset.mem_filter, Heap.mem_live]

theorem Unloading.task (unloading : m.Unloading a) : ∃ t ∈ m.tasks, t.unloads a = true := by
  rw [Unloading, List.any_eq_true] at unloading
  exact unloading

theorem held_pos_iff (m : Machine) (b : Addr) :
    0 < m.held b ↔ ∃ a ∈ m.loaded, 0 < m.heap.edges a b := by
  rw [held, Finset.sum_pos_iff]

theorem loaded_of_none (undoomed : ∀ a, ¬ m.Doomed a) : m.loaded = m.heap.live := by
  ext a
  rw [mem_loaded, Heap.mem_live, and_iff_left_iff_imp]
  intro _ doomed
  exact absurd doomed (undoomed a)

theorem held_of_none (undoomed : ∀ a, ¬ m.Doomed a) (b : Addr) : m.held b = m.heap.held b := by
  rw [held, loaded_of_none undoomed, Heap.held]

theorem loaded_congr {n : Machine} (live : n.heap.live = m.heap.live)
    (unloading : ∀ a, n.Unloading a ↔ m.Unloading a) (doomed : ∀ a, n.Doomed a ↔ m.Doomed a) :
    n.loaded = m.loaded := by
  ext a
  rw [mem_loaded, mem_loaded, ← Heap.mem_live, ← Heap.mem_live, live, unloading, doomed]

theorem unloading_congr {n : Machine} (live : n.heap.live = m.heap.live)
    (unloading : ∀ a, n.Unloading a ↔ m.Unloading a) : n.unloading = m.unloading := by
  ext a
  rw [mem_unloading, mem_unloading, ← Heap.mem_live, ← Heap.mem_live, live, unloading]

theorem held_congr {n : Machine} (same : Same Object.body m.heap n.heap)
    (loaded : n.loaded = m.loaded) (b : Addr) : n.held b = m.held b := by
  rw [held, held, loaded]
  exact Finset.sum_congr rfl fun a _ => same.edges a b

theorem before_congr {h k : Heap} (same : Same Object.body h k) (t u : Task) :
    Task.Before k t u ↔ Task.Before h t u := by
  unfold Task.Before Task.Needs
  simp only [same.drops]

/-- Where the counts and the waiting releases, unloadings and reclaims stay, so do the books. -/
theorem Accounts.transfer {n : Machine} (accounts : m.Accounts owned)
    (same : Same Object.standing m.heap n.heap) (pending : ∀ a, n.pending a = m.pending a)
    (unloading : ∀ a, n.Unloading a ↔ m.Unloading a) (doomed : ∀ a, n.Doomed a ↔ m.Doomed a)
    (ordered : n.tasks.Pairwise (Task.Before m.heap))
    (served : ∀ t ∈ n.tasks, ∀ a, t.serves a = true → m.Doomed a)
    (traced : ∀ a, Task.releaseChildren a ∈ n.tasks → m.heap.tracedAt a = true) :
    n.Accounts owned ∧ ∀ a, n.owed owned a = m.owed owned a := by
  have shape := same.shape_of_standing
  have body := same.body_of_standing
  have loaded := loaded_congr shape.live unloading doomed
  refine ⟨?_, fun a => by rw [owed, owed, pending, held_congr body loaded]⟩
  constructor
  · intro a live
    rw [owed, pending, held_congr body loaded, same.countAt]
    exact accounts.enough a ((shape.live_iff a).mp live)
  · exact ordered.imp fun {t u} before => (before_congr body t u).mpr before
  · intro a isDoomed
    obtain ⟨live, claimed, count⟩ := accounts.doomed a ((doomed a).mp isDoomed)
    refine ⟨(shape.live_iff a).mpr live, by rw [shape.claimedAt, claimed], ?_⟩
    rw [same.countAt, pending, unloading_congr shape.live unloading]
    simp only [body.drops]
    exact count
  · intro t member a serves
    exact (doomed a).mpr (served t member a serves)
  · intro a member
    rw [body.tracedAt]
    exact traced a member

/-! Tasks that come and go -/

variable {n : Machine} {t : Task} {rest : List Task}

theorem ordered_rest (accounts : m.Accounts owned) (tasks : m.tasks = t :: rest) :
    (∀ u ∈ rest, Task.Before m.heap t u) ∧ rest.Pairwise (Task.Before m.heap) := by
  have ordered := accounts.ordered
  rw [tasks] at ordered
  exact List.pairwise_cons.mp ordered

theorem Accounts.served_rest (accounts : m.Accounts owned) (tasks : m.tasks = t :: rest) :
    ∀ u ∈ rest, ∀ a, u.serves a = true → m.Doomed a := by
  intro u member
  exact accounts.served u (by rw [tasks]; exact List.mem_cons_of_mem t member)

theorem Accounts.traced_rest (accounts : m.Accounts owned) (tasks : m.tasks = t :: rest) :
    ∀ a, Task.releaseChildren a ∈ rest → m.heap.tracedAt a = true := by
  intro a member
  exact accounts.traced a (by rw [tasks]; exact List.mem_cons_of_mem t member)

theorem any_pop (ask : Task → Bool) (tasks : m.tasks = t :: rest) (skip : ask t = false) :
    m.tasks.any ask = rest.any ask := by
  rw [tasks, List.any_cons, skip, Bool.false_or]

theorem countP_pop (ask : Task → Bool) (tasks : m.tasks = t :: rest) (skip : ask t = false) :
    m.tasks.countP ask = rest.countP ask := by
  rw [tasks, List.countP_cons, skip]
  rfl

theorem any_neutral (news : List Task) (ask : Task → Bool) (silent : ∀ t ∈ news, ask t = false) :
    news.any ask = false := by
  rw [List.any_eq_false]
  intro t member
  rw [silent t member]
  exact Bool.false_ne_true

theorem countP_neutral (news : List Task) (ask : Task → Bool)
    (silent : ∀ t ∈ news, ask t = false) : news.countP ask = 0 := by
  rw [List.countP_eq_zero]
  intro t member
  rw [silent t member]
  exact Bool.false_ne_true

theorem parts_prepended (news row : List Task) (after : n.tasks = news ++ row)
    (calm : ∀ u ∈ news, u.neutral = true) (a : Addr) :
    n.pending a = row.countP (·.releases a) ∧ (n.Unloading a ↔ row.any (·.unloads a) = true) ∧
      (n.Doomed a ↔ row.any (·.reclaims a) = true) := by
  have parts := fun u (member : u ∈ news) => u.neutral_parts (calm u member) a
  refine ⟨?_, ?_, ?_⟩
  · rw [pending, after, List.countP_append,
      countP_neutral news _ fun u member => (parts u member).1, Nat.zero_add]
  · rw [Unloading, after, List.any_append,
      any_neutral news _ fun u member => (parts u member).2.1, Bool.false_or]
  · rw [Doomed, after, List.any_append,
      any_neutral news _ fun u member => (parts u member).2.2, Bool.false_or]

theorem Accounts.popped (accounts : m.Accounts owned) (tasks : m.tasks = t :: rest)
    (calm : t.neutral = true) (after : n.tasks = rest)
    (same : Same Object.standing m.heap n.heap) :
    n.Accounts owned ∧ ∀ a, n.owed owned a = m.owed owned a := by
  have parts := t.neutral_parts calm
  apply accounts.transfer same
  · intro a
    rw [pending, pending, after, countP_pop _ tasks (parts a).1]
  · intro a
    rw [Unloading, Unloading, after, any_pop _ tasks (parts a).2.1]
  · intro a
    rw [Doomed, Doomed, after, any_pop _ tasks (parts a).2.2]
  · rw [after]
    exact (ordered_rest accounts tasks).2
  · rw [after]
    exact accounts.served_rest tasks
  · rw [after]
    exact accounts.traced_rest tasks

theorem Accounts.prepend (accounts : m.Accounts owned) (news : List Task)
    (after : n.tasks = news ++ m.tasks) (heap : n.heap = m.heap)
    (calmNews : ∀ u ∈ news, u.neutral = true ∧ ∀ a, u.serves a = false) :
    n.Accounts owned ∧ ∀ a, n.owed owned a = m.owed owned a := by
  have parts := parts_prepended news m.tasks after fun u member => (calmNews u member).1
  have before : ∀ u ∈ news, ∀ v, Task.Before m.heap u v := fun u member v =>
    Task.before_of_neutral m.heap u v (calmNews u member).1
  have same : Same Object.standing m.heap n.heap := by
    rw [heap]
    exact Same.refl _
  apply accounts.transfer same
  · exact fun a => (parts a).1
  · exact fun a => (parts a).2.1
  · exact fun a => (parts a).2.2
  · rw [after, List.pairwise_append]
    exact ⟨List.pairwise_of_forall_mem_list fun u member v _ => before u member v,
      accounts.ordered, fun u member v _ => before u member v⟩
  · intro u member a serves
    rw [after, List.mem_append] at member
    rcases member with isNew | old
    · rw [(calmNews u isNew).2 a] at serves
      cases serves
    · exact accounts.served u old a serves
  · intro a member
    rw [after, List.mem_append] at member
    rcases member with isNew | old
    · have impossible := (calmNews _ isNew).1
      cases impossible
    · exact accounts.traced a old

/-- A task without a part in what is owed makes way for others of that kind. -/
theorem Accounts.quiet (accounts : m.Accounts owned) (tasks : m.tasks = t :: rest)
    (calm : t.neutral = true) (news : List Task) (after : n.tasks = news ++ rest)
    (calmNews : ∀ u ∈ news, u.neutral = true ∧ ∀ a, u.serves a = false)
    (same : Same Object.standing m.heap n.heap) :
    n.Accounts owned ∧ ∀ a, n.owed owned a = m.owed owned a := by
  obtain ⟨popped, owes⟩ := accounts.popped (n := { n with tasks := rest }) tasks calm rfl same
  obtain ⟨still, stillOwes⟩ := popped.prepend (n := n) news after rfl calmNews
  exact ⟨still, fun a => (stillOwes a).trans (owes a)⟩

/-! A release -/

section Release

variable {a : Addr} {k : Heap}

theorem pending_release (tasks : m.tasks = .release a :: rest) (b : Addr) :
    m.pending b = rest.countP (·.releases b) + (if a = b then 1 else 0) := by
  rw [pending, tasks, List.countP_cons]
  simp only [Task.releases, beq_iff_eq]

theorem Accounts.positive (accounts : m.Accounts owned) (tasks : m.tasks = .release a :: rest)
    (live : m.heap.Live a) : 0 < m.heap.countAt a := by
  have enough := accounts.enough a live
  rw [owed, pending_release tasks, if_pos rfl] at enough
  omega

/-- The release is done, and its object has one reference less if it is alive. -/
theorem Accounts.lowered (accounts : m.Accounts owned) (tasks : m.tasks = .release a :: rest)
    (same : Same Object.shape m.heap k)
    (here : m.heap.Live a → k.countAt a + 1 = m.heap.countAt a)
    (others : ∀ b, b ≠ a → k.countAt b = m.heap.countAt b) :
    ({ m with heap := k, tasks := rest } : Machine).Accounts owned ∧
      ∀ b, m.owed owned b = ({ m with heap := k, tasks := rest } : Machine).owed owned b +
        (if a = b then 1 else 0) := by
  obtain ⟨_, ordered⟩ := ordered_rest accounts tasks
  generalize after : ({ m with heap := k, tasks := rest } : Machine) = n
  have heap : n.heap = k := by rw [← after]
  have waiting : n.tasks = rest := by rw [← after]
  have body := same.body_of_shape
  have unloading : ∀ b, n.Unloading b ↔ m.Unloading b := fun b => by
    rw [Unloading, Unloading, waiting, any_pop _ tasks rfl]
  have doomed : ∀ b, n.Doomed b ↔ m.Doomed b := fun b => by
    rw [Doomed, Doomed, waiting, any_pop _ tasks rfl]
  have pending : ∀ b, m.pending b = n.pending b + (if a = b then 1 else 0) := fun b => by
    rw [pending_release tasks, pending, waiting]
  subst heap
  have loaded := loaded_congr same.live unloading doomed
  have counts : ∀ b, m.heap.Live b →
      m.heap.countAt b = n.heap.countAt b + (if a = b then 1 else 0) := by
    intro b live
    by_cases isHere : a = b
    · subst isHere
      rw [if_pos rfl, here live]
    · rw [if_neg isHere, others b (Ne.symm isHere)]
      rfl
  refine ⟨?_, fun b => by rw [owed, owed, pending, held_congr body loaded]; omega⟩
  constructor
  · intro b live
    have wasLive := (same.live_iff b).mp live
    have enough := accounts.enough b wasLive
    rw [owed, pending, counts b wasLive] at enough
    rw [owed, held_congr body loaded]
    omega
  · rw [waiting]
    exact ordered.imp fun {t u} before => (before_congr body t u).mpr before
  · intro b isDoomed
    obtain ⟨live, claimed, count⟩ := accounts.doomed b ((doomed b).mp isDoomed)
    refine ⟨(same.live_iff b).mpr live, by rw [same.claimedAt, claimed], ?_⟩
    rw [counts b live, pending b] at count
    rw [unloading_congr same.live unloading]
    simp only [body.drops]
    omega
  · intro u member b serves
    rw [waiting] at member
    exact (doomed b).mpr (accounts.served_rest tasks u member b serves)
  · intro b member
    rw [waiting] at member
    rw [body.tracedAt]
    exact accounts.traced_rest tasks b member

end Release

end Machine

end CountedHeap
