import CountedHeap.Proofs.Ending
import CountedHeap.Proofs.Marks

/-!
What a cascade takes from the objects that it does not destroy. Whatever set it off, the count of such
an object and what the condemned ones held of it add up, at any time, to what the count was at the
start and the releases still to come; and each release that finds nobody is one misuse.
-/

namespace CountedHeap

open Heap (Same Changed Noted)

def Task.released? : Task → Option Addr
  | release a => some a
  | _ => none

namespace Heap

variable {h k : Heap} {a b : Addr} {x : Object} {word : CountWord} {row wider : Finset Addr}

/-- The references that an object gives up when it is destroyed, one for each. -/
def yields (h : Heap) (a : Addr) : List Addr := if h.tracedAt a then h.children a else []

theorem drops_eq_count (h : Heap) (a b : Addr) : h.drops a b = (h.yields a).count b := by
  unfold drops yields
  split <;> rfl

theorem Same.yields (same : Same Object.body h k) (a : Addr) : k.yields a = h.yields a := by
  rw [Heap.yields, Heap.yields, same.tracedAt, same.children]

/-- How many of the references that an object gives up are to nobody. -/
def strays (h : Heap) (a : Addr) : Nat := (h.yields a).countP fun b => ¬ h.Live b

/-- How many references to an object the members of a row give up when they are destroyed. -/
def givenUp (h : Heap) (row : Finset Addr) (a : Addr) : Nat := ∑ b ∈ row, h.drops b a

theorem givenUp_le_held (among : row ⊆ h.live) (a : Addr) : h.givenUp row a ≤ h.held a :=
  (Finset.sum_le_sum fun b _ => h.drops_le_edges b a).trans (Finset.sum_le_sum_of_subset among)

theorem givenUp_insert (h : Heap) (fresh : a ∉ row) (b : Addr) :
    h.givenUp (insert a row) b = h.drops a b + h.givenUp row b := Finset.sum_insert fresh

theorem givenUp_erase (h : Heap) (member : a ∈ row) (b : Addr) :
    h.drops a b + h.givenUp (row.erase a) b = h.givenUp row b :=
  Finset.add_sum_erase row (fun c => h.drops c b) member

theorem Same.unclaimed (same : Same Object.shape h k) : k.unclaimed = h.unclaimed := by
  ext a
  rw [mem_unclaimed, mem_unclaimed, same.live_iff, same.claimedAt]

theorem Changed.unclaimed_claimed (changed : Changed h a { x with word, claimed := true } k)
    (there : h.objects[a]? = some x) : k.unclaimed = h.unclaimed.erase a := by
  ext b
  rw [Finset.mem_erase, mem_unclaimed, mem_unclaimed, changed.live_iff there rfl]
  by_cases here : b = a
  · subst here
    simp [changed.claimedAt_here]
  · simp [changed.claimedAt_others b here, here]

end Heap

namespace Machine

variable {h : Heap} {m n : Machine} {a : Addr} {t : Task} {rest news : List Task}
  {owned : Addr → Nat}

/-- The objects of a heap that are condemned since, or gone. -/
def fallen (m : Machine) (h : Heap) : Finset Addr := h.live \ m.heap.unclaimed

def waiting (m : Machine) : List Addr := m.tasks.filterMap Task.released?

theorem pending_eq_count (m : Machine) (a : Addr) : m.pending a = m.waiting.count a := by
  rw [waiting, List.count_filterMap, pending]
  refine List.countP_congr fun t _ => ?_
  cases t <;> simp [Task.releases, Task.released?]

theorem waiting_prepended (news rest : List Task) (after : n.tasks = news ++ rest)
    (calm : ∀ u ∈ news, u.neutral = true) : n.waiting = rest.filterMap Task.released? := by
  have unreleased : news.filterMap Task.released? = [] := by
    rw [List.filterMap_eq_nil_iff]
    intro u member
    have neutral := calm u member
    cases u <;> simp [Task.neutral] at neutral <;> rfl
  rw [waiting, after, List.filterMap_append, unreleased, List.nil_append]

section Destruction

variable (tasks : m.tasks = .release a :: rest) (after : n.tasks = Task.destruction a ++ rest)

include tasks

theorem waiting_release : m.waiting = a :: rest.filterMap Task.released? := by
  rw [waiting, tasks]
  rfl

include after

theorem waiting_destruction : m.waiting = a :: n.waiting := by
  rw [waiting_release tasks, waiting, after, List.filterMap_append]
  rfl

theorem unloading_destruction (live : m.heap.Live a) (alive : ∀ b, n.heap.Live b ↔ m.heap.Live b) :
    n.unloading = insert a m.unloading := by
  ext b
  rw [Finset.mem_insert, mem_unloading, mem_unloading, alive, Unloading, after, Unloading,
    any_pop _ tasks rfl]
  by_cases here : b = a
  · subst here
    simp [Task.destruction, Task.unloads, live]
  · simp [Task.destruction, Task.unloads, here, Ne.symm here]

end Destruction

theorem Accounts.row_eq (accounts : m.Accounts owned) (tasks : m.tasks = t :: rest)
    (unloads : t.unloads a = true) (row : List Addr)
    (after : m.step.tasks = row.map .release ++ rest) : row = m.heap.yields a := by
  have injective : Function.Injective Task.release := fun _ _ same => Task.release.inj same
  rw [step_cons tasks] at after
  cases t <;> simp only [Task.unloads, beq_iff_eq, Bool.false_eq_true] at unloads <;>
    subst unloads
  case unload a =>
    cases traced : m.heap.tracedAt a with
    | true =>
        have isTraced : (m.heap.objects[a]?).any Object.traced = true := traced
        simp only [perform, isTraced, if_true, push] at after
        have listed := List.append_cancel_right after
        have member : Task.releaseChildren a ∈ row.map Task.release := by
          rw [← listed]
          simp
        simp at member
    | false =>
        have untraced : (m.heap.objects[a]?).any Object.traced = false := traced
        simp only [perform, untraced, Bool.false_eq_true, if_false] at after
        have empty : row = [] := by simpa using after
        rw [empty, Heap.yields, traced]
        rfl
  case releaseChildren a =>
    have traced := accounts.traced a (by rw [tasks]; exact List.mem_cons_self)
    simp only [perform, push] at after
    rw [Heap.yields, if_pos traced]
    exact (injective.list_map (List.append_cancel_right after)).symm

theorem Accounts.claimed_of_unloading (accounts : m.Accounts owned) (member : a ∈ m.unloading) :
    m.heap.claimedAt a = true := by
  obtain ⟨t, waits, unloads⟩ := ((m.mem_unloading a).mp member).2.task
  have doomed := accounts.served t waits a (t.serves_of_unloads a unloads)
  exact (accounts.doomed a doomed).2.1

theorem fallen_condemned {x : Object} {word : CountWord} (there : m.heap.objects[a]? = some x)
    (valid : x.valid = true) (unclaimed : x.claimed = false)
    (changed : Changed m.heap a { x with word, claimed := true } n.heap) (was : h.Live a) :
    a ∉ m.fallen h ∧ n.fallen h = insert a (m.fallen h) := by
  have among : a ∈ m.heap.unclaimed := (m.heap.mem_unclaimed a).mpr
    ⟨(m.heap.live_iff a).mpr ⟨x, there, valid⟩, (Heap.claimedAt_of_there there).trans unclaimed⟩
  refine ⟨fun isFallen => (Finset.mem_sdiff.mp isFallen).2 among, ?_⟩
  rw [fallen, fallen, changed.unclaimed_claimed there]
  exact Finset.sdiff_erase ((h.mem_live a).mpr was)

/-- What a step of a cascade is to references. -/
inductive Felt (m n : Machine) : Prop where
  | still (unclaimed : n.heap.unclaimed = m.heap.unclaimed)
      (same : ∀ a, n.heap.Live a → m.heap.Live a ∧ n.heap.countAt a = m.heap.countAt a ∧
        n.heap.claimedAt a = m.heap.claimedAt a)
      (waiting : n.waiting = m.waiting) (unloading : n.unloading = m.unloading)
      (registry : n.heap.collector.registry = m.heap.collector.registry)
      (misuse : n.heap.books.misuse = m.heap.books.misuse)
  | missed (a : Addr) (waiting : m.waiting = a :: n.waiting) (dead : ¬ m.heap.Live a)
      (unloading : n.unloading = m.unloading) (done : n.heap = m.heap.absorb)
  | lowered (a : Addr) (x : Object) (word : CountWord) (waiting : m.waiting = a :: n.waiting)
      (unloading : n.unloading = m.unloading) (there : m.heap.objects[a]? = some x)
      (valid : x.valid = true) (count : word.count.toNat + 1 = x.count)
      (many : x.claimed = false → x.count ≠ 1) (changed : Changed m.heap a { x with word } n.heap)
      (noted : Noted m.heap a x false word n.heap)
  | condemned (a : Addr) (x : Object) (word : CountWord) (waiting : m.waiting = a :: n.waiting)
      (fresh : a ∉ m.unloading) (unloading : n.unloading = insert a m.unloading)
      (there : m.heap.objects[a]? = some x) (valid : x.valid = true)
      (unclaimed : x.claimed = false) (one : x.count = 1) (zero : word.count.toNat = 0)
      (changed : Changed m.heap a { x with word, claimed := true } n.heap)
      (noted : Noted m.heap a x true word n.heap)
  | unloaded (a : Addr) (member : a ∈ m.unloading) (unloading : n.unloading = m.unloading.erase a)
      (waiting : n.waiting = m.heap.yields a ++ m.waiting) (done : n.heap = m.heap)

/-- A release that is granted, of an object that keeps a reference or of one that does not. -/
theorem Accounts.felt_released (accounts : m.Accounts owned) {x : Object} {last : Bool}
    {word : CountWord} (tasks : m.tasks = .release a :: rest)
    (after : n.tasks = (if last then Task.destruction a else []) ++ rest)
    (there : m.heap.objects[a]? = some x) (valid : x.valid = true)
    (changed : Changed m.heap a { x with word, claimed := x.claimed || last } n.heap)
    (count : word.count.toNat + 1 = x.count) (isLast : last = true ↔ x.count = 1 ∧ x.claimed = false)
    (noted : Noted m.heap a x last word n.heap) : Felt m n := by
  have live : m.heap.Live a := (m.heap.live_iff a).mpr ⟨x, there, valid⟩
  have alive := changed.live_iff there rfl
  cases last with
  | false =>
      have left : n.tasks = rest := after
      rw [Bool.or_false] at changed
      refine .lowered a x word ?_ (unloading_congr ?_ fun b => ?_) there valid count
        (fun unclaimed one => ?_) changed noted
      · rw [waiting_release tasks, waiting, left]
      · ext b
        rw [Heap.mem_live, Heap.mem_live, alive]
      · rw [Unloading, Unloading, any_pop _ tasks rfl, left]
      · have impossible := isLast.mpr ⟨one, unclaimed⟩
        cases impossible
  | true =>
      obtain ⟨one, unclaimed⟩ := isLast.mp rfl
      rw [Bool.or_true] at changed
      refine .condemned a x word (waiting_destruction tasks after) (fun member => ?_)
        (unloading_destruction tasks after live alive) there valid unclaimed one (by omega)
        changed noted
      have claimed := accounts.claimed_of_unloading member
      simp [Heap.claimedAt, there, unclaimed] at claimed

theorem Accounts.felt_unloaded (accounts : m.Accounts owned) {row : List Addr}
    (tasks : m.tasks = t :: rest) (unloads : t.unloads a = true)
    (after : m.step.tasks = row.map .release ++ rest) (heap : m.step.heap = m.heap) :
    Felt m m.step := by
  obtain ⟨_, unloading, live⟩ := accounts.unloads_live tasks unloads
  refine .unloaded a ((m.mem_unloading a).mpr ⟨live, unloading⟩) ?_ ?_ heap
  · ext b
    rw [Finset.mem_erase, mem_unloading, mem_unloading, heap,
      accounts.unloading_unloaded tasks unloads after]
    tauto
  · have released : (row.map Task.release).filterMap Task.released? = row := by
      rw [List.filterMap_map]
      exact List.filterMap_some
    have before : m.waiting = rest.filterMap Task.released? := by
      rw [waiting, tasks]
      cases t <;> simp [Task.unloads] at unloads <;> rfl
    rw [waiting, after, List.filterMap_append, released, before, accounts.row_eq tasks unloads row after]

theorem Accounts.felt_reclaimed (accounts : m.Accounts owned) (tasks : m.tasks = .reclaim a :: rest)
    (after : n.tasks = rest) (heap : n.heap = m.heap.reclaim a) : Felt m n := by
  obtain ⟨live, claimed, _⟩ := accounts.spent tasks
  obtain ⟨_, collector, _⟩ := m.heap.reclaim_frame a
  have others := m.heap.reclaim_others a
  have alive := m.heap.reclaim_live a
  simp only [← heap] at others alive collector
  refine .still ?_ (fun b isLive => ?_) ?_ ?_ (by rw [collector]) ?_
  · ext b
    rw [Heap.mem_unclaimed, Heap.mem_unclaimed, alive]
    by_cases here : b = a
    · subst here
      simp [claimed]
    · rw [Heap.claimedAt, others b here]
      simp [here, Heap.claimedAt]
  · obtain ⟨apart, wasLive⟩ := (alive b).mp isLive
    rw [Heap.countAt, Heap.claimedAt, others b apart]
    exact ⟨wasLive, rfl, rfl⟩
  · rw [waiting, waiting, tasks, after]
    rfl
  · exact (accounts.sets_reclaimed tasks after alive).2
  · obtain ⟨x, there, _⟩ := (m.heap.live_iff a).mp live
    rw [heap, (m.heap.reclaim_spec a x there).2.1]
    rfl

theorem Accounts.felt (accounts : m.Accounts owned) (cascade : ∀ t ∈ m.tasks, t.cascades = true) :
    Felt m m.step := by
  have effect := step_effect (Or.inl cascade)
  cases effect with
  | resting idle same =>
      rw [same]
      exact .still rfl (fun _ live => ⟨live, rfl, rfl⟩) rfl rfl rfl rfl
  | quiet t rest news tasks calm after calmNews cascades lighter same frame =>
      have standing := same.standing_of_face
      have shape := standing.shape_of_standing
      have waiting := waiting_prepended news rest after fun u member => (calmNews u member).1
      have before := waiting_prepended [t] rest tasks (by simpa using calm)
      have newParts := parts_prepended news rest after fun u member => (calmNews u member).1
      refine .still shape.unclaimed (fun a live => ⟨(shape.live_iff a).mp live, standing.countAt a,
        shape.claimedAt a⟩) (waiting.trans before.symm) (unloading_congr shape.live fun a => ?_)
        (by rw [frame]) (by rw [frame])
      rw [(newParts a).2.1, Unloading, any_pop _ tasks (t.neutral_parts calm a).2.1]
  | reading a rest news tasks traced calmNews cascades light done =>
      have newParts := parts_prepended (n := m.step) news (.releaseChildren a :: rest) (by rw [done])
        fun u member => (calmNews u member).1
      have waiting := waiting_prepended (n := m.step) news (.releaseChildren a :: rest)
        (by rw [done]) fun u member => (calmNews u member).1
      have before : m.waiting = rest.filterMap Task.released? := by
        rw [Machine.waiting, tasks]
        rfl
      have heap : m.step.heap = m.heap := by rw [done]
      refine .still (by rw [heap]) (fun b live => ?_) (waiting.trans before.symm)
        (unloading_congr (by rw [heap]) fun b => ?_) (by rw [heap]) (by rw [heap])
      · rw [heap] at live ⊢
        exact ⟨live, rfl, rfl⟩
      · rw [(newParts b).2.1, Unloading, tasks]
        rfl
  | refused a rest tasks refused done =>
      -- A live object that waits to be released has a count, so this one is gone.
      have dead : ¬ m.heap.Live a := fun live => refused ⟨live, accounts.positive tasks live⟩
      refine .missed a ?_ dead ?_ (by rw [done])
      · rw [waiting_release tasks, done]
        rfl
      · refine unloading_congr (by rw [done]; rfl) fun b => ?_
        rw [Unloading, Unloading, any_pop _ tasks rfl, done]
  | released a x last k word rest tasks there valid changed count isLast noted done =>
      have heap : m.step.heap = k := by rw [done]
      subst heap
      exact accounts.felt_released tasks (by rw [done]) there valid changed count isLast noted
  | unloaded a t rest row tasks unloads dropped held light done =>
      exact accounts.felt_unloaded tasks unloads (by rw [done]) (by rw [done])
  | reclaimed a rest tasks done =>
      exact accounts.felt_reclaimed tasks (by rw [done]) (by rw [done])
  | ended p found done =>
      have impossible := cascade (.search p) (by rw [found.1]; exact List.mem_singleton_self _)
      cases impossible

namespace Felt

theorem unclaimed_subset (felt : Felt m n) : n.heap.unclaimed ⊆ m.heap.unclaimed := by
  cases felt with
  | still unclaimed => exact unclaimed.subset
  | missed a waiting dead unloading done => rw [done]; exact Finset.Subset.refl _
  | lowered a x word waiting unloading there valid count many changed =>
      have shape : Same Object.shape m.heap n.heap := changed.same there rfl
      exact shape.unclaimed.subset
  | condemned a x word waiting fresh unloading there valid unclaimed one zero changed =>
      rw [changed.unclaimed_claimed there]
      exact Finset.erase_subset _ _
  | unloaded a member unloading waiting done => rw [done]

/-- What falls is an object whose last reference a waiting release takes. -/
theorem fallen_cases (felt : Felt m n) (among : ∀ a, m.heap.Live a → h.Live a) :
    n.fallen h = m.fallen h ∨ ∃ a ∈ m.heap.unclaimed, 0 < m.pending a ∧ m.heap.countAt a = 1 ∧
      n.fallen h = insert a (m.fallen h) := by
  cases felt with
  | still unclaimed => exact Or.inl (by rw [fallen, unclaimed, fallen])
  | missed a waiting dead unloading done => exact Or.inl (by rw [fallen, done]; rfl)
  | lowered a x word waiting unloading there valid count many changed =>
      have shape : Same Object.shape m.heap n.heap := changed.same there rfl
      exact Or.inl (by rw [fallen, shape.unclaimed, fallen])
  | condemned a x word waiting fresh unloading there valid unclaimed one zero changed =>
      have live : m.heap.Live a := (m.heap.live_iff a).mpr ⟨x, there, valid⟩
      refine Or.inr ⟨a, ?_, ?_, (Heap.countAt_of_there there).trans one,
        (fallen_condemned there valid unclaimed changed (among a live)).2⟩
      · exact (m.heap.mem_unclaimed a).mpr ⟨live, (Heap.claimedAt_of_there there).trans unclaimed⟩
      · rw [pending_eq_count, waiting, List.count_cons_self]
        exact Nat.succ_pos _
  | unloaded a member unloading waiting done => exact Or.inl (by rw [fallen, done, fallen])

/-- What an object that is not condemned has lost, and what it is still to lose. -/
theorem balance (felt : Felt m n) (body : Same Object.body h m.heap)
    (among : ∀ a, m.heap.Live a → h.Live a) (b : Addr) (member : b ∈ n.heap.unclaimed) :
    n.heap.countAt b + h.givenUp (n.fallen h) b + (m.pending b + h.givenUp m.unloading b) =
      m.heap.countAt b + h.givenUp (m.fallen h) b + (n.pending b + h.givenUp n.unloading b) := by
  have was := (m.heap.mem_unclaimed b).mp (felt.unclaimed_subset member)
  rw [pending_eq_count, pending_eq_count]
  cases felt with
  | still unclaimed same waiting unloading =>
      rw [fallen, fallen, unclaimed, waiting, unloading,
        (same b ((n.heap.mem_unclaimed b).mp member).1).2.1]
  | missed a waiting dead unloading done =>
      have apart : a ≠ b := fun same => dead (same ▸ was.1)
      have counts : n.heap.countAt b = m.heap.countAt b := by rw [done]; rfl
      have unclaimed : n.heap.unclaimed = m.heap.unclaimed := by rw [done]; rfl
      rw [fallen, fallen, unclaimed, waiting, unloading, counts, List.count_cons_of_ne apart]
  | lowered a x word waiting unloading there valid count many changed =>
      have shape : Same Object.shape m.heap n.heap := changed.same there rfl
      rw [fallen, fallen, shape.unclaimed, waiting, unloading]
      by_cases here : a = b
      · subst here
        have before : m.heap.countAt a = x.count := Heap.countAt_of_there there
        have after : n.heap.countAt a = word.count.toNat := changed.countAt_here
        rw [List.count_cons_self]
        omega
      · rw [changed.countAt_others b (Ne.symm here), List.count_cons_of_ne here]
  | condemned a x word waiting fresh unloading there valid unclaimed one zero changed =>
      have live : h.Live a := among a ((m.heap.live_iff a).mpr ⟨x, there, valid⟩)
      obtain ⟨notFallen, fallen⟩ := fallen_condemned there valid unclaimed changed live
      have apart : b ≠ a := (Finset.mem_erase.mp (changed.unclaimed_claimed there ▸ member)).1
      rw [fallen, waiting, unloading, changed.countAt_others b apart,
        List.count_cons_of_ne (Ne.symm apart), h.givenUp_insert notFallen, h.givenUp_insert fresh]
      omega
  | unloaded a isUnloading unloading waiting done =>
      have split := h.givenUp_erase isUnloading b
      rw [fallen, fallen, waiting, unloading, done, List.count_append, ← Heap.drops_eq_count, body.drops]
      omega

/-- A release that finds nobody is one misuse, and nothing else is. -/
theorem misuse (felt : Felt m n) (body : Same Object.body h m.heap)
    (among : ∀ a, m.heap.Live a → h.Live a)
    (gone : ∀ a ∈ m.waiting, h.Live a → m.heap.Live a) :
    n.heap.books.misuse + n.waiting.countP (fun a => ¬ h.Live a) + ∑ b ∈ n.unloading, h.strays b +
        ∑ b ∈ m.fallen h, h.strays b =
      m.heap.books.misuse + m.waiting.countP (fun a => ¬ h.Live a) + ∑ b ∈ m.unloading, h.strays b +
        ∑ b ∈ n.fallen h, h.strays b := by
  cases felt with
  | still unclaimed same waiting unloading registry misuse =>
      rw [fallen, fallen, unclaimed, waiting, unloading, misuse]
  | missed a waiting dead unloading done =>
      have unclaimed : n.heap.unclaimed = m.heap.unclaimed := by rw [done]; rfl
      have counted : n.heap.books.misuse = m.heap.books.misuse + 1 := by rw [done]; rfl
      have nobody : ¬ h.Live a := fun live => dead (gone a (waiting ▸ List.mem_cons_self) live)
      rw [fallen, fallen, unclaimed, waiting, unloading, counted,
        List.countP_cons_of_pos (by simpa using nobody)]
      omega
  | lowered a x word waiting unloading there valid count many changed =>
      have live : h.Live a := among a ((m.heap.live_iff a).mpr ⟨x, there, valid⟩)
      have shape : Same Object.shape m.heap n.heap := changed.same there rfl
      have books : n.heap.books = m.heap.books := by rw [changed.rest]
      rw [fallen, fallen, shape.unclaimed, waiting, unloading, books,
        List.countP_cons_of_neg (by simpa using live)]
  | condemned a x word waiting fresh unloading there valid unclaimed one zero changed =>
      have live : h.Live a := among a ((m.heap.live_iff a).mpr ⟨x, there, valid⟩)
      obtain ⟨notFallen, fallen⟩ := fallen_condemned there valid unclaimed changed live
      have books : n.heap.books = m.heap.books := by rw [changed.rest]
      rw [fallen, waiting, unloading, books, List.countP_cons_of_neg (by simpa using live),
        Finset.sum_insert notFallen, Finset.sum_insert fresh]
      omega
  | unloaded a isUnloading unloading waiting done =>
      have split := Finset.add_sum_erase m.unloading h.strays isUnloading
      rw [fallen, fallen, waiting, unloading, done, List.countP_append, body.yields, ← split,
        Heap.strays]
      omega

/-- Counts only fall, and where one does the object finds its way into the registry, if it may. -/
theorem registered (felt : Felt m n) (marked : m.heap.Marked) (b : Addr)
    (member : b ∈ n.heap.unclaimed) :
    n.heap.countAt b ≤ m.heap.countAt b ∧ (n.heap.collector.registry.holds b = true ↔
      m.heap.collector.registry.holds b = true ∨
        m.heap.Eager ∧ m.heap.tracedAt b = true ∧ n.heap.countAt b < m.heap.countAt b) := by
  have was := (m.heap.mem_unclaimed b).mp (felt.unclaimed_subset member)
  -- An object whose count stays, and its entry with it.
  have same : n.heap.countAt b = m.heap.countAt b → n.heap.collector.registry.holds b =
      m.heap.collector.registry.holds b → n.heap.countAt b ≤ m.heap.countAt b ∧
      (n.heap.collector.registry.holds b = true ↔ m.heap.collector.registry.holds b = true ∨
        m.heap.Eager ∧ m.heap.tracedAt b = true ∧ n.heap.countAt b < m.heap.countAt b) := by
    intro count listed
    rw [count, listed]
    simp
  cases felt with
  | still unclaimed stays waiting unloading registry misuse =>
      exact same (stays b ((n.heap.mem_unclaimed b).mp member).1).2.1 (by rw [registry])
  | missed a waiting dead unloading done => exact same (by rw [done]; rfl) (by rw [done]; rfl)
  | lowered a x word waiting unloading there valid count many changed noted =>
      by_cases here : b = a
      · subst here
        have before : m.heap.countAt b = x.count := Heap.countAt_of_there there
        have after : n.heap.countAt b = word.count.toNat := changed.countAt_here
        have unclaimed : x.claimed = false := (Heap.claimedAt_of_there there).symm.trans was.2
        have traced : m.heap.tracedAt b = x.traced := Heap.tracedAt_of_there there
        have buffered : m.heap.bufferedAt b = x.buffered := Heap.bufferedAt_of_there there
        refine ⟨by omega, fun holds => ?_, ?_⟩
        · exact (noted.joins rfl holds).imp_right fun joins =>
            ⟨joins.1, traced.trans joins.2, by omega⟩
        · rintro (listed | ⟨eager, isTraced, _⟩)
          · exact noted.kept rfl listed
          · rcases noted.survivor (many unclaimed) unclaimed (traced.symm.trans isTraced) eager.1
              eager.2 with isSet | holds
            · exact noted.kept rfl ((marked.bufferedAt b was.1).symm.trans (buffered.trans isSet))
            · exact holds
      · exact same (changed.countAt_others b here) (noted.others b here)
  | condemned a x word waiting fresh unloading there valid unclaimed one zero changed noted =>
      have apart : b ≠ a := (Finset.mem_erase.mp (changed.unclaimed_claimed there ▸ member)).1
      exact same (changed.countAt_others b apart) (noted.others b apart)
  | unloaded a isUnloading unloading waiting done => exact same (by rw [done]) (by rw [done])

end Felt

end Machine

end CountedHeap
