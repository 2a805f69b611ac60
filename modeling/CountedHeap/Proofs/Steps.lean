import CountedHeap.Proofs.Disposal

/-!
What a step of a machine can do, and what every step keeps: the books stay in order, nothing is
owed that was not owed before, and an object is lost only when its turn to be reclaimed comes.
-/

namespace CountedHeap

open Trial (Discovery)

namespace Task

/-- The task belongs to no search. -/
def cascades : Task → Bool
  | search _ | expand _ _ => false
  | _ => true

/-- How many steps a task takes, as long as no release is the last one. -/
def weight (h : Heap) : Task → Nat
  | finalize _ => 2
  | unload a => (h.children a).length + 3
  | releaseChildren a => (h.children a).length + 1
  | _ => 1

end Task

namespace Machine

open Heap (Same Changed Noted)

variable {m n : Machine} {owned : Addr → Nat}

/-- The machine is in the middle of a search, or works off what a release or a pass set off. -/
def Orderly (m : Machine) : Prop :=
  (∀ t ∈ m.tasks, t.cascades = true) ∨
    ∃ p roots, m.Searching p (fun _ count => count < Discovery.edgeLimit) roots

theorem orderly_of_idle (idle : m.idle = true) : m.Orderly := by
  rw [Machine.idle, List.isEmpty_iff] at idle
  exact Or.inl (by simp [idle])

theorem Orderly.search_alone (orderly : m.Orderly) (p : Pass) (rest : List Task)
    (tasks : m.tasks = .search p :: rest) : rest = [] := by
  rcases orderly with cascade | ⟨q, roots, searching⟩
  · have impossible := cascade (.search p) (by rw [tasks]; exact List.mem_cons_self)
    cases impossible
  · rcases searching.tasks with alone | ⟨a, _, alone | alone⟩ <;> rw [tasks] at alone <;>
      simp only [List.cons.injEq, reduceCtorEq, false_and] at alone
    exact alone.2

theorem Orderly.searching {p : Pass} (orderly : m.Orderly) (found : m.Found p) :
    ∃ roots, m.Searching p (fun _ count => count < Discovery.edgeLimit) roots := by
  rcases orderly with cascade | ⟨q, roots, searching⟩
  · have impossible := cascade (.search p) (by rw [found.1]; exact List.mem_singleton_self _)
    cases impossible
  · exact ⟨roots, searching.unique found ▸ searching⟩

/-- What one step can do. -/
inductive Effect (m n : Machine) : Prop where
  | resting (idle : m.tasks = []) (same : n = m)
  /-- A task that moves no reference, and tasks of that kind in its place. -/
  | quiet (t : Task) (rest news : List Task) (tasks : m.tasks = t :: rest) (calm : t.neutral = true)
      (after : n.tasks = news ++ rest)
      (calmNews : ∀ u ∈ news, u.neutral = true ∧ ∀ a, u.serves a = false)
      (cascades : t.cascades = true → ∀ u ∈ news, u.cascades = true)
      (lighter : t.cascades = true → (news.map (Task.weight m.heap)).sum < t.weight m.heap)
      (same : Same Object.face m.heap n.heap)
      (frame : n.heap = { m.heap with objects := n.heap.objects, weak := n.heap.weak })
  | reading (a : Addr) (rest news : List Task) (tasks : m.tasks = .unload a :: rest)
      (traced : m.heap.tracedAt a = true)
      (calmNews : ∀ u ∈ news, u.neutral = true ∧ ∀ a, u.serves a = false)
      (cascades : ∀ u ∈ news, u.cascades = true)
      (light : (news.map (Task.weight m.heap)).sum ≤ 1)
      (done : n = { m with tasks := news ++ .releaseChildren a :: rest })
  | refused (a : Addr) (rest : List Task) (tasks : m.tasks = .release a :: rest)
      (refused : ¬ (m.heap.Live a ∧ 0 < m.heap.countAt a))
      (done : n = { m with heap := m.heap.absorb, tasks := rest })
  | released (a : Addr) (o : Object) (last : Bool) (k : Heap) (word : CountWord) (rest : List Task)
      (tasks : m.tasks = .release a :: rest) (there : m.heap.objects[a]? = some o)
      (valid : o.valid = true)
      (changed : Changed m.heap a { o with word, claimed := o.claimed || last } k)
      (count : word.count.toNat + 1 = o.count)
      (isLast : last = true ↔ o.count = 1 ∧ o.claimed = false)
      (noted : Noted m.heap a o last word k)
      (done : n = { m with heap := k, tasks := (if last then Task.destruction a else []) ++ rest })
  | unloaded (a : Addr) (t : Task) (rest : List Task) (row : List Addr) (tasks : m.tasks = t :: rest)
      (unloads : t.unloads a = true) (dropped : ∀ b, m.heap.drops a b ≤ row.count b)
      (held : ∀ b, row.count b ≤ m.heap.edges a b)
      (light : row.length < t.weight m.heap)
      (done : n = { m with tasks := row.map .release ++ rest })
  | reclaimed (a : Addr) (rest : List Task) (tasks : m.tasks = .reclaim a :: rest)
      (done : n = { m with heap := m.heap.reclaim a, tasks := rest })
  | ended (p : Pass) (found : m.Found p) (done : n = m.step)

theorem Effect.sought {t : Task} {rest news : List Task} (tasks : m.tasks = t :: rest)
    (calm : t.neutral = true) (searches : t.cascades = false) (after : n.tasks = news ++ rest)
    (heap : n.heap = m.heap) (calmNews : ∀ u ∈ news, u.neutral = true ∧ ∀ a, u.serves a = false) :
    Effect m n :=
  .quiet t rest news tasks calm after calmNews (fun cascades => absurd cascades (by simp [searches]))
    (fun cascades => absurd cascades (by simp [searches])) (heap ▸ Same.refl _) (by rw [heap])

theorem Effect.over {t : Task} {rest : List Task} (tasks : m.tasks = t :: rest)
    (calm : t.neutral = true) (light : 0 < t.weight m.heap) (after : n.tasks = rest)
    (heap : n.heap = m.heap) : Effect m n :=
  .quiet t rest [] tasks calm after (by simp) (by simp) (fun _ => light) (heap ▸ Same.refl _)
    (by rw [heap])

theorem tracing_calm (m : Machine) (a : Addr) (u : Task) (member : u ∈ m.tracing a) :
    u.neutral = true ∧ (∀ b, u.serves b = false) ∧ u.cascades = true := by
  unfold tracing at member
  split at member
  · rw [List.mem_singleton.mp member]
    exact ⟨rfl, fun _ => rfl, rfl⟩
  · cases member

theorem tracing_light (m : Machine) (a : Addr) (h : Heap) :
    ((m.tracing a).map (Task.weight h)).sum ≤ 1 := by
  unfold tracing
  split
  · exact Nat.le_refl 1
  · exact Nat.zero_le 1

theorem release_effect (a : Addr) (rest : List Task) (tasks : m.tasks = .release a :: rest) :
    Effect m m.step := by
  have done := step_cons tasks
  simp only [perform, release, tryRelease] at done
  by_cases may : m.heap.Live a ∧ 0 < m.heap.countAt a
  · obtain ⟨o, there, valid⟩ := (m.heap.live_iff a).mp may.1
    have positive : 0 < o.count := by
      have count := may.2
      simpa only [Heap.countAt_of_there there] using count
    obtain ⟨last, k, word, lowered, changed, count, isLast, noted⟩ :=
      m.heap.lower_spec a o there valid positive
    simp only [lowered, push] at done
    exact .released a o last k word rest tasks there valid changed count isLast noted done
  · obtain ⟨fault, refused⟩ := m.heap.lower_refused a may
    simp only [refused, onHeap] at done
    exact .refused a rest tasks may done

theorem unload_effect (a : Addr) (rest : List Task) (tasks : m.tasks = .unload a :: rest) :
    Effect m m.step := by
  have done := step_cons tasks
  simp only [perform] at done
  by_cases traced : m.heap.tracedAt a = true
  · have isTraced : (m.heap.objects[a]?).any Object.traced = true := traced
    simp only [isTraced, if_true] at done
    refine .reading a rest (m.tracing a) tasks traced ?_ ?_ (m.tracing_light a _) (done.trans ?_)
    · exact fun u member => ⟨(tracing_calm m a u member).1, (tracing_calm m a u member).2.1⟩
    · exact fun u member => (tracing_calm m a u member).2.2
    · simp only [push, List.append_assoc]
      rfl
  · have untraced : (m.heap.objects[a]?).any Object.traced = false := Bool.eq_false_iff.mpr traced
    simp only [untraced, Bool.false_eq_true, if_false] at done
    refine .unloaded a _ rest [] tasks (beq_self_eq_true a) ?_ ?_ (Nat.succ_pos _) done
    · intro b
      rw [Heap.drops, if_neg traced]
      exact Nat.zero_le _
    · exact fun b => Nat.zero_le _

theorem search_effect (orderly : m.Orderly) (p : Pass) (rest : List Task)
    (tasks : m.tasks = .search p :: rest) : Effect m m.step := by
  have done := step_cons tasks
  simp only [perform, advance] at done
  cases asked : p.walk.asks? with
  | some a =>
      simp only [asked] at done
      refine .sought tasks rfl rfl (by rw [done]; rfl) (by rw [done]; rfl) ?_
      intro u member
      rcases List.mem_append.mp member with waits | last
      · exact ⟨(tracing_calm _ a u waits).1, (tracing_calm _ a u waits).2.1⟩
      · rw [List.mem_singleton.mp last]
        exact ⟨rfl, fun _ => rfl⟩
  | none =>
      by_cases finished : p.walk.finished = true
      · rw [orderly.search_alone p rest tasks] at tasks
        exact .ended p ⟨tasks, finished⟩ rfl
      · simp only [asked, finished] at done
        refine .sought tasks rfl rfl (by rw [done]; rfl) (by rw [done]; rfl) ?_
        intro u member
        rw [List.mem_singleton.mp member]
        exact ⟨rfl, fun _ => rfl⟩

theorem step_effect (orderly : m.Orderly) : Effect m m.step := by
  cases tasks : m.tasks with
  | nil => exact .resting tasks (by simp only [step, tasks])
  | cons t rest =>
      have done := step_cons tasks
      cases t with
      | release a => exact release_effect a rest tasks
      | detach a =>
          simp only [perform, onHeap, Heap.detachWeak] at done
          refine .quiet _ rest [] tasks rfl (by rw [done]; rfl) (by simp) (by simp)
            (fun _ => Nat.zero_lt_one) ?_ ?_
          · rw [done]
            simp only
            split <;> exact ⟨rfl, fun _ => rfl⟩
          · rw [done]
            simp only
            split <;> rfl
      | finalize a =>
          simp only [perform, Heap.takeDestructor] at done
          refine .quiet _ rest _ tasks rfl (by rw [done]; rfl) ?_ ?_ ?_ ?_ (by rw [done]; rfl)
          · intro u member
            obtain ⟨number, _, rfl⟩ := List.mem_map.mp member
            exact ⟨rfl, fun _ => rfl⟩
          · intro _ u member
            obtain ⟨number, _, rfl⟩ := List.mem_map.mp member
            rfl
          · intro _
            cases (m.heap.objects[a]?).bind Object.destructor <;> simp [Task.weight]
          · rw [done]
            exact Heap.update_same m.heap a _ fun _ => rfl
      | unload a => exact unload_effect a rest tasks
      | releaseChildren a =>
          refine .unloaded a _ rest (m.heap.children a) tasks (beq_self_eq_true a) ?_
            (m.heap.children_le_edges a) (Nat.lt_succ_self _) done
          intro b
          unfold Heap.drops
          split
          · exact Nat.le_refl _
          · exact Nat.zero_le _
      | reclaim a => exact .reclaimed a rest tasks done
      | search p => exact search_effect orderly p rest tasks
      | expand p a =>
          refine .sought tasks rfl rfl (by rw [done]; rfl) (by rw [done]; rfl) ?_
          intro u member
          rw [List.mem_singleton.mp member]
          exact ⟨rfl, fun _ => rfl⟩
      | callback code =>
          exact .over tasks rfl Nat.zero_lt_one (by rw [done]; rfl) (by rw [done]; rfl)
      | answer reclaimed =>
          exact .over tasks rfl Nat.zero_lt_one (by rw [done]; rfl) (by rw [done]; rfl)

theorem step_tasks {t : Task} {rest : List Task} (tasks : m.tasks = t :: rest) :
    ∃ news, m.step.tasks = news ++ rest := by
  rw [step_cons tasks]
  cases t with
  | release a =>
      simp only [perform, release, tryRelease]
      cases m.heap.lower a with
      | error fault => exact ⟨[], rfl⟩
      | ok lowered => exact ⟨_, rfl⟩
  | unload a =>
      simp only [perform]
      split
      · exact ⟨_, rfl⟩
      · exact ⟨[], rfl⟩
  | search p =>
      simp only [perform, advance]
      cases p.walk.asks? with
      | some a => exact ⟨_, rfl⟩
      | none =>
          simp only
          split <;> exact ⟨_, rfl⟩
  | detach a | callback code | reclaim a | answer reclaimed => exact ⟨[], rfl⟩
  | finalize a | releaseChildren a | expand p a => exact ⟨_, rfl⟩

/-! What every step keeps -/

theorem Found.cascades {p : Pass} (found : m.Found p) : ∀ t ∈ m.step.tasks, t.cascades = true := by
  intro t member
  rw [found.step, List.mem_append, List.mem_singleton] at member
  rcases member with inFront | last
  · rcases (Task.mem_disposal t).mp inFront with ⟨a, _, rfl | rfl | rfl | rfl⟩ <;> rfl
  · rw [last]
    rfl

theorem cascades_step (all : ∀ t ∈ m.tasks, t.cascades = true) :
    ∀ t ∈ m.step.tasks, t.cascades = true := by
  have cascade : ∀ {t : Task} {rest : List Task}, m.tasks = t :: rest →
      ∀ news : List Task, m.step.tasks = news ++ rest → (∀ u ∈ news, u.cascades = true) →
      ∀ u ∈ m.step.tasks, u.cascades = true := by
    intro t rest tasks news after newsCascade u member
    rw [after, List.mem_append] at member
    rcases member with isNew | old
    · exact newsCascade u isNew
    · exact all u (by rw [tasks]; exact List.mem_cons_of_mem t old)
  have effect := step_effect (Or.inl all)
  cases effect with
  | resting idle same =>
      rw [same]
      exact all
  | quiet t rest news tasks calm after calmNews cascades lighter same frame =>
      exact cascade tasks news after
        (cascades (all t (by rw [tasks]; exact List.mem_cons_self)))
  | reading a rest news tasks traced calmNews cascades light done =>
      refine cascade tasks (news ++ [.releaseChildren a]) (by rw [done]; simp) fun u member => ?_
      rcases List.mem_append.mp member with isNew | last
      · exact cascades u isNew
      · rw [List.mem_singleton.mp last]
        rfl
  | refused a rest tasks refused done => exact cascade tasks [] (by rw [done]; rfl) (by simp)
  | released a o last k word rest tasks there valid changed count isLast noted done =>
      refine cascade tasks _ (by rw [done]) fun u member => ?_
      split at member
      · simp only [Task.destruction, List.mem_cons, List.not_mem_nil, or_false] at member
        rcases member with rfl | rfl | rfl | rfl <;> rfl
      · cases member
  | unloaded a t rest row tasks unloads dropped held light done =>
      refine cascade tasks _ (by rw [done]) fun u member => ?_
      obtain ⟨b, _, rfl⟩ := List.mem_map.mp member
      rfl
  | reclaimed a rest tasks done => exact cascade tasks [] (by rw [done]; rfl) (by simp)
  | ended p found done => exact found.cascades

theorem Orderly.step (orderly : m.Orderly) : m.step.Orderly := by
  rcases orderly with all | ⟨p, roots, searching⟩
  · exact Or.inl (cascades_step all)
  · rcases searching.step fun a _ => m.heap.countAt_lt a with found | ⟨q, _, _, _, goesOn⟩
    · exact Or.inl found.cascades
    · exact Or.inr ⟨q, roots, goesOn⟩

theorem Accounts.ended {p : Pass} (accounts : m.Accounts owned) (orderly : m.Orderly)
    (found : m.Found p) :
    m.Calm ∧
      m.step.tasks = Task.disposal (m.heap.garbage p) ++ [.answer (m.heap.garbage p).length] ∧
      Heap.Ended m.heap p m.step.heap ∧ m.step.Accounts owned ∧
      ∀ a, m.step.owed owned a = m.owed owned a := by
  obtain ⟨roots, searching⟩ := orderly.searching found
  obtain ⟨_, ended⟩ := searching.disposed found (fun _ _ small => small)
    (searching.calm.accounts_iff.mp accounts)
  exact ⟨searching.calm, ended⟩

theorem Accounts.released {a : Addr} {o : Object} {last : Bool} {k : Heap} {word : CountWord}
    {rest : List Task} (accounts : m.Accounts owned) (tasks : m.tasks = .release a :: rest)
    (there : m.heap.objects[a]? = some o) (valid : o.valid = true)
    (changed : Changed m.heap a { o with word, claimed := o.claimed || last } k)
    (count : word.count.toNat + 1 = o.count)
    (isLast : last = true ↔ o.count = 1 ∧ o.claimed = false) :
    ({ m with heap := k, tasks := (if last then Task.destruction a else []) ++ rest } :
        Machine).Accounts owned ∧
      ∀ b, m.owed owned b =
        ({ m with heap := k, tasks := (if last then Task.destruction a else []) ++ rest } :
          Machine).owed owned b + (if a = b then 1 else 0) := by
  have live : m.heap.Live a := (m.heap.live_iff a).mpr ⟨o, there, valid⟩
  have was : m.heap.countAt a = o.count := Heap.countAt_of_there there
  have now : k.countAt a = word.count.toNat := changed.countAt_here
  cases last with
  | false =>
      apply accounts.lowered tasks
      · exact changed.same there (by simp [Object.shape, Object.body, Object.valid])
      · intro _
        rw [now, count, was]
      · exact changed.countAt_others
  | true =>
      obtain ⟨one, unclaimed⟩ := isLast.mp rfl
      -- The count falls to zero, and only then is the object claimed.
      have fallen := Changed.of_update (h := m.heap) (fun o : Object => { o with word }) there
      have zero : (m.heap.update a ({ · with word })).countAt a = 0 := by
        rw [fallen.countAt_here]
        simp only [Object.count] at count one ⊢
        omega
      obtain ⟨waits, owes⟩ := accounts.lowered tasks (fallen.same there rfl)
        (fun _ => by rw [zero, was, one]) fallen.countAt_others
      have claimed : Changed (m.heap.update a ({ · with word })) a { o with word, claimed := true } k := by
        refine ⟨?_, fun b apart => ?_, changed.rest⟩
        · rw [changed.here, Bool.or_true]
        · rw [changed.others b apart, fallen.others b apart]
      obtain ⟨still, stillOwes⟩ := waits.condemned
        (n := { m with heap := k, tasks := Task.destruction a ++ rest }) rfl
        ((fallen.live_iff there rfl a).mpr live) zero (by rw [fallen.claimedAt_here, unclaimed])
        (claimed.same fallen.here rfl) (claimed.live_iff fallen.here rfl)
        (fun b => by
          by_cases here : b = a
          · rw [here, claimed.countAt_here, fallen.countAt_here]
            rfl
          · exact claimed.countAt_others b here)
        claimed.claimedAt_here
        (fun b _ already => by
          by_cases here : b = a
          · rw [here, claimed.claimedAt_here]
          · exact (claimed.claimedAt_others b here).trans already)
      exact ⟨still, fun b => by rw [owes b, ← stillOwes b]; rfl⟩

/-- The books stay in order, and no step owes anything new. -/
theorem Accounts.step (accounts : m.Accounts owned) (orderly : m.Orderly) :
    m.step.Accounts owned ∧ ∀ b, m.step.owed owned b ≤ m.owed owned b := by
  have effect := step_effect orderly
  cases effect with
  | resting idle same =>
      rw [same]
      exact ⟨accounts, fun b => Nat.le_refl _⟩
  | quiet t rest news tasks calm after calmNews cascades lighter same frame =>
      obtain ⟨still, owed⟩ := accounts.quiet tasks calm news after calmNews same.standing_of_face
      exact ⟨still, fun b => Nat.le_of_eq (owed b)⟩
  | reading a rest news tasks traced calmNews cascades light done =>
      obtain ⟨still, owed⟩ := accounts.reading tasks traced news calmNews
      rw [done]
      exact ⟨still, fun b => Nat.le_of_eq (owed b)⟩
  | refused a rest tasks refused done =>
      -- A live object that waits to be released has a count, so this one is gone.
      have dead : ¬ m.heap.Live a := fun live => refused ⟨live, accounts.positive tasks live⟩
      obtain ⟨still, owed⟩ := accounts.lowered tasks (k := m.heap.absorb) ⟨rfl, fun _ => rfl⟩
        (fun live => absurd live dead) (fun _ _ => rfl)
      rw [done]
      exact ⟨still, fun b => by have := owed b; omega⟩
  | released a o last k word rest tasks there valid changed count isLast noted done =>
      obtain ⟨still, owed⟩ := accounts.released tasks there valid changed count isLast
      rw [done]
      exact ⟨still, fun b => by have := owed b; omega⟩
  | unloaded a t rest row tasks unloads dropped held light done =>
      obtain ⟨still, owed⟩ := accounts.unloaded tasks unloads row dropped held
      rw [done]
      exact ⟨still, fun b => by have := owed b; have := held b; omega⟩
  | reclaimed a rest tasks done =>
      obtain ⟨still, owed⟩ := accounts.reclaimed tasks
      rw [done]
      exact ⟨still, fun b => Nat.le_of_eq (owed b).symm⟩
  | ended p found done =>
      obtain ⟨_, _, _, still, owed⟩ := accounts.ended orderly found
      exact ⟨still, fun b => Nat.le_of_eq (owed b)⟩

/-- Objects hold what they held, and only the one whose turn it is to be reclaimed is lost. -/
theorem Accounts.step_live (accounts : m.Accounts owned) (orderly : m.Orderly) :
    Same Object.body m.heap m.step.heap ∧
      ∀ b, m.step.heap.Live b ↔ m.heap.Live b ∧ ∀ rest, m.tasks ≠ .reclaim b :: rest := by
  -- A step whose task is of another kind, and leaves everybody alive.
  have stays : ∀ {t : Task} {rest : List Task}, m.tasks = t :: rest →
      (∀ b, t.reclaims b = false) → ∀ {k : Heap}, Same Object.body m.heap k →
      (∀ b, k.Live b ↔ m.heap.Live b) →
      Same Object.body m.heap k ∧
        ∀ b, k.Live b ↔ m.heap.Live b ∧ ∀ rest, m.tasks ≠ .reclaim b :: rest := by
    intro t rest tasks other k same alive
    refine ⟨same, fun b => ?_⟩
    rw [alive, iff_self_and]
    intro _ later impossible
    rw [tasks, List.cons.injEq] at impossible
    have isReclaim := other b
    rw [impossible.1] at isReclaim
    simp [Task.reclaims] at isReclaim
  have effect := step_effect orderly
  cases effect with
  | resting idle same =>
      rw [same]
      exact ⟨Same.refl _, fun b => by simp [idle]⟩
  | quiet t rest news tasks calm after calmNews cascades lighter same frame =>
      have shape := same.standing_of_face.shape_of_standing
      exact stays tasks (fun b => (t.neutral_parts calm b).2.2) shape.body_of_shape shape.live_iff
  | reading a rest news tasks traced calmNews cascades light done =>
      rw [done]
      exact stays tasks (fun _ => rfl) (Same.refl _) fun _ => Iff.rfl
  | refused a rest tasks refused done =>
      rw [done]
      exact stays tasks (fun _ => rfl) ⟨rfl, fun _ => rfl⟩ fun _ => Iff.rfl
  | released a o last k word rest tasks there valid changed count isLast noted done =>
      rw [done]
      exact stays tasks (fun _ => rfl) (changed.same there rfl) (changed.live_iff there rfl)
  | unloaded a t rest row tasks unloads dropped held light done =>
      rw [done]
      refine stays tasks (fun b => ?_) (Same.refl _) fun _ => Iff.rfl
      cases t <;> simp [Task.unloads] at unloads <;> rfl
  | reclaimed a rest tasks done =>
      rw [done]
      refine ⟨m.heap.reclaim_body a, fun b => ?_⟩
      rw [m.heap.reclaim_live, tasks, and_comm]
      simp [eq_comm]
  | ended p found done =>
      obtain ⟨_, _, ended, _⟩ := accounts.ended orderly found
      exact stays found.1 (fun _ => rfl) ended.body ended.live

end Machine

end CountedHeap
