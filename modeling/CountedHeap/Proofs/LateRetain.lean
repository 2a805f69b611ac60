import CountedHeap.Proofs.Misuse
import CountedHeap.Proofs.NoDangling
import CountedHeap.Proofs.Tidy
import CountedHeap.Proofs.Turns

/-!
Retains that come while an object is destroyed. A release begins a destruction by taking the last
reference, and nobody gets another one from then on. A pass begins it for garbage that still has its
references: until it is reclaimed each retain of it is granted, and it is reclaimed nonetheless.
-/

namespace CountedHeap

open Event (destruction recount row)
open Heap (Changed Same Mild)

namespace Heap

variable {h k l : Heap} {a : Addr}

/-- A retain is granted to a live object with a count that is neither zero nor full, claimed or not. -/
theorem tryRetain_ok_iff (h : Heap) (a : Addr) : (∃ k, h.tryRetain a = .ok k) ↔
    h.Live a ∧ 0 < h.countAt a ∧ h.countAt a < CountWord.maxCount.toNat := by
  unfold tryRetain
  cases isValid : h.valid a with
  | error fault =>
      simp only [reduceCtorEq, exists_const, false_iff]
      rintro ⟨live, _⟩
      obtain ⟨o, there, valid⟩ := (h.live_iff a).mp live
      rw [(h.valid_eq a o).mpr ⟨there, valid⟩] at isValid
      cases isValid
  | ok o =>
      obtain ⟨there, valid⟩ := (h.valid_eq a o).mp isValid
      have live : h.Live a := (h.live_iff a).mpr ⟨o, there, valid⟩
      have count : h.countAt a = o.word.count.toNat := by simp [countAt, there, Object.count]
      rw [count, ← CountWord.increment_ok_iff]
      cases done : o.word.increment with
      | error refused => simp [done]
      | ok out => simp [done, live, Prod.exists.symm]

theorem tryRetain_spent (spent : h.Live a → h.countAt a = 0) :
    h.tryRetain a = .error (.invalidObject a) := by
  unfold tryRetain valid
  cases there : h.objects[a]? with
  | none => rfl
  | some o =>
      cases isValid : o.valid with
      | false => simp [isValid]
      | true =>
          have zero : o.word.count = 0 := by
            rw [CountWord.count_eq_zero_iff]
            simpa [countAt, there, Object.count] using spent ((h.live_iff a).mpr ⟨o, there, isValid⟩)
          simp [isValid, CountWord.increment, zero]

theorem exchangeRef_ok_iff (h : Heap) (a : Addr) (slot : Nat) (b : Addr) :
    (∃ out, h.exchangeRef a slot (some b) = .ok out) ↔
      (∃ p, h.slotted a slot = .ok p) ∧ ∃ k, h.tryRetain b = .ok k := by
  unfold exchangeRef
  cases h.slotted a slot with
  | error fault => simp
  | ok p => cases done : h.tryRetain b <;> simp [done]

/-- What becomes of the claim on one object. -/
inductive Shift (h : Heap) (a : Addr) (k : Heap) : Prop where
  | same (live : k.Live a ↔ h.Live a) (claim : k.claimedAt a = h.claimedAt a)
      (zero : h.countAt a = 0 → k.countAt a = 0)
  | born (dead : ¬ h.Live a) (live : k.Live a) (unclaimed : k.claimedAt a = false)
  | condemned (live : h.Live a) (unclaimed : h.claimedAt a = false) (claimed : k.claimedAt a = true)
      (zero : k.countAt a = 0)

theorem Shift.of_object (same : k.objects[a]? = h.objects[a]?) : Shift h a k :=
  .same (by rw [Live, Live, same]) (by rw [claimedAt, claimedAt, same]) fun zero => by
    rwa [countAt, same]

theorem Shift.of_mild (mild : Mild h k) (a : Addr) : Shift h a k :=
  .same (mild.live_iff a) (mild.claimedAt a) (mild.zeros a)

theorem Shift.begun (shift : Shift h a k) (live : h.Live a) (unclaimed : h.claimedAt a = false)
    (claimed : k.claimedAt a = true) : k.countAt a = 0 := by
  cases shift with
  | same _ claim _ =>
      rw [claim, unclaimed] at claimed
      cases claimed
  | born dead => exact absurd live dead
  | condemned _ _ _ zero => exact zero

theorem downgradeBatch_shift (h : Heap) (objects : List Addr) (a : Addr) :
    Shift h a (h.downgradeBatch objects).2 := by
  have same : Same (fun o : Object => (o.count, o.valid, o.claimed)) h (h.downgradeBatch objects).2 := by
    refine downgradeBatch_keeps (Same _ h) (fun k l b handle same done => ?_) (Same.refl h) objects
    obtain ⟨_, _, _, _, _, rfl⟩ := downgrade_spec done
    have flag : Same (fun o : Object => (o.count, o.valid, o.claimed)) k
        (k.update b ({ · with weak := true })) := k.update_same b _ fun _ => rfl
    exact same.trans ⟨flag.types, flag.objects⟩
  have counts := same.elim_eq a 0 Object.count (·.1) fun _ => rfl
  refine .same ?_ (same.any_eq a Object.claimed (·.2.2) fun _ => rfl) fun zero => counts.trans zero
  rw [Live, Live, same.any_eq a Object.valid (·.2.1) fun _ => rfl]

end Heap

open Heap (Shift)

namespace Machine

variable {m n : Machine} {log events : List Event} {a : Addr} {t : Task} {rest : List Task}

theorem Turn.shift (turn : m.Turn n) (marked : m.heap.Marked) (a : Addr) : Shift m.heap a n.heap := by
  cases turn with
  | mild news mild tasks => exact .of_mild mild a
  | made size type destructor done =>
      rename_i b k
      have born := Heap.alloc_born size type destructor b done
      by_cases here : a = b
      · subst here
        obtain ⟨o, there, _, unclaimed, _⟩ := born.here
        exact .born (marked.alloc done).1 ((born.live a).mpr (Or.inl rfl))
          ((Heap.claimedAt_of_there there).trans unclaimed)
      · exact .of_object (born.others a here)
  | condemned word there valid unclaimed one zero changed =>
      rename_i b o k
      by_cases here : a = b
      · subst here
        exact .condemned ((m.heap.live_iff a).mpr ⟨o, there, valid⟩)
          ((Heap.claimedAt_of_there there).trans unclaimed) changed.claimedAt_here
          (changed.countAt_here.trans zero)
      · exact .of_object (changed.others a here)
  | named objects => exact m.heap.downgradeBatch_shift objects a
  | dropped handle | recounted => exact .of_object rfl

def Disposing (m : Machine) (a : Addr) : Prop :=
  ∃ before reclaimed after, m.tasks = before ++ .answer reclaimed :: after ∧ .reclaim a ∈ before

theorem Disposing.push {news : List Task} (disposing : m.Disposing a)
    (tasks : n.tasks = news ++ m.tasks) : n.Disposing a := by
  obtain ⟨before, reclaimed, after, whole, member⟩ := disposing
  exact ⟨news ++ before, reclaimed, after, by rw [tasks, whole, List.append_assoc],
    List.mem_append_right _ member⟩

theorem Disposing.pop (disposing : m.Disposing a) (tasks : m.tasks = t :: rest)
    (other : t ≠ .reclaim a) (left : n.tasks = rest) : n.Disposing a := by
  obtain ⟨before, reclaimed, after, whole, member⟩ := disposing
  rw [tasks] at whole
  cases before with
  | nil => cases member
  | cons first before =>
      rw [List.cons_append, List.cons.injEq] at whole
      obtain ⟨rfl, rfl⟩ := whole
      exact ⟨before, reclaimed, after, left, (List.mem_cons.mp member).resolve_left (Ne.symm other)⟩

theorem Turn.tasks (turn : m.Turn n) : ∃ news, n.tasks = news ++ m.tasks := by
  cases turn with
  | mild news _ tasks => exact ⟨news, tasks⟩
  | condemned => exact ⟨_, rfl⟩
  | made | named | dropped | recounted => exact ⟨[], rfl⟩

theorem operate_tasks (m : Machine) (operation : Operation) :
    ∃ news, (m.operate operation).tasks = news ++ m.tasks := by
  by_cases copied : ∃ s, operation = .call (.cloneHandle s)
  · obtain ⟨s, rfl⟩ := copied
    exact ⟨[], rfl⟩
  · exact (Turn.operate m operation fun s here => copied ⟨s, here⟩).tasks

theorem operate_shift (marked : m.heap.Marked) (operation : Operation) (a : Addr) :
    Shift m.heap a (m.operate operation).heap ∧
      ∃ news, (m.operate operation).tasks = news ++ m.tasks := by
  refine ⟨?_, operate_tasks m operation⟩
  by_cases copied : ∃ s, operation = .call (.cloneHandle s)
  · obtain ⟨s, rfl⟩ := copied
    exact .of_object rfl
  · exact (Turn.operate m operation fun s here => copied ⟨s, here⟩).shift marked a

theorem Stepped.tasks (stepped : m.Stepped rest t n) : ∃ news, n.tasks = news ++ rest := by
  cases stepped with
  | detached | reclaimed => exact ⟨[], rfl⟩
  | finished => exact ⟨_, rfl⟩
  | turn _ turn => exact turn.tasks

theorem claimed_by_pass (marked : m.heap.Marked) (pass : Pass) (a : Addr) :
    a ∉ (m.heap.finishPass pass).1 ∧ Shift m.heap a (m.heap.finishPass pass).2 ∨
      a ∈ (m.heap.finishPass pass).1 ∧ m.heap.Live a ∧ m.heap.claimedAt a = false ∧
        0 < m.heap.countAt a ∧ (m.heap.finishPass pass).2.Live a ∧
        (m.heap.finishPass pass).2.claimedAt a = true ∧
        (m.heap.finishPass pass).2.countAt a = m.heap.countAt a := by
  have finished := marked.finishPass pass
  generalize m.heap.finishPass pass = out at finished
  obtain ⟨garbage, k⟩ := out
  simp only at finished ⊢
  have fates := finished.fates a
  have counts := finished.counts a
  by_cases member : a ∈ garbage
  · obtain ⟨o, there, unclaimed⟩ := finished.fresh a member
    have live := marked.live_of_fresh a ⟨o, there, unclaimed⟩
    have view := finished.rights a
    rw [there, Option.map_some, Option.map_eq_some_iff] at view
    obtain ⟨p, found, equal⟩ := view
    simp only [Object.fate, Prod.mk.injEq] at equal
    obtain ⟨_, isValid, isClaimed, _⟩ := equal
    refine Or.inr ⟨member, live, (Heap.claimedAt_of_there there).trans unclaimed, ?_, ?_, ?_, counts⟩
    · rw [Heap.countAt_of_there there]
      exact (marked.objects a o there).vital unclaimed
    · exact (k.live_iff a).mpr ⟨p, found, by simpa [Heap.Live, there, isValid] using live⟩
    · simp [Heap.claimedAt, found, isClaimed, member]
  · have same : k.fateAt a = m.heap.fateAt a := by
      rw [fates]
      simp [member]
    refine Or.inl ⟨member, .same ?_ ?_ fun zero => counts.trans zero⟩
    · rw [Heap.live_iff_fate, same, ← Heap.live_iff_fate]
    · rw [Heap.claimedAt_eq_fate, same, ← Heap.claimedAt_eq_fate]

/-- What a step makes of the claim on one object: the end of a pass may claim it too, and it may be
reclaimed. -/
theorem Stepped.shift (stepped : m.Stepped rest t n) (marked : m.heap.Marked) (a : Addr) :
    t ≠ .reclaim a ∧ Shift m.heap a n.heap ∨
      t = .reclaim a ∧ ¬ n.heap.Live a ∧ n.heap.claimedAt a = m.heap.claimedAt a ∨
      ∃ pass, t = .search pass ∧ a ∈ (m.heap.finishPass pass).1 ∧ m.heap.Live a ∧
        m.heap.claimedAt a = false ∧ 0 < m.heap.countAt a ∧ n.heap.Live a ∧
        n.heap.claimedAt a = true ∧ n.heap.countAt a = m.heap.countAt a ∧ n.Disposing a := by
  cases stepped with
  | detached b =>
      refine Or.inl ⟨by rintro ⟨⟩, .of_object ?_⟩
      unfold Heap.detachWeak
      split <;> rfl
  | reclaimed b =>
      by_cases here : b = a
      · subst here
        refine Or.inr (Or.inl ⟨rfl, fun live => ((m.heap.reclaim_live b b).mp live).1 rfl, ?_⟩)
        cases there : m.heap.objects[b]? with
        | none => simp [Heap.reclaim, there]
        | some o => simp [Heap.claimedAt, (m.heap.reclaim_spec b o there).1, there]
      · refine Or.inl ⟨fun same => here (Task.reclaim.inj same), ?_⟩
        exact .of_object (m.heap.reclaim_others b a (Ne.symm here))
  | turn other turn => exact Or.inl ⟨(other a).2, turn.shift marked a⟩
  | finished pass =>
      rcases claimed_by_pass marked pass a with
        ⟨_, shift⟩ | ⟨member, live, unclaimed, positive, still, claimed, count⟩
      · exact Or.inl ⟨by rintro ⟨⟩, shift⟩
      · refine Or.inr (Or.inr ⟨pass, rfl, member, live, unclaimed, positive, still, claimed, count, ?_⟩)
        exact ⟨Task.disposal (m.heap.finishPass pass).1, _, rest, List.append_assoc _ _ _,
          by simp [Task.disposal, member]⟩

/-- Whatever is claimed has lost all its references, or a pass gives its block back. -/
def Sentenced (m : Machine) : Prop :=
  ∀ a, m.heap.Live a → m.heap.claimedAt a = true → 0 < m.heap.countAt a → m.Disposing a

theorem Sentenced.shift (sentenced : m.Sentenced) (a : Addr) (shift : Shift m.heap a n.heap)
    (kept : m.Disposing a → n.Disposing a) (live : n.heap.Live a) (claimed : n.heap.claimedAt a = true)
    (positive : 0 < n.heap.countAt a) : n.Disposing a := by
  cases shift with
  | same isLive claim zero =>
      refine kept (sentenced a (isLive.mp live) (claim ▸ claimed) (Nat.pos_of_ne_zero fun spent => ?_))
      exact Nat.ne_of_gt positive (zero spent)
  | born _ _ unclaimed =>
      rw [unclaimed] at claimed
      cases claimed
  | condemned _ _ _ zero => exact absurd zero (Nat.ne_of_gt positive)

theorem Sentenced.step (sentenced : m.Sentenced) (marked : m.heap.Marked) : m.step.Sentenced := by
  cases tasks : m.tasks with
  | nil =>
      rwa [step_nil tasks]
  | cons t rest =>
      intro a live claimed positive
      have stepped := step_cases tasks
      rcases stepped.shift marked a with
        ⟨other, shift⟩ | ⟨_, dead, _⟩ | ⟨_, _, _, _, _, _, _, _, _, disposing⟩
      · refine sentenced.shift a shift (fun disposing => ?_) live claimed positive
        obtain ⟨news, left⟩ := stepped.tasks
        exact (disposing.pop tasks other (n := { m with tasks := rest }) rfl).push left
      · exact absurd live dead
      · exact disposing

theorem Sentenced.operate (sentenced : m.Sentenced) (marked : m.heap.Marked) (operation : Operation) :
    (m.operate operation).Sentenced := by
  intro a live claimed positive
  obtain ⟨shift, news, tasks⟩ := operate_shift marked operation a
  exact sentenced.shift a shift (fun disposing => disposing.push tasks) live claimed positive

theorem Run.sentenced (run : Run m log n) (start : m.Told []) (sentenced : m.Sentenced) :
    n.Sentenced := by
  induction run with
  | start => exact sentenced
  | operate operation run _ ih => exact ih.operate (run.told start).marked operation
  | step run ih => exact ih.step (run.told start).marked

/-! A claim is for good -/

theorem Told.stays_dead (told : m.Told log) (after : n.Told (log ++ events))
    (unmade : ∀ event ∈ events, event.makes a = false) (dead : ¬ m.heap.Live a) :
    ¬ n.heap.Live a := by
  obtain ⟨⟨past, due⟩, _, counted⟩ := told.stages a
  obtain ⟨course, _, total⟩ := after.stages a
  have spent : due = [] := by
    by_contra left
    exact dead ((told.live_iff_due counted).1.mpr left)
  rw [(after.live_iff_due total).1, not_not]
  obtain ⟨_, rest⟩ := Event.recount_unmade a log events past due course counted total unmade
  rw [spent] at rest
  exact (List.append_eq_nil_iff.mp rest.symm).2

/-- Nobody takes a claim back, or gives the claimed a reference when they have none. -/
theorem Run.lasting {log' : List Event} {n' : Machine} (told : n.Told log) (second : Run n log' n')
    (unmade : ∀ event ∈ log', event.makes a = false)
    (doomed : n.heap.Live a → n.heap.claimedAt a = true) :
    (n'.heap.Live a → n'.heap.claimedAt a = true) ∧
      ((n.heap.Live a → n.heap.countAt a = 0) → n'.heap.Live a → n'.heap.countAt a = 0) := by
  -- A claim says nothing of what is made in the same place later, so the dead have to stay dead.
  have shifted : ∀ {h k : Heap}, Shift h a k → (¬ h.Live a → ¬ k.Live a) →
      (h.Live a → h.claimedAt a = true) → (k.Live a → k.claimedAt a = true) ∧
        ((h.Live a → h.countAt a = 0) → k.Live a → k.countAt a = 0) := by
    intro h k shift unborn doomed
    cases shift with
    | same live claim zero =>
        exact ⟨fun alive => claim ▸ doomed (live.mp alive),
          fun spent alive => zero (spent (live.mp alive))⟩
    | born dead live _ => exact absurd live (unborn dead)
    | condemned live unclaimed _ _ =>
        rw [doomed live] at unclaimed
        cases unclaimed
  induction second with
  | start => exact ⟨doomed, id⟩
  | operate operation run may ih =>
      obtain ⟨claim, zero⟩ := ih fun event member => unmade event (List.mem_append_left _ member)
      have before := run.told_after told
      have after := before.operate operation may
      obtain ⟨shift, _⟩ := operate_shift before.marked operation a
      obtain ⟨claim', zero'⟩ := shifted shift (before.stays_dead after fun event member =>
        unmade event (List.mem_append_right _ member)) claim
      exact ⟨claim', zero' ∘ zero⟩
  | step run ih =>
      rename_i log' e
      obtain ⟨claim, zero⟩ := ih fun event member => unmade event (List.mem_append_left _ member)
      have before := run.told_after told
      have after := before.step
      cases tasks : e.tasks with
      | nil =>
          rw [step_nil tasks]
          exact ⟨claim, zero⟩
      | cons t rest =>
          rcases (step_cases tasks).shift before.marked a with ⟨_, shift⟩ | ⟨_, dead, _⟩ |
            ⟨_, _, _, live, unclaimed, _⟩
          · obtain ⟨claim', zero'⟩ := shifted shift (before.stays_dead after fun event member =>
              unmade event (List.mem_append_right _ member)) claim
            exact ⟨claim', zero' ∘ zero⟩
          · exact ⟨fun live => absurd live dead, fun _ live => absurd live dead⟩
          · rw [claim live] at unclaimed
            cases unclaimed

theorem Run.returned {log' : List Event} {n' : Machine} (told : n.Told log) (second : Run n log' n')
    (live : n.heap.Live a) (claimed : n.heap.claimedAt a = true) (idle : n'.idle = true) :
    .returned a ∈ log' := by
  by_contra missing
  obtain ⟨⟨past, due⟩, _, counted⟩ := told.stages a
  have after : n'.Told (log ++ log') := second.told_after told
  obtain ⟨course, stage, total⟩ := after.stages a
  obtain ⟨isLive, ends⟩ := told.live_iff_due counted
  have last := ends (isLive.mp live)
  have within : ∀ event ∈ row a log', event ∈ log' := fun event member =>
    List.takeWhile_sublist _ |>.subset (List.mem_filter.mp member).1
  -- Another object made there tells that this one's end was told; without one, what is left to tell
  -- keeps the machine from rest.
  rcases Event.recount_append a log log' past due course counted total with
    ⟨_, whole⟩ | ⟨unmade, _, whole⟩
  · exact missing (within _ (whole ▸ last))
  · have left : .returned a ∈ course.2 := by
      rw [whole, List.mem_append] at last
      exact last.resolve_left fun isTold => missing (within _ isTold)
    obtain ⟨_, _, unclaimed, _⟩ := after.whole idle a course stage (List.ne_nil_of_mem left)
    obtain ⟨claim, _⟩ := Run.lasting told second unmade fun _ => claimed
    rw [claim ((after.live_iff_due total).1.mpr (List.ne_nil_of_mem left))] at unclaimed
    cases unclaimed

/-- What somebody owns a reference to is not claimed: the books allow a claimed object no more than
waits to be dropped. -/
theorem Sound.unclaimed {owned : Addr → Nat} (sound : m.Sound owned) (tidy : m.Tidy)
    (owns : 0 < owned a) : m.heap.Live a ∧ m.heap.claimedAt a = false := by
  have live : m.heap.Live a := sound.grounded a (by rw [owed]; omega)
  refine ⟨live, ?_⟩
  rw [← Bool.not_eq_true]
  intro claimed
  obtain ⟨_, _, most⟩ := sound.accounts.doomed a (tidy.claimed a live claimed)
  have least := sound.accounts.enough a live
  have within : m.unloading ⊆ m.loaded := fun b member =>
    (m.mem_loaded b).mpr ⟨((m.mem_unloading b).mp member).1, fun _ => ((m.mem_unloading b).mp member).2⟩
  have fewer : ∑ b ∈ m.unloading, m.heap.drops b a ≤ m.held a :=
    (Finset.sum_le_sum fun b _ => m.heap.drops_le_edges b a).trans
      (Finset.sum_le_sum_of_subset within)
  rw [owed] at least
  omega

/-- Which retains a state grants, and what becomes of the claimed objects from there on. -/
structure Granting (n : Machine) : Prop where
  retains : ∀ a, (∃ k, n.heap.tryRetain a = .ok k) ↔ n.heap.Live a ∧ 0 < n.heap.countAt a ∧
    n.heap.countAt a < CountWord.maxCount.toNat
  stores : ∀ a slot b, (∃ out, n.heap.exchangeRef a slot (some b) = .ok out) ↔
    (∃ p, n.heap.slotted a slot = .ok p) ∧ ∃ k, n.heap.tryRetain b = .ok k
  claims : ∀ a k, n.heap.tryRetain a = .ok k → n.heap.claimedAt a = false ∨ n.Disposing a
  operated : ∀ a, n.heap.Live a → n.heap.claimedAt a = false → ∀ operation, n.May operation →
    (n.operate operation).heap.claimedAt a = true → (n.operate operation).heap.countAt a = 0
  stepped : ∀ a, n.heap.Live a → n.heap.claimedAt a = false → n.step.heap.claimedAt a = true →
    n.step.heap.countAt a = 0 ∨
      ∃ pass rest, n.tasks = .search pass :: rest ∧ a ∈ (n.heap.finishPass pass).1 ∧
        0 < n.step.heap.countAt a ∧ n.step.heap.countAt a = n.heap.countAt a
  spent : ∀ a, n.heap.Live a → n.heap.claimedAt a = true → ∀ log' n', Run n log' n' →
    n.heap.countAt a = 0 → (∀ event ∈ log', event.makes a = false) →
      n'.heap.tryRetain a = .error (.invalidObject a)
  returned : ∀ a, n.heap.Live a → n.heap.claimedAt a = true → ∀ log' n', Run n log' n' →
    n'.idle = true → .returned a ∈ log'

theorem Told.granting (told : n.Told log) (sentenced : n.Sentenced) : n.Granting := by
  refine ⟨n.heap.tryRetain_ok_iff, n.heap.exchangeRef_ok_iff, fun a k done => ?_,
    fun a live unclaimed operation _ claimed => ?_, fun a live unclaimed claimed => ?_,
    fun a live claimed log' n' later zero unmade => ?_,
    fun a live claimed log' n' later => later.returned told live claimed⟩
  · obtain ⟨live, positive, _⟩ := (n.heap.tryRetain_ok_iff a).mp ⟨k, done⟩
    cases claimed : n.heap.claimedAt a with
    | false => exact Or.inl rfl
    | true => exact Or.inr (sentenced a live claimed positive)
  · obtain ⟨shift, _⟩ := operate_shift told.marked operation a
    exact shift.begun live unclaimed claimed
  · cases tasks : n.tasks with
    | nil =>
        rw [step_nil tasks, unclaimed] at claimed
        cases claimed
    | cons t rest =>
        rcases (step_cases tasks).shift told.marked a with ⟨_, shift⟩ | ⟨_, _, same⟩ |
          ⟨pass, rfl, member, _, _, positive, _, _, count, _⟩
        · exact Or.inl (shift.begun live unclaimed claimed)
        · rw [same, unclaimed] at claimed
          cases claimed
        · exact Or.inr ⟨pass, rest, rfl, member, count ▸ positive, count⟩
  · obtain ⟨_, spent⟩ := later.lasting told unmade fun _ => claimed
    exact Heap.tryRetain_spent (spent fun _ => zero)

/-- A retain, by itself or into a slot, is granted to live objects with a count that is neither zero nor
full. Such an object is not claimed, unless a pass claimed it and has not reclaimed it yet. What a
release claims, as it takes the last reference, is refused every retain until another object is made in
its place; what a pass claims has references. Either is reclaimed before the machine comes to rest,
whatever was granted meanwhile. A client that keeps its books never owns a claimed object. -/
theorem late_retain_refused (settings : Settings) (entropy : UInt64) (heap : Heap)
    (made : Heap.create settings entropy = .ok heap) :
    (∀ log n, Run { heap } log n → n.Granting) ∧
    ∀ (rule : Rule) (c : Client), Client.Run rule.AtRest (.fresh heap) c → ∀ a, 0 < c.owned a →
      c.machine.heap.Live a ∧ c.machine.heap.claimedAt a = false := by
  obtain rfl := Heap.create_initial made
  have start := Told.initial settings entropy
  have vacant : Sentenced { heap := .initial settings entropy } := fun a live =>
    absurd live (Heap.initial_dead a)
  refine ⟨fun log n run => (run.told start).granting (run.sentenced start vacant),
    fun rule c run a owns => ?_⟩
  have sound := Client.fresh_sound settings entropy
  exact (run.sound sound).unclaimed (run.tidy sound (Client.fresh_tidy settings entropy)) owns

/-- Two objects hold each other and are dropped; a third is kept. A pass claims the two, and calls the
destructor of one of them. -/
def lateScript : List (Operation × Nat) :=
  [(.call (.declare 1 (.leading 1)), 0), (.call (.alloc 16 1 none), 0),
    (.call (.alloc 16 1 (some 7)), 0), (.call (.alloc 16 2 none), 0),
    (.call (.assign 0x6b7000000060 0 (some 0x6b7000000000)), 0),
    (.call (.assign 0x6b7000000000 0 (some 0x6b7000000060)), 0),
    (.call (.release 0x6b7000000060), 0), (.call (.release 0x6b7000000000), 0), (.call .collect, 14)]

/-- The destructor retains the other object of the cycle, and releases the third. -/
def lateSequel : List (Operation × Nat) :=
  [(.call (.retain 0x6b7000000000), 0), (.call (.release 0x6b70000000c0), 0)]

theorem late_retain_refused_cycle :
    let start : Machine := { heap := .initial {} 0 }
    let n := (start.play lateScript).2
    let e := (n.play lateSequel).2
    start.Plays lateScript ∧ n.Plays lateSequel ∧ n.callback? = some (.destructor 0x6b7000000060 7) ∧
      (∃ k, n.heap.tryRetain 0x6b7000000000 = .ok k) ∧ n.Disposing 0x6b7000000000 ∧
      e.heap.countAt 0x6b7000000000 = 2 ∧ e.heap.claimedAt 0x6b70000000c0 = true ∧
      e.heap.tryRetain 0x6b70000000c0 = .error (.invalidObject 0x6b70000000c0) ∧
      .returned 0x6b70000000c0 ∈ e.story 30 ∧ .returned 0x6b7000000000 ∈ e.story 30 := by
  intro start n e
  have made : Heap.create {} 0 = .ok start.heap := Heap.create_valid {} 0 (by decide +kernel)
  have plays : start.Plays lateScript := by decide +kernel
  have goesOn : n.Plays lateSequel := by decide +kernel
  have run := Run.start.play lateScript plays
  obtain ⟨states, _⟩ := late_retain_refused {} 0 start.heap made
  have first : n.Granting := states _ n run
  have last : e.Granting := states _ e (run.play lateSequel goesOn)
  obtain ⟨k, retained⟩ := (first.retains 0x6b7000000000).mpr
    ⟨by decide +kernel, by decide +kernel, by decide +kernel⟩
  have claimed : n.heap.claimedAt 0x6b7000000000 = true := by decide +kernel
  have claimed' : e.heap.claimedAt 0x6b70000000c0 = true := by decide +kernel
  have idle : (e.steps 30).idle = true := by decide +kernel
  have later : Run e (e.story 30) (e.steps 30) := List.nil_append (e.story 30) ▸ Run.start.steps 30
  have third : e.heap.Live 0x6b70000000c0 := by decide +kernel
  refine ⟨plays, goesOn, by decide +kernel, ⟨k, retained⟩, ?_, by decide +kernel, claimed',
    last.spent _ third claimed' [] e .start (by decide +kernel) (by simp),
    last.returned _ third claimed' _ _ later idle,
    last.returned 0x6b7000000000 (by decide +kernel) (by decide +kernel) _ _ later idle⟩
  exact (first.claims _ k retained).resolve_left (by simp [claimed])

/-- A retain of an object that a pass has claimed is granted, and the object is reclaimed before
anybody gives the reference back. -/
theorem late_retain_granted :
    let start : Machine := { heap := .initial {} 0 }
    let n := (start.play lateScript).2
    let last := n.play [(.call (.retain 0x6b7000000000), 30)]
    start.Plays lateScript ∧ n.callback? = some (.destructor 0x6b7000000060 7) ∧
      n.heap.claimedAt 0x6b7000000000 = true ∧
      (∃ k, n.heap.tryRetain 0x6b7000000000 = .ok k) ∧
      n.Plays [(.call (.retain 0x6b7000000000), 30)] ∧ last.2.idle = true ∧
      .returned 0x6b7000000000 ∈ last.1 ∧ ¬ last.2.heap.Live 0x6b7000000000 := by
  intro start n last
  have granted := (n.heap.tryRetain_ok_iff 0x6b7000000000).mpr
    ⟨by decide +kernel, by decide +kernel, by decide +kernel⟩
  exact ⟨by decide +kernel, by decide +kernel, by decide +kernel, granted, by decide +kernel,
    by decide +kernel, by decide +kernel, by decide +kernel⟩

end Machine

end CountedHeap
