import CountedHeap.Proofs.Stages

/-!
What a turn of a machine, an operation or a step, can do to the claims on objects and to weak handles.
Most turns touch neither, and they give no reference to an object that has none left. The others are
few: an object is made or condemned, and handles come and go. Beside these a step may end a pass, or
take an object under destruction its handles or its block.
-/

namespace CountedHeap

open Heap (Same Changed)

/-- What ties an object to its claimant and to its weak handles. -/
def Object.ties (o : Object) : Bool × Bool × Bool := (o.valid, o.claimed, o.weak)

namespace Heap

def weakAt (h : Heap) (a : Addr) : Bool := (h.objects[a]?).any Object.weak

/-- A change that leaves the ties of every object and the weak handles as they are, and no object
whose count is zero gets a reference. -/
structure Mild (h k : Heap) : Prop where
  ties : ∀ a : Addr, (k.objects[a]?).map Object.ties = (h.objects[a]?).map Object.ties
  zeros : ∀ a, h.countAt a = 0 → k.countAt a = 0
  table : k.weak = h.weak

variable {h k l : Heap}

namespace Mild

theorem refl (h : Heap) : Mild h h := ⟨fun _ => rfl, fun _ => id, rfl⟩

theorem trans (first : Mild h k) (second : Mild k l) : Mild h l :=
  ⟨fun a => (second.ties a).trans (first.ties a), fun a => second.zeros a ∘ first.zeros a,
    second.table.trans first.table⟩

theorem any_eq (mild : Mild h k) (a : Addr) (ask : Object → Bool) (through : Bool × Bool × Bool → Bool)
    (factors : ∀ o, ask o = through o.ties) : (k.objects[a]?).any ask = (h.objects[a]?).any ask := by
  have key : ∀ found : Option Object, found.any ask = (found.map Object.ties).any through := by
    intro found
    cases found with
    | none => rfl
    | some o => exact factors o
  rw [key, key, mild.ties]

theorem live_iff (mild : Mild h k) (a : Addr) : k.Live a ↔ h.Live a := by
  rw [Live, Live, mild.any_eq a Object.valid (·.1) fun _ => rfl]

theorem claimedAt (mild : Mild h k) (a : Addr) : k.claimedAt a = h.claimedAt a :=
  mild.any_eq a Object.claimed (·.2.1) fun _ => rfl

theorem weakAt (mild : Mild h k) (a : Addr) : k.weakAt a = h.weakAt a :=
  mild.any_eq a Object.weak (·.2.2) fun _ => rfl

theorem of_frame (objects : k.objects = h.objects) (table : k.weak = h.weak) : Mild h k :=
  ⟨fun _ => by rw [objects], fun _ zero => by rwa [countAt, objects], table⟩

theorem of_changed {a : Addr} {o p : Object} (there : h.objects[a]? = some o)
    (changed : Changed h a p k) (ties : p.ties = o.ties) (zero : o.count = 0 → p.count = 0) :
    Mild h k := by
  have same : Same Object.ties h k := changed.same there ties
  refine ⟨same.objects, fun b spent => ?_, by rw [changed.rest]⟩
  by_cases here : b = a
  · subst here
    rw [changed.countAt_here]
    exact zero (by simpa only [countAt_of_there there] using spent)
  · rw [changed.countAt_others b here]
    exact spent

theorem of_update (a : Addr) (change : Object → Object) (ties : ∀ o, (change o).ties = o.ties)
    (count : ∀ o, (change o).count = o.count) : Mild h (h.update a change) := by
  have counts : Same Object.count h (h.update a change) := h.update_same a change count
  refine ⟨(h.update_same a change ties).objects, fun b zero => ?_, rfl⟩
  exact (counts.elim_eq b 0 Object.count id fun _ => rfl).trans zero

theorem raised {a : Addr} (raised : h.Raised a k) : Mild h k := by
  obtain ⟨o, word, there, positive⟩ := raised
  exact .of_changed there (Changed.of_update (fun o : Object => { o with word }) there) rfl fun zero =>
    absurd zero (Nat.ne_of_gt positive)

end Mild

theorem Edit.mild (edit : Edit h k) : Mild h k := by
  cases edit with
  | beside objects registry pool large weak =>
      exact ⟨fun a => by rw [objects], fun a zero => by rwa [countAt, objects], weak⟩
  | raised raised => exact .raised raised
  | registered there valid traced unclaimed absent changed registry =>
      refine .of_changed there changed rfl fun zero => ?_
      rwa [Object.count, CountWord.count_setBuffered]
  | written a payload => exact .of_update a _ (fun _ => rfl) fun _ => rfl

theorem Edits.mild (edits : h.Edits k) : Mild h k := by
  induction edits with
  | refl => exact .refl h
  | tail _ edit ih => exact ih.trans edit.mild

theorem takeDestructor_mild (h : Heap) (a : Addr) : Mild h (h.takeDestructor a).2 :=
  .of_update a _ (fun _ => rfl) fun _ => rfl

theorem alloc_weak {size type : Nat} {destructor : Option Nat} {a : Addr}
    (done : h.alloc size type destructor = .ok (a, k)) : k.weak = h.weak := by
  unfold alloc at done
  simp only at done
  split at done
  · cases done
  · split at done
    · cases done
    · split at done
      · cases done
      · cases done
        rfl

/-- The end of a pass writes claims, count words and the collector. -/
theorem finishPass_same (h : Heap) {α : Type} (view : Object → α)
    (claims : ∀ o : Object, view { o with claimed := true } = view o)
    (words : ∀ (o : Object) (word : CountWord), view { o with word } = view o) (pass : Pass) :
    Same view h (h.finishPass pass).2 ∧ (h.finishPass pass).2 =
      { h with
        objects := (h.finishPass pass).2.objects
        collector := (h.finishPass pass).2.collector } := by
  obtain ⟨_, _, claimed⟩ := h.claimGroups_cases pass.minimum pass.walk.found.verdict.garbage
  simp only [Heap.finishPass]
  generalize h.claimGroups pass.minimum pass.walk.found.verdict.garbage = out at claimed
  obtain ⟨groups, k⟩ := out
  simp only at claimed ⊢
  generalize groups.flatten.map Prod.fst = garbage at claimed
  obtain ⟨_, frame⟩ := k.judgeAll_same garbage k.collector.registry
  have judged : Same view k _ := k.judgeAll_words words garbage k.collector.registry
  have whole : Same view h (k.judgeAll garbage k.collector.registry).2 :=
    (claimed.same claims).trans judged
  exact ⟨⟨whole.types, whole.objects⟩, by rw [frame, claimed.rest]⟩

end Heap

open Heap (Mild)

namespace Machine

variable {m : Machine}

/-- What an operation, or most steps once their task is off the list, make of a machine. -/
inductive Turn (m : Machine) : Machine → Prop where
  | mild {n : Machine} (news : List Task) (mild : Mild m.heap n.heap)
      (tasks : n.tasks = news ++ m.tasks) : Turn m n
  | made {a : Addr} {k : Heap} (size type : Nat) (destructor : Option Nat)
      (done : m.heap.alloc size type destructor = .ok (a, k)) : Turn m { m with heap := k }
  | condemned {a : Addr} {o : Object} {k : Heap} (word : CountWord)
      (there : m.heap.objects[a]? = some o) (valid : o.valid = true) (unclaimed : o.claimed = false)
      (one : o.count = 1) (zero : word.count.toNat = 0)
      (changed : Changed m.heap a { o with word, claimed := true } k) :
      Turn m ({ m with heap := k }.push (Task.destruction a))
  | named (objects : List Addr) : Turn m (m.onHeap fun h => (h.downgradeBatch objects).2)
  | dropped (handle : SlotId) : Turn m (m.onHeap (·.dropHandle handle))
  | recounted : Turn m (m.onHeap fun h => { h with weak := h.weak.resetStats })

namespace Turn

theorem of_heap {k : Heap} (mild : Mild m.heap k) : Turn m { m with heap := k } := .mild [] mild rfl

theorem refl (m : Machine) : Turn m m := of_heap (.refl _)

theorem push (m : Machine) (news : List Task) : Turn m (m.push news) := .mild news (.refl _) rfl

theorem release (m : Machine) (a : Addr) : Turn m (m.release a) := by
  rcases m.release_cases a with ⟨o, last, k, there, valid, positive, lowered, after⟩ | after
  · rw [after]
    cases lowered with
    | fell _ word _ _ _ changed | entered _ word _ _ _ _ _ _ _ changed =>
        exact .mild _ (.of_changed there changed rfl fun zero => absurd zero (Nat.ne_of_gt positive)) rfl
    | condemned _ word count one unclaimed changed =>
        exact .condemned word there valid unclaimed one (by omega) changed
  · rw [after]
    exact of_heap (.of_frame rfl rfl)

theorem collect (m : Machine) : Turn m m.collect := .mild _ (.of_frame rfl rfl) rfl

theorem trigger (m : Machine) : Turn m m.trigger.2 := by
  simp only [Machine.trigger]
  split
  · exact .mild [.search _] (.of_frame rfl rfl) rfl
  · exact of_heap (.of_frame rfl rfl)

theorem operate (m : Machine) (operation : Operation)
    (other : ∀ handle, operation ≠ .call (.cloneHandle handle)) : Turn m (m.operate operation) := by
  have operated := m.operate_cases operation
  generalize m.operate operation = n at operated
  cases operated with
  | edited given edits => exact .mild _ edits.mild rfl
  | made size type destructor done => exact .made size type destructor done
  | released a | tried a => exact release m a
  | collected => exact collect m
  | triggered => exact trigger m
  | named objects => exact .named objects
  | downgraded a => exact .named [a]
  | cloned handle => exact absurd rfl (other handle)
  | dropped handle => exact .dropped handle
  | recounted => exact .recounted
  | reordered _ | bounded _ | resetPool | resetObjects => exact of_heap (.of_frame rfl rfl)

end Turn

/-- What a step makes of a machine whose tasks are the given one and the rest. -/
inductive Stepped (m : Machine) (rest : List Task) : Task → Machine → Prop where
  | detached (a : Addr) :
      Stepped m rest (.detach a) { m with heap := m.heap.detachWeak a, tasks := rest }
  | reclaimed (a : Addr) :
      Stepped m rest (.reclaim a) { m with heap := m.heap.reclaim a, tasks := rest }
  | finished (pass : Pass) : Stepped m rest (.search pass)
      ({ m with heap := (m.heap.finishPass pass).2, tasks := rest }.push
        (Task.disposal (m.heap.finishPass pass).1 ++ [Task.answer (m.heap.finishPass pass).1.length]))
  | turn {t : Task} {n : Machine} (other : ∀ a, t ≠ .detach a ∧ t ≠ .reclaim a)
      (turn : Turn { m with tasks := rest } n) : Stepped m rest t n

theorem step_cases {t : Task} {rest : List Task} (tasks : m.tasks = t :: rest) :
    Stepped m rest t m.step := by
  rw [step_cons tasks]
  cases t with
  | detach a => exact .detached a
  | reclaim a => exact .reclaimed a
  | release a => exact .turn (fun _ => ⟨by rintro ⟨⟩, by rintro ⟨⟩⟩) (.release _ a)
  | finalize a =>
      exact .turn (fun _ => ⟨by rintro ⟨⟩, by rintro ⟨⟩⟩)
        (.mild _ (m.heap.takeDestructor_mild a) rfl)
  | callback code => exact .turn (fun _ => ⟨by rintro ⟨⟩, by rintro ⟨⟩⟩) (.refl _)
  | releaseChildren a | expand pass a => exact .turn (fun _ => ⟨by rintro ⟨⟩, by rintro ⟨⟩⟩) (.push _ _)
  | answer reclaimed => exact .turn (fun _ => ⟨by rintro ⟨⟩, by rintro ⟨⟩⟩) (.mild [] (.refl _) rfl)
  | unload a =>
      rw [perform]
      split
      · exact .turn (fun _ => ⟨by rintro ⟨⟩, by rintro ⟨⟩⟩) (.push _ _)
      · exact .turn (fun _ => ⟨by rintro ⟨⟩, by rintro ⟨⟩⟩) (.refl _)
  | search pass =>
      rw [perform, advance]
      cases pass.walk.asks? with
      | some a => exact .turn (fun _ => ⟨by rintro ⟨⟩, by rintro ⟨⟩⟩) (.push _ _)
      | none =>
          -- The search is over, or goes on by itself.
          simp only
          split
          · exact .finished pass
          · exact .turn (fun _ => ⟨by rintro ⟨⟩, by rintro ⟨⟩⟩) (.push _ _)

end Machine

/-- A property of the weak handles that outlasts all that happens to them, but perhaps not a copy of
one. -/
structure WeakTable.Lasting (holds : WeakTable → Prop) : Prop where
  inserted : ∀ t a, holds t → holds (t.insert a).2
  detached : ∀ t a, holds t → holds (t.detach a)
  dropped : ∀ t s, holds t → holds (t.drop s)
  recounted : ∀ t, holds t → holds t.resetStats

namespace Machine

variable {m n : Machine} {holds : WeakTable → Prop}

theorem Turn.lasting (turn : m.Turn n) (lasting : WeakTable.Lasting holds)
    (before : holds m.heap.weak) : holds n.heap.weak := by
  cases turn with
  | mild news mild tasks =>
      rw [mild.table]
      exact before
  | made size type destructor done =>
      rw [Heap.alloc_weak done]
      exact before
  | condemned word there valid unclaimed one zero changed =>
      rw [Machine.push, changed.rest]
      exact before
  | named objects =>
      refine Heap.downgradeBatch_keeps (holds ·.weak) (fun k l a handle still done => ?_) before objects
      obtain ⟨_, _, _, _, _, rfl⟩ := Heap.downgrade_spec done
      exact lasting.inserted k.weak a still
  | dropped handle => exact lasting.dropped _ handle before
  | recounted => exact lasting.recounted _ before

theorem lasting_step (lasting : WeakTable.Lasting holds) (before : holds m.heap.weak) :
    holds m.step.heap.weak := by
  cases tasks : m.tasks with
  | nil =>
      rw [step_nil tasks]
      exact before
  | cons t rest =>
      have stepped := step_cases tasks
      generalize m.step = n at stepped
      cases stepped with
      | detached a =>
          simp only [Heap.detachWeak]
          split
          · exact lasting.detached _ a before
          · exact before
      | reclaimed a =>
          simp only [Heap.reclaim]
          split <;> exact before
      | finished pass =>
          obtain ⟨_, frame⟩ := m.heap.finishPass_same Object.body (fun _ => rfl)
            (fun _ _ => rfl) pass
          rw [push, frame]
          exact before
      | turn other turn => exact turn.lasting lasting before

end Machine

end CountedHeap
