import CountedHeap.Proofs.Payload
import CountedHeap.Proofs.Reporting
import CountedHeap.Proofs.Turns

/-!
What most of the work on a heap leaves level. An object has as many slots as its size has room for,
from the beginning to the end. And what decides when a pass starts of itself, the settings of the
collector, its draws and the count of allocations, is moved by few: the client that sets or counts
them, and the step that ends a search.
-/

namespace CountedHeap

open Heap (Same Changed)

namespace Object

/-- The size an object was made with, and the slots it has. -/
def room (o : Object) : Nat × Nat := (o.size, o.slotCount)

/-- An object has all the slots that there is room for, and no more. -/
def Fits (o : Object) : Prop := o.slotCount = o.size / Payload.slotBytes

theorem Fits.of_room {o p : Object} (fits : o.Fits) (same : p.room = o.room) : p.Fits := by
  rw [room, room, Prod.mk.injEq] at same
  rw [Fits, same.1, same.2]
  exact fits

end Object

/-- What decides when a pass starts of itself. -/
def Collector.clock (c : Collector) : CollectorSettings × Draws × Nat := (c.settings, c.draws, c.since)

namespace Heap

def Fitting (h : Heap) : Prop := ∀ (a : Addr) (o : Object), h.objects[a]? = some o → o.Fits

theorem Fitting.of_same {h k : Heap} (fitting : h.Fitting) (same : Same Object.room h k) :
    k.Fitting := by
  intro a p there
  have looks := same.objects a
  rw [there, Option.map_some, eq_comm, Option.map_eq_some_iff] at looks
  obtain ⟨o, before, room⟩ := looks
  exact (fitting a o before).of_room room.symm

theorem fitting_initial (settings : Settings) (entropy : UInt64) : (initial settings entropy).Fitting := by
  intro a o there
  simp [initial] at there

/-- A change that leaves every object its slots, and the clock of the collector as it stands. -/
structure Level (h k : Heap) : Prop where
  fitting : h.Fitting → k.Fitting
  clock : k.collector.clock = h.collector.clock

variable {h k l : Heap} {a : Addr}

namespace Level

theorem refl (h : Heap) : Level h h := ⟨id, rfl⟩

theorem trans (first : Level h k) (second : Level k l) : Level h l :=
  ⟨second.fitting ∘ first.fitting, second.clock.trans first.clock⟩

theorem of_frame (objects : k.objects = h.objects)
    (clock : k.collector.clock = h.collector.clock) : Level h k :=
  ⟨fun fitting a o there => fitting a o (objects ▸ there), clock⟩

theorem of_changed {o p : Object} (there : h.objects[a]? = some o) (changed : Changed h a p k)
    (room : p.room = o.room) : Level h k :=
  ⟨fun fitting => fitting.of_same (changed.same there room), by rw [changed.rest]; rfl⟩

theorem of_update (a : Addr) (change : Object → Object) (fits : ∀ o, o.Fits → (change o).Fits) :
    Level h (h.update a change) := by
  refine ⟨fun fitting b p there => ?_, rfl⟩
  rw [getElem?_update] at there
  split at there
  · obtain ⟨o, before, rfl⟩ := Option.map_eq_some_iff.mp there
    exact fits o (fitting b o before)
  · exact fitting b p there

end Level

theorem Raised.level (raised : h.Raised a k) : Level h k := by
  obtain ⟨o, word, there⟩ := raised
  exact .of_update a _ fun _ => id

theorem retain_level (h : Heap) (a : Addr) : Level h (h.retain a) := by
  unfold retain
  split
  · rename_i k done
    exact (Client.tryRetain_raised h k a done).level
  · exact .of_frame rfl rfl

theorem retainBatch_level (h : Heap) (objects : List Addr) : Level h (h.retainBatch objects) := by
  unfold retainBatch
  induction objects generalizing h with
  | nil => exact .refl h
  | cons a rest ih => exact (h.retain_level a).trans (ih (h.retain a))

theorem alloc_level {size type : Nat} {destructor : Option Nat}
    (done : h.alloc size type destructor = .ok (a, k)) : Level h k := by
  obtain ⟨beyond, _, _, _, objects, _, collector, _⟩ := alloc_spec size type destructor a done
  refine ⟨fun fitting b o there => ?_, by rw [collector]⟩
  rw [objects, Std.TreeMap.getElem?_insert] at there
  split at there
  · cases there
    exact Payload.size_blank size beyond
  · exact fitting b o there

theorem addCandidate_level (h : Heap) (a : Addr) : Level h (h.addCandidate a).2 := by
  unfold addCandidate
  split
  · rcases h.register_cases a with ⟨out, _⟩ | ⟨_, out⟩ | ⟨o, there, _, _, _, _, _, _, k, out, changed, _⟩
    · rw [out]
      exact .refl h
    · rw [out]
      exact .refl h
    · rw [out]
      exact .of_changed there changed rfl
  · exact .refl h

theorem upgrade_level (h : Heap) (handle : SlotId) : Level h (h.upgrade handle).2 := by
  unfold upgrade
  split
  · exact .refl h
  · split
    · exact .refl h
    · exact .of_update _ _ fun _ => id

theorem storeRef_level (h : Heap) (a : Addr) (slot : Nat) (value : Option Addr) :
    Level h (h.storeRef a slot value) :=
  .of_update a _ fun o fits => (Payload.size_store o.payload slot value).trans fits

theorem takeRef_level {slot : Nat} {found : Option Addr} (done : h.takeRef a slot = .ok (found, k)) :
    Level h k := by
  unfold takeRef at done
  cases isSlotted : h.slotted a slot with
  | error fault =>
      rw [isSlotted] at done
      cases done
  | ok p =>
      rw [isSlotted] at done
      cases done
      exact h.storeRef_level a slot none

theorem exchangeRef_level {slot : Nat} {value previous : Option Addr}
    (done : h.exchangeRef a slot value = .ok (previous, k)) : Level h k := by
  unfold exchangeRef at done
  split at done
  · cases done
  · split at done
    · cases done
    · rename_i l retained
      cases done
      have kept : Level h l := by
        cases value with
        | none =>
            cases retained
            exact .refl h
        | some b => exact (Client.tryRetain_raised h l b retained).level
      exact kept.trans (l.storeRef_level a slot value)

theorem registerType_level {type : Nat} {tracer : Tracer} (done : h.registerType type tracer = .ok k) :
    Level h k := by
  unfold registerType at done
  split at done
  · cases done
  · cases done
    exact .of_frame rfl rfl

theorem downgradeBatch_level (h : Heap) (objects : List Addr) :
    Level h (h.downgradeBatch objects).2 := by
  refine downgradeBatch_keeps (Level h) (fun k l a handle level done => ?_) (.refl h) objects
  obtain ⟨_, _, _, _, _, rfl⟩ := downgrade_spec done
  have flagged : Level k (k.update a ({ · with weak := true })) := .of_update a _ fun _ => id
  exact level.trans ⟨flagged.fitting, rfl⟩

theorem detachWeak_level (h : Heap) (a : Addr) : Level h (h.detachWeak a) := by
  unfold detachWeak
  split
  · exact .of_frame rfl rfl
  · exact .refl h

theorem reclaim_level (h : Heap) (a : Addr) : Level h (h.reclaim a) := by
  have marked : Level h (h.update a ({ · with mark := 0 })) := .of_update a _ fun _ => id
  unfold reclaim
  split
  · exact .refl h
  · exact ⟨marked.fitting, rfl⟩

theorem finishPass_clock (h : Heap) (pass : Pass) :
    (h.finishPass pass).2.collector.clock = (h.collector.settings, h.collector.draws, 0) := by
  obtain ⟨_, _, claimed⟩ := h.claimGroups_cases pass.minimum pass.walk.found.verdict.garbage
  simp only [finishPass]
  generalize h.claimGroups pass.minimum pass.walk.found.verdict.garbage = out at claimed
  obtain ⟨groups, k⟩ := out
  simp only at claimed ⊢
  obtain ⟨_, frame⟩ := k.judgeAll_same (groups.flatten.map Prod.fst) k.collector.registry
  rw [Collector.clock, frame, claimed.rest]

theorem finishPass_fitting (fitting : h.Fitting) (pass : Pass) : (h.finishPass pass).2.Fitting :=
  fitting.of_same (h.finishPass_same Object.room (fun _ => rfl) (fun _ _ => rfl) pass).1

end Heap

open Heap (Level)

namespace Machine

variable {m n : Machine}

theorem release_level (m : Machine) (a : Addr) : Level m.heap (m.release a).heap := by
  rcases m.release_cases a with ⟨o, last, k, there, _, _, lowered, after⟩ | after
  · obtain ⟨word, changed⟩ := lowered.changed
    rw [after]
    exact .of_changed there changed rfl
  · rw [after]
    exact .of_frame rfl rfl

theorem trigger_fitting (fitting : m.heap.Fitting) : m.trigger.2.heap.Fitting := by
  simp only [trigger]
  split <;> exact fitting

theorem assignRef_level {a : Addr} {slot : Nat} {value : Option Addr}
    (done : m.assignRef a slot value = .ok n) : Level m.heap n.heap := by
  unfold assignRef at done
  split at done
  · cases done
  · rename_i exchanged
    cases done
    exact Heap.exchangeRef_level exchanged

/-- Two operations are about the clock; every other one leaves it as it stands. -/
theorem operate_level (m : Machine) (operation : Operation)
    (other : ∀ settings, operation ≠ .call (.configure settings)) (untimed : operation ≠ .call .trigger) :
    Level m.heap (m.operate operation).heap := by
  cases operation with
  | call request =>
      simp only [operate, Client.call]
      cases request with
      | declare type tracer =>
          simp only
          split
          · rename_i done
            exact Heap.registerType_level done
          · exact .refl _
      | alloc size type destructor =>
          simp only
          split
          · rename_i done
            exact Heap.alloc_level done
          · exact .refl _
      | retain a =>
          simp only
          split
          · rename_i done
            exact (Client.tryRetain_raised _ _ a done).level
          · exact .refl _
      | release a => exact m.release_level a
      | tryRelease a =>
          simp only
          split
          · rename_i done
            exact Client.tryRelease_release _ _ a done ▸ m.release_level a
          · exact .refl _
      | assign a slot value =>
          simp only
          split
          · rename_i done
            exact assignRef_level done
          · exact .refl _
      | take a slot =>
          simp only
          split
          · rename_i done
            exact Heap.takeRef_level done
          · exact .refl _
      | downgrade a =>
          have flagged := m.heap.downgradeBatch_level [a]
          simp only [Heap.downgradeBatch] at flagged ⊢
          split
          · rename_i done
            rwa [done] at flagged
          · exact .refl _
      | addCandidate a => exact m.heap.addCandidate_level a
      | upgrade handle => exact m.heap.upgrade_level handle
      | configure settings => exact absurd rfl (other settings)
      | trigger => exact absurd rfl untimed
      | load a slot => exact .refl _
      | cloneHandle _ | dropHandle _ | collect | memory _ | room _ | reorder _ => exact .of_frame rfl rfl
  | retain a => exact m.heap.retain_level a
  | retainBatch objects => exact m.heap.retainBatch_level objects
  | downgradeBatch objects => exact m.heap.downgradeBatch_level objects
  | write a offset bytes =>
      exact .of_update a _ fun o fits => (Payload.size_write o.payload offset bytes).trans fits
  | clear a => exact .of_update a _ fun o _ => Payload.size_blank o.size _
  | releaseBatch _ | resetObjects | resetPool | resetCollector | resetHandles => exact .of_frame rfl rfl

theorem operate_fitting (fitting : m.heap.Fitting) (operation : Operation) :
    (m.operate operation).heap.Fitting := by
  by_cases timed : operation = .call .trigger
  · subst timed
    exact trigger_fitting fitting
  · by_cases configures : ∃ settings, operation = .call (.configure settings)
    · obtain ⟨settings, rfl⟩ := configures
      simp only [operate, Client.call]
      split <;> exact fitting
    · exact (m.operate_level operation (fun settings here => configures ⟨settings, here⟩) timed).fitting fitting

theorem step_level (goesOn : m.ends? = none) : Level m.heap m.step.heap := by
  cases tasks : m.tasks with
  | nil =>
      rw [step_nil tasks]
      exact .refl _
  | cons t rest =>
      rw [step_cons tasks]
      cases t with
      | release a => exact release_level { m with tasks := rest } a
      | detach a => exact m.heap.detachWeak_level a
      | finalize a => exact .of_update a _ fun _ => id
      | reclaim a => exact m.heap.reclaim_level a
      | callback code | releaseChildren a | expand pass a | answer reclaimed => exact .refl _
      | unload a =>
          rw [perform]
          split <;> exact .refl _
      | search pass =>
          have unfinished : ¬ pass.walk.finished = true := by
            intro finished
            simp [ends?, tasks, finished] at goesOn
          rw [perform, advance]
          cases pass.walk.asks? with
          | some a => exact .refl _
          | none =>
              simp only [if_neg unfinished]
              exact .refl _

theorem step_finishes {pass : Pass} (isEnd : m.ends? = some pass) :
    m.step.heap = (m.heap.finishPass pass).2 := by
  unfold ends? at isEnd
  split at isEnd
  · rename_i p rest tasks
    split at isEnd
    · rename_i finished
      cases isEnd
      rw [step_cons tasks, perform, advance, asks_of_finished _ finished]
      simp only [if_pos finished]
      rfl
    · cases isEnd
  · cases isEnd

theorem step_fitting (fitting : m.heap.Fitting) : m.step.heap.Fitting := by
  cases isEnd : m.ends? with
  | none => exact (step_level isEnd).fitting fitting
  | some pass =>
      rw [step_finishes isEnd]
      exact Heap.finishPass_fitting fitting pass

end Machine

end CountedHeap
