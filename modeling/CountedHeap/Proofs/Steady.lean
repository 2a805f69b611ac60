import CountedHeap.Proofs.Turns

/-!
What moves objects in and out of the books: making one and giving its block back. Everything else
leaves the pool, the large objects and the books as they are, and of every object whether it is live,
its type and its size.
-/

namespace CountedHeap

open Heap (Same Changed Lowered)

/-- What the books and a probe have of an object, beside its count. -/
def Object.build (o : Object) : Bool × Nat × Nat := (o.valid, o.type, o.size)

namespace Heap

/-- A change that goes past pool and books, but for the count of misuses. -/
structure Steady (h k : Heap) : Prop where
  builds : ∀ a : Addr, (k.objects[a]?).map Object.build = (h.objects[a]?).map Object.build
  pool : k.pool = h.pool
  large : k.large = h.large
  books : k.books = { h.books with misuse := k.books.misuse }

variable {h k l : Heap}

namespace Steady

theorem refl (h : Heap) : Steady h h := ⟨fun _ => rfl, rfl, rfl, rfl⟩

theorem trans (first : Steady h k) (second : Steady k l) : Steady h l :=
  ⟨fun a => (second.builds a).trans (first.builds a), second.pool.trans first.pool,
    second.large.trans first.large, by rw [second.books, first.books]⟩

theorem of_changed {a : Addr} {o p : Object} (there : h.objects[a]? = some o)
    (changed : Changed h a p k) (build : p.build = o.build) : Steady h k := by
  have same : Same Object.build h k := changed.same there build
  refine ⟨same.objects, ?_, ?_, ?_⟩ <;> rw [changed.rest]

theorem of_update (a : Addr) (change : Object → Object) (build : ∀ o, (change o).build = o.build) :
    Steady h (h.update a change) := ⟨(h.update_same a change build).objects, rfl, rfl, rfl⟩

end Steady

theorem Edit.steady (edit : Edit h k) : Steady h k := by
  cases edit with
  | beside objects registry pool large weak books =>
      exact ⟨fun a => by rw [objects], pool, large, books⟩
  | raised raised =>
      cases raised with
      | intro o word there => exact .of_update _ _ fun _ => rfl
  | registered there valid traced unclaimed absent changed => exact .of_changed there changed rfl
  | written a payload => exact .of_update a _ fun _ => rfl

theorem Edits.steady (edits : h.Edits k) : Steady h k := by
  induction edits with
  | refl => exact .refl h
  | tail _ edit ih => exact ih.trans edit.steady

theorem downgradeBatch_steady (h : Heap) (objects : List Addr) :
    Steady h (h.downgradeBatch objects).2 := by
  refine downgradeBatch_keeps (Steady h) (fun k l a handle steady done => ?_) (.refl h) objects
  obtain ⟨_, _, _, _, _, rfl⟩ := downgrade_spec done
  have flagged : Steady k (k.update a ({ · with weak := true })) := .of_update a _ fun _ => rfl
  exact steady.trans ⟨flagged.builds, rfl, rfl, rfl⟩

theorem detachWeak_steady (h : Heap) (a : Addr) : Steady h (h.detachWeak a) := by
  unfold detachWeak
  split
  · exact ⟨fun _ => rfl, rfl, rfl, rfl⟩
  · exact .refl h

theorem finishPass_steady (h : Heap) (pass : Pass) : Steady h (h.finishPass pass).2 := by
  obtain ⟨same, frame⟩ := h.finishPass_same Object.build (fun _ => rfl) (fun _ _ => rfl) pass
  refine ⟨same.objects, ?_, ?_, ?_⟩ <;> rw [frame]

end Heap

open Heap (Steady)

namespace Machine

variable {m n : Machine}

theorem release_steady (m : Machine) (a : Addr) : Steady m.heap (m.release a).heap := by
  rcases m.release_cases a with ⟨o, last, k, there, _, _, lowered, after⟩ | after
  · obtain ⟨word, changed⟩ := lowered.changed
    rw [after]
    exact .of_changed there changed rfl
  · rw [after]
    exact m.heap.absorb_edits.steady

theorem collect_steady (m : Machine) : Steady m.heap m.collect.heap := ⟨fun _ => rfl, rfl, rfl, rfl⟩

theorem trigger_steady (m : Machine) : Steady m.heap m.trigger.2.heap := by
  have noted : Steady m.heap
      (m.onHeap ({ · with collector := m.heap.collector.noteAllocation.2 })).heap :=
    m.heap.noteAllocation_edits.steady
  simp only [Machine.trigger]
  split
  · exact noted.trans (collect_steady _)
  · exact noted

theorem Operated.steady {operation : Operation} (operated : m.Operated operation n)
    (unmade : m.told operation = []) (objects : operation ≠ .resetObjects)
    (pool : operation ≠ .resetPool) (memory : ∀ limit, operation ≠ .call (.memory limit)) :
    Steady m.heap n.heap := by
  cases operated with
  | edited given edits => exact edits.steady
  | made size type destructor done => simp [told, done] at unmade
  | released a | tried a => exact m.release_steady a
  | collected => exact m.collect_steady
  | triggered => exact m.trigger_steady
  | named row => exact m.heap.downgradeBatch_steady row
  | downgraded a => exact m.heap.downgradeBatch_steady [a]
  | cloned _ | dropped _ | recounted | reordered _ => exact ⟨fun _ => rfl, rfl, rfl, rfl⟩
  | bounded limit => exact absurd rfl (memory limit)
  | resetPool => exact absurd rfl pool
  | resetObjects => exact absurd rfl objects

theorem step_steady {t : Task} {rest : List Task} (tasks : m.tasks = t :: rest)
    (other : ∀ a, t ≠ .reclaim a) : Steady m.heap m.step.heap := by
  rw [step_cons tasks]
  cases t with
  | release a => exact release_steady { m with tasks := rest } a
  | detach a => exact m.heap.detachWeak_steady a
  | finalize a => exact .of_update a _ fun _ => rfl
  | callback code | releaseChildren a | expand pass a | answer reclaimed => exact .refl _
  | unload a =>
      rw [perform]
      split <;> exact .refl _
  | reclaim a => exact absurd rfl (other a)
  | search pass =>
      rw [perform, advance]
      cases pass.walk.asks? with
      | some a => exact .refl _
      | none =>
          -- The search is over, or goes on by itself.
          simp only
          split
          · exact m.heap.finishPass_steady pass
          · exact .refl _

end Machine

end CountedHeap
