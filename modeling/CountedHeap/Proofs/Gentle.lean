import CountedHeap.Proofs.Edits
import CountedHeap.Proofs.Marks

/-!
Operations that are gentle: they keep the marks in order and leave every object its fate. All are,
apart from making an object and from the release that condemns one.
-/

namespace CountedHeap

namespace Heap

structure Gentle (h k : Heap) : Prop where
  marked : h.Marked → k.Marked
  fates : ∀ a, k.fateAt a = h.fateAt a

variable {h k l : Heap}

namespace Gentle

theorem refl (h : Heap) : Gentle h h := ⟨id, fun _ => rfl⟩

theorem trans (first : Gentle h k) (second : Gentle k l) : Gentle h l :=
  ⟨second.marked ∘ first.marked, fun a => (second.fates a).trans (first.fates a)⟩

/-- What stands beside objects, registry and free lists does not matter. -/
theorem of_frame (objects : k.objects = h.objects)
    (registry : k.collector.registry.Perm h.collector.registry)
    (pool : ∀ free, h.pool.Stocked h.Live free → k.pool.Stocked h.Live free) : Gentle h k := by
  refine ⟨fun marked => marked.transfer (fun a => ?_) registry pool, fun a => ?_⟩
  · rw [objects]
  · rw [fateAt, objects, fateAt]

theorem of_update (a : Addr) (change : Object → Object) (marks : ∀ o, (change o).marks = o.marks)
    (fate : ∀ o, (change o).fate = o.fate) : Gentle h (h.update a change) :=
  ⟨fun marked => marked.transfer (h.update_same a change marks).objects (.refl _) fun _ => id,
    (h.update_same a change fate).objects⟩

theorem raised {a : Addr} (raised : h.Raised a k) : Gentle h k := by
  refine ⟨fun marked => marked.raised raised, ?_⟩
  obtain ⟨o, word⟩ := raised
  have same : Same Object.fate h (h.update a ({ · with word })) := h.update_same a _ fun _ => rfl
  exact same.objects

theorem entered {a : Addr} {o : Object} {word : CountWord} (there : h.objects[a]? = some o)
    (changed : Changed h a { o with word } k) (marked : h.Marked → k.Marked) : Gentle h k := by
  have same : Same Object.fate h k := changed.same there rfl
  exact ⟨marked, same.objects⟩

end Gentle

theorem Edit.gentle (edit : Edit h k) : Gentle h k := by
  cases edit with
  | beside objects registry pool =>
      refine ⟨fun marked => marked.transfer (fun a => ?_) ?_ fun free stocked => ?_, fun a => ?_⟩
      · rw [objects]
      · rw [registry]
      · rwa [pool]
      · rw [fateAt, objects, fateAt]
  | raised raised => exact .raised raised
  | registered there valid traced unclaimed absent changed registry =>
      rename_i a o
      refine .entered there changed fun marked => ?_
      have count := CountWord.count_setBuffered o.word true
      refine marked.entered there changed valid valid traced unclaimed ?_
        (CountWord.buffered_setBuffered _ _) absent (by rw [registry, count])
      rw [Object.count, count]
      exact (marked.objects a o there).vital unclaimed
  | written a payload => exact .of_update a _ (fun _ => rfl) fun _ => rfl

theorem Edits.gentle (edits : h.Edits k) : Gentle h k := by
  induction edits with
  | refl => exact .refl h
  | tail _ edit ih => exact ih.trans edit.gentle

theorem downgrade_gentle (h k : Heap) (a : Addr) (handle : SlotId)
    (done : h.downgrade a = .ok (handle, k)) : Gentle h k := by
  obtain ⟨_, _, _, _, _, rfl⟩ := downgrade_spec done
  have flagged : Gentle h (h.update a ({ · with weak := true })) :=
    .of_update a _ (fun _ => rfl) fun _ => rfl
  exact flagged.trans (.of_frame rfl (.refl _) fun _ => id)

theorem downgradeBatch_gentle (h : Heap) (objects : List Addr) :
    Gentle h (h.downgradeBatch objects).2 :=
  downgradeBatch_keeps (Gentle h)
    (fun k l a handle gentle done => gentle.trans (k.downgrade_gentle l a handle done)) (.refl h) objects

theorem detachWeak_gentle (h : Heap) (a : Addr) : Gentle h (h.detachWeak a) := by
  unfold detachWeak
  split
  · exact .of_frame rfl (.refl _) fun _ => id
  · exact .refl h

theorem startPass_gentle (h : Heap) : Gentle h h.startPass.2 := ⟨Marked.startPass, fun _ => rfl⟩

end Heap

end CountedHeap
