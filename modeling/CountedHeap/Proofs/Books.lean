import CountedHeap.Proofs.Safety

/-!
What the books of a heap say: how many objects are live, and that nothing was ever misused.
-/

namespace CountedHeap

open Client (gain)
open Heap (Same)

/-- The books on the objects of a heap are right, and tell of no misuse. -/
structure Heap.Booked (h : Heap) : Prop where
  objects : h.books.objects = h.live.card
  clean : h.books.misuse = 0

namespace Heap

variable {h k : Heap} {owned owned' : Addr → Nat} {rule : Rule}

theorem Booked.transfer (booked : h.Booked) (live : ∀ a, k.Live a ↔ h.Live a)
    (books : k.books = h.books) : k.Booked := by
  have same : k.live = h.live := by
    ext a
    rw [mem_live, mem_live, live]
  exact ⟨by rw [books, same, booked.objects], by rw [books, booked.clean]⟩

theorem Act.booked (act : Act rule h owned k owned') (sound : h.Sound owned) (booked : h.Booked) :
    k.Booked := by
  cases act with
  | quiet same ledger pool books auto room registry =>
      exact booked.transfer same.standing_of_face.shape_of_standing.live_iff books
  | declared type tracer absent ledger done =>
      subst done
      exact ⟨booked.objects, booked.clean⟩
  | made a size type destructor ledger done =>
      have born := alloc_born size type destructor a done
      have new := (sound.made size type destructor a done).1
      obtain ⟨_, _, _, _, _, _, _, _, books⟩ := alloc_spec size type destructor a done
      have live : k.live = insert a h.live := by
        ext c
        rw [Finset.mem_insert, mem_live, mem_live, born.live]
      constructor
      · rw [books, live, Finset.card_insert_of_notMem (mt (h.mem_live a).mp new)]
        simp only [ObjectStats.recordAlloc, booked.objects]
      · rw [books]
        exact booked.clean
  | raised a raised ledger =>
      have live := raised.same.live_iff
      cases raised
      exact booked.transfer live rfl
  | registered a o there valid ledger changed registry =>
      have frame := changed.rest
      exact booked.transfer (changed.live_iff there rfl) (by rw [frame])
  | taken a o slot there valid inside ledger done =>
      subst done
      exact booked.transfer (h.store_live a slot none) rfl
  | assigned a b l o slot raised there valid inside reports ledger done =>
      subst done
      have live := raised.same.live_iff
      cases raised
      exact booked.transfer (fun c => (store_live _ a slot (some b) c).trans (live c)) rfl

end Heap

namespace Machine

variable {m : Machine} {owned : Addr → Nat}

theorem Sound.booked_step (sound : m.Sound owned) (booked : m.heap.Booked) :
    m.step.heap.Booked := by
  obtain ⟨_, alive⟩ := sound.accounts.step_live sound.orderly
  have effect := step_effect sound.orderly
  cases effect with
  | resting idle same =>
      rw [same]
      exact booked
  | quiet t rest news tasks calm after calmNews cascades lighter same frame =>
      exact booked.transfer same.standing_of_face.shape_of_standing.live_iff (by rw [frame])
  | reading a rest news tasks traced calmNews cascades light done =>
      rw [done]
      exact booked
  | refused a rest tasks refused done => exact absurd (sound.releasable tasks) refused
  | released a o last k word rest tasks there valid changed count isLast noted done =>
      have frame := changed.rest
      rw [done]
      exact booked.transfer (changed.live_iff there rfl) (by rw [frame])
  | unloaded a t rest row tasks unloads dropped held light done =>
      rw [done]
      exact booked
  | reclaimed a rest tasks done =>
      obtain ⟨live, _⟩ := sound.accounts.spent tasks
      obtain ⟨o, there, _⟩ := (m.heap.live_iff a).mp live
      obtain ⟨_, books, _⟩ := m.heap.reclaim_spec a o there
      have lost : m.step.heap.live = m.heap.live.erase a := by
        ext b
        rw [Finset.mem_erase, Heap.mem_live, Heap.mem_live, done, m.heap.reclaim_live]
      have member := (m.heap.mem_live a).mpr live
      have inhabited : 0 < m.heap.live.card := Finset.card_pos.mpr ⟨a, member⟩
      have after : m.step.heap.books = m.heap.books.recordDealloc o.totalBytes := by rw [done, books]
      constructor
      · rw [after, lost, Finset.card_erase_of_mem member]
        simp only [ObjectStats.recordDealloc, ObjectStats.less, booked.objects]
        exact if_pos inhabited
      · rw [after]
        exact booked.clean
  | ended p found done =>
      obtain ⟨_, _, ended, _⟩ := sound.accounts.ended sound.orderly found
      exact booked.transfer ended.live ended.frame.2.1

end Machine

namespace Client

variable {rule : Rule} {c d : Client}

theorem Small.booked (small : Small rule c d) (sound : c.machine.Sound c.owned)
    (booked : c.machine.heap.Booked) : d.machine.heap.Booked := by
  cases small with
  | act idle act => exact act.booked (sound.heap (Machine.calm_of_idle idle)) booked
  | hand a idle owns => exact booked
  | collect idle may => exact ⟨booked.objects, booked.clean⟩
  | step => exact sound.booked_step booked

theorem Run.booked (run : Run rule.AtRest c d) (sound : c.machine.Sound c.owned)
    (booked : c.machine.heap.Booked) : d.machine.heap.Booked :=
  (run.keeps (fun _ _ => Small.booked) sound booked).2

theorem fresh_booked (settings : Settings) (entropy : UInt64) :
    (fresh (.initial settings entropy)).machine.heap.Booked := by
  refine ⟨?_, rfl⟩
  simp only [fresh, Heap.initial_live]
  rfl

end Client

end CountedHeap
