import CountedHeap.Proofs.Safety

/-!
Where references are stored only in slots that the tracer of their owner reports, no count is more
than what is owed: a destroyed object gives back every reference that it held.
-/

namespace CountedHeap

open Client (gain gain_of_ne gain_self lose)
open Heap (Same Changed)

namespace Heap

variable {h k : Heap} {owned owned' : Addr → Nat}

theorem Reported.shrink (reported : h.Reported) (body : Same Object.body h k)
    (fewer : ∀ a, k.Live a → h.Live a) : k.Reported := by
  intro a o there valid slot b holds
  obtain ⟨was, wasThere, wasValid⟩ :=
    (h.live_iff a).mp (fewer a ((k.live_iff a).mpr ⟨o, there, valid⟩))
  have looks := body.objects a
  rw [there, wasThere, Option.map_some, Option.map_some, Option.some.injEq] at looks
  simp only [Object.body, Prod.mk.injEq] at looks
  obtain ⟨traced, type, _, payload⟩ := looks
  rw [payload] at holds
  have known := reported a was wasThere wasValid slot b holds
  rwa [← traced, ← type, ← payload, ← body.types] at known

/-- Every count is what is owned and held. -/
structure Exact (h : Heap) (owned : Addr → Nat) : Prop where
  reported : h.Reported
  balanced : ∀ a, h.Live a → h.countAt a = owned a + h.held a

theorem Exact.made (accurate : h.Exact owned) (sound : h.Sound owned) (size type : Nat)
    (destructor : Option Nat) (a : Addr) (done : h.alloc size type destructor = .ok (a, k)) :
    k.Exact (gain owned a) := by
  have born := alloc_born size type destructor a done
  have new := (sound.made size type destructor a done).1
  obtain ⟨_, _, _, _, _, types, _⟩ := alloc_spec size type destructor a done
  constructor
  · intro b o there valid slot c holds
    by_cases here : b = a
    · subst here
      obtain ⟨p, isThere, _, _, _, _, empty⟩ := born.here
      rw [there, Option.some.injEq] at isThere
      rw [isThere, empty slot] at holds
      cases holds
    · rw [born.others b here] at there
      rw [types]
      exact accurate.reported b o there valid slot c holds
  · intro b live
    rw [born.held new, born.countAt]
    by_cases here : b = a
    · subst here
      have nothing : owned b + h.held b = 0 := by
        by_contra something
        exact new (sound.grounded b (Nat.pos_of_ne_zero something))
      rw [gain_self, if_pos rfl]
      omega
    · rw [gain_of_ne owned here, if_neg here]
      exact accurate.balanced b (((born.live b).mp live).resolve_left here)

theorem Exact.transfer (accurate : h.Exact owned) (same : Same Object.standing h k) :
    k.Exact owned := by
  have shape := same.shape_of_standing
  refine ⟨accurate.reported.shrink shape.body_of_shape fun a => (shape.live_iff a).mp, fun a live => ?_⟩
  rw [same.countAt, shape.held]
  exact accurate.balanced a ((shape.live_iff a).mp live)

theorem Exact.raised {a : Addr} (accurate : h.Exact owned) (raised : h.Raised a k) :
    k.Exact (gain owned a) := by
  have same := raised.same
  refine ⟨accurate.reported.shrink same.body_of_shape fun b => (same.live_iff b).mp, fun b live => ?_⟩
  have balance := accurate.balanced b ((same.live_iff b).mp live)
  have moved := raised.countAt_gain owned b
  rw [same.held]
  omega

theorem Exact.stored (accurate : h.Exact owned) (a : Addr) (o : Object) (slot : Nat)
    (value : Option Addr) (there : h.objects[a]? = some o) (valid : o.valid = true)
    (inside : slot < o.slotCount) (owns : ∀ b, value = some b → 0 < owned b)
    (reports : value.isSome = true → h.Reports a slot) :
    (h.storeRef a slot value).Exact
      ((o.payload.load slot).elim (value.elim owned (lose owned))
        (gain (value.elim owned (lose owned)))) := by
  constructor
  · intro b p found stillValid other c holds
    rw [storeRef, getElem?_update] at found
    by_cases here : a = b
    · subst here
      rw [if_pos rfl, there, Option.map_some, Option.some.injEq] at found
      subst found
      simp only at holds stillValid ⊢
      rw [Payload.load_store _ _ _ _ inside] at holds
      rw [Payload.size_store]
      by_cases written : slot = other
      · subst written
        rw [if_pos rfl] at holds
        obtain ⟨q, t, isThere, traced, type, reported⟩ := reports (by rw [holds]; rfl)
        rw [there, Option.some.injEq] at isThere
        subst isThere
        exact ⟨traced, t, type, reported⟩
      · rw [if_neg written] at holds
        exact accurate.reported a o there valid other c holds
    · rw [if_neg here] at found
      exact accurate.reported b p found stillValid other c holds
  · intro b live
    have held := h.held_store a o slot value there valid inside b
    have ledger := ledger_store owned (o.payload.load slot) value owns b
    have balance := accurate.balanced b ((h.store_live a slot value b).mp live)
    rw [store_countAt]
    omega

theorem Act.accurate {rule : Rule} (act : Act rule h owned k owned') (strict : rule.reporting)
    (sound : h.Sound owned) (accurate : h.Exact owned) : k.Exact owned' := by
  cases act with
  | quiet same ledger pool books auto room registry =>
      subst ledger
      exact accurate.transfer same.standing_of_face
  | declared type tracer absent ledger done =>
      subst ledger done
      refine ⟨fun a o there valid slot b holds => ?_, accurate.balanced⟩
      obtain ⟨traced, t, known, reported⟩ := accurate.reported a o there valid slot b holds
      refine ⟨traced, t, ?_, reported⟩
      have other : type ≠ o.type := by
        rintro rfl
        rw [absent] at known
        cases known
      simp only [Std.TreeMap.getElem?_insert]
      simpa [other] using known
  | made a size type destructor ledger done =>
      subst ledger
      exact accurate.made sound size type destructor a done
  | raised a raised ledger =>
      subst ledger
      exact accurate.raised raised
  | registered a o there valid ledger changed registry =>
      subst ledger
      apply accurate.transfer
      apply changed.same there
      simp only [Object.standing, Object.count, CountWord.count_setBuffered]
      rfl
  | taken a o slot there valid inside ledger done =>
      subst ledger done
      exact accurate.stored a o slot none there valid inside (by simp) (by simp)
  | assigned a b l o slot raised there valid inside reports ledger done =>
      subst ledger done
      have stored := (accurate.raised raised).stored a o slot (some b) there valid inside
        (by simp [gain]) fun _ => reports strict
      simpa only [Option.elim_some, Client.lose_gain] using stored

end Heap

namespace Machine

variable {m : Machine} {owned : Addr → Nat}

structure Exact (m : Machine) (owned : Addr → Nat) : Prop where
  reported : m.heap.Reported
  balanced : ∀ a, m.heap.Live a → m.heap.countAt a = m.owed owned a

theorem Exact.heap (accurate : m.Exact owned) (calm : m.Calm) : m.heap.Exact owned := by
  refine ⟨accurate.reported, fun a live => ?_⟩
  rw [← calm.owed]
  exact accurate.balanced a live

theorem Exact.of_calm (calm : m.Calm) (accurate : m.heap.Exact owned) : m.Exact owned := by
  refine ⟨accurate.reported, fun a live => ?_⟩
  rw [calm.owed]
  exact accurate.balanced a live

/-- Where counts are exact an object that is unloaded gives up all that it holds. -/
theorem Exact.row (accurate : m.Exact owned) {a : Addr} (live : m.heap.Live a) {row : List Addr}
    (dropped : ∀ b, m.heap.drops a b ≤ row.count b) (held : ∀ b, row.count b ≤ m.heap.edges a b)
    (b : Addr) : row.count b = m.heap.edges a b := by
  have enough := dropped b
  rw [accurate.reported.drops_eq a b live] at enough
  exact Nat.le_antisymm (held b) enough

theorem Exact.step (accurate : m.Exact owned) (accounts : m.Accounts owned) (orderly : m.Orderly) :
    m.step.Exact owned := by
  obtain ⟨body, alive⟩ := accounts.step_live orderly
  refine ⟨accurate.reported.shrink body fun a live => ((alive a).mp live).1, ?_⟩
  have effect := step_effect orderly
  cases effect with
  | resting idle same =>
      rw [same]
      exact accurate.balanced
  | quiet t rest news tasks calm after calmNews cascades lighter same frame =>
      obtain ⟨_, owed⟩ := accounts.quiet tasks calm news after calmNews same.standing_of_face
      intro a live
      rw [owed, same.standing_of_face.countAt]
      exact accurate.balanced a ((alive a).mp live).1
  | reading a rest news tasks traced calmNews cascades light done =>
      obtain ⟨_, owed⟩ := accounts.reading tasks traced news calmNews
      rw [done]
      intro b live
      rw [owed]
      exact accurate.balanced b live
  | refused a rest tasks refused done =>
      have dead : ¬ m.heap.Live a := fun live => refused ⟨live, accounts.positive tasks live⟩
      obtain ⟨_, owed⟩ := accounts.lowered tasks (k := m.heap.absorb) ⟨rfl, fun _ => rfl⟩
        (fun live => absurd live dead) (fun _ _ => rfl)
      rw [done]
      intro b live
      have balance := accurate.balanced b live
      have other : a ≠ b := by
        rintro rfl
        exact dead live
      rw [owed b, if_neg other] at balance
      exact balance
  | released a o last k word rest tasks there valid changed count isLast noted done =>
      obtain ⟨_, owed⟩ := accounts.released tasks there valid changed count isLast
      have now : k.countAt a = word.count.toNat := changed.countAt_here
      have was : m.heap.countAt a = o.count := Heap.countAt_of_there there
      rw [done]
      intro b live
      have balance := accurate.balanced b ((changed.live_iff there rfl b).mp live)
      rw [owed b] at balance
      by_cases here : b = a
      · subst here
        rw [if_pos rfl, was] at balance
        rw [now]
        omega
      · rw [if_neg (Ne.symm here)] at balance
        rw [changed.countAt_others b here]
        exact balance
  | unloaded a t rest row tasks unloads dropped held light done =>
      obtain ⟨_, owed⟩ := accounts.unloaded tasks unloads row dropped held
      have doomed : m.Doomed a := accounts.served t (by rw [tasks]; exact List.mem_cons_self) a
        (t.serves_of_unloads a unloads)
      rw [done]
      intro b live
      have balance := accurate.balanced b live
      have all := accurate.row (accounts.doomed a doomed).1 dropped held b
      have moved := owed b
      show m.heap.countAt b = _
      omega
  | reclaimed a rest tasks done =>
      obtain ⟨_, owed⟩ := accounts.reclaimed tasks
      rw [done]
      intro b isLive
      obtain ⟨apart, wasLive⟩ := (m.heap.reclaim_live a b).mp isLive
      rw [← owed]
      simp only [Heap.countAt, m.heap.reclaim_others a b apart]
      exact accurate.balanced b wasLive
  | ended p found done =>
      obtain ⟨_, _, ended, _, owed⟩ := accounts.ended orderly found
      intro a live
      rw [owed, ended.counts]
      exact accurate.balanced a ((ended.live a).mp live)

end Machine

namespace Client

variable {rule : Rule} {c d : Client}

theorem Small.accurate (small : Small rule c d) (strict : rule.reporting)
    (sound : c.machine.Sound c.owned) (accurate : c.machine.Exact c.owned) :
    d.machine.Exact d.owned := by
  cases small with
  | act idle act =>
      have calm := Machine.calm_of_idle idle
      exact Machine.Exact.of_calm (Machine.calm_of_idle idle)
        (act.accurate strict (sound.heap calm) (accurate.heap calm))
  | hand a idle owns =>
      refine ⟨accurate.reported, fun b live => ?_⟩
      have after : ({ c.machine with tasks := [.release a] } : Machine).tasks =
          .release a :: c.machine.tasks := by
        rw [List.isEmpty_iff.mp idle]
      exact (accurate.balanced b live).trans (Machine.handed_owed owns after rfl b).symm
  | collect idle may =>
      have searching := Machine.collect_searching idle fun _ _ => True
      have heap := accurate.heap (Machine.calm_of_idle idle)
      exact Machine.Exact.of_calm searching.calm ⟨heap.reported, heap.balanced⟩
  | step => exact accurate.step sound.accounts sound.orderly

end Client

end CountedHeap
