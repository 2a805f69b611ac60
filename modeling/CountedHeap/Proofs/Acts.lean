import CountedHeap.Proofs.Client
import CountedHeap.Proofs.Reach

/-!
What a call can do, taken apart into acts on heap and ledger, each with one effect: a new object, a
reference more, a candidate more, another content of one slot, or nothing that counts. A release is
a reference that leaves the ledger and waits to be dropped.
-/

namespace CountedHeap

open Client (gain gain_of_ne gain_self lose)
open Heap (Same Changed)

/-- One reference more to an object that has some. -/
inductive Heap.Raised (h : Heap) (a : Addr) : Heap → Prop where
  | intro (o : Object) (word : CountWord) (there : h.objects[a]? = some o) (positive : 0 < o.count)
      (count : word.count.toNat = o.count + 1) (bit : word.buffered = o.buffered) :
      Raised h a (h.update a ({ · with word }))

theorem Heap.Raised.same {h k : Heap} {a : Addr} (raised : h.Raised a k) :
    Same Object.shape h k := by
  cases raised
  exact Heap.update_same h a _ fun _ => rfl

theorem Heap.Raised.frame {h k : Heap} {a : Addr} (raised : h.Raised a k) :
    k = { h with objects := k.objects } := by
  cases raised
  rfl

theorem Heap.Raised.positive {h k : Heap} {a : Addr} (raised : h.Raised a k) : 0 < h.countAt a := by
  obtain ⟨o, word, there, positive, count, bit⟩ := raised
  simpa only [Heap.countAt_of_there there] using positive

theorem Heap.Raised.countAt_gain {h k : Heap} {a : Addr} (raised : h.Raised a k)
    (owned : Addr → Nat) (b : Addr) : k.countAt b + owned b = h.countAt b + gain owned a b := by
  obtain ⟨o, word, there, positive, count, bit⟩ := raised
  have changed := Changed.of_update (h := h) ({ · with word }) there
  by_cases here : b = a
  · have was : h.countAt a = o.count := Heap.countAt_of_there there
    have now := changed.countAt_here.trans count
    subst here
    rw [gain_self]
    omega
  · rw [gain_of_ne owned here, changed.countAt_others b here]

theorem Heap.Raised.object {h k : Heap} {a : Addr} (raised : h.Raised a k) (b : Addr) (o : Object)
    (there : h.objects[b]? = some o) :
    ∃ p, k.objects[b]? = some p ∧ p.shape = o.shape := by
  have looks := raised.same.objects b
  rw [there, Option.map_some] at looks
  exact Option.map_eq_some_iff.mp looks

/-- One act on a heap and a ledger, under a rule. -/
inductive Heap.Act (rule : Rule) (h : Heap) (owned : Addr → Nat) (k : Heap) (owned' : Addr → Nat) :
    Prop where
  | quiet (same : Same Object.face h k) (ledger : owned' = owned)
      (pool : k.pool = { h.pool with system :=
        { h.pool.system with limit := k.pool.system.limit } })
      (books : k.books = h.books) (auto : k.autoRegister = h.autoRegister)
      (room : k.collector.canGrow = h.collector.canGrow ∨
        (rule.roomy → k.collector.canGrow = true))
      (registry : k.collector.registry.Perm h.collector.registry)
  | declared (type : Nat) (tracer : Tracer) (absent : h.types[type]? = none)
      (ledger : owned' = owned) (done : k = { h with types := h.types.insert type tracer })
  | made (a : Addr) (size type : Nat) (destructor : Option Nat)
      (ledger : owned' = gain owned a) (done : h.alloc size type destructor = .ok (a, k))
  | raised (a : Addr) (raised : h.Raised a k) (ledger : owned' = gain owned a)
  | registered (a : Addr) (o : Object) (there : h.objects[a]? = some o) (valid : o.valid = true)
      (ledger : owned' = owned)
      (changed : Changed h a { o with word := o.word.setBuffered true } k)
      (registry : k.collector.registry =
        { object := a, recorded := o.word.count } :: h.collector.registry)
  | taken (a : Addr) (o : Object) (slot : Nat) (there : h.objects[a]? = some o)
      (valid : o.valid = true) (inside : slot < o.slotCount)
      (ledger : owned' = (o.payload.load slot).elim owned (gain owned))
      (done : k = h.storeRef a slot none)
  | assigned (a b : Addr) (l : Heap) (o : Object) (slot : Nat) (raised : h.Raised b l)
      (there : l.objects[a]? = some o) (valid : o.valid = true) (inside : slot < o.slotCount)
      (reports : rule.reporting → l.Reports a slot)
      (ledger : owned' = (o.payload.load slot).elim owned (gain owned))
      (done : k = l.storeRef a slot (some b))

/-- A release of a live object with references left drops one; any other is absorbed. -/
theorem Machine.release_cases (m : Machine) (a : Addr) :
    (∃ o last k, m.heap.objects[a]? = some o ∧ o.valid = true ∧ 0 < o.count ∧
        m.heap.Lowered a o last k ∧
        m.release a = { m with heap := k }.push (if last then Task.destruction a else [])) ∨
      m.release a = m.onHeap Heap.absorb := by
  by_cases due : m.heap.Live a ∧ 0 < m.heap.countAt a
  · obtain ⟨o, there, valid⟩ := (m.heap.live_iff a).mp due.1
    have positive : 0 < o.count := by simpa only [Heap.countAt_of_there there] using due.2
    obtain ⟨last, k, done, lowered⟩ := m.heap.lower_cases a o there valid positive
    exact Or.inl ⟨o, last, k, there, valid, positive, lowered, by simp [release, tryRelease, done]⟩
  · obtain ⟨fault, refused⟩ := m.heap.lower_refused a due
    exact Or.inr (by simp [release, tryRelease, refused])

namespace Client

/-- What happens to a client, taken apart. -/
inductive Small (rule : Rule) (c : Client) : Client → Prop where
  | act {k : Heap} {owned : Addr → Nat} (idle : c.machine.idle = true)
      (act : Heap.Act rule c.machine.heap c.owned k owned) :
      Small rule c { c.onHeap k with owned }
  | hand (a : Addr) (idle : c.machine.idle = true) (owns : 0 < c.owned a) :
      Small rule c
        { machine := { c.machine with tasks := [.release a] }, owned := lose c.owned a }
  | collect (idle : c.machine.idle = true) (may : rule.passes c.machine.heap) :
      Small rule c { c with machine := c.machine.collect }
  | step : Small rule c c.step

variable {rule : Rule} {c : Client}

theorem lose_gain (owned : Addr → Nat) (a : Addr) : lose (gain owned a) a = owned := by
  unfold lose gain
  rw [Function.update_self, Function.update_idem]
  exact Function.update_eq_self a owned

theorem Small.of_frame {k : Heap} (idle : c.machine.idle = true)
    (same : Same Object.face c.machine.heap k) (pool : k.pool = c.machine.heap.pool)
    (books : k.books = c.machine.heap.books) (auto : k.autoRegister = c.machine.heap.autoRegister)
    (room : k.collector.canGrow = c.machine.heap.collector.canGrow ∨
      (rule.roomy → k.collector.canGrow = true))
    (registry : k.collector.registry.Perm c.machine.heap.collector.registry) :
    Small rule c (c.onHeap k) :=
  .act idle (.quiet same rfl (by rw [pool]) books auto room registry)

theorem tryRetain_raised (h k : Heap) (a : Addr) (done : h.tryRetain a = .ok k) : h.Raised a k := by
  unfold Heap.tryRetain at done
  split at done
  · cases done
  · rename_i o isValid
    obtain ⟨there, _⟩ := (h.valid_eq a o).mp isValid
    split at done
    · rename_i previous word raised
      cases done
      obtain ⟨_, positive, count, bit⟩ := o.word.increment_spec word previous raised
      exact .intro o word there positive count bit
    · cases done

theorem slotted_object (h : Heap) (a : Addr) (slot : Nat) (p : Payload)
    (done : h.slotted a slot = .ok p) :
    ∃ o, h.objects[a]? = some o ∧ o.valid = true ∧ slot < o.slotCount ∧ o.payload = p := by
  unfold Heap.slotted at done
  split at done
  · cases done
  · rename_i o isValid
    obtain ⟨there, valid⟩ := (h.valid_eq a o).mp isValid
    split at done
    · rename_i inside
      cases done
      exact ⟨o, there, valid, inside, rfl⟩
    · cases done

theorem tryRelease_release (m n : Machine) (a : Addr) (done : m.tryRelease a = .ok n) :
    m.release a = n := by
  simp only [Machine.release, done]

-- The reference leaves the ledger, and the step drops it.
theorem released_small (a : Addr) (idle : c.machine.idle = true) (owns : 0 < c.owned a) :
    Relation.ReflTransGen (Small rule) c
      { machine := c.machine.release a, owned := lose c.owned a } := by
  have given : Small rule c { machine := { c.machine with tasks := [.release a] }, owned := lose c.owned a } :=
    .hand a idle owns
  refine .tail (.single given) ?_
  have same : { c.machine with tasks := [] } = c.machine := by
    rw [Machine.idle, List.isEmpty_iff] at idle
    rw [← idle]
  have dropped : Small rule
      { machine := { c.machine with tasks := [.release a] }, owned := lose c.owned a }
      (Client.step { machine := { c.machine with tasks := [.release a] }, owned := lose c.owned a }) :=
    .step
  simp only [Client.step, Machine.step, Machine.perform, same] at dropped
  exact dropped

theorem handed_small {k : Heap} {previous : Option Addr} (idle : c.machine.idle = true)
    (put : Small rule c { c.onHeap k with owned := previous.elim c.owned (gain c.owned) }) :
    Relation.ReflTransGen (Small rule) c
      { c with machine := { c.machine with heap := k }.push (previous.toList.map .release) } := by
  cases previous with
  | none => exact .single put
  | some d =>
      have given : Small rule { c.onHeap k with owned := gain c.owned d } _ :=
        .hand d idle (by simp [gain])
      rw [Machine.idle, List.isEmpty_iff] at idle
      simp only [lose_gain] at given
      refine .tail (.single put) ?_
      simpa [Machine.push, Client.onHeap, idle] using given

theorem assigned_small (a : Addr) (slot : Nat) (value : Option Addr) (m : Machine)
    (idle : c.machine.idle = true)
    (reports : rule.reporting → value.isSome = true → c.machine.heap.Reports a slot)
    (done : c.machine.assignRef a slot value = .ok m) :
    Relation.ReflTransGen (Small rule) c { c with machine := m } := by
  unfold Machine.assignRef at done
  split at done
  · cases done
  · rename_i previous heap exchanged
    simp only [Except.ok.injEq] at done
    subst done
    apply handed_small idle
    unfold Heap.exchangeRef at exchanged
    split at exchanged
    · cases exchanged
    · rename_i p isSlotted
      obtain ⟨o, there, valid, inside, payload⟩ := slotted_object _ a slot p isSlotted
      split at exchanged
      · cases exchanged
      · rename_i l retained
        simp only [Except.ok.injEq, Prod.mk.injEq] at exchanged
        obtain ⟨isPrevious, isHeap⟩ := exchanged
        subst payload isPrevious isHeap
        cases value with
        | none =>
            simp only [Option.elim_none, Except.ok.injEq] at retained
            subst retained
            exact .act idle (.taken a o slot there valid inside rfl rfl)
        | some b =>
            have raised := tryRetain_raised _ l b retained
            obtain ⟨q, isThere, same⟩ := raised.object a o there
            simp only [Object.shape, Object.body, Prod.mk.injEq] at same
            obtain ⟨stillValid, _, sameTraced, sameType, _, samePayload⟩ := same
            have stillReports : rule.reporting → l.Reports a slot := by
              intro strict
              obtain ⟨r, t, found, traced, type, reported⟩ := reports strict rfl
              rw [there, Option.some.injEq] at found
              subst found
              exact ⟨q, t, isThere, sameTraced.trans traced,
                by rw [sameType, raised.same.types, type], by rw [samePayload]; exact reported⟩
            have inBounds : slot < q.slotCount := by
              rw [Object.slotCount, samePayload]
              exact inside
            exact .act idle (.assigned a b l q slot raised isThere (stillValid.trans valid) inBounds
              stillReports (by rw [samePayload]) rfl)

theorem added_small (a : Addr) (idle : c.machine.idle = true) :
    Relation.ReflTransGen (Small rule) c (c.onHeap (c.machine.heap.addCandidate a).2) := by
  unfold Heap.addCandidate
  split
  · rcases Heap.register_cases c.machine.heap a with ⟨out, _⟩ | ⟨_, out⟩ |
      ⟨o, there, valid, _, _, _, _, _, k, out, changed, registry⟩
    · rw [out]
      exact .refl
    · rw [out]
      exact .refl
    · rw [out]
      exact .single (.act idle (.registered a o there valid rfl changed registry))
  · exact .refl

theorem upgrade_raised (h : Heap) (handle : SlotId) :
    (∃ a k, h.upgrade handle = (some a, k) ∧ h.Raised a k) ∨
      ∃ k, h.upgrade handle = (none, k) ∧ Same Object.face h k ∧
        k = { h with objects := k.objects } := by
  unfold Heap.upgrade
  split
  · exact Or.inr ⟨h, rfl, Same.refl h, rfl⟩
  · rename_i a target
    split
    · exact Or.inr ⟨h, rfl, Same.refl h, rfl⟩
    · rename_i o there
      obtain ⟨bit, granted, refused⟩ := o.word.upgrade_spec o.claimed
      simp only
      cases answer : (o.word.upgrade o.claimed).1 with
      | true =>
          obtain ⟨positive, _, count⟩ := granted answer
          exact Or.inl ⟨a, _, rfl, .intro o _ there positive count bit⟩
      | false =>
          -- The word that is written back is the one that was read.
          have same : (o.word.upgrade o.claimed).2 = o.word :=
            CountWord.ext_views _ _ (refused answer) bit
          have changed := Changed.of_update (h := h)
            (fun p : Object => { p with word := (o.word.upgrade o.claimed).2 }) there
          exact Or.inr ⟨_, rfl, changed.same there (by simp only [same]), rfl⟩

theorem upgraded_small (handle : SlotId) (idle : c.machine.idle = true) :
    Relation.ReflTransGen (Small rule) c (c.call (.upgrade handle)) := by
  rcases upgrade_raised c.machine.heap handle with ⟨a, k, out, raised⟩ | ⟨k, out, same, frame⟩
  · simp only [call, out]
    exact .single (.act idle (.raised a raised rfl))
  · simp only [call, out]
    refine .single (Small.of_frame idle same ?_ ?_ ?_ (Or.inl ?_) ?_) <;> rw [frame]

theorem taken_small (a : Addr) (slot : Nat) (found : Option Addr) (k : Heap)
    (idle : c.machine.idle = true) (done : c.machine.heap.takeRef a slot = .ok (found, k)) :
    Small rule c { c.onHeap k with owned := found.elim c.owned (gain c.owned) } := by
  unfold Heap.takeRef at done
  cases isSlotted : c.machine.heap.slotted a slot with
  | error fault =>
      rw [isSlotted] at done
      cases done
  | ok p =>
      obtain ⟨o, there, valid, inside, payload⟩ := slotted_object _ a slot p isSlotted
      rw [isSlotted] at done
      simp only [Except.map, Except.ok.injEq, Prod.mk.injEq] at done
      obtain ⟨isFound, isHeap⟩ := done
      have put : Small rule c _ := .act idle (.taken a o slot there valid inside rfl isHeap.symm)
      simp only [payload, isFound] at put
      exact put

theorem downgraded_small (a : Addr) (handle : SlotId) (k : Heap) (idle : c.machine.idle = true)
    (done : c.machine.heap.downgrade a = .ok (handle, k)) : Small rule c (c.onHeap k) := by
  obtain ⟨_, _, _, _, _, rfl⟩ := Heap.downgrade_spec done
  have marked : Same Object.face c.machine.heap
      (c.machine.heap.update a ({ · with weak := true })) := Heap.update_same _ _ _ fun _ => rfl
  exact Small.of_frame idle ⟨marked.types, marked.objects⟩ rfl rfl rfl (Or.inl rfl) (.refl _)

theorem noted_small (idle : c.machine.idle = true) :
    Small rule c (c.onHeap { c.machine.heap with
      collector := c.machine.heap.collector.noteAllocation.2 }) := by
  refine Small.of_frame idle ⟨rfl, fun _ => rfl⟩ rfl rfl rfl (Or.inl ?_) ?_
  · simp only [Collector.noteAllocation]
    split
    · rfl
    · split <;> rfl
  · simp only [Collector.noteAllocation]
    split
    · exact .refl _
    · split <;> exact .refl _

/-- Whatever a call does is a sequence of acts, of references handed over and of steps. -/
theorem call_small (request : Call) (idle : c.machine.idle = true)
    (permitted : rule.Permits c request) :
    Relation.ReflTransGen (Small rule) c (c.call request) := by
  cases request with
  | declare type tracer =>
      simp only [call, Heap.registerType]
      split
      · rename_i k done
        split at done
        · cases done
        · rename_i absent
          cases done
          have isNew : c.machine.heap.types[type]? = none := by simpa using absent
          exact .single (.act idle (.declared type tracer isNew rfl rfl))
      · exact .refl
  | alloc size type destructor =>
      simp only [call]
      split
      · rename_i a k done
        exact .single (.act idle (.made a size type destructor rfl done))
      · exact .refl
  | retain a =>
      simp only [call]
      split
      · rename_i k done
        exact .single (.act idle (.raised a (tryRetain_raised _ k a done) rfl))
      · exact .refl
  | release a => exact released_small a idle permitted
  | tryRelease a =>
      simp only [call]
      split
      · rename_i m done
        rw [← tryRelease_release _ _ _ done]
        exact released_small a idle permitted
      · exact .refl
  | assign a slot value =>
      simp only [call]
      split
      · rename_i m done
        exact assigned_small a slot value m idle permitted done
      · exact .refl
  | load a slot => exact .refl
  | take a slot =>
      simp only [call]
      split
      · rename_i found k done
        exact .single (taken_small a slot found k idle done)
      · exact .refl
  | addCandidate a => exact added_small a idle
  | downgrade a =>
      simp only [call]
      split
      · rename_i handle k done
        exact .single (downgraded_small a handle k idle done)
      · exact .refl
  | upgrade handle => exact upgraded_small handle idle
  | cloneHandle handle =>
      exact .single (Small.of_frame idle ⟨rfl, fun _ => rfl⟩ rfl rfl rfl (Or.inl rfl) (.refl _))
  | dropHandle handle =>
      exact .single (Small.of_frame idle ⟨rfl, fun _ => rfl⟩ rfl rfl rfl (Or.inl rfl) (.refl _))
  | configure settings =>
      simp only [call, Collector.configure]
      split
      · rename_i collector done
        split at done
        · cases done
        · simp only [Except.ok.injEq] at done
          subst done
          exact .single (Small.of_frame idle ⟨rfl, fun _ => rfl⟩ rfl rfl rfl (Or.inl rfl) (.refl _))
      · exact .refl
  | collect => exact .single (.collect idle permitted)
  | trigger =>
      simp only [call, Machine.trigger]
      split
      · rename_i due
        exact .tail (.single (noted_small idle)) (.collect idle (permitted due))
      · exact .single (noted_small idle)
  | memory limit =>
      exact .single (.act idle (.quiet ⟨rfl, fun _ => rfl⟩ rfl rfl rfl rfl (Or.inl rfl) (.refl _)))
  | room canGrow =>
      exact .single (Small.of_frame idle ⟨rfl, fun _ => rfl⟩ rfl rfl rfl (Or.inr permitted) (.refl _))
  | reorder registry =>
      exact .single (Small.of_frame idle ⟨rfl, fun _ => rfl⟩ rfl rfl rfl (Or.inl rfl) permitted)

end Client

end CountedHeap
