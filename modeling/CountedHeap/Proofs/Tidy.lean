import CountedHeap.Proofs.Safety

/-!
The marks of a live object. It has references until its destruction is claimed, a claimed one waits
to be reclaimed, and whoever bears the mark of a candidate is in the registry. The marks need no
books: every act keeps them, and every step.
-/

namespace CountedHeap

open Heap (Same Changed)

namespace Heap

variable {h k : Heap}

theorem holds_perm {registry other : Registry} (perm : registry.Perm other) (a : Addr) :
    registry.holds a = other.holds a := perm.any_eq

/-- The marks in a heap at rest. -/
structure Tidy (h : Heap) : Prop where
  vital : ∀ a, h.Live a → 0 < h.countAt a
  unclaimed : ∀ a, h.Live a → h.claimedAt a = false
  mirrored : ∀ a, h.Live a → h.bufferedAt a = true → h.collector.registry.holds a = true

def Recorded (h : Heap) : Prop := ∀ entry ∈ h.collector.registry, entry.recorded.toNat < 2 ^ 31

/-- A traced object that survives a release always finds its way into the registry. -/
def Eager (h : Heap) : Prop := h.autoRegister = true ∧ h.collector.canGrow = true

end Heap

namespace Machine

variable {m n : Machine} {owned : Addr → Nat} {t : Task} {rest news : List Task}

structure Tidy (m : Machine) : Prop where
  vital : ∀ a, m.heap.Live a → m.heap.claimedAt a = false → 0 < m.heap.countAt a
  claimed : ∀ a, m.heap.Live a → m.heap.claimedAt a = true → m.Doomed a
  mirrored : ∀ a, m.heap.Live a → m.heap.claimedAt a = false → m.heap.bufferedAt a = true →
    m.heap.collector.registry.holds a = true
  recorded : m.heap.Recorded

theorem Tidy.unclaimed (tidy : m.Tidy) (calm : m.Calm) (a : Addr) (live : m.heap.Live a) :
    m.heap.claimedAt a = false := by
  cases claimed : m.heap.claimedAt a with
  | false => rfl
  | true => exact absurd (tidy.claimed a live claimed) (calm.parts a).2.2

theorem Tidy.heap (tidy : m.Tidy) (calm : m.Calm) : m.heap.Tidy := by
  have unclaimed := tidy.unclaimed calm
  exact ⟨fun a live => tidy.vital a live (unclaimed a live), unclaimed,
    fun a live => tidy.mirrored a live (unclaimed a live)⟩

theorem Tidy.of_heap (tidy : m.heap.Tidy) (recorded : m.heap.Recorded) : m.Tidy := by
  constructor
  · exact fun a live _ => tidy.vital a live
  · intro a live claimed
    rw [tidy.unclaimed a live] at claimed
    cases claimed
  · exact fun a live _ => tidy.mirrored a live
  · exact recorded

theorem Tidy.transfer (tidy : m.Tidy) (same : Same Object.face m.heap n.heap)
    (doomed : ∀ a, m.Doomed a → n.Doomed a)
    (registry : n.heap.collector.registry.Perm m.heap.collector.registry) : n.Tidy := by
  have standing := same.standing_of_face
  have shape := standing.shape_of_standing
  constructor
  · intro a live unclaimed
    rw [standing.countAt]
    exact tidy.vital a ((shape.live_iff a).mp live) (shape.claimedAt a ▸ unclaimed)
  · intro a live claimed
    exact doomed a (tidy.claimed a ((shape.live_iff a).mp live) (shape.claimedAt a ▸ claimed))
  · intro a live unclaimed isSet
    rw [Heap.holds_perm registry]
    exact tidy.mirrored a ((shape.live_iff a).mp live) (shape.claimedAt a ▸ unclaimed)
      (same.bufferedAt a ▸ isSet)
  · exact fun entry member => tidy.recorded entry (registry.mem_iff.mp member)

theorem doomed_pop (tasks : m.tasks = t :: rest) (other : ∀ a, t.reclaims a = false)
    (after : n.tasks = news ++ rest) (a : Addr) (doomed : m.Doomed a) : n.Doomed a := by
  rw [Doomed, any_pop _ tasks (other a)] at doomed
  rw [Doomed, after, List.any_append, doomed, Bool.or_true]

theorem Tidy.released (tidy : m.Tidy) {a : Addr} {o : Object} {last : Bool} {word : CountWord}
    (tasks : m.tasks = .release a :: rest) (there : m.heap.objects[a]? = some o)
    (valid : o.valid = true)
    (changed : Changed m.heap a { o with word, claimed := o.claimed || last } n.heap)
    (count : word.count.toNat + 1 = o.count)
    (isLast : last = true ↔ o.count = 1 ∧ o.claimed = false)
    (noted : Heap.Noted m.heap a o last word n.heap)
    (after : n.tasks = (if last then Task.destruction a else []) ++ rest) : n.Tidy := by
  have alive := changed.live_iff there rfl
  have doomed := fun b => doomed_pop (n := n) tasks (fun _ => rfl) after b
  have was : m.heap.claimedAt a = o.claimed := Heap.claimedAt_of_there there
  have isLive : m.heap.Live a := (m.heap.live_iff a).mpr ⟨o, there, valid⟩
  constructor
  · intro b live unclaimed
    by_cases here : b = a
    · subst here
      rw [changed.claimedAt_here, Bool.or_eq_false_iff] at unclaimed
      have many : o.count ≠ 1 := fun one => by
        rw [isLast.mpr ⟨one, unclaimed.1⟩] at unclaimed
        exact Bool.noConfusion unclaimed.2
      rw [changed.countAt_here]
      simp only [Object.count] at count many ⊢
      omega
    · rw [changed.countAt_others b here]
      rw [changed.claimedAt_others b here] at unclaimed
      exact tidy.vital b ((alive b).mp live) unclaimed
  · intro b live claimed
    by_cases here : b = a
    · subst here
      rw [changed.claimedAt_here] at claimed
      cases last with
      | false =>
          rw [Bool.or_false, ← was] at claimed
          exact doomed b (tidy.claimed b isLive claimed)
      | true => simp [Doomed, after, Task.destruction, Task.reclaims]
    · rw [changed.claimedAt_others b here] at claimed
      exact doomed b (tidy.claimed b ((alive b).mp live) claimed)
  · intro b live unclaimed isSet
    by_cases here : b = a
    · subst here
      rw [changed.claimedAt_here, Bool.or_eq_false_iff] at unclaimed
      obtain ⟨unclaimed, rfl⟩ := unclaimed
      rw [Heap.bufferedAt, changed.here] at isSet
      rcases noted.bit rfl isSet with before | holds
      · refine noted.kept rfl (tidy.mirrored b isLive (was.trans unclaimed) ?_)
        exact (Heap.bufferedAt_of_there there).trans before
      · exact holds
    · rw [noted.others b here]
      rw [changed.claimedAt_others b here] at unclaimed
      rw [Heap.bufferedAt, changed.others b here] at isSet
      exact tidy.mirrored b ((alive b).mp live) unclaimed isSet
  · intro entry member
    rcases noted.entries entry member with old | small
    · exact tidy.recorded entry old
    · exact small

theorem Tidy.ended {p : Pass} (tidy : m.Tidy) (accounts : m.Accounts owned) (orderly : m.Orderly)
    (found : m.Found p) : m.step.Tidy := by
  obtain ⟨calm, tasks, ended, _⟩ := accounts.ended orderly found
  obtain ⟨bits, _, recorded⟩ := ended.bits tidy.recorded
  constructor
  · intro a live unclaimed
    have wasLive := (ended.live a).mp live
    rw [ended.counts]
    exact tidy.vital a wasLive (tidy.unclaimed calm a wasLive)
  · intro a live claimed
    rcases ended.only a claimed with before | isGarbage
    · rw [tidy.unclaimed calm a ((ended.live a).mp live)] at before
      cases before
    · exact (doomed_ended tasks a).mpr isGarbage
  · intro a live unclaimed isSet
    obtain ⟨before, stays⟩ := bits a isSet
    have wasLive := (ended.live a).mp live
    exact stays (tidy.mirrored a wasLive (tidy.unclaimed calm a wasLive) before)
  · exact recorded

theorem Tidy.step (tidy : m.Tidy) (accounts : m.Accounts owned) (orderly : m.Orderly) :
    m.step.Tidy := by
  have effect := step_effect orderly
  cases effect with
  | resting idle same =>
      rw [same]
      exact tidy
  | quiet t rest news tasks calm after calmNews cascades lighter same frame =>
      refine tidy.transfer same (doomed_pop tasks (fun a => (t.neutral_parts calm a).2.2) after) ?_
      rw [frame]
  | reading a rest news tasks traced calmNews cascades light done =>
      have after : m.step.tasks = (news ++ [.releaseChildren a]) ++ rest := by simp [done]
      rw [done] at after ⊢
      exact tidy.transfer (Same.refl _) (doomed_pop tasks (fun _ => rfl) after) (.refl _)
  | refused a rest tasks refused done =>
      have after : m.step.tasks = [] ++ rest := by simp [done]
      rw [done] at after ⊢
      exact tidy.transfer ⟨rfl, fun _ => rfl⟩ (doomed_pop tasks (fun _ => rfl) after) (.refl _)
  | released a o last k word rest tasks there valid changed count isLast noted done =>
      rw [done]
      exact tidy.released tasks there valid changed count isLast noted rfl
  | unloaded a t rest row tasks unloads dropped held light done =>
      rw [done]
      refine tidy.transfer (Same.refl _) (doomed_pop tasks (fun b => ?_) rfl) (.refl _)
      cases t <;> simp [Task.unloads] at unloads <;> rfl
  | reclaimed a rest tasks done =>
      obtain ⟨_, collector, _⟩ := m.heap.reclaim_frame a
      have others := m.heap.reclaim_others a
      have apart := fun b stillLive => ((m.heap.reclaim_live a b).mp stillLive).1
      have lost := fun b stillLive => ((m.heap.reclaim_live a b).mp stillLive).2
      rw [done]
      constructor
      · intro b stillLive unclaimed
        rw [Heap.claimedAt, others b (apart b stillLive)] at unclaimed
        rw [Heap.countAt, others b (apart b stillLive)]
        exact tidy.vital b (lost b stillLive) unclaimed
      · intro b stillLive claimed
        rw [Heap.claimedAt, others b (apart b stillLive)] at claimed
        have doomed := tidy.claimed b (lost b stillLive) claimed
        rw [Doomed, any_pop _ tasks (by simp [Task.reclaims, Ne.symm (apart b stillLive)])] at doomed
        exact doomed
      · intro b stillLive unclaimed isSet
        rw [Heap.claimedAt, others b (apart b stillLive)] at unclaimed
        rw [Heap.bufferedAt, others b (apart b stillLive)] at isSet
        rw [collector]
        exact tidy.mirrored b (lost b stillLive) unclaimed isSet
      · rw [Heap.Recorded, collector]
        exact tidy.recorded
  | ended p found done => exact tidy.ended accounts orderly found

theorem eager_step_iff (accounts : m.Accounts owned) (orderly : m.Orderly) :
    m.step.heap.Eager ↔ m.heap.Eager := by
  have effect := step_effect orderly
  cases effect with
  | resting idle same => rw [same]
  | quiet t rest news tasks calm after calmNews cascades lighter same frame =>
      rw [frame]
      exact Iff.rfl
  | reading a rest news tasks traced calmNews cascades light done => rw [done]
  | refused a rest tasks refused done =>
      rw [done]
      exact Iff.rfl
  | released a o last k word rest tasks there valid changed count isLast noted done =>
      have frame := changed.rest
      rw [done, frame]
      exact Iff.rfl
  | unloaded a t rest row tasks unloads dropped held light done => rw [done]
  | reclaimed a rest tasks done =>
      obtain ⟨_, collector, auto⟩ := m.heap.reclaim_frame a
      rw [done, Heap.Eager, collector, auto, Heap.Eager]
  | ended p found done =>
      obtain ⟨_, _, ended, _⟩ := accounts.ended orderly found
      rw [Heap.Eager, ended.frame.2.2.1, ended.frame.2.2.2.2, Heap.Eager]

theorem eager_step (accounts : m.Accounts owned) (orderly : m.Orderly) (eager : m.heap.Eager) :
    m.step.heap.Eager :=
  (eager_step_iff accounts orderly).mpr eager

end Machine

/-! Acts -/

namespace Heap

variable {h k : Heap} {owned owned' : Addr → Nat} {rule : Rule}

theorem Tidy.transfer (tidy : h.Tidy) (same : Same Object.face h k)
    (registry : k.collector.registry.Perm h.collector.registry) : k.Tidy := by
  have standing := same.standing_of_face
  have shape := standing.shape_of_standing
  constructor
  · intro a live
    rw [standing.countAt]
    exact tidy.vital a ((shape.live_iff a).mp live)
  · intro a live
    rw [shape.claimedAt]
    exact tidy.unclaimed a ((shape.live_iff a).mp live)
  · intro a live isSet
    rw [same.bufferedAt] at isSet
    rw [holds_perm registry]
    exact tidy.mirrored a ((shape.live_iff a).mp live) isSet

theorem Tidy.changed (tidy : h.Tidy) {a : Addr} {o p : Object} (changed : Changed h a p k)
    (there : h.objects[a]? = some o) (valid : p.valid = o.valid) (positive : 0 < p.count)
    (unclaimed : p.claimed = o.claimed)
    (bit : h.Live a → p.buffered = true → k.collector.registry.holds a = true)
    (others : ∀ b, h.collector.registry.holds b = true → k.collector.registry.holds b = true) :
    k.Tidy := by
  have alive := changed.live_iff there valid
  constructor
  · intro b live
    by_cases here : b = a
    · subst here
      rw [changed.countAt_here]
      exact positive
    · rw [changed.countAt_others b here]
      exact tidy.vital b ((alive b).mp live)
  · intro b live
    have before := tidy.unclaimed b ((alive b).mp live)
    by_cases here : b = a
    · subst here
      rw [changed.claimedAt_here, unclaimed]
      rwa [claimedAt_of_there there] at before
    · rw [changed.claimedAt_others b here]
      exact before
  · intro b live isSet
    by_cases here : b = a
    · subst here
      rw [bufferedAt, changed.here] at isSet
      exact bit ((alive b).mp live) isSet
    · rw [bufferedAt, changed.others b here] at isSet
      exact others b (tidy.mirrored b ((alive b).mp live) isSet)

theorem Tidy.raised {a : Addr} (tidy : h.Tidy) (raised : h.Raised a k) : k.Tidy := by
  obtain ⟨o, word, there, positive, count, bit⟩ := raised
  refine tidy.changed (Changed.of_update (fun o : Object => { o with word }) there) there rfl ?_ rfl
    ?_ fun _ => id
  · simp only [Object.count, count]
    omega
  · intro live isSet
    apply tidy.mirrored a live
    simpa [bufferedAt, there, Object.buffered, bit] using isSet

theorem Tidy.stored (tidy : h.Tidy) (a : Addr) (o : Object) (slot : Nat) (value : Option Addr)
    (there : h.objects[a]? = some o) (valid : o.valid = true) : (h.storeRef a slot value).Tidy := by
  have live : h.Live a := (h.live_iff a).mpr ⟨o, there, valid⟩
  have positive : 0 < o.count := by simpa only [countAt_of_there there] using tidy.vital a live
  have marked : o.buffered = true → h.collector.registry.holds a = true := fun isSet =>
    tidy.mirrored a live ((bufferedAt_of_there there).trans isSet)
  exact tidy.changed (Changed.of_update _ there) there rfl positive rfl (fun _ => marked) fun _ => id

theorem Act.tidy (act : Act rule h owned k owned') (tidy : h.Tidy) : k.Tidy := by
  cases act with
  | quiet same ledger pool books auto room registry => exact tidy.transfer same registry
  | declared type tracer absent ledger done =>
      rw [done]
      exact ⟨tidy.vital, tidy.unclaimed, tidy.mirrored⟩
  | made a size type destructor ledger done =>
      have born := alloc_born size type destructor a done
      obtain ⟨_, _, _, _, _, _, collector, _⟩ := alloc_spec size type destructor a done
      obtain ⟨o, there, _, unclaimed, one, clear, _⟩ := born.here
      have old : ∀ b, k.Live b → b ≠ a → h.Live b := fun b live apart =>
        ((born.live b).mp live).resolve_left apart
      constructor
      · intro b live
        rw [born.countAt]
        split
        · exact Nat.one_pos
        · exact tidy.vital b (old b live ‹_›)
      · intro b live
        by_cases here : b = a
        · simp [claimedAt, here, there, unclaimed]
        · rw [claimedAt, born.others b here]
          exact tidy.unclaimed b (old b live here)
      · intro b live isSet
        by_cases here : b = a
        · simp [bufferedAt, here, there, clear] at isSet
        · rw [bufferedAt, born.others b here] at isSet
          rw [collector]
          exact tidy.mirrored b (old b live here) isSet
  | raised a raised ledger => exact tidy.raised raised
  | registered a o there valid ledger changed registry =>
      have positive := tidy.vital a ((h.live_iff a).mpr ⟨o, there, valid⟩)
      refine tidy.changed changed there rfl ?_ rfl (fun _ _ => ?_) fun b holds => ?_
      · simpa [countAt, there, Object.count, CountWord.count_setBuffered] using positive
      · rw [registry, holds_cons]
        simp
      · rw [registry, holds_cons, holds, Bool.or_true]
  | taken a o slot there valid inside ledger done =>
      rw [done]
      exact tidy.stored a o slot none there valid
  | assigned a b l o slot raised there valid inside reports ledger done =>
      rw [done]
      exact (tidy.raised raised).stored a o slot (some b) there valid

theorem Act.recorded (act : Act rule h owned k owned') (recorded : h.Recorded) : k.Recorded := by
  cases act with
  | quiet same ledger pool books auto room registry =>
      exact fun entry member => recorded entry (registry.mem_iff.mp member)
  | declared type tracer absent ledger done => exact done ▸ recorded
  | made a size type destructor ledger done =>
      obtain ⟨_, _, _, _, _, _, collector, _⟩ := alloc_spec size type destructor a done
      rw [Recorded, collector]
      exact recorded
  | raised a raised ledger =>
      cases raised
      exact recorded
  | registered a o there valid ledger changed registry =>
      intro entry member
      rw [registry, List.mem_cons] at member
      rcases member with isNew | old
      · rw [isNew]
        exact CountWord.toNat_count_lt _
      · exact recorded entry old
  | taken a o slot there valid inside ledger done => exact done ▸ recorded
  | assigned a b l o slot raised there valid inside reports ledger done =>
      cases raised
      exact done ▸ recorded

theorem Act.eager (act : Act rule h owned k owned') (roomy : rule.roomy) (eager : h.Eager) :
    k.Eager := by
  cases act with
  | quiet same ledger pool books auto room registry =>
      refine ⟨auto.trans eager.1, ?_⟩
      rcases room with same | grows
      · exact same.trans eager.2
      · exact grows roomy
  | declared type tracer absent ledger done => exact done ▸ eager
  | made a size type destructor ledger done =>
      obtain ⟨_, _, _, _, _, _, collector, auto, _⟩ := alloc_spec size type destructor a done
      rw [Eager, collector, auto]
      exact eager
  | raised a raised ledger =>
      cases raised
      exact eager
  | registered a o there valid ledger changed registry =>
      have frame := changed.rest
      rw [frame]
      exact eager
  | taken a o slot there valid inside ledger done => exact done ▸ eager
  | assigned a b l o slot raised there valid inside reports ledger done =>
      cases raised
      exact done ▸ eager

end Heap

namespace Machine

theorem Tidy.collect {m : Machine} (tidy : m.heap.Tidy) : m.collect.Tidy := by
  refine Tidy.of_heap ⟨tidy.vital, tidy.unclaimed, fun a live isSet => ?_⟩ fun entry member => ?_
  · exact (m.heap.startPass_registry a).mpr ⟨tidy.mirrored a live isSet, live, tidy.unclaimed a live⟩
  · rw [m.heap.startPass_entries entry member, Heap.countAt]
    cases m.heap.objects[entry.object]? with
    | none => exact Nat.two_pow_pos 31
    | some o => exact o.word.toNat_count_lt

end Machine

namespace Client

variable {rule : Rule} {c d : Client}

theorem Small.tidy (small : Small rule c d) (sound : c.machine.Sound c.owned)
    (tidy : c.machine.Tidy) : d.machine.Tidy := by
  cases small with
  | act idle act =>
      have heap := tidy.heap (Machine.calm_of_idle idle)
      exact Machine.Tidy.of_heap (act.tidy heap) (act.recorded tidy.recorded)
  | hand a idle owns =>
      have undoomed := fun b => ((Machine.calm_of_idle idle).parts b).2.2
      exact tidy.transfer (Same.refl _) (fun b doomed => absurd doomed (undoomed b)) (.refl _)
  | collect idle may => exact Machine.Tidy.collect (tidy.heap (Machine.calm_of_idle idle))
  | step => exact tidy.step sound.accounts sound.orderly

theorem Run.tidy (run : Run rule.AtRest c d) (sound : c.machine.Sound c.owned)
    (tidy : c.machine.Tidy) : d.machine.Tidy :=
  (run.keeps (fun _ _ => Small.tidy) sound tidy).2

theorem fresh_tidy (settings : Settings) (entropy : UInt64) :
    (fresh (.initial settings entropy)).machine.Tidy := by
  have dead : ∀ a, ¬ (Heap.initial settings entropy).Live a := Heap.initial_dead
  apply Machine.Tidy.of_heap
  · exact ⟨fun a live => absurd live (dead a), fun a live => absurd live (dead a),
      fun a live => absurd live (dead a)⟩
  · simp [fresh, Heap.initial, Heap.Recorded]

theorem Small.eager (small : Small rule c d) (roomy : rule.roomy)
    (sound : c.machine.Sound c.owned) (eager : c.machine.heap.Eager) : d.machine.heap.Eager := by
  cases small with
  | act idle act => exact act.eager roomy eager
  | hand a idle owns => exact eager
  | collect idle may => exact eager
  | step => exact Machine.eager_step sound.accounts sound.orderly eager

end Client

end CountedHeap
