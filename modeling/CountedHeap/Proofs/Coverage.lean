import CountedHeap.Proofs.Exactness
import CountedHeap.Proofs.Tidy

/-!
Nothing that is live is lost from sight: it is reached from an owned object or from a candidate. While
work waits, what is about to be released or unloaded stands in for what held it.
-/

namespace CountedHeap

open Client (gain gain_of_ne lose)
open Heap (Same Changed)

namespace Heap

variable {h k : Heap} {owned owned' : Addr → Nat}

/-- Every live object is reached from an owned object or from a candidate. -/
def Covered (h : Heap) (owned : Addr → Nat) : Prop :=
  ∀ a, h.Live a →
    Reached h.Points (fun b => 0 < owned b ∨ h.collector.registry.holds b = true) a

theorem Reported.traced (reported : h.Reported) {a b : Addr} (points : h.Points a b) :
    h.tracedAt a = true := by
  have drops := reported.drops_eq a b points.1
  by_contra untraced
  rw [Heap.drops, if_neg untraced] at drops
  have positive := points.2
  omega

end Heap

namespace Machine

variable {m n : Machine} {owned : Addr → Nat} {a : Addr} {t : Task} {rest news : List Task}

/-- What a machine at work still has in sight. -/
def Source (m : Machine) (owned : Addr → Nat) (a : Addr) : Prop :=
  0 < owned a ∨ m.heap.collector.registry.holds a = true ∨ 0 < m.pending a ∨ m.Unloading a

def Points (m : Machine) (a b : Addr) : Prop := a ∈ m.loaded ∧ 0 < m.heap.edges a b

def Covered (m : Machine) (owned : Addr → Nat) : Prop :=
  ∀ a, m.heap.Live a → ¬ m.Doomed a → Reached m.Points (m.Source owned) a

theorem Calm.covered_iff (calm : m.Calm) : m.Covered owned ↔ m.heap.Covered owned := by
  have points : m.Points = m.heap.Points := by
    funext a b
    rw [Points, calm.loaded, Heap.mem_live, Heap.Points]
  have source : m.Source owned =
      fun b => 0 < owned b ∨ m.heap.collector.registry.holds b = true := by
    funext a
    simp [Source, (calm.parts a).1, (calm.parts a).2.1]
  rw [Covered, Heap.Covered, points, source]
  exact ⟨fun covered a live => covered a live (calm.parts a).2.2, fun covered a live _ => covered a live⟩

theorem pending_pos_iff (m : Machine) (a : Addr) :
    0 < m.pending a ↔ m.tasks.any (·.releases a) = true := by
  rw [pending, List.countP_pos_iff, List.any_eq_true]

theorem any_stays (tasks : m.tasks = t :: rest) (after : n.tasks = news ++ rest) (ask : Task → Bool)
    (asked : m.tasks.any ask = true) : ask t = true ∨ n.tasks.any ask = true := by
  rw [tasks, List.any_cons, Bool.or_eq_true] at asked
  rw [after, List.any_append, Bool.or_eq_true]
  tauto

theorem any_came (tasks : m.tasks = t :: rest) (after : n.tasks = news ++ rest) (ask : Task → Bool)
    (asked : n.tasks.any ask = true) : news.any ask = true ∨ m.tasks.any ask = true := by
  rw [after, List.any_append, Bool.or_eq_true] at asked
  rw [tasks, List.any_cons, Bool.or_eq_true]
  tauto

/-- A step that has all in sight that was, and destroys nothing that was not to be destroyed. -/
theorem Covered.transfer (covered : m.Covered owned) (points : ∀ a b, m.Points a b → n.Points a b)
    (sources : ∀ a, m.Source owned a → n.Source owned a)
    (fewer : ∀ a, n.heap.Live a → ¬ n.Doomed a → m.heap.Live a ∧ ¬ m.Doomed a) :
    n.Covered owned := by
  intro a live safe
  obtain ⟨wasLive, wasSafe⟩ := fewer a live safe
  exact (covered a wasLive wasSafe).mono points sources

/-! What one task leaves in sight -/

section Pop

variable {b c : Addr} (tasks : m.tasks = t :: rest) (after : n.tasks = news ++ rest)

include tasks after

theorem unloading_stays (other : t.unloads b = false) (waits : m.Unloading b) : n.Unloading b := by
  apply (any_stays tasks after (·.unloads b) waits).resolve_left
  rw [other]
  exact Bool.false_ne_true

theorem Source.stays (source : m.Source owned b)
    (registry : m.heap.collector.registry.holds b = true →
      n.heap.collector.registry.holds b = true)
    (releases : t.releases b = false) (unloads : m.Unloading b → n.Unloading b) :
    n.Source owned b := by
  rcases source with owns | holds | waits | waits
  · exact Or.inl owns
  · exact Or.inr (Or.inl (registry holds))
  · rw [pending_pos_iff] at waits
    refine Or.inr (Or.inr (Or.inl ((n.pending_pos_iff b).mpr ?_)))
    apply (any_stays tasks after (·.releases b) waits).resolve_left
    rw [releases]
    exact Bool.false_ne_true
  · exact Or.inr (Or.inr (Or.inr (unloads waits)))

theorem Points.stays (edge : m.Points b c) (live : n.heap.Live b)
    (edges : n.heap.edges b c = m.heap.edges b c) (unloads : m.Unloading b → n.Unloading b)
    (reclaims : news.any (·.reclaims b) = true → n.Unloading b) : n.Points b c := by
  obtain ⟨_, loaded⟩ := (m.mem_loaded b).mp edge.1
  refine ⟨(n.mem_loaded b).mpr ⟨live, fun doomed => ?_⟩, edges ▸ edge.2⟩
  rcases any_came tasks after (·.reclaims b) doomed with isNew | old
  · exact reclaims isNew
  · exact unloads (loaded old)

end Pop

/-- A task that releases and reclaims nothing makes way for others. What it unloads is unloaded by one
of them. -/
theorem Covered.quiet (covered : m.Covered owned) (tasks : m.tasks = t :: rest)
    (after : n.tasks = news ++ rest) (same : Same Object.shape m.heap n.heap)
    (registry : n.heap.collector.registry = m.heap.collector.registry)
    (calm : ∀ a, t.releases a = false ∧ t.reclaims a = false)
    (unloads : ∀ a, t.unloads a = true → news.any (·.unloads a) = true)
    (reclaims : ∀ a, news.any (·.reclaims a) = false) : n.Covered owned := by
  have stillUnloading : ∀ b, m.Unloading b → n.Unloading b := by
    intro b waits
    rcases any_stays tasks after (·.unloads b) waits with first | later
    · rw [Unloading, after, List.any_append, unloads b first, Bool.true_or]
    · exact later
  apply covered.transfer
  · intro b c edge
    have live := ((m.mem_loaded b).mp edge.1).1
    refine edge.stays tasks after ((same.live_iff b).mpr live) (same.body_of_shape.edges b c)
      (stillUnloading b) fun isNew => ?_
    rw [reclaims] at isNew
    cases isNew
  · intro b source
    exact source.stays tasks after (registry ▸ id) (calm b).1 (stillUnloading b)
  · intro b live safe
    refine ⟨(same.live_iff b).mp live, fun doomed => safe ?_⟩
    exact doomed_pop tasks (fun c => (calm c).2) after b doomed

section Release

variable {o : Object} {last : Bool} {k : Heap} {word : CountWord}

-- The object of a release stays in sight if it holds anything: it is traced then, and enters the
-- registry, unless it is to be unloaded.
theorem source_released (tidy : m.Tidy) (accurate : m.Exact owned) (eager : m.heap.Eager)
    (tasks : m.tasks = .release a :: rest) (there : m.heap.objects[a]? = some o)
    (isLast : last = true ↔ o.count = 1 ∧ o.claimed = false)
    (noted : Heap.Noted m.heap a o last word n.heap)
    (after : n.tasks = (if last then Task.destruction a else []) ++ rest) (b : Addr)
    (points : m.Points a b) : n.Source owned a := by
  obtain ⟨live, loaded⟩ := (m.mem_loaded a).mp points.1
  cases last with
  | true =>
      exact Or.inr (Or.inr (Or.inr (by
        simp [Unloading, after, Task.destruction, Task.unloads])))
  | false =>
      cases claimed : o.claimed with
      | true =>
          have doomed := tidy.claimed a live ((Heap.claimedAt_of_there there).trans claimed)
          exact Or.inr (Or.inr (Or.inr (unloading_stays tasks after rfl (loaded doomed))))
      | false =>
          have traced : o.traced = true := by
            have isTraced := accurate.reported.traced ⟨live, points.2⟩
            rwa [Heap.tracedAt_of_there there] at isTraced
          have many : o.count ≠ 1 := fun one => Bool.noConfusion (isLast.mpr ⟨one, claimed⟩)
          rcases noted.survivor many claimed traced eager.1 eager.2 with before | holds
          · have registered := tidy.mirrored a live ((Heap.claimedAt_of_there there).trans claimed)
              ((Heap.bufferedAt_of_there there).trans before)
            exact Or.inr (Or.inl (noted.kept rfl registered))
          · exact Or.inr (Or.inl holds)

theorem Covered.released (covered : m.Covered owned) (tidy : m.Tidy) (accurate : m.Exact owned)
    (eager : m.heap.Eager) (tasks : m.tasks = .release a :: rest)
    (there : m.heap.objects[a]? = some o)
    (changed : Changed m.heap a { o with word, claimed := o.claimed || last } n.heap)
    (isLast : last = true ↔ o.count = 1 ∧ o.claimed = false)
    (noted : Heap.Noted m.heap a o last word n.heap)
    (after : n.tasks = (if last then Task.destruction a else []) ++ rest)
    (tidyAfter : n.Tidy) (exactAfter : n.Exact owned) : n.Covered owned := by
  have here := source_released tidy accurate eager tasks there isLast noted after
  have alive := changed.live_iff there rfl
  have body : Same Object.body m.heap n.heap := changed.same there rfl
  have unloads : ∀ b, m.Unloading b → n.Unloading b := fun b => unloading_stays tasks after rfl
  have safe : ∀ b, ¬ n.Doomed b → ¬ m.Doomed b := fun b notDoomed doomed =>
    notDoomed (doomed_pop tasks (fun _ => rfl) after b doomed)
  have sources : ∀ b, b ≠ a → m.Source owned b → n.Source owned b := by
    intro b apart source
    refine source.stays tasks after (fun holds => ?_) ?_ (unloads b)
    · rw [noted.others b apart]
      exact holds
    · exact beq_eq_false_iff_ne.mpr (Ne.symm apart)
  have points : ∀ b c, m.Points b c → n.Points b c := by
    intro b c edge
    have live := ((m.mem_loaded b).mp edge.1).1
    refine edge.stays tasks after ((alive b).mpr live) (body.edges b c) (unloads b) fun isNew => ?_
    cases last with
    | true =>
        simpa [Unloading, after, Task.destruction, Task.unloads, Task.reclaims] using Or.inl isNew
    | false => cases isNew
  -- The object itself may be out of sight for a moment, but then nothing hangs from it.
  have seen := fun b => Reached.around (b := b) sources (fun b c _ => points b c) fun c edge =>
    .edge (.root (here c edge)) (points a c edge)
  intro b live notDoomed
  rcases seen b (covered b ((alive b).mp live) (safe b notDoomed)) with still | isHere
  · exact still
  · subst isHere
    have unclaimed : n.heap.claimedAt b = false := by
      by_contra claimed
      exact notDoomed (tidyAfter.claimed b live (by simpa using claimed))
    have positive := tidyAfter.vital b live unclaimed
    rw [exactAfter.balanced b live, owed] at positive
    by_cases source : n.Source owned b
    · exact .root source
    · -- Its references are all in slots, and who has them is in sight.
      have held : 0 < n.held b := by
        simp only [Source, not_or] at source
        omega
      obtain ⟨c, loaded, holds⟩ := (n.held_pos_iff b).mp held
      obtain ⟨cLive, cLoaded⟩ := (n.mem_loaded c).mp loaded
      refine .edge ?_ ⟨loaded, holds⟩
      by_cases doomed : n.Doomed c
      · exact .root (Or.inr (Or.inr (Or.inr (cLoaded doomed))))
      · rcases seen c (covered c ((alive c).mp cLive) (safe c doomed)) with still | same
        · exact still
        · subst same
          have wasLoaded : c ∈ m.loaded :=
            (m.mem_loaded c).mpr ⟨(alive c).mp cLive, fun isDoomed => absurd isDoomed (safe c doomed)⟩
          rw [body.edges] at holds
          exact .root (here c ⟨wasLoaded, holds⟩)

end Release

theorem Covered.unloaded (covered : m.Covered owned) (accounts : m.Accounts owned)
    (accurate : m.Exact owned) (tasks : m.tasks = t :: rest) (unloads : t.unloads a = true)
    (row : List Addr) (dropped : ∀ b, m.heap.drops a b ≤ row.count b)
    (held : ∀ b, row.count b ≤ m.heap.edges a b) (same : n.heap = m.heap)
    (after : n.tasks = row.map .release ++ rest) : n.Covered owned := by
  obtain ⟨doomed, _, alive⟩ := accounts.unloads_live tasks unloads
  have only := unloads_only unloads
  have stillUnloading : ∀ b, b ≠ a → m.Unloading b → n.Unloading b := by
    intro b apart
    apply unloading_stays tasks after
    rw [(only b).2.2]
    exact beq_eq_false_iff_ne.mpr (Ne.symm apart)
  have sources : ∀ b, b ≠ a → m.Source owned b → n.Source owned b := by
    intro b apart source
    exact source.stays tasks after (same ▸ id) (only b).1 (stillUnloading b apart)
  have points : ∀ b c, b ≠ a → m.Points b c → n.Points b c := by
    intro b c apart edge
    have live := ((m.mem_loaded b).mp edge.1).1
    refine edge.stays tasks after (same ▸ live) (by rw [same]) (stillUnloading b apart)
      fun isNew => ?_
    rw [any_neutral _ _ fun u member => (row_parts row u member b).2.1] at isNew
    cases isNew
  -- What hung from the unloaded object waits to be released now.
  have listed : ∀ b, m.Points a b → n.Source owned b := by
    intro b edge
    have all := accurate.row alive dropped held b
    have member : b ∈ row := List.count_pos_iff.mp (by rw [all]; exact edge.2)
    refine Or.inr (Or.inr (Or.inl ((n.pending_pos_iff b).mpr ?_)))
    rw [after, List.any_append, Bool.or_eq_true, List.any_eq_true]
    exact Or.inl ⟨.release b, List.mem_map_of_mem member, beq_self_eq_true b⟩
  have seen := fun b => Reached.around (b := b) sources points fun c edge => .root (listed c edge)
  intro b live safe
  have pop := fun c => doomed_pop (n := n) tasks (fun d => (only d).2.1) after c
  refine (seen b (covered b (same ▸ live) fun isDoomed => safe (pop b isDoomed))).resolve_right ?_
  rintro rfl
  exact safe (pop b doomed)

theorem Covered.reclaimed (covered : m.Covered owned) (accounts : m.Accounts owned)
    (tasks : m.tasks = .reclaim a :: rest) (heap : n.heap = m.heap.reclaim a)
    (after : n.tasks = [] ++ rest) : n.Covered owned := by
  obtain ⟨_, _, _, _, unloaded, _⟩ := accounts.spent tasks
  obtain ⟨_, collector, _⟩ := m.heap.reclaim_frame a
  have alive := m.heap.reclaim_live a
  have unloads : ∀ b, m.Unloading b → n.Unloading b := fun b => unloading_stays tasks after rfl
  apply covered.transfer
  · intro b c edge
    have apart : b ≠ a := by
      rintro rfl
      exact unloaded edge.1
    have live := ((m.mem_loaded b).mp edge.1).1
    refine edge.stays tasks after (heap ▸ (alive b).mpr ⟨apart, live⟩) ?_ (unloads b)
      fun isNew => (by cases isNew)
    rw [heap, (m.heap.reclaim_body a).edges]
  · intro b source
    refine source.stays tasks after ?_ rfl (unloads b)
    rw [heap, collector]
    exact id
  · intro b stillLive safe
    rw [heap] at stillLive
    obtain ⟨apart, wasLive⟩ := (alive b).mp stillLive
    refine ⟨wasLive, fun doomed => ?_⟩
    rcases any_stays tasks after (·.reclaims b) doomed with first | later
    · exact apart (beq_iff_eq.mp first).symm
    · exact safe later

/-- A cascade loses nothing from sight. -/
theorem Covered.step (covered : m.Covered owned) (sound : m.Sound owned) (accurate : m.Exact owned)
    (tidy : m.Tidy) (eager : m.heap.Eager) (cascade : ∀ t ∈ m.tasks, t.cascades = true) :
    m.step.Covered owned := by
  have accounts := sound.accounts
  have orderly := sound.orderly
  have tidyAfter := tidy.step accounts orderly
  have exactAfter := accurate.step accounts orderly
  have effect := step_effect orderly
  cases effect with
  | resting idle same =>
      rw [same]
      exact covered
  | quiet t rest news tasks calm after calmNews cascades lighter same frame =>
      have parts := fun b => t.neutral_parts calm b
      have newParts := fun u (member : u ∈ news) => u.neutral_parts (calmNews u member).1
      refine covered.quiet tasks after same.standing_of_face.shape_of_standing (by rw [frame])
        (fun b => ⟨(parts b).1, (parts b).2.2⟩) (fun b unloads => ?_)
        fun b => any_neutral news _ fun u member => (newParts u member b).2.2
      rw [(parts b).2.1] at unloads
      cases unloads
  | reading a rest news tasks traced calmNews cascades light done =>
      have newParts := fun u (member : u ∈ news) => u.neutral_parts (calmNews u member).1
      have after : m.step.tasks = (news ++ [.releaseChildren a]) ++ rest := by simp [done]
      rw [done] at after ⊢
      refine covered.quiet tasks after (Same.refl _) rfl
        (fun b => ⟨rfl, rfl⟩) (fun b unloads => ?_) fun b => ?_
      · rw [List.any_append, Bool.or_eq_true]
        exact Or.inr (by simpa [Task.unloads] using unloads)
      · rw [List.any_append, any_neutral news _ fun u member => (newParts u member b).2.2]
        rfl
  | refused a rest tasks refused done => exact absurd (sound.releasable tasks) refused
  | released a o last k word rest tasks there valid changed count isLast noted done =>
      rw [done] at tidyAfter exactAfter ⊢
      exact covered.released tidy accurate eager tasks there changed isLast noted rfl tidyAfter
        exactAfter
  | unloaded a t rest row tasks unloads dropped held light done =>
      rw [done]
      exact covered.unloaded accounts accurate tasks unloads row dropped held rfl rfl
  | reclaimed a rest tasks done =>
      have after : m.step.tasks = [] ++ rest := by rw [done]; rfl
      exact covered.reclaimed accounts tasks (by rw [done]) after
  | ended p found done =>
      have impossible := cascade (.search p) (by rw [found.1]; exact List.mem_singleton_self _)
      cases impossible

end Machine

/-! Acts -/

namespace Heap

variable {h k : Heap} {owned owned' : Addr → Nat} {rule : Rule}

theorem Covered.transfer (covered : h.Covered owned) (same : Same Object.shape h k)
    (registry : ∀ a, h.collector.registry.holds a = true → k.collector.registry.holds a = true)
    (ledger : ∀ a, 0 < owned a → 0 < owned' a) : k.Covered owned' := by
  intro a live
  refine (covered a ((same.live_iff a).mp live)).mono (fun b c => (same.points b c).mpr) ?_
  intro b source
  exact source.imp (ledger b) (registry b)

theorem gain_pos (owned : Addr → Nat) (a b : Addr) (owns : 0 < owned b) : 0 < gain owned a b := by
  by_cases here : b = a
  · simp [here]
  · rw [gain_of_ne owned here]
    exact owns

theorem Covered.stored (covered : h.Covered owned) (a : Addr) (o : Object) (slot : Nat)
    (value : Option Addr) (there : h.objects[a]? = some o) (inside : slot < o.slotCount) :
    (h.storeRef a slot value).Covered ((o.payload.load slot).elim owned (gain owned)) := by
  have alive := h.store_live a slot value
  have ledger : ∀ b, 0 < owned b → 0 < (o.payload.load slot).elim owned (gain owned) b := by
    intro b owns
    cases o.payload.load slot with
    | none => exact owns
    | some c => exact gain_pos owned c b owns
  intro b live
  have reached := covered b ((alive b).mp live)
  induction reached with
  | root source => exact .root (source.imp (ledger _) id)
  | edge before edge ih =>
      rename_i c d
      by_cases previous : o.payload.load slot = some d
      · exact .root (Or.inl (by simp [previous, gain]))
      · refine .edge (ih ((alive c).mpr edge.1)) ⟨(alive c).mpr edge.1, ?_⟩
        have holds := edge.2
        by_cases here : a = c
        · subst here
          have moved := h.edges_store a o slot value there inside d
          rw [if_neg previous] at moved
          omega
        · rw [h.edges_store_others a c slot value here]
          exact holds

theorem Act.covered (act : Act rule h owned k owned') (sound : h.Sound owned)
    (covered : h.Covered owned) : k.Covered owned' := by
  cases act with
  | quiet same ledger pool books auto room registry =>
      refine covered.transfer same.standing_of_face.shape_of_standing (fun a holds => ?_) ?_
      · rw [holds_perm registry]
        exact holds
      · exact fun a owns => ledger ▸ owns
  | declared type tracer absent ledger done =>
      subst ledger done
      exact covered
  | made a size type destructor ledger done =>
      have born := alloc_born size type destructor a done
      have new := (sound.made size type destructor a done).1
      obtain ⟨_, _, _, _, _, _, collector, _⟩ := alloc_spec size type destructor a done
      intro b live
      rcases (born.live b).mp live with isNew | old
      · exact .root (Or.inl (by simp [ledger, gain, isNew]))
      · refine (covered b old).mono (fun c d edge => ?_) fun c source => ?_
        · have apart : c ≠ a := by
            rintro rfl
            exact new edge.1
          refine ⟨(born.live c).mpr (Or.inr edge.1), ?_⟩
          rw [born.edges, if_neg apart]
          exact edge.2
        · rw [ledger, collector]
          exact source.imp (gain_pos owned a c) id
  | raised a raised ledger =>
      have same := raised.same
      cases raised
      exact covered.transfer same (fun _ => id) fun b owns => ledger ▸ gain_pos owned a b owns
  | registered a o there valid ledger changed registry =>
      refine covered.transfer (changed.same there rfl) (fun b holds => ?_) fun b owns => ledger ▸ owns
      rw [registry, holds_cons, holds, Bool.or_true]
  | taken a o slot there valid inside ledger done =>
      rw [ledger, done]
      exact covered.stored a o slot none there inside
  | assigned a b l o slot raised there valid inside reports ledger done =>
      have same := raised.same
      have middle : l.Covered owned := by
        cases raised
        exact covered.transfer same (fun _ => id) fun _ => id
      rw [ledger, done]
      exact middle.stored a o slot (some b) there inside

end Heap

end CountedHeap
