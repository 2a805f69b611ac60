import CountedHeap.Heap
import Mathlib

/-!
Who holds whom. An object holds another once for each slot with its address; what it gives up when
it is destroyed is what its tracer reports, which is never more.
-/

namespace CountedHeap

namespace Payload

theorem slots_eq_map (p : Payload) : p.slots.toList = (List.range p.slots.size).map p.load := by
  apply List.ext_getElem?
  intro i
  rw [Array.getElem?_toList, List.getElem?_map]
  by_cases inside : i < p.slots.size
  · simp [inside, load]
  · simp [inside]

def holding (p : Payload) (b : Addr) : Nat := p.slots.toList.count (some b)

theorem holding_eq (p : Payload) (b : Addr) :
    p.holding b = (List.range p.slots.size).countP fun i => p.load i == some b := by
  rw [holding, slots_eq_map, List.count, List.countP_map]
  rfl

theorem load_blank (size slot : Nat) (beyond : List UInt8) :
    (blank size beyond).load slot = none := by
  simp only [load, blank, Array.getElem?_replicate]
  split <;> rfl

theorem size_store (p : Payload) (slot : Nat) (value : Option Addr) :
    (p.store slot value).slots.size = p.slots.size := by
  simp [store]

theorem load_store (p : Payload) (slot other : Nat) (value : Option Addr)
    (inside : slot < p.slots.size) :
    (p.store slot value).load other = if slot = other then value else p.load other := by
  simp only [load, store, Array.getElem?_setIfInBounds]
  by_cases same : slot = other
  · simp [same, same ▸ inside]
  · simp [same]

/-- Storing moves one slot from its old object to the new one. -/
theorem holding_store (p : Payload) (slot : Nat) (value : Option Addr) (b : Addr)
    (inside : slot < p.slots.size) :
    (p.store slot value).holding b + (if p.load slot = some b then 1 else 0) =
      p.holding b + (if value = some b then 1 else 0) := by
  have here : slot < p.slots.toList.length := inside
  have there : p.slots.toList[slot] = p.load slot := by
    simp [load, inside]
  have listed : (p.store slot value).slots.toList = p.slots.toList.set slot value := by
    simp [store]
  have counted : p.load slot = some b → 0 < p.slots.toList.count (some b) := by
    intro held
    rw [List.count_pos_iff, ← held, ← there]
    exact List.getElem_mem _
  rw [holding, holding, listed, List.count_set inside, there]
  simp only [beq_iff_eq]
  by_cases old : p.load slot = some b
  · have := counted old
    rw [if_pos old]
    omega
  · rw [if_neg old]
    omega

end Payload

namespace Tracer

/-- A tracer reports no slot twice, and none that is not there. -/
theorem slots_nodup (t : Tracer) (count : Nat) : (t.slots count).Nodup := by
  cases t with
  | span first stop => exact List.nodup_range'
  | last =>
      simp only [slots]
      split
      · exact List.nodup_nil
      · exact List.nodup_singleton _
  | silent => exact List.nodup_nil

theorem slots_inside (t : Tracer) (count slot : Nat) (reported : slot ∈ t.slots count) :
    slot < count := by
  cases t with
  | span first stop =>
      simp only [slots, List.mem_range'_1] at reported
      omega
  | last =>
      simp only [slots] at reported
      split at reported
      · cases reported
      · rw [List.mem_singleton] at reported
        omega
  | silent => cases reported

theorem children_count (t : Tracer) (p : Payload) (b : Addr) :
    (t.children p).count b = (t.slots p.slots.size).countP fun i => p.load i == some b := by
  rw [children, List.count_filterMap]

theorem children_le (t : Tracer) (p : Payload) (b : Addr) :
    (t.children p).count b ≤ p.holding b := by
  rw [children_count, p.holding_eq]
  apply List.Subperm.countP_le
  apply List.subperm_of_subset (t.slots_nodup _)
  intro slot reported
  exact List.mem_range.mpr (t.slots_inside _ slot reported)

/-- Where only reported slots hold anything, the tracer reports it all. -/
theorem children_all (t : Tracer) (p : Payload) (b : Addr)
    (reported : ∀ slot, p.load slot = some b → slot ∈ t.slots p.slots.size) :
    (t.children p).count b = p.holding b := by
  apply Nat.le_antisymm (t.children_le p b)
  rw [children_count, p.holding_eq, List.countP_eq_length_filter, List.countP_eq_length_filter]
  apply List.Subperm.length_le
  apply List.subperm_of_subset (List.nodup_range.filter _)
  intro slot member
  obtain ⟨_, held⟩ := List.mem_filter.mp member
  exact List.mem_filter.mpr ⟨reported slot (beq_iff_eq.mp held), held⟩

end Tracer

namespace Heap

def Live (h : Heap) (a : Addr) : Prop := (h.objects[a]?).any Object.valid = true

instance (h : Heap) (a : Addr) : Decidable (h.Live a) := inferInstanceAs (Decidable (_ = true))

theorem live_iff (h : Heap) (a : Addr) :
    h.Live a ↔ ∃ o, h.objects[a]? = some o ∧ o.valid = true := by
  rw [Live, Option.any_eq_true]

def live (h : Heap) : Finset Addr := (h.objects.keys.filter fun a => h.Live a).toFinset

theorem mem_live (h : Heap) (a : Addr) : a ∈ h.live ↔ h.Live a := by
  rw [live, List.mem_toFinset, List.mem_filter, decide_eq_true_eq, and_iff_right_iff_imp]
  intro isLive
  obtain ⟨o, there, _⟩ := (h.live_iff a).mp isLive
  rw [Std.TreeMap.mem_keys, ← Std.TreeMap.isSome_getElem?_iff_mem, there]
  rfl

theorem valid_eq (h : Heap) (a : Addr) (o : Object) :
    h.valid a = .ok o ↔ h.objects[a]? = some o ∧ o.valid = true := by
  unfold valid
  cases h.objects[a]? with
  | none => simp
  | some found =>
      by_cases isValid : found.valid = true
      · simp only [isValid, if_true, Except.ok.injEq, Option.some.injEq]
        constructor
        · rintro rfl
          exact ⟨rfl, isValid⟩
        · exact fun both => both.1
      · simp only [isValid, Option.some.injEq]
        constructor
        · intro impossible
          simp at impossible
        · rintro ⟨rfl, ok⟩
          exact absurd ok isValid

theorem valid_error_iff (h : Heap) (a : Addr) (fault : Fault) :
    h.valid a = .error fault ↔ ¬ h.Live a ∧ fault = .invalidObject a := by
  unfold valid Live
  cases h.objects[a]? with
  | none => simp [eq_comm]
  | some o => cases valid : o.valid <;> simp [valid, eq_comm]

def countAt (h : Heap) (a : Addr) : Nat := (h.objects[a]?).elim 0 Object.count

def tracedAt (h : Heap) (a : Addr) : Bool := (h.objects[a]?).any Object.traced

def claimedAt (h : Heap) (a : Addr) : Bool := (h.objects[a]?).any Object.claimed

def bufferedAt (h : Heap) (a : Addr) : Bool := (h.objects[a]?).any Object.buffered

section There

variable {h : Heap} {a : Addr} {o : Object} (there : h.objects[a]? = some o)

include there

theorem countAt_of_there : h.countAt a = o.count := by
  rw [countAt, there, Option.elim_some]

theorem tracedAt_of_there : h.tracedAt a = o.traced := by
  rw [tracedAt, there, Option.any_some]

theorem claimedAt_of_there : h.claimedAt a = o.claimed := by
  rw [claimedAt, there, Option.any_some]

theorem bufferedAt_of_there : h.bufferedAt a = o.buffered := by
  rw [bufferedAt, there, Option.any_some]

end There

def edges (h : Heap) (a b : Addr) : Nat := (h.objects[a]?).elim 0 (·.payload.holding b)

/-- How many references to another object one gives up when it is destroyed. -/
def drops (h : Heap) (a b : Addr) : Nat := if h.tracedAt a then (h.children a).count b else 0

def held (h : Heap) (b : Addr) : Nat := ∑ a ∈ h.live, h.edges a b

theorem children_le_edges (h : Heap) (a b : Addr) : (h.children a).count b ≤ h.edges a b := by
  unfold children edges tracer?
  cases h.objects[a]? with
  | none => simp
  | some o =>
      simp only [Option.bind_some, Option.elim_some]
      cases h.types[o.type]? with
      | none => simp
      | some t => exact t.children_le o.payload b

theorem drops_le_edges (h : Heap) (a b : Addr) : h.drops a b ≤ h.edges a b := by
  unfold drops
  split
  · exact h.children_le_edges a b
  · exact Nat.zero_le _

/-- Every reference in a slot of a live object is one that the tracer of its type reports. -/
def Reported (h : Heap) : Prop :=
  ∀ (a : Addr) (o : Object), h.objects[a]? = some o → o.valid = true →
    ∀ slot b, o.payload.load slot = some b →
      o.traced = true ∧ ∃ t, h.types[o.type]? = some t ∧ slot ∈ t.slots o.payload.slots.size

theorem Reported.drops_eq {h : Heap} (reported : h.Reported) (a b : Addr) (isLive : h.Live a) :
    h.drops a b = h.edges a b := by
  obtain ⟨o, there, valid⟩ := (h.live_iff a).mp isLive
  have known := reported a o there valid
  unfold drops tracedAt edges children tracer?
  simp only [there, Option.any_some, Option.elim_some, Option.bind_some]
  by_cases empty : ∀ slot, o.payload.load slot ≠ some b
  · have nothing : o.payload.holding b = 0 := by
      rw [o.payload.holding_eq, List.countP_eq_zero]
      intro slot _
      simpa using empty slot
    have fewer := h.drops_le_edges a b
    unfold drops tracedAt edges children tracer? at fewer
    simp only [there, Option.any_some, Option.elim_some, Option.bind_some] at fewer
    omega
  · rw [not_forall] at empty
    obtain ⟨slot, held⟩ := empty
    rw [ne_eq, not_not] at held
    obtain ⟨traced, t, type, _⟩ := known slot b held
    simp only [traced, if_true, type]
    apply t.children_all
    intro other alsoHeld
    obtain ⟨_, u, sameType, reportedSlot⟩ := known other b alsoHeld
    rw [type, Option.some.injEq] at sameType
    exact sameType ▸ reportedSlot

/-- One object is found from another through slots of live objects. -/
def Points (h : Heap) (a b : Addr) : Prop := h.Live a ∧ 0 < h.edges a b

theorem held_pos_iff (h : Heap) (b : Addr) : 0 < h.held b ↔ ∃ a, h.Points a b := by
  rw [held, Finset.sum_pos_iff]
  constructor
  · rintro ⟨a, member, positive⟩
    exact ⟨a, (h.mem_live a).mp member, positive⟩
  · rintro ⟨a, isLive, positive⟩
    exact ⟨a, (h.mem_live a).mpr isLive, positive⟩

/-- If a row of live objects accounts for all that is held of one, nobody else holds it. -/
theorem holders_within (h : Heap) (row : Finset Addr) (among : row ⊆ h.live) (b : Addr)
    (all : h.held b ≤ ∑ a ∈ row, h.edges a b) (a : Addr) (points : h.Points a b) : a ∈ row := by
  by_contra outside
  have split : ∑ c ∈ h.live \ row, h.edges c b + ∑ c ∈ row, h.edges c b = h.held b :=
    Finset.sum_sdiff among
  have counted : h.edges a b ≤ ∑ c ∈ h.live \ row, h.edges c b := by
    apply Finset.single_le_sum (f := fun c => h.edges c b) (fun _ _ => Nat.zero_le _)
    exact Finset.mem_sdiff.mpr ⟨(h.mem_live a).mpr points.1, outside⟩
  have positive := points.2
  omega

end Heap

end CountedHeap
