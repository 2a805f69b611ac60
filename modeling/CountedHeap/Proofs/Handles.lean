import CountedHeap.Proofs.Misuse
import CountedHeap.Proofs.Turns

/-!
Weak handles, whatever a client does. The table lists a slot under the object it names, once, for as
long as a handle to it is held; and an object in the table stands, or still has its handles before it
on the list of what is to be cleared. So no handle outlives its object, and none passes over to what is
made in the same block later.

A handle that was dropped cannot be copied: only handles that are held are.
-/

namespace CountedHeap

namespace WeakTable

variable {t u v : WeakTable} {a : Addr} {s : SlotId}

/-- The table and the slots say the same. -/
structure Orderly (t : WeakTable) : Prop where
  numbered : ∀ s, s ∈ t.slots ↔ s < t.slots.size
  names : ∀ a s, (a, s) ∈ t.listed → t.target? s = some a
  lists : ∀ a s, t.held s = true → t.target? s = some a → (a, s) ∈ t.listed
  once : (t.listed.map Prod.snd).Nodup

/-- Each slot in the list names the object it is listed under. This much holds of handles that were
dropped and copied later, too. -/
structure Filed (t : WeakTable) : Prop where
  numbered : ∀ s, s ∈ t.slots ↔ s < t.slots.size
  names : ∀ a s, (a, s) ∈ t.listed → t.target? s = some a

theorem Orderly.filed (orderly : t.Orderly) : t.Filed := ⟨orderly.numbered, orderly.names⟩

/-- A later state of the table: no slot is lost, and none that was made before gets back a handle or a
target. -/
structure Later (t u : WeakTable) : Prop where
  slots : ∀ s, s ∈ t.slots → s ∈ u.slots
  held : ∀ s, s ∈ t.slots → u.held s = true → t.held s = true
  targets : ∀ s a, s ∈ t.slots → u.target? s = some a → t.target? s = some a

theorem Later.refl (t : WeakTable) : Later t t := ⟨fun _ => id, fun _ _ => id, fun _ _ _ => id⟩

theorem Later.trans (first : Later t u) (second : Later u v) : Later t v := by
  constructor
  · exact fun s known => second.slots s (first.slots s known)
  · exact fun s known held => first.held s known (second.held s (first.slots s known) held)
  · exact fun s a known target =>
      first.targets s a known (second.targets s a (first.slots s known) target)

theorem orderly_empty : Orderly {} := by
  constructor
  · intro s
    simp
  · intro a s listed
    cases listed
  · intro a s isHeld
    simp [held] at isHeld
  · exact List.nodup_nil

theorem mem_of_target (target : t.target? s = some a) : s ∈ t.slots := by
  rw [← Std.TreeMap.isSome_getElem?_iff_mem]
  cases there : t.slots[s]? with
  | none => simp [target?, there] at target
  | some slot => rfl

theorem Filed.of_slots (filed : t.Filed) (mem : ∀ r, r ∈ u.slots ↔ r ∈ t.slots)
    (size : u.slots.size = t.slots.size) (targets : ∀ r, u.target? r = t.target? r)
    (listed : u.listed = t.listed) : u.Filed := by
  refine ⟨fun r => ?_, fun a r => ?_⟩
  · rw [mem, size]
    exact filed.numbered r
  · rw [listed, targets]
    exact filed.names a r

theorem Orderly.of_slots (orderly : t.Orderly) (mem : ∀ r, r ∈ u.slots ↔ r ∈ t.slots)
    (size : u.slots.size = t.slots.size) (held : ∀ r, u.held r = true → t.held r = true)
    (targets : ∀ r, u.target? r = t.target? r) (listed : u.listed = t.listed) :
    u.Orderly ∧ Later t u := by
  have filed := orderly.filed.of_slots mem size targets listed
  refine ⟨⟨filed.numbered, filed.names, fun a r isHeld => ?_, ?_⟩, ⟨fun r => (mem r).mpr,
    fun r _ => held r, fun r a _ => ?_⟩⟩
  · rw [listed, targets]
    exact orderly.lists a r (held r isHeld)
  · rw [listed]
    exact orderly.once
  · rw [targets]
    exact id

theorem modify_views (t : WeakTable) (s : SlotId) (change : WeakSlot → WeakSlot) (r : SlotId) :
    (t.slots.modify s change)[r]? =
      (t.slots[r]?).map fun slot => if s = r then change slot else slot := by
  by_cases here : s = r
  · simp [here]
  · simp [Std.TreeMap.getElem?_modify, here]

theorem modify_target (t : WeakTable) (s : SlotId) (change : WeakSlot → WeakSlot)
    (same : ∀ slot, (change slot).target = slot.target) (r : SlotId) :
    target? { t with slots := t.slots.modify s change } r = t.target? r := by
  simp only [target?, modify_views]
  cases t.slots[r]? with
  | none => rfl
  | some slot =>
      simp only [Option.map_some, Option.bind_some]
      split
      · exact same slot
      · rfl

theorem Filed.copied (filed : t.Filed) (s : SlotId) : (t.clone s).Filed :=
  filed.of_slots (fun _ => Std.TreeMap.mem_modify) Std.TreeMap.size_modify
    (t.modify_target s _ fun _ => rfl) rfl

theorem Filed.dropped (filed : t.Filed) (s : SlotId) : (t.drop s).Filed :=
  filed.of_slots (fun _ => Std.TreeMap.mem_modify) Std.TreeMap.size_modify
    (t.modify_target s _ fun _ => rfl) rfl

theorem Orderly.copied (orderly : t.Orderly) (held : t.held s = true) :
    (t.clone s).Orderly ∧ Later t (t.clone s) := by
  refine orderly.of_slots (fun r => Std.TreeMap.mem_modify) Std.TreeMap.size_modify (fun r => ?_)
    (t.modify_target s _ fun _ => rfl) rfl
  by_cases here : s = r
  · exact fun _ => here ▸ held
  · simp [WeakTable.held, clone, modify_views, here]

theorem Orderly.dropped (orderly : t.Orderly) (s : SlotId) :
    (t.drop s).Orderly ∧ Later t (t.drop s) := by
  refine orderly.of_slots (fun r => Std.TreeMap.mem_modify) Std.TreeMap.size_modify (fun r => ?_)
    (t.modify_target s _ fun _ => rfl) rfl
  simp only [held, drop, modify_views]
  cases t.slots[r]? with
  | none => exact id
  | some slot =>
      simp only [Option.map_some, Option.any_some, decide_eq_true_eq]
      split
      · exact fun more => Nat.lt_of_lt_of_le more (Nat.sub_le _ _)
      · exact id

theorem Orderly.recounted (orderly : t.Orderly) : t.resetStats.Orderly ∧ Later t t.resetStats :=
  orderly.of_slots (fun _ => Iff.rfl) rfl (fun _ => id) (fun _ => rfl) rfl

/-! New slots -/

theorem Filed.fresh (filed : t.Filed) (a : Addr) :
    t.slots[(t.insert a).1]? = none ∧ (t.insert a).2.held (t.insert a).1 = true ∧
      (t.insert a).2.target? (t.insert a).1 = some a := by
  refine ⟨?_, by simp [WeakTable.insert, held], by simp [WeakTable.insert, target?]⟩
  apply Std.TreeMap.getElem?_eq_none
  rw [filed.numbered]
  exact Nat.lt_irrefl _

theorem Orderly.fresh (orderly : t.Orderly) (a : Addr) :
    t.slots[(t.insert a).1]? = none ∧ (t.insert a).2.held (t.insert a).1 = true ∧
      (t.insert a).2.target? (t.insert a).1 = some a := orderly.filed.fresh a

theorem Filed.new (filed : t.Filed) : t.slots.size ∉ t.slots := fun known =>
  Nat.lt_irrefl _ ((filed.numbered _).mp known)

theorem Filed.old (filed : t.Filed) (a : Addr) (s : SlotId) (known : s ∈ t.slots) :
    (t.insert a).2.slots[s]? = t.slots[s]? := by
  have apart : t.slots.size ≠ s := fun same => filed.new (same ▸ known)
  simp [WeakTable.insert, Std.TreeMap.getElem?_insert, apart]

theorem listed_insert (t : WeakTable) (a b : Addr) (s : SlotId) :
    (b, s) ∈ (t.insert a).2.listed ↔
      ((b, s) ∈ t.listed ∧ (b ≠ a ∨ t.held s = true)) ∨ b = a ∧ s = t.slots.size := by
  simp [WeakTable.insert]

theorem Filed.inserted (filed : t.Filed) (a : Addr) : (t.insert a).2.Filed := by
  constructor
  · intro s
    have size : (t.insert a).2.slots.size = t.slots.size + 1 := by
      have absent : t.slots.contains t.slots.size = false := by
        rw [← Bool.not_eq_true, Std.TreeMap.contains_iff_mem]
        exact filed.new
      simp [WeakTable.insert, Std.TreeMap.size_insert, absent]
    have member : s ∈ (t.insert a).2.slots ↔ t.slots.size = s ∨ s ∈ t.slots := by
      simp [WeakTable.insert, Std.TreeMap.mem_insert]
    rw [member, size, filed.numbered, Nat.lt_succ_iff_lt_or_eq, or_comm, eq_comm]
  · intro b s listed
    rcases (t.listed_insert a b s).mp listed with ⟨before, _⟩ | ⟨rfl, rfl⟩
    · have names := filed.names b s before
      rw [target?, filed.old a s (mem_of_target names)]
      exact names
    · exact (filed.fresh b).2.2

theorem Orderly.inserted (orderly : t.Orderly) (a : Addr) :
    (t.insert a).2.Orderly ∧ Later t (t.insert a).2 := by
  have old := orderly.filed.old a
  have known : ∀ b s, (b, s) ∈ t.listed → s ∈ t.slots := fun b s listed =>
    mem_of_target (orderly.names b s listed)
  have filed := orderly.filed.inserted a
  constructor
  · refine ⟨filed.numbered, filed.names, ?_, ?_⟩
    · intro b s held target
      rw [listed_insert]
      by_cases here : s = t.slots.size
      · subst here
        have names := (orderly.fresh a).2.2.symm.trans target
        exact Or.inr ⟨(Option.some.inj names).symm, rfl⟩
      · have before : s ∈ t.slots := by
          have member := mem_of_target target
          simp only [WeakTable.insert, Std.TreeMap.mem_insert, compare_eq_iff_eq] at member
          exact member.resolve_left (Ne.symm here)
        rw [WeakTable.held, old s before] at held
        rw [target?, old s before] at target
        exact Or.inl ⟨orderly.lists b s held target, Or.inr held⟩
    · rw [WeakTable.insert, List.map_append, List.nodup_append]
      refine ⟨(List.filter_sublist.map Prod.snd).nodup orderly.once, List.nodup_singleton _, ?_⟩
      rintro s member r isNew rfl
      obtain ⟨⟨b, r⟩, kept, rfl⟩ := List.mem_map.mp member
      have same : r = t.slots.size := by simpa using isNew
      exact orderly.filed.new (same ▸ known b r (List.mem_filter.mp kept).1)
  · constructor
    · intro s before
      simp [WeakTable.insert, Std.TreeMap.mem_insert, before]
    · intro s before
      rw [WeakTable.held, old s before]
      exact id
    · intro s b before
      rw [target?, old s before]
      exact id

/-! Cleared slots -/

theorem clear_slots (mine : List SlotId) (slots : Std.TreeMap SlotId WeakSlot) :
    let cleared := mine.foldl (fun slots slot => slots.modify slot ({ · with target := none })) slots
    cleared.size = slots.size ∧ (∀ s, s ∈ cleared ↔ s ∈ slots) ∧
      ∀ s, cleared[s]? =
        (slots[s]?).map fun slot => if s ∈ mine then { slot with target := none } else slot := by
  induction mine generalizing slots with
  | nil => simp
  | cons r rest ih =>
      obtain ⟨size, mem, views⟩ := ih (slots.modify r ({ · with target := none }))
      refine ⟨size.trans Std.TreeMap.size_modify, fun s => (mem s).trans Std.TreeMap.mem_modify,
        fun s => ?_⟩
      rw [List.foldl_cons, views]
      by_cases here : r = s
      · subst here
        rw [Std.TreeMap.getElem?_modify_self]
        cases slots[r]? <;> simp
      · simp [Std.TreeMap.getElem?_modify, here, Ne.symm here]

theorem detach_slots (t : WeakTable) (a : Addr) : (t.detach a).slots.size = t.slots.size ∧
    (∀ s, s ∈ (t.detach a).slots ↔ s ∈ t.slots) ∧
    ∀ s, (t.detach a).slots[s]? = (t.slots[s]?).map fun slot =>
      if (a, s) ∈ t.listed ∧ t.held s = true then { slot with target := none } else slot := by
  obtain ⟨size, mem, views⟩ := clear_slots
    ((t.listed.filter fun entry => entry.1 == a && t.held entry.2).map Prod.snd) t.slots
  refine ⟨size, mem, fun s => ?_⟩
  have mine : s ∈ (t.listed.filter fun entry => entry.1 == a && t.held entry.2).map Prod.snd ↔
      (a, s) ∈ t.listed ∧ t.held s = true := by
    simp [and_assoc]
  simp only [← mine]
  exact views s

theorem detach_target (t : WeakTable) (a : Addr) (s : SlotId) : (t.detach a).target? s =
    if (a, s) ∈ t.listed ∧ t.held s = true then none else t.target? s := by
  rw [target?, (t.detach_slots a).2.2, target?]
  cases t.slots[s]? with
  | none => simp
  | some slot =>
      simp only [Option.map_some, Option.bind_some]
      split <;> rfl

theorem listed_detach (t : WeakTable) (a b : Addr) (s : SlotId) :
    (b, s) ∈ (t.detach a).listed ↔ (b, s) ∈ t.listed ∧ b ≠ a := by
  simp [detach]

theorem Filed.detached (filed : t.Filed) (a : Addr) : (t.detach a).Filed := by
  obtain ⟨size, mem, _⟩ := t.detach_slots a
  refine ⟨fun s => (mem s).trans ((filed.numbered s).trans (by rw [size])), fun b s listed => ?_⟩
  obtain ⟨before, apart⟩ := (t.listed_detach a b s).mp listed
  have names := filed.names b s before
  rw [detach_target, if_neg, names]
  rintro ⟨mine, _⟩
  exact apart (Option.some.inj (names.symm.trans (filed.names a s mine)))

theorem Filed.spared (filed : t.Filed) {a b : Addr} (apart : b ≠ a) {slot : WeakSlot}
    (names : slot.target = some b) (s : SlotId) :
    (t.detach a).slots[s]? = some slot ↔ t.slots[s]? = some slot := by
  rw [(t.detach_slots a).2.2, Option.map_eq_some_iff]
  constructor
  · rintro ⟨before, there, same⟩
    split at same
    · rw [← same] at names
      cases names
    · rw [there, same]
  · intro there
    refine ⟨slot, there, if_neg ?_⟩
    rintro ⟨mine, _⟩
    have target := filed.names a s mine
    rw [target?, there, Option.bind_some, names] at target
    exact apart (Option.some.inj target)

/-- After an object's handles are cleared, no handle names it; all others name what they did. -/
theorem Orderly.detached (orderly : t.Orderly) (a : Addr) :
    (t.detach a).Orderly ∧ Later t (t.detach a) ∧
      (∀ s, (t.detach a).held s = true → (t.detach a).target? s ≠ some a) ∧
      ∀ b s, (b, s) ∈ (t.detach a).listed → (b, s) ∈ t.listed ∧ b ≠ a := by
  obtain ⟨_, mem, after⟩ := t.detach_slots a
  have held : ∀ s, (t.detach a).held s = t.held s := by
    intro s
    rw [WeakTable.held, after, Option.any_map, WeakTable.held]
    congr 1
    funext slot
    split <;> rfl
  have target := t.detach_target a
  have filed := orderly.filed.detached a
  have targets : ∀ s b, (t.detach a).target? s = some b → t.target? s = some b := by
    intro s b names
    rw [target] at names
    split at names
    · cases names
    · exact names
  refine ⟨⟨filed.numbered, filed.names, fun b s isHeld names => ?_, ?_⟩,
    ⟨fun s => (mem s).mpr, fun s _ => (held s).symm ▸ id, fun s b _ => targets s b⟩,
    fun s isHeld names => ?_, fun b s => (t.listed_detach a b s).mp⟩
  · rw [held] at isHeld
    have before := orderly.lists b s isHeld (targets s b names)
    refine (t.listed_detach a b s).mpr ⟨before, ?_⟩
    rintro rfl
    rw [target, if_pos ⟨before, isHeld⟩] at names
    cases names
  · exact (List.filter_sublist.map Prod.snd).nodup orderly.once
  · rw [held] at isHeld
    have before := orderly.lists a s isHeld (targets s a names)
    rw [target, if_pos ⟨before, isHeld⟩] at names
    cases names

end WeakTable

open Event (destruction recount)
open Heap (Changed Marked Mild)
open WeakTable (Later)

/-- Weak handles are in order while certain tasks wait: the objects in the table are there, with their
flag, and one that is claimed waits for its handles to be cleared. -/
structure Heap.Named (h : Heap) (tasks : List Task) : Prop where
  table : h.weak.Orderly
  keys : ∀ a s, (a, s) ∈ h.weak.listed →
    h.Live a ∧ h.weakAt a = true ∧ (h.claimedAt a = true → .detach a ∈ tasks)

namespace Heap.Named

variable {h k : Heap} {tasks tasks' : List Task} {a : Addr}

/-- A change that leaves handles alone, and claims only what will be cleared of its handles. -/
theorem carried (named : h.Named tasks) (table : k.weak = h.weak)
    (kept : ∀ b s, (b, s) ∈ h.weak.listed → h.Live b → k.Live b ∧ k.weakAt b = h.weakAt b ∧
      (k.claimedAt b = true → h.claimedAt b = true ∨ .detach b ∈ tasks'))
    (more : ∀ b s, (b, s) ∈ h.weak.listed → .detach b ∈ tasks → .detach b ∈ tasks') :
    k.Named tasks' ∧ Later h.weak k.weak := by
  refine ⟨⟨table ▸ named.table, fun b s listed => ?_⟩, table ▸ .refl _⟩
  rw [table] at listed
  obtain ⟨live, flagged, waits⟩ := named.keys b s listed
  obtain ⟨still, flag, claims⟩ := kept b s listed live
  exact ⟨still, flag.trans flagged, fun claimed =>
    (claims claimed).elim (fun before => more b s listed (waits before)) id⟩

theorem relabelled {weak : WeakTable} (named : h.Named tasks)
    (table : weak.Orderly ∧ Later h.weak weak) (listed : weak.listed = h.weak.listed) :
    Heap.Named { h with weak } tasks ∧ Later h.weak weak :=
  ⟨⟨table.1, fun a s member => named.keys a s (listed ▸ member)⟩, table.2⟩

theorem downgraded {handle : SlotId} (named : h.Named tasks)
    (done : h.downgrade a = .ok (handle, k)) : k.Named tasks ∧ Later h.weak k.weak := by
  obtain ⟨o, there, valid, unclaimed, _, rfl⟩ := downgrade_spec done
  obtain ⟨orderly, later⟩ := named.table.inserted a
  have changed := Changed.of_update (h := h) (fun o : Object => { o with weak := true }) there
  refine ⟨⟨orderly, fun b s listed => ?_⟩, later⟩
  by_cases here : b = a
  · subst here
    refine ⟨(Heap.live_iff _ _).mpr ⟨_, changed.here, valid⟩, ?_, fun claimed => ?_⟩
    · simp [weakAt, changed.here]
    · simp only [claimedAt, changed.here, Option.any_some, unclaimed, Bool.false_eq_true] at claimed
  · have before : (b, s) ∈ h.weak.listed := by
      simp only [WeakTable.insert, List.mem_append, List.mem_singleton, Prod.mk.injEq, here,
        false_and, or_false] at listed
      exact (List.mem_filter.mp listed).1
    simpa [Live, weakAt, claimedAt, changed.others b here] using named.keys b s before

theorem batch (named : h.Named tasks) (objects : List Addr) :
    (h.downgradeBatch objects).2.Named tasks ∧ Later h.weak (h.downgradeBatch objects).2.weak := by
  refine downgradeBatch_keeps (fun k => k.Named tasks ∧ Later h.weak k.weak)
    (fun k l a handle before done => ?_) ⟨named, .refl _⟩ objects
  obtain ⟨names, later⟩ := before.1.downgraded done
  exact ⟨names, before.2.trans later⟩

theorem untouched {waits : Prop} (live : h.Live a) (same : k.objects[a]? = h.objects[a]?) :
    k.Live a ∧ k.weakAt a = h.weakAt a ∧ (k.claimedAt a = true → h.claimedAt a = true ∨ waits) := by
  refine ⟨?_, by rw [weakAt, same, weakAt], fun claimed => Or.inl ?_⟩
  · rwa [Live, same]
  · rwa [claimedAt, ← same]

theorem popped {t : Task} {rest : List Task} (named : h.Named (t :: rest)) (other : ∀ b, t ≠ .detach b) :
    h.Named rest := by
  refine ⟨named.table, fun b s listed => ?_⟩
  obtain ⟨live, flagged, waits⟩ := named.keys b s listed
  exact ⟨live, flagged, fun claimed =>
    (List.mem_cons.mp (waits claimed)).resolve_left (Ne.symm (other b))⟩

theorem detached {rest : List Task} (named : h.Named (.detach a :: rest)) :
    (h.detachWeak a).Named rest ∧ Later h.weak (h.detachWeak a).weak := by
  have left : ∀ b s, (b, s) ∈ h.weak.listed → b ≠ a →
      h.Live b ∧ h.weakAt b = true ∧ (h.claimedAt b = true → .detach b ∈ rest) := by
    intro b s listed apart
    obtain ⟨live, flagged, waits⟩ := named.keys b s listed
    exact ⟨live, flagged, fun claimed =>
      (List.mem_cons.mp (waits claimed)).resolve_left fun same => apart (Task.detach.inj same)⟩
  unfold Heap.detachWeak
  split
  · obtain ⟨orderly, later, _, entries⟩ := named.table.detached a
    refine ⟨⟨orderly, fun b s listed => ?_⟩, later⟩
    obtain ⟨before, apart⟩ := entries b s listed
    exact left b s before apart
  · rename_i unflagged
    refine ⟨⟨named.table, fun b s listed => left b s listed ?_⟩, .refl _⟩
    rintro rfl
    exact unflagged (named.keys b s listed).2.1

theorem reclaimed (named : h.Named tasks) (cleared : ∀ s, (a, s) ∉ h.weak.listed) :
    (h.reclaim a).Named tasks ∧ Later h.weak (h.reclaim a).weak := by
  have table : (h.reclaim a).weak = h.weak := by
    unfold Heap.reclaim
    split <;> rfl
  refine named.carried table (fun b s listed live => ?_) fun _ _ _ => id
  have apart : b ≠ a := by
    rintro rfl
    exact cleared s listed
  exact untouched live (h.reclaim_others a b apart)

theorem turn {m n : Machine} (named : m.heap.Named m.tasks) (marked : m.heap.Marked)
    (turn : m.Turn n) : n.heap.Named n.tasks ∧ Later m.heap.weak n.heap.weak := by
  cases turn with
  | mild news mild tasks =>
      refine named.carried mild.table (fun b _ _ live => ⟨(mild.live_iff b).mpr live, mild.weakAt b,
        fun claimed => Or.inl ?_⟩) fun b _ _ waits => ?_
      · rwa [← mild.claimedAt]
      · rw [tasks]
        exact List.mem_append_right _ waits
  | made size type destructor done =>
      rename_i a k
      obtain ⟨dead, _⟩ := marked.alloc done
      have born := Heap.alloc_born size type destructor a done
      refine named.carried (Heap.alloc_weak done) (fun b _ _ live => ?_) fun _ _ _ => id
      exact untouched live (born.others b fun here => dead (here ▸ live))
  | condemned word there valid unclaimed one zero changed =>
      rename_i a o k
      have table : k.weak = m.heap.weak := by rw [changed.rest]
      refine named.carried table (fun b _ _ live => ?_) fun b _ _ waits => List.mem_append_right _ waits
      by_cases here : b = a
      · subst here
        have flag : k.weakAt b = m.heap.weakAt b := by simp [weakAt, changed.here, there]
        have waits : .detach b ∈ Task.destruction b ++ m.tasks := by simp [Task.destruction]
        exact ⟨(Heap.live_iff _ _).mpr ⟨_, changed.here, valid⟩, flag, fun _ => Or.inr waits⟩
      · exact untouched live (changed.others b here)
  | named objects => exact named.batch objects
  | dropped handle => exact named.relabelled (named.table.dropped handle) rfl
  | recounted => exact named.relabelled named.table.recounted rfl

theorem finished (named : h.Named tasks) (marked : h.Marked) (pass : Pass) (news : List Task) :
    (h.finishPass pass).2.Named (Task.disposal (h.finishPass pass).1 ++ news ++ tasks) ∧
      Later h.weak (h.finishPass pass).2.weak := by
  obtain ⟨same, frame⟩ := h.finishPass_same Object.weak (fun _ => rfl) (fun _ _ => rfl) pass
  have table : (h.finishPass pass).2.weak = h.weak := by rw [frame]
  have flags : ∀ b, (h.finishPass pass).2.weakAt b = h.weakAt b := fun b =>
    same.any_eq b Object.weak id fun _ => rfl
  have finished := marked.finishPass pass
  refine named.carried table (fun b _ _ live => ?_) fun b _ _ waits => List.mem_append_right _ waits
  obtain ⟨o, there, valid⟩ := (h.live_iff b).mp live
  have view := finished.rights b
  rw [there, Option.map_some, Option.map_eq_some_iff] at view
  obtain ⟨p, found, equal⟩ := view
  simp only [Object.fate, Prod.mk.injEq] at equal
  obtain ⟨_, isValid, isClaimed, _⟩ := equal
  refine ⟨(Heap.live_iff _ _).mpr ⟨p, found, isValid.trans valid⟩, flags b, fun claimed => ?_⟩
  have parts : o.claimed = true ∨ b ∈ (h.finishPass pass).1 := by
    simpa [claimedAt, found, isClaimed] using claimed
  refine parts.imp (fun before => (claimedAt_of_there there).trans before) fun member => ?_
  simp [Task.disposal, member]

end Heap.Named

def Operation.copied? : Operation → Option SlotId
  | .call (.cloneHandle s) => some s
  | _ => none

namespace Machine

open Heap (Named)

variable {m n : Machine} {log events : List Event} {a : Addr} {s : SlotId}

theorem Told.early (told : m.Told log) (named : Named m.heap m.tasks)
    (listed : (a, s) ∈ m.heap.weak.listed) :
    ∃ destructor, recount a log = some ([], destruction a destructor) ∧
      (m.agenda a = [] ∨ m.agenda a = Task.destruction a) := by
  obtain ⟨live, _, waits⟩ := named.keys a s listed
  obtain ⟨course, stage, counted⟩ := told.stages a
  have due : m.heap.claimedAt a = true → .detach a ∈ m.agenda a := fun claimed =>
    List.mem_filter.mpr ⟨waits claimed, by simp [Task.concerns]⟩
  obtain ⟨o, there, valid⟩ := (m.heap.live_iff a).mp live
  have fate : m.heap.fateAt a = some (true, o.claimed, o.destructor) :=
    (Heap.fateAt_eq_some_iff ..).mpr ⟨o, there, valid, rfl, rfl⟩
  have isClaimed : m.heap.claimedAt a = o.claimed := Heap.claimedAt_of_there there
  rw [isClaimed] at due
  rw [fate] at stage
  generalize o.claimed = claimed at stage due
  generalize o.destructor = destructor at stage
  generalize m.agenda a = agenda at stage due ⊢
  cases stage with
  | standing => exact ⟨_, counted, Or.inl rfl⟩
  | claimed => exact ⟨_, counted, Or.inr rfl⟩
  | detached | running | finished | reading | unloaded => simp at due

theorem named_step (told : m.Told log) (named : Named m.heap m.tasks) :
    Named m.step.heap m.step.tasks ∧ Later m.heap.weak m.step.heap.weak := by
  cases tasks : m.tasks with
  | nil =>
      rw [step_nil tasks]
      exact ⟨named, .refl _⟩
  | cons t rest =>
      have waiting := named
      rw [tasks] at waiting
      have stepped := step_cases tasks
      generalize m.step = n at stepped
      cases stepped with
      | detached a => exact waiting.detached
      | reclaimed a =>
          -- An object that is reclaimed has been cleared of its handles before.
          refine (waiting.popped fun _ => by rintro ⟨⟩).reclaimed fun s listed => ?_
          obtain ⟨_, _, agenda⟩ := told.early named listed
          rw [agenda_cons tasks] at agenda
          simp [Task.concerns, Task.destruction] at agenda
      | finished pass => exact (waiting.popped fun _ => by rintro ⟨⟩).finished told.marked pass _
      | turn other turn =>
          have popped := waiting.popped fun b => (other b).1
          exact Named.turn (m := { m with tasks := rest }) popped told.marked turn

/-- Only a handle that is held can be copied. -/
def Copies (m : Machine) (operation : Operation) : Prop :=
  operation.copied?.all m.heap.weak.held = true

instance (m : Machine) (operation : Operation) : Decidable (m.Copies operation) :=
  inferInstanceAs (Decidable (_ = true))

theorem named_operate (told : m.Told log) (named : Named m.heap m.tasks) (operation : Operation)
    (copies : m.Copies operation) :
    Named (m.operate operation).heap (m.operate operation).tasks ∧
      Later m.heap.weak (m.operate operation).heap.weak := by
  by_cases copied : ∃ s, operation = .call (.cloneHandle s)
  · obtain ⟨s, rfl⟩ := copied
    exact named.relabelled (named.table.copied copies) rfl
  · exact named.turn told.marked (.operate m operation fun s here => copied ⟨s, here⟩)

/-- Runs of operations that are allowed where they come. -/
inductive RunUnder (rule : Machine → Operation → Prop) (m : Machine) :
    List Event → Machine → Prop where
  | start : RunUnder rule m [] m
  | operate {log : List Event} {n : Machine} (operation : Operation) (run : RunUnder rule m log n)
      (may : n.May operation) (allowed : rule n operation) :
      RunUnder rule m (log ++ n.told operation) (n.operate operation)
  | step {log : List Event} {n : Machine} (run : RunUnder rule m log n) :
      RunUnder rule m (log ++ n.tells) n.step

def PlaysUnder (rule : Machine → Operation → Prop) (m : Machine) : List (Operation × Nat) → Prop
  | [] => True
  | (operation, n) :: rest =>
      (m.May operation ∧ rule m operation) ∧ PlaysUnder rule ((m.operate operation).steps n) rest

instance decidablePlaysUnder (rule : Machine → Operation → Prop)
    [∀ m operation, Decidable (rule m operation)] (m : Machine) :
    (script : List (Operation × Nat)) → Decidable (m.PlaysUnder rule script)
  | [] => inferInstanceAs (Decidable True)
  | (operation, n) :: rest =>
      let _ := decidablePlaysUnder rule ((m.operate operation).steps n) rest
      inferInstanceAs (Decidable (_ ∧ _))

namespace RunUnder

variable {rule : Machine → Operation → Prop} {log' : List Event} {n' : Machine}

theorem steps (under : RunUnder rule m log n) (k : Nat) :
    RunUnder rule m (log ++ n.story k) (n.steps k) := by
  induction k generalizing n log with
  | zero => simpa [story, Machine.steps] using under
  | succ k ih => simpa [story, Machine.steps] using ih under.step

theorem play (under : RunUnder rule m log n) (script : List (Operation × Nat))
    (plays : n.PlaysUnder rule script) :
    RunUnder rule m (log ++ (n.play script).1) (n.play script).2 := by
  induction script generalizing n log with
  | nil => simpa [Machine.play] using under
  | cons first rest ih =>
      have done := ih ((under.operate first.1 plays.1.1 plays.1.2).steps first.2) plays.2
      simpa [Machine.play] using done

theorem run (under : RunUnder rule m log n) : Run m log n := by
  induction under with
  | start => exact .start
  | operate operation under may _ ih => exact ih.operate operation may
  | step under ih => exact ih.step

theorem trans (first : RunUnder rule m log n) (second : RunUnder rule n log' n') :
    RunUnder rule m (log ++ log') n' := by
  induction second with
  | start => rwa [List.append_nil]
  | operate operation _ may allowed ih =>
      rw [← List.append_assoc]
      exact ih.operate operation may allowed
  | step _ ih =>
      rw [← List.append_assoc]
      exact ih.step

theorem named (under : RunUnder Copies m log n) (start : m.Told []) (named : Named m.heap m.tasks) :
    Named n.heap n.tasks := by
  induction under with
  | start => exact named
  | operate operation under _ copies ih =>
      exact (named_operate (under.run.told start) ih operation copies).1
  | step under ih => exact (named_step (under.run.told start) ih).1

end RunUnder

/-- What is told while a handle names an object is not of that object's end, nor of another one made
in its place. -/
theorem named_tells (told : m.Told log) (named : Named m.heap m.tasks)
    (listed : (a, s) ∈ m.heap.weak.listed) :
    (∀ operation, ∀ event ∈ m.told operation, event ≠ .returned a ∧ event.makes a = false) ∧
      ∀ event ∈ m.tells, event ≠ .returned a ∧ event.makes a = false := by
  constructor
  · intro operation event member
    unfold Machine.told at member
    split at member
    · split at member
      · rename_i b k done
        rw [List.mem_singleton.mp member]
        refine ⟨by rintro ⟨⟩, beq_false_of_ne ?_⟩
        rintro rfl
        exact (told.marked.alloc done).1 (named.keys _ s listed).1
      · cases member
    · cases member
  · intro event member
    unfold tells at member
    split at member
    · obtain ⟨number, _, rfl⟩ := List.mem_map.mp member
      exact ⟨by rintro ⟨⟩, rfl⟩
    · rw [List.mem_singleton.mp member]
      exact ⟨by rintro ⟨⟩, rfl⟩
    · rename_i b rest tasks
      rw [List.mem_singleton.mp member]
      refine ⟨fun same => ?_, rfl⟩
      cases same
      obtain ⟨_, _, agenda⟩ := told.early named listed
      rw [agenda_cons tasks] at agenda
      simp [Task.concerns, Task.destruction] at agenda
    · cases member

namespace RunUnder

variable {log' : List Event} {n' : Machine}

/-- A handle that still names an object names the one that it named before. -/
theorem faithful (first : RunUnder Copies m log n) (start : m.Told [])
    (named : Named m.heap m.tasks) (second : RunUnder Copies n log' n') :
    Later n.heap.weak n'.heap.weak ∧
      ∀ s b, s ∈ n.heap.weak.slots → n'.heap.weak.held s = true → n'.heap.weak.target? s = some b →
        ∀ event ∈ log', event ≠ .returned b ∧ event.makes b = false := by
  -- What a last turn tells, in a state in which the handle was in the table already.
  have extend : ∀ {e f : Machine} {log : List Event} {news : List Event},
      RunUnder Copies n log e → Later n.heap.weak e.heap.weak → Later e.heap.weak f.heap.weak →
      (∀ s b, s ∈ n.heap.weak.slots → e.heap.weak.held s = true → e.heap.weak.target? s = some b →
        ∀ event ∈ log, event ≠ .returned b ∧ event.makes b = false) →
      (∀ s b, (b, s) ∈ e.heap.weak.listed →
        ∀ event ∈ news, event ≠ .returned b ∧ event.makes b = false) →
      Later n.heap.weak f.heap.weak ∧
        ∀ s b, s ∈ n.heap.weak.slots → f.heap.weak.held s = true → f.heap.weak.target? s = some b →
          ∀ event ∈ log ++ news, event ≠ .returned b ∧ event.makes b = false := by
    intro e f log news run before later silent tells
    refine ⟨before.trans later, fun s b known held target event member => ?_⟩
    have held' := later.held s (before.slots s known) held
    have target' := later.targets s b (before.slots s known) target
    have listed := (first.trans run).named start named |>.table.lists b s held' target'
    rcases List.mem_append.mp member with old | new
    · exact silent s b known held' target' event old
    · exact tells s b listed event new
  induction second with
  | start => exact ⟨.refl _, fun s b _ _ _ event member => by cases member⟩
  | operate operation run may copies ih =>
      have told := (first.trans run).run.told start
      have names := (first.trans run).named start named
      exact extend run ih.1 (named_operate told names operation copies).2 ih.2 fun s b listed =>
        (named_tells told names listed).1 operation
  | step run ih =>
      have told := (first.trans run).run.told start
      have names := (first.trans run).named start named
      exact extend run ih.1 (named_step told names).2 ih.2 fun s b listed =>
        (named_tells told names listed).2

end RunUnder

/-- Once its destructor is called, no handle names an object until another one is made in its place. -/
theorem Told.nameless (told : m.Told (log ++ events)) (named : Named m.heap m.tasks)
    {past due : List Event} (counted : recount a log = some (past, due)) (begun : past ≠ [])
    (unmade : ∀ event ∈ events, event.makes a = false) :
    (∀ s, m.heap.weak.held s = true → m.heap.weak.target? s ≠ some a) ∧
      m.heap.downgrade a = .error (.invalidObject a) := by
  obtain ⟨course, stage, total⟩ := told.stages a
  have begun' : course.1 ≠ [] := by
    rw [(Event.recount_unmade a log events past due course counted total unmade).1]
    simp [begun]
  constructor
  · intro s held target
    obtain ⟨destructor, early, _⟩ := told.early named (named.table.lists a s held target)
    rw [total, Option.some.injEq] at early
    exact begun' (congrArg Prod.fst early)
  · unfold Heap.downgrade Heap.valid
    cases there : m.heap.objects[a]? with
    | none => rfl
    | some o =>
        cases valid : o.valid with
        | false => simp [valid]
        | true =>
            have claimed : o.claimed = true := by
              have fate : m.heap.fateAt a = some (true, o.claimed, o.destructor) :=
                (Heap.fateAt_eq_some_iff ..).mpr ⟨o, there, valid, rfl, rfl⟩
              rw [fate] at stage
              generalize o.claimed = claimed at stage ⊢
              generalize o.destructor = destructor at stage
              generalize m.agenda a = agenda at stage
              cases stage with
              | standing => exact absurd rfl begun'
              | _ => rfl
            simp [valid, claimed]

end Machine

/-! Upgrades -/

namespace Heap

variable (h : Heap) (s : SlotId) (a : Addr)

theorem upgrade_some_iff : (h.upgrade s).1 = some a ↔ h.weak.target? s = some a ∧
    h.claimedAt a = false ∧ 0 < h.countAt a ∧ h.countAt a < CountWord.maxCount.toNat := by
  unfold upgrade
  cases target : h.weak.target? s with
  | none => simp
  | some b =>
      simp only [Option.some.injEq]
      cases there : h.objects[b]? with
      | none =>
          simp only [reduceCtorEq, false_iff]
          rintro ⟨rfl, _, positive, _⟩
          simp [countAt, there] at positive
      | some o =>
          have granted := o.word.upgrade_granted_iff o.claimed
          simp only
          cases answer : (o.word.upgrade o.claimed).1 with
          | true =>
              rw [answer] at granted
              simp only [if_true, Option.some.injEq]
              refine ⟨?_, And.left⟩
              rintro rfl
              simpa [claimedAt, countAt, there, Object.count] using granted
          | false =>
              rw [answer] at granted
              simp only [Bool.false_eq_true, false_iff] at granted
              simp only [Bool.false_eq_true, if_false, reduceCtorEq, false_iff]
              rintro ⟨rfl, rest⟩
              exact granted (by simpa [claimedAt, countAt, there, Object.count] using rest)

theorem upgrade_refused (refused : (h.upgrade s).1 = none) :
    (∀ b : Addr, (h.upgrade s).2.objects[b]? = h.objects[b]?) ∧
      (h.upgrade s).2 = { h with objects := (h.upgrade s).2.objects } := by
  unfold upgrade at refused ⊢
  split
  · exact ⟨fun _ => rfl, rfl⟩
  · rename_i b target
    simp only [target] at refused
    split
    · exact ⟨fun _ => rfl, rfl⟩
    · rename_i o there
      obtain ⟨bit, _, same⟩ := o.word.upgrade_spec o.claimed
      simp only [there] at refused
      cases answer : (o.word.upgrade o.claimed).1 with
      | true => simp [answer] at refused
      | false =>
          have word : (o.word.upgrade o.claimed).2 = o.word := CountWord.ext_views _ _ (same answer) bit
          refine ⟨fun c => ?_, rfl⟩
          simp only [word, getElem?_update]
          split
          · rename_i here
            rw [← here, there]
            rfl
          · rfl

theorem upgrade_raises (granted : (h.upgrade s).1 = some a) : h.Raised a (h.upgrade s).2 := by
  rcases Client.upgrade_raised h s with ⟨b, k, out, raised⟩ | ⟨k, out, _⟩
  · rw [out] at granted ⊢
    cases granted
    exact raised
  · rw [out] at granted
    cases granted

theorem isAlive_iff : h.isAlive s = true ↔
    ∃ a, h.weak.target? s = some a ∧ h.claimedAt a = false ∧ 0 < h.countAt a := by
  unfold isAlive weakTarget?
  rw [Option.isSome_iff_exists]
  simp only [Option.filter_eq_some_iff]
  refine exists_congr fun a => and_congr_right fun _ => ?_
  cases there : h.objects[a]? with
  | none => simp [countAt, there]
  | some o => simp [claimedAt, countAt, there, and_comm]

end Heap

namespace Machine

variable {log : List Event} {n : Machine} {a : Addr} {number : Nat}

theorem Told.running (told : n.Told log) (called : n.callback? = some (.destructor a number)) :
    ∃ due, recount a log = some ([.called a number], due) := by
  obtain ⟨course, stage, counted⟩ := told.stages a
  obtain ⟨rest, tasks⟩ := callback_tasks called
  rw [agenda_cons tasks] at stage
  simp only [Task.concerns, beq_self_eq_true, if_true, List.singleton_append] at stage
  generalize n.heap.fateAt a = fate at stage
  generalize rest.filter (Task.concerns a) = row at stage
  cases stage
  exact ⟨_, counted⟩

/-- What handles tell in a state, and what becomes of them from there on. -/
structure Faithful (n : Machine) : Prop where
  listed : ∀ a s, (a, s) ∈ n.heap.weak.listed → n.heap.Live a ∧ n.heap.weakAt a = true
  held : ∀ a s, n.heap.weak.held s = true → n.heap.weak.target? s = some a →
    n.heap.Live a ∧ n.heap.weak.listed.count (a, s) = 1 ∧ ∀ b, (b, s) ∈ n.heap.weak.listed → b = a
  fresh : ∀ a s k, n.heap.downgrade a = .ok (s, k) → n.heap.weak.slots[s]? = none ∧
    k.weak.held s = true ∧ k.weak.target? s = some a
  lasting : ∀ log' n', RunUnder Copies n log' n' → ∀ s a, s ∈ n.heap.weak.slots →
    n'.heap.weak.held s = true → n'.heap.weak.target? s = some a →
      n.heap.weak.target? s = some a ∧ ∀ event ∈ log', event ≠ .returned a ∧ event.makes a = false
  nameless : ∀ a number, n.callback? = some (.destructor a number) → ∀ log' n',
    RunUnder Copies n log' n' → (∀ event ∈ log', event.makes a = false) →
      (∀ s, n'.heap.weak.held s = true → n'.heap.weak.target? s ≠ some a) ∧
        n'.heap.downgrade a = .error (.invalidObject a)
  upgrades : ∀ s a, (n.heap.upgrade s).1 = some a ↔ n.heap.weak.target? s = some a ∧
    n.heap.claimedAt a = false ∧ 0 < n.heap.countAt a ∧ n.heap.countAt a < CountWord.maxCount.toNat
  raises : ∀ s a, (n.heap.upgrade s).1 = some a → n.heap.Raised a (n.heap.upgrade s).2
  refuses : ∀ s, (n.heap.upgrade s).1 = none →
    (∀ b : Addr, (n.heap.upgrade s).2.objects[b]? = n.heap.objects[b]?) ∧
      (n.heap.upgrade s).2 = { n.heap with objects := (n.heap.upgrade s).2.objects }
  alive : ∀ s, n.heap.isAlive s = true ↔ ∃ a, n.heap.weak.target? s = some a ∧
    n.heap.claimedAt a = false ∧ 0 < n.heap.countAt a

/-- A handle that is held and not cleared names the object it was made for, which was not reclaimed
since. The table lists it there once, and lists nothing but live objects that carry the flag. From the
call of its destructor on an object has no handle and gets none. An upgrade adds one reference where
the handle is not cleared and its object unclaimed, with a count that is neither zero nor full, and
changes nothing elsewhere; a handle is alive where it is not cleared and its object unclaimed, with a
count above zero. -/
theorem handles_faithful (settings : Settings) (entropy : UInt64) (heap : Heap)
    (made : Heap.create settings entropy = .ok heap) (log : List Event) (n : Machine)
    (run : RunUnder Copies { heap } log n) : n.Faithful := by
  obtain rfl := Heap.create_initial made
  have start := Told.initial settings entropy
  have empty : Heap.Named (.initial settings entropy) [] :=
    ⟨WeakTable.orderly_empty, fun a s listed => by cases listed⟩
  have told := run.run.told start
  have named := run.named start empty
  refine ⟨fun a s listed => ?_, fun a s held target => ?_, fun a s k done => ?_,
    fun log' n' later s a known held target => ?_, fun a number called log' n' later unmade => ?_,
    n.heap.upgrade_some_iff, n.heap.upgrade_raises, n.heap.upgrade_refused, n.heap.isAlive_iff⟩
  · obtain ⟨live, flagged, _⟩ := named.keys a s listed
    exact ⟨live, flagged⟩
  · have listed := named.table.lists a s held target
    refine ⟨(named.keys a s listed).1, ?_, fun b other => ?_⟩
    · exact List.count_eq_one_of_mem (.of_map _ named.table.once) listed
    · exact Option.some.inj ((named.table.names b s other).symm.trans target)
  · unfold Heap.downgrade at done
    split at done
    · cases done
    · split at done
      · cases done
      · cases done
        exact named.table.fresh a
  · obtain ⟨before, silent⟩ := run.faithful start empty later
    exact ⟨before.targets s a known target, silent s a known held target⟩
  · obtain ⟨due, counted⟩ := told.running called
    exact ((run.trans later).run.told start).nameless ((run.trans later).named start empty) counted
      (by simp) unmade

/-- An object with a handle and its copy loses its last reference, and its destructor is called. -/
def handlesScript : List (Operation × Nat) :=
  [(.call (.declare 1 (.leading 2)), 0), (.call (.alloc 16 1 (some 7)), 0),
    (.call (.downgrade 0x6b7000000000), 0), (.call (.cloneHandle 0), 0), (.call (.upgrade 0), 0),
    (.call (.dropHandle 0), 0), (.call (.release 0x6b7000000000), 0),
    (.call (.release 0x6b7000000000), 2)]

/-- The destructor asks for a handle, and in vain. The block goes to another object, which gets one. -/
def handlesSequel : List (Operation × Nat) :=
  [(.call (.downgrade 0x6b7000000000), 0), (.call (.upgrade 0), 5),
    (.call (.alloc 16 1 none), 0), (.call (.downgrade 0x6b7000000000), 0)]

theorem handles_faithful_reuse :
    let start : Machine := { heap := .initial {} 0 }
    let n := (start.play handlesScript).2
    let last := (n.play handlesSequel).2
    start.PlaysUnder Copies handlesScript ∧ n.PlaysUnder Copies handlesSequel ∧
      n.callback? = some (.destructor 0x6b7000000000 7) ∧ n.heap.weak.held 0 = true ∧
      n.heap.weak.target? 0 ≠ some 0x6b7000000000 ∧
      n.heap.downgrade 0x6b7000000000 = .error (.invalidObject 0x6b7000000000) ∧
      last.idle = true ∧ last.heap.weak.held 0 = true ∧
      last.heap.weak.target? 0 ≠ some 0x6b7000000000 ∧ last.heap.Live 0x6b7000000000 ∧
      last.heap.weak.listed.count (0x6b7000000000, 1) = 1 ∧
      (last.heap.upgrade 1).1 = some 0x6b7000000000 := by
  intro start n last
  have made : Heap.create {} 0 = .ok start.heap := Heap.create_valid {} 0 (by decide +kernel)
  have plays : start.PlaysUnder Copies handlesScript := by decide +kernel
  have goesOn : n.PlaysUnder Copies handlesSequel := by decide +kernel
  have called : n.callback? = some (.destructor 0x6b7000000000 7) := by decide +kernel
  have run := RunUnder.start.play handlesScript plays
  have held : n.heap.weak.held 0 = true := by decide +kernel
  have held' : last.heap.weak.held 0 = true := by decide +kernel
  have held'' : last.heap.weak.held 1 = true := by decide +kernel
  have target : last.heap.weak.target? 1 = some 0x6b7000000000 := by decide +kernel
  have before := handles_faithful {} 0 start.heap made _ n run
  have after := handles_faithful {} 0 start.heap made _ last (run.play handlesSequel goesOn)
  obtain ⟨unnamed, refused⟩ := before.nameless _ 7 called _ n .start (by simp)
  obtain ⟨live, once, _⟩ := after.held _ 1 held'' target
  have cleared : n.heap.weak.target? 0 ≠ some 0x6b7000000000 := unnamed 0 held
  have later := RunUnder.start.play (m := n) handlesSequel goesOn
  refine ⟨plays, goesOn, called, held, cleared, refused, by decide +kernel, held', fun names => ?_, live,
    once, ?_⟩
  · exact cleared (before.lasting _ last later 0 _ (by decide +kernel) held' names).1
  · exact (after.upgrades 1 _).mpr ⟨target, by decide +kernel, by decide +kernel, by decide +kernel⟩

end Machine

end CountedHeap
