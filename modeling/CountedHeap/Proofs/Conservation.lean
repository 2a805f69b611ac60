import CountedHeap.Proofs.ActiveHandles
import CountedHeap.Proofs.Transparency

/-!
The counters of weak handles against what happened to them. Every slot that was ever made has had one
of three lots: it still names its object, or its object was finalized first, or its last handle was
dropped first. What a slot holds tells which, and each counter is the number of slots with one lot.
-/

namespace CountedHeap

inductive Note where
  | issued (slot : SlotId) (object : Addr)
  | copied (slot : SlotId)
  | dropped (slot : SlotId)
  | finalized (object : Addr)
  deriving DecidableEq, Repr

/-- What has become of a slot. -/
inductive Lot where
  | unmade
  /-- It names the object, through one handle and so many copies. -/
  | active (object : Addr) (copies : Nat)
  /-- Its object was finalized while there was a handle. -/
  | nullified
  /-- Its last handle was dropped before its object was finalized. -/
  | lost
  deriving DecidableEq, Repr

namespace Note

def made : Note → List SlotId
  | issued s _ => [s]
  | _ => []

def issues (log : List Note) : List SlotId := log.flatMap made

theorem issues_append (log : List Note) (note : Note) :
    issues (log ++ [note]) = issues log ++ note.made := by
  simp [issues]

end Note

namespace Lot

def isActive : Lot → Bool
  | active _ _ => true
  | _ => false

/-- What one more note makes of the lot of a slot. -/
def next (s : SlotId) : Lot → Note → Lot
  | unmade, .issued r a => if r = s then active a 0 else unmade
  | active a n, .copied r => if r = s then active a (n + 1) else active a n
  | active a 0, .dropped r => if r = s then lost else active a 0
  | active a (n + 1), .dropped r => if r = s then active a n else active a (n + 1)
  | active a n, .finalized b => if b = a then nullified else active a n
  | lot, _ => lot

def after (s : SlotId) (log : List Note) : Lot := log.foldl (next s) unmade

variable {s : SlotId} {lot : Lot} {note : Note} {log : List Note}

theorem after_append (s : SlotId) (log : List Note) (note : Note) :
    after s (log ++ [note]) = (after s log).next s note := by
  rw [after, List.foldl_append]
  rfl

theorem next_eq_unmade_iff : lot.next s note = unmade ↔ lot = unmade ∧ s ∉ note.made := by
  cases lot with
  | unmade => cases note <;> grind [next, Note.made]
  | active a n => cases n <;> cases note <;> grind [next]
  | nullified | lost => simp [next]

theorem next_eq_nullified_iff : lot.next s note = nullified ↔
    lot = nullified ∨ ∃ a n, note = .finalized a ∧ lot = active a n := by
  cases lot with
  | unmade => cases note <;> grind [next]
  | active a n => cases n <;> cases note <;> grind [next]
  | nullified | lost => simp [next]

theorem next_issued {r : SlotId} (apart : r ≠ s) (a : Addr) : lot.next s (.issued r a) = lot := by
  cases lot <;> simp [next, apart]

theorem next_finalized {a : Addr} (spared : ∀ n, lot ≠ active a n) :
    lot.next s (.finalized a) = lot := by
  cases lot with
  | active b n =>
      have apart : a ≠ b := fun same => spared n (same ▸ rfl)
      cases n <;> simp [next, apart]
  | unmade | nullified | lost => rfl

theorem after_eq_unmade_iff : after s log = unmade ↔ s ∉ Note.issues log := by
  induction log using List.reverseRecOn with
  | nil => simp [after, Note.issues]
  | append_singleton log note ih =>
      rw [after_append, next_eq_unmade_iff, ih, Note.issues_append, List.mem_append, not_or]

theorem issued_of_active {a : Addr} {n : Nat} (isActive : after s log = active a n) :
    s ∈ Note.issues log := by
  by_contra missing
  rw [after_eq_unmade_iff.mpr missing] at isActive
  cases isActive

/-- A note nullifies the slots that name the object it finalizes, and no others. -/
theorem countP_nullified_append (apart : (Note.issues log).Nodup) {mine : List SlotId}
    (once : mine.Nodup) (new : ∀ s ∈ note.made, after s log = unmade)
    (isMine : ∀ s, s ∈ mine ↔ ∃ a n, note = .finalized a ∧ after s log = active a n) :
    ((Note.issues (log ++ [note])).countP fun s => after s (log ++ [note]) = nullified) =
      ((Note.issues log).countP fun s => after s log = nullified) + mine.length := by
  have nullified_iff : ∀ s, after s (log ++ [note]) = nullified ↔
      after s log = nullified ∨ s ∈ mine := fun s => by
    rw [after_append, next_eq_nullified_iff, isMine]
  have fresh : (note.made.countP fun s => after s (log ++ [note]) = nullified) = 0 := by
    rw [List.countP_eq_zero]
    intro s member
    simp [nullified_iff, isMine, new s member]
  have rows : ((Note.issues log).filter fun s => after s (log ++ [note]) = nullified).Perm
      (((Note.issues log).filter fun s => after s log = nullified) ++ mine) := by
    rw [List.perm_ext_iff_of_nodup (apart.filter _)]
    · intro s
      have issued : s ∈ mine → s ∈ Note.issues log := by
        rw [isMine]
        exact fun ⟨a, n, _, isActive⟩ => issued_of_active isActive
      simp only [List.mem_filter, List.mem_append, decide_eq_true_eq, nullified_iff]
      tauto
    · rw [List.nodup_append]
      refine ⟨apart.filter _, once, ?_⟩
      rintro s before r named rfl
      obtain ⟨a, n, _, isActive⟩ := (isMine s).mp named
      simp [isActive] at before
  rw [Note.issues_append, List.countP_append, fresh, Nat.add_zero, List.countP_eq_length_filter,
    rows.length_eq, List.length_append, ← List.countP_eq_length_filter]

end Lot

/-! What a slot holds -/

def WeakSlot.lot (slot : WeakSlot) : Lot :=
  match slot.target, slot.handles with
  | none, _ => .nullified
  | some _, 0 => .lost
  | some a, n + 1 => .active a n

namespace WeakTable

variable {t u : WeakTable} {a : Addr} {s : SlotId} {n : Nat} {note : Note} {log : List Note}

def lot (t : WeakTable) (s : SlotId) : Lot := (t.slots[s]?).elim .unmade WeakSlot.lot

theorem lot_eq_active_iff :
    t.lot s = .active a n ↔ t.slots[s]? = some { target := some a, handles := n + 1 } := by
  rw [lot]
  cases t.slots[s]? with
  | none => simp
  | some slot =>
      obtain ⟨target, handles⟩ := slot
      cases target <;> cases handles <;> simp [WeakSlot.lot]

theorem active_iff : (∃ n, t.lot s = .active a n) ↔ t.target? s = some a ∧ t.held s = true := by
  simp only [lot_eq_active_iff, target?, held]
  cases t.slots[s]? with
  | none => simp
  | some slot =>
      obtain ⟨target, handles⟩ := slot
      cases handles <;> simp

theorem Orderly.active_iff (orderly : t.Orderly) :
    (∃ n, t.lot s = .active a n) ↔ (a, s) ∈ t.listed ∧ t.held s = true := by
  rw [WeakTable.active_iff]
  constructor
  · exact fun ⟨names, isHeld⟩ => ⟨orderly.lists a s isHeld names, isHeld⟩
  · exact fun ⟨listed, isHeld⟩ => ⟨orderly.names a s listed, isHeld⟩

/-! One note -/

/-- The table after what a note tells. -/
structure Follows (t : WeakTable) (note : Note) (u : WeakTable) : Prop where
  orderly : u.Orderly
  lots : ∀ s, u.lot s = (t.lot s).next s note
  new : ∀ s ∈ note.made, t.lot s = .unmade
  created : u.created = t.created + note.made.length
  /-- The slots that lose their object now are counted, each once. -/
  nullified : ∃ mine : List SlotId, mine.Nodup ∧
    (∀ s, s ∈ mine ↔ ∃ a n, note = .finalized a ∧ t.lot s = .active a n) ∧
    u.nullified = t.nullified + mine.length

theorem Follows.uncleared (orderly : u.Orderly) (lots : ∀ s, u.lot s = (t.lot s).next s note)
    (inactive : ∀ s a n, note = .finalized a → t.lot s ≠ .active a n)
    (new : ∀ s ∈ note.made, t.lot s = .unmade)
    (created : u.created = t.created + note.made.length) (nullified : u.nullified = t.nullified) :
    Follows t note u :=
  ⟨orderly, lots, new, created, [], List.nodup_nil,
    fun s => ⟨fun member => absurd member List.not_mem_nil,
      fun ⟨a, n, isNote, isActive⟩ => absurd isActive (inactive s a n isNote)⟩, nullified⟩

namespace Orderly

theorem follows_issued (orderly : t.Orderly) (a : Addr) :
    Follows t (.issued (t.insert a).1 a) (t.insert a).2 := by
  obtain ⟨absent, _⟩ := orderly.fresh a
  have unmade : t.lot (t.insert a).1 = .unmade := by rw [lot, absent]; rfl
  refine .uncleared (orderly.inserted a).1 (fun s => ?_) (fun _ _ _ => by rintro ⟨⟩)
    (fun s member => List.mem_singleton.mp member ▸ unmade) rfl rfl
  by_cases here : s = (t.insert a).1
  · subst here
    rw [unmade, Lot.next, if_pos rfl]
    simp [lot, WeakTable.insert, WeakSlot.lot]
  · rw [lot, insert_slots t a s here, Lot.next_issued (Ne.symm here), lot]

theorem follows_copied (orderly : t.Orderly) (held : t.held s = true) :
    Follows t (.copied s) (t.clone s) := by
  refine .uncleared (orderly.copied held).1 (fun r => ?_) (fun _ _ _ => by rintro ⟨⟩)
    (fun r member => absurd member List.not_mem_nil) rfl rfl
  simp only [lot, clone, modify_views]
  cases there : t.slots[r]? with
  | none => rfl
  | some slot =>
      by_cases here : s = r
      · subst here
        rw [WeakTable.held, there] at held
        obtain ⟨target, handles⟩ := slot
        cases target <;> cases handles <;> simp_all [WeakSlot.lot, Lot.next]
      · obtain ⟨target, handles⟩ := slot
        cases target <;> cases handles <;> simp [WeakSlot.lot, Lot.next, here]

theorem follows_dropped (orderly : t.Orderly) (s : SlotId) : Follows t (.dropped s) (t.drop s) := by
  refine .uncleared (orderly.dropped s).1 (fun r => ?_) (fun _ _ _ => by rintro ⟨⟩)
    (fun r member => absurd member List.not_mem_nil) rfl rfl
  simp only [lot, drop, modify_views]
  cases t.slots[r]? with
  | none => rfl
  | some slot =>
      obtain ⟨target, handles⟩ := slot
      cases target with
      | none => by_cases here : s = r <;> simp [WeakSlot.lot, Lot.next, here]
      | some a =>
          rcases handles with _ | _ | n <;> by_cases here : s = r <;>
            simp [WeakSlot.lot, Lot.next, here]

theorem follows_finalized (orderly : t.Orderly) (a : Addr) : Follows t (.finalized a) (t.detach a) := by
  constructor
  case orderly => exact (orderly.detached a).1
  case lots =>
    intro s
    by_cases mine : (a, s) ∈ t.listed ∧ t.held s = true
    · obtain ⟨n, isActive⟩ := orderly.active_iff.mpr mine
      rw [isActive, lot, (t.detach_slots a).2.2, lot_eq_active_iff.mp isActive, Option.map_some,
        if_pos mine]
      cases n <;> simp [WeakSlot.lot, Lot.next]
    · have same : (t.detach a).slots[s]? = t.slots[s]? := by
        rw [(t.detach_slots a).2.2]
        simp [mine]
      rw [Lot.next_finalized fun n isActive => mine (orderly.active_iff.mp ⟨n, isActive⟩), lot, same, lot]
  case new => exact fun s member => absurd member List.not_mem_nil
  case created => rfl
  case nullified =>
    refine ⟨(t.listed.filter fun entry => entry.1 == a && t.held entry.2).map Prod.snd, ?_,
      fun s => ?_, rfl⟩
    · exact (List.filter_sublist.map Prod.snd).nodup orderly.once
    · have mine : s ∈ (t.listed.filter fun entry => entry.1 == a && t.held entry.2).map Prod.snd ↔
          (a, s) ∈ t.listed ∧ t.held s = true := by
        simp [and_assoc]
      rw [mine, ← orderly.active_iff]
      constructor
      · exact fun ⟨n, isActive⟩ => ⟨a, n, rfl, isActive⟩
      · rintro ⟨b, n, same, isActive⟩
        cases same
        exact ⟨n, isActive⟩

theorem follows_spared (orderly : t.Orderly) (inactive : ∀ s n, t.lot s ≠ .active a n) :
    Follows t (.finalized a) t := by
  refine .uncleared orderly (fun s => (Lot.next_finalized (inactive s)).symm) (fun s b n same => ?_)
    (fun s member => absurd member List.not_mem_nil) rfl rfl
  cases same
  exact inactive s n

end Orderly

/-! All notes -/

/-- The table as the notes since its first day tell it. -/
structure Kept (log : List Note) (t : WeakTable) : Prop where
  orderly : t.Orderly
  lots : ∀ s, t.lot s = Lot.after s log
  once : (Note.issues log).Nodup
  created : t.created = (Note.issues log).length
  nullified : t.nullified = (Note.issues log).countP fun s => Lot.after s log = .nullified

theorem kept_empty : Kept [] {} := by
  constructor
  case orderly => exact orderly_empty
  case lots => intro s; simp [lot, Lot.after]
  case once => exact List.nodup_nil
  case created => rfl
  case nullified => rfl

namespace Kept

theorem follow (kept : Kept log t) (follows : Follows t note u) : Kept (log ++ [note]) u := by
  have unmade : ∀ s ∈ note.made, s ∉ Note.issues log := fun s member =>
    Lot.after_eq_unmade_iff.mp ((kept.lots s).symm.trans (follows.new s member))
  constructor
  case orderly => exact follows.orderly
  case lots =>
    intro s
    rw [follows.lots, kept.lots, Lot.after_append]
  case once =>
    have single : note.made.Nodup := by cases note <;> simp [Note.made]
    rw [Note.issues_append, List.nodup_append]
    exact ⟨kept.once, single, fun s old r new same => unmade r new (same ▸ old)⟩
  case created => rw [Note.issues_append, List.length_append, follows.created, kept.created]
  case nullified =>
    obtain ⟨mine, once, isMine, count⟩ := follows.nullified
    rw [count, kept.nullified]
    refine (Lot.countP_nullified_append kept.once once (fun s member => ?_) fun s => ?_).symm
    · exact (kept.lots s).symm.trans (follows.new s member)
    · rw [isMine, kept.lots]

theorem active (kept : Kept log t) :
    t.stats.active = (Note.issues log).countP fun s => (Lot.after s log).isActive := by
  have same : t.inUse.Perm ((Note.issues log).filter fun s => (Lot.after s log).isActive) := by
    rw [List.perm_ext_iff_of_nodup _ (kept.once.filter _)]
    · intro s
      have inUse : s ∈ t.inUse ↔ ∃ a n, Lot.after s log = .active a n := by
        simp only [WeakTable.inUse, List.mem_map, List.mem_filter, Prod.exists, exists_eq_right,
          ← kept.lots, kept.orderly.active_iff]
      rw [inUse, List.mem_filter]
      cases lot : Lot.after s log with
      | active a n => simp [Lot.issued_of_active lot, Lot.isActive]
      | unmade | nullified | lost => simp [Lot.isActive]
    · exact (List.filter_sublist.map Prod.snd).nodup kept.orderly.once
  rw [active_eq, same.length_eq, List.countP_eq_length_filter]

end Kept

end WeakTable

theorem Lot.three_lots (log : List Note) (rows : List SlotId)
    (issued : ∀ s ∈ rows, s ∈ Note.issues log) :
    rows.length = (rows.countP fun s => (after s log).isActive) +
      (rows.countP fun s => after s log = nullified) + rows.countP fun s => after s log = lost := by
  induction rows with
  | nil => rfl
  | cons s rows ih =>
      have others := ih fun r member => issued r (List.mem_cons_of_mem s member)
      rw [List.length_cons, others]
      cases lot : after s log with
      | unmade => exact absurd (issued s List.mem_cons_self) (after_eq_unmade_iff.mp lot)
      | active a n => simp [lot, isActive]; omega
      | nullified => simp [lot, isActive]; omega
      | lost => simp [lot, isActive]; omega

/-! Notes of a machine -/

/-- The handles of a batch beside the objects that they were asked for. -/
def Note.batch : List Addr → List (Option SlotId) → List Note
  | a :: objects, some s :: row => .issued s a :: batch objects row
  | _ :: objects, none :: row => batch objects row
  | _, _ => []

def Operation.handles : Operation → Bool
  | .call (.downgrade _) | .call (.cloneHandle _) | .call (.dropHandle _) | .downgradeBatch _
  | .resetHandles => true
  | _ => false

def Operation.resets : Operation → Bool
  | .resetHandles => true
  | _ => false

namespace Machine

variable {m n : Machine} {log : List Note} {operation : Operation}

def notes (m : Machine) (operation : Operation) : List Note :=
  match operation, m.answer operation with
  | .call (.downgrade a), .handle s => [.issued s a]
  | .downgradeBatch objects, .handles row => Note.batch objects row
  | .call (.cloneHandle s), _ => [.copied s]
  | .call (.dropHandle s), _ => [.dropped s]
  | _, _ => []

def noting (m : Machine) : List Note :=
  match m.tasks with
  | .detach a :: _ => [.finalized a]
  | _ => []

theorem release_weak (m : Machine) (a : Addr) : (m.release a).heap.weak = m.heap.weak := by
  rcases m.release_cases a with ⟨_, _, k, _, _, _, lowered, after⟩ | after
  · rw [after]
    cases lowered with
    | fell _ word _ _ _ changed | entered _ word _ _ _ _ _ _ _ changed
    | condemned _ word _ _ _ changed => rw [push, changed.rest]
  · rw [after]
    rfl

theorem operate_other (other : operation.handles = false) :
    (m.operate operation).heap.weak = m.heap.weak ∧ m.notes operation = [] := by
  constructor
  · have operated := m.operate_cases operation
    generalize m.operate operation = n at operated
    cases operated with
    | edited given edits => exact edits.mild.table
    | made size type destructor done => exact Heap.alloc_weak done
    | released a | tried a => exact m.release_weak a
    | triggered =>
        simp only [trigger]
        split <;> rfl
    | named _ | downgraded _ | cloned _ | dropped _ | recounted => cases other
    | collected | reordered _ | bounded _ | resetPool | resetObjects => rfl
  · unfold notes
    split
    · cases other
    · cases other
    · cases other
    · cases other
    · rfl

theorem step_other (other : ∀ a rest, m.tasks ≠ .detach a :: rest) :
    m.step.heap.weak = m.heap.weak ∧ m.noting = [] := by
  constructor
  · cases tasks : m.tasks with
    | nil => rw [step_nil tasks]
    | cons t rest =>
        rw [step_cons tasks]
        cases t with
        | detach a => exact absurd tasks (other a rest)
        | release a => exact release_weak _ a
        | finalize _ | callback _ | releaseChildren _ | expand _ _ | answer _ => rfl
        | unload a =>
            rw [perform]
            split <;> rfl
        | reclaim a =>
            simp only [perform, onHeap, Heap.reclaim]
            split <;> rfl
        | search pass =>
            rw [perform, advance]
            cases pass.walk.asks? with
            | some a => rfl
            | none =>
                simp only
                split
                · obtain ⟨_, frame⟩ := m.heap.finishPass_same Object.body (fun _ => rfl)
                    (fun _ _ => rfl) pass
                  rw [push, frame]
                · rfl
  · unfold noting
    split
    next a rest tasks => exact absurd tasks (other a rest)
    next => rfl

/-! Notes and tables -/

open WeakTable (Kept)

theorem kept_batch {h : Heap} (kept : Kept log h.weak) (objects : List Addr) :
    Kept (log ++ Note.batch objects (h.downgradeBatch objects).1) (h.downgradeBatch objects).2.weak := by
  induction objects generalizing h log with
  | nil => simpa [Note.batch, Heap.downgradeBatch] using kept
  | cons a objects ih =>
      unfold Heap.downgradeBatch
      split
      next s k done =>
        obtain ⟨_, _, _, _, isNew, rfl⟩ := Heap.downgrade_spec done
        have here := kept.follow (kept.orderly.follows_issued a)
        have rest :=
          ih (h := { h.update a ({ · with weak := true }) with weak := (h.weak.insert a).2 }) here
        rw [← isNew, List.append_assoc] at rest
        exact rest
      next fault refused => exact ih kept

/-- Only handles that are held are copied, and the counters are not reset. -/
def Counts (m : Machine) (operation : Operation) : Prop :=
  m.Copies operation ∧ operation.resets = false

instance (m : Machine) (operation : Operation) : Decidable (m.Counts operation) :=
  inferInstanceAs (Decidable (_ ∧ _))

theorem kept_operate (kept : Kept log m.heap.weak) (counts : m.Counts operation) :
    Kept (log ++ m.notes operation) (m.operate operation).heap.weak := by
  cases handles : operation.handles with
  | false =>
      obtain ⟨table, silent⟩ := operate_other (m := m) handles
      rwa [silent, List.append_nil, table]
  | true =>
      unfold Operation.handles at handles
      split at handles
      next a =>
        cases done : m.heap.downgrade a with
        | error fault => simpa [notes, answer, Reply.of, operate, Client.call, done] using kept
        | ok out =>
            obtain ⟨s, k⟩ := out
            obtain ⟨_, _, _, _, rfl, isHeap⟩ := Heap.downgrade_spec done
            have table : (m.operate (.call (.downgrade a))).heap.weak = (m.heap.weak.insert a).2 := by
              simp only [operate, Client.call, done]
              rw [isHeap]
              rfl
            have note : m.notes (.call (.downgrade a)) = [.issued (m.heap.weak.insert a).1 a] := by
              simp [notes, answer, Reply.of, done]
            rw [note, table]
            exact kept.follow (kept.orderly.follows_issued a)
      next s => exact kept.follow (kept.orderly.follows_copied counts.1)
      next s => exact kept.follow (kept.orderly.follows_dropped s)
      next objects => exact kept_batch kept objects
      next => cases counts.2
      next => cases handles

theorem kept_step (named : Heap.Named m.heap m.tasks) (kept : Kept log m.heap.weak) :
    Kept (log ++ m.noting) m.step.heap.weak := by
  by_cases clears : ∃ a rest, m.tasks = .detach a :: rest
  · obtain ⟨a, rest, tasks⟩ := clears
    have note : m.noting = [.finalized a] := by rw [noting, tasks]
    have table : m.step.heap.weak = (m.heap.detachWeak a).weak := by
      rw [step_cons tasks]
      rfl
    rw [note, table, Heap.detachWeak]
    split
    next flagged => exact kept.follow (kept.orderly.follows_finalized a)
    next unflagged =>
      refine kept.follow (kept.orderly.follows_spared fun s n isActive => ?_)
      -- A slot that named the object would be listed, and the object have its flag.
      obtain ⟨listed, _⟩ := kept.orderly.active_iff.mp ⟨n, isActive⟩
      exact unflagged (named.keys a s listed).2.1
  · obtain ⟨table, silent⟩ := step_other fun a rest tasks => clears ⟨a, rest, tasks⟩
    rwa [silent, List.append_nil, table]

/-- Runs of operations that count, with what they and the steps do to handles. -/
inductive Noted (m : Machine) : List Note → Machine → Prop where
  | start : Noted m [] m
  | operate {log : List Note} {n : Machine} (operation : Operation) (run : Noted m log n)
      (may : n.May operation) (counts : n.Counts operation) :
      Noted m (log ++ n.notes operation) (n.operate operation)
  | step {log : List Note} {n : Machine} (run : Noted m log n) : Noted m (log ++ n.noting) n.step

namespace Noted

theorem under (noted : Noted m log n) : ∃ events, RunUnder Copies m events n := by
  induction noted with
  | start => exact ⟨[], .start⟩
  | operate operation _ may counts ih =>
      obtain ⟨events, run⟩ := ih
      exact ⟨_, run.operate operation may counts.1⟩
  | step _ ih =>
      obtain ⟨events, run⟩ := ih
      exact ⟨_, run.step⟩

theorem kept (noted : Noted m log n) (told : m.Told []) (named : Heap.Named m.heap m.tasks)
    (empty : m.heap.weak = {}) : Kept log n.heap.weak := by
  induction noted with
  | start =>
      rw [empty]
      exact WeakTable.kept_empty
  | operate operation _ _ counts ih => exact kept_operate ih counts
  | step noted ih =>
      obtain ⟨events, run⟩ := noted.under
      exact kept_step (run.named told named) ih

end Noted

def notings : Nat → Machine → List Note
  | 0, _ => []
  | n + 1, m => m.noting ++ m.step.notings n

def chronicle (m : Machine) : List (Operation × Nat) → List Note
  | [] => []
  | (operation, n) :: rest =>
      m.notes operation ++ (m.operate operation).notings n ++
        ((m.operate operation).steps n).chronicle rest

namespace Noted

theorem steps (noted : Noted m log n) (k : Nat) : Noted m (log ++ n.notings k) (n.steps k) := by
  induction k generalizing n log with
  | zero => simpa [notings, Machine.steps] using noted
  | succ k ih => simpa [notings, Machine.steps] using ih noted.step

theorem play (noted : Noted m log n) (script : List (Operation × Nat))
    (plays : n.PlaysUnder Counts script) : Noted m (log ++ n.chronicle script) (n.play script).2 := by
  induction script generalizing n log with
  | nil => simpa [chronicle, Machine.play] using noted
  | cons first rest ih =>
      have done := ih ((noted.operate first.1 plays.1.1 plays.1.2).steps first.2) plays.2
      simpa [chronicle, Machine.play] using done

end Noted

/-- What the counters of handles say of the notes, and what a reset leaves. -/
structure Conserved (m : Machine) (log : List Note) : Prop where
  once : (Note.issues log).Nodup
  created : m.heap.weak.stats.created = (Note.issues log).length
  active : m.heap.weak.stats.active =
    (Note.issues log).countP fun s => (Lot.after s log).isActive
  nullified : m.heap.weak.stats.nullified =
    (Note.issues log).countP fun s => Lot.after s log = .nullified
  balance : m.heap.weak.stats.created = m.heap.weak.stats.active + m.heap.weak.stats.nullified +
    ((Note.issues log).countP fun s => Lot.after s log = .lost)
  lots : ∀ s, m.heap.weak.lot s = Lot.after s log
  zeroed : (m.operate .resetHandles).heap.weak.stats =
    { created := 0, nullified := 0, active := m.heap.weak.stats.active }
  untouched : m.operate .resetHandles = { m with heap := { m.heap with
    weak := { slots := m.heap.weak.slots, listed := m.heap.weak.listed } } }
  targets : ∀ s, (m.operate .resetHandles).heap.weakTarget? s = m.heap.weakTarget? s
  upgrades : ∀ s, ((m.operate .resetHandles).heap.upgrade s).1 = (m.heap.upgrade s).1

/-- As long as the counters are not reset, they tell the lots of all slots. Each downgrade that
succeeded made one slot of its own. The slots in use are those that still have a handle and their
object, the cleared ones lost their object first, and all others their last handle. A reset zeroes the
two counters of the past. Every slot stays as it is, and so does everything beside the table. -/
theorem handles_conserved (settings : Settings) (entropy : UInt64) (heap : Heap)
    (made : Heap.create settings entropy = .ok heap) (log : List Note) (m : Machine)
    (noted : Noted { heap } log m) : m.Conserved log := by
  obtain rfl := Heap.create_initial made
  have empty : Heap.Named (.initial settings entropy) [] :=
    ⟨WeakTable.orderly_empty, fun a s listed => by cases listed⟩
  have kept := noted.kept (Told.initial settings entropy) empty rfl
  refine ⟨kept.once, kept.created, kept.active, kept.nullified, ?_, kept.lots, rfl, rfl,
    fun s => rfl, fun s => ?_⟩
  · calc m.heap.weak.stats.created
      _ = (Note.issues log).length := kept.created
      _ = _ := Lot.three_lots log (Note.issues log) fun s => id
      _ = m.heap.weak.stats.active + m.heap.weak.stats.nullified + _ := by
        rw [← kept.active, ← kept.nullified]; rfl
  · have target : (m.operate .resetHandles).heap.weak.target? s = m.heap.weak.target? s := rfl
    have objects : (m.operate .resetHandles).heap.objects = m.heap.objects := rfl
    simp only [Heap.upgrade, target, objects]
    split
    · rfl
    · split <;> rfl

/-- A handle is copied and dropped, and a batch asks for three more. One of them loses its slot, the
others their object; and its destructor asks for another. -/
def conservedScript : List (Operation × Nat) :=
  [(.call (.alloc 16 1 (some 7)), 0), (.call (.alloc 16 2 none), 0),
    (.call (.downgrade 0x6b7000000000), 0), (.call (.cloneHandle 0), 0), (.call (.dropHandle 0), 0),
    (.downgradeBatch [0x6b7000000000, 0x6b7000000001, 0x6b7000000060], 0), (.call (.dropHandle 2), 0),
    (.call (.release 0x6b7000000000), 2), (.call (.downgrade 0x6b7000000060), 4),
    (.call (.dropHandle 1), 0)]

theorem handles_conserved_destructor :
    let start : Machine := { heap := .initial {} 0 }
    let log := start.chronicle conservedScript
    let m := (start.play conservedScript).2
    start.PlaysUnder Counts conservedScript ∧ m.idle = true ∧
      Note.issues log = [0, 1, 2, 3] ∧ m.heap.weak.lot 0 = .nullified ∧
      m.heap.weak.lot 1 = .nullified ∧ m.heap.weak.lot 2 = .lost ∧
      m.heap.weak.lot 3 = .active 0x6b7000000060 0 ∧
      m.heap.weak.stats.created = 4 ∧ m.heap.weak.stats.nullified = 2 ∧ m.heap.weak.stats.active = 1 ∧
      (m.operate .resetHandles).heap.weak.stats = { created := 0, nullified := 0, active := 1 } ∧
      ((m.operate .resetHandles).heap.upgrade 3).1 = (m.heap.upgrade 3).1 := by
  intro start log m
  have made : Heap.create {} 0 = .ok start.heap := Heap.create_valid {} 0 (by decide +kernel)
  have plays : start.PlaysUnder Counts conservedScript := by decide +kernel
  have conserved : m.Conserved log :=
    handles_conserved {} 0 start.heap made _ m (Noted.start.play conservedScript plays)
  have inUse : m.heap.weak.stats.active = 1 := conserved.active.trans (by decide +kernel)
  refine ⟨plays, by decide +kernel, by decide +kernel, ?_, ?_, ?_, ?_, ?_, ?_, inUse, ?_,
    conserved.upgrades 3⟩
  · exact (conserved.lots 0).trans (by decide +kernel)
  · exact (conserved.lots 1).trans (by decide +kernel)
  · exact (conserved.lots 2).trans (by decide +kernel)
  · exact (conserved.lots 3).trans (by decide +kernel)
  · exact conserved.created.trans (by decide +kernel)
  · exact conserved.nullified.trans (by decide +kernel)
  · rw [conserved.zeroed, inUse]

end Machine

end CountedHeap
