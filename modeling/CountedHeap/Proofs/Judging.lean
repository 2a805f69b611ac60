import CountedHeap.Proofs.Claiming

/-!
How a pass starts and ends. It takes the counts of the candidates first; at its end a candidate
whose count has moved stays in the registry, unless it was claimed.
-/

namespace CountedHeap

namespace Heap

variable {h k : Heap}

theorem holds_iff (registry : Registry) (a : Addr) :
    registry.holds a = true ↔ ∃ entry ∈ registry, entry.object = a := by
  simp [Registry.holds]

theorem holds_congr {registry other : Registry}
    (same : registry.map Candidate.object = other.map Candidate.object) (a : Addr) :
    registry.holds a = other.holds a := by
  have key : ∀ r : Registry, r.holds a = (r.map Candidate.object).any (· == a) := by
    intro r
    rw [List.any_map]
    rfl
  rw [key, key, same]

-- Only words change, and in each only the bit.
theorem judge_same (h : Heap) (garbage : List Addr) (entry : Candidate) :
    (h.judge garbage entry).1.object = entry.object ∧
      (h.judge garbage entry).1.recorded = entry.recorded ∧
      Same Object.standing h (h.judge garbage entry).2 ∧
      (h.judge garbage entry).2 = { h with objects := (h.judge garbage entry).2.objects } := by
  unfold judge
  split
  · refine ⟨rfl, rfl, update_same h _ _ fun o => ?_, rfl⟩
    simp only [Object.standing, Object.count, CountWord.count_setBuffered]
    rfl
  · split
    · rename_i word retired
      obtain ⟨o, there, left⟩ := Option.bind_eq_some_iff.mp retired
      refine ⟨rfl, rfl, ?_, rfl⟩
      have changed := Changed.of_update (h := h) (fun o : Object => { o with word }) there
      refine changed.same there ?_
      simp only [Object.standing, Object.count, CountWord.retire_count _ _ _ left]
      rfl
    · exact ⟨rfl, rfl, Same.refl h, rfl⟩

theorem bufferedAt_update (h : Heap) (a b : Addr) (change : Object → Object) (apart : a ≠ b) :
    (h.update a change).bufferedAt b = h.bufferedAt b := by
  rw [bufferedAt, getElem?_update, if_neg apart, bufferedAt]

theorem judge_kept (h : Heap) (garbage : List Addr) (entry : Candidate)
    (small : entry.recorded.toNat < 2 ^ 31) :
    (∀ a, (h.judge garbage entry).2.bufferedAt a = true → h.bufferedAt a = true ∧
      (entry.object = a → (h.judge garbage entry).1.state = .inProgress)) ∧
    (entry.object ∉ garbage → h.countAt entry.object ≠ entry.recorded.toNat →
      (h.judge garbage entry).1.state = .inProgress) := by
  unfold judge
  -- A bit that was cleared is clear, and the others are as they were.
  have cleared : ∀ change : Object → Object, (∀ o, h.objects[entry.object]? = some o →
      (change o).buffered = false) → ∀ a, (h.update entry.object change).bufferedAt a = true →
      h.bufferedAt a = true ∧ entry.object ≠ a := by
    intro change off a isSet
    by_cases same : entry.object = a
    · subst same
      rw [bufferedAt, getElem?_update, if_pos rfl] at isSet
      cases there : h.objects[entry.object]? with
      | none =>
          rw [there] at isSet
          cases isSet
      | some o =>
          rw [there, Option.map_some, Option.any_some, off o there] at isSet
          cases isSet
    · rw [bufferedAt_update _ _ _ _ same] at isSet
      exact ⟨isSet, same⟩
  split
  · rename_i listed
    constructor
    · intro a isSet
      have parts := cleared (fun o => { o with word := o.word.setBuffered false })
        (fun o _ => CountWord.buffered_setBuffered o.word false) a isSet
      exact ⟨parts.1, fun same => absurd same parts.2⟩
    · intro outside
      exact absurd (List.contains_iff_mem.mp listed) outside
  · split
    · rename_i word retired
      obtain ⟨o, there, left⟩ := Option.bind_eq_some_iff.mp retired
      obtain ⟨bare, _, count⟩ := CountWord.retire_spec _ _ _ left small
      constructor
      · intro a isSet
        have off : word.buffered = false := by
          rw [bare]
          exact CountWord.buffered_setBuffered _ _
        have parts := cleared (fun o => { o with word }) (fun _ _ => off) a isSet
        exact ⟨parts.1, fun same => absurd same parts.2⟩
      · intro _ moved
        apply absurd _ moved
        rw [countAt, there, Option.elim_some, Object.count, count]
    · exact ⟨fun a isSet => ⟨isSet, fun _ => rfl⟩, fun _ _ => rfl⟩

theorem judgeAll_same (h : Heap) (garbage : List Addr) (entries : List Candidate) :
    Same Object.standing h (h.judgeAll garbage entries).2 ∧
      (h.judgeAll garbage entries).2 =
        { h with objects := (h.judgeAll garbage entries).2.objects } := by
  induction entries generalizing h with
  | nil => exact ⟨Same.refl h, rfl⟩
  | cons entry rest ih =>
      obtain ⟨_, _, same, frame⟩ := h.judge_same garbage entry
      obtain ⟨sameRest, frameRest⟩ := ih (h.judge garbage entry).2
      exact ⟨same.trans sameRest, by rw [judgeAll, frameRest, frame]⟩

/-- Judging writes count words and nothing else. -/
theorem judgeAll_words {α : Type} {view : Object → α}
    (blind : ∀ (o : Object) (word : CountWord), view { o with word } = view o) (h : Heap)
    (garbage : List Addr) (entries : List Candidate) :
    Same view h (h.judgeAll garbage entries).2 := by
  have one : ∀ (h : Heap) (entry : Candidate), Same view h (h.judge garbage entry).2 := by
    intro h entry
    unfold judge
    split
    · exact update_same h _ _ fun o => blind o _
    · split
      · exact update_same h _ _ fun o => blind o _
      · exact Same.refl h
  induction entries generalizing h with
  | nil => exact Same.refl h
  | cons entry rest ih => exact (one h entry).trans (ih (h.judge garbage entry).2)

def kept (report : List Candidate) : Registry := report.filter (·.state == .inProgress)

theorem kept_cons (entry : Candidate) (rest : List Candidate) (a : Addr) :
    (kept (entry :: rest)).holds a = true ↔
      entry.state = .inProgress ∧ entry.object = a ∨ (kept rest).holds a = true := by
  unfold kept
  rw [List.filter_cons]
  split
  · rename_i stays
    rw [holds_cons, Bool.or_eq_true, beq_iff_eq]
    rw [beq_iff_eq] at stays
    simp [stays]
  · rename_i leaves
    rw [beq_iff_eq] at leaves
    simp [leaves]

theorem judgeAll_kept (h : Heap) (garbage : List Addr) (entries : List Candidate)
    (small : ∀ entry ∈ entries, entry.recorded.toNat < 2 ^ 31) :
    (∀ a, (h.judgeAll garbage entries).2.bufferedAt a = true → h.bufferedAt a = true ∧
      (Registry.holds entries a = true →
        (kept (h.judgeAll garbage entries).1).holds a = true)) ∧
    (∀ entry ∈ entries, entry.object ∉ garbage → h.countAt entry.object ≠ entry.recorded.toNat →
      (kept (h.judgeAll garbage entries).1).holds entry.object = true) ∧
    (∀ entry ∈ (h.judgeAll garbage entries).1, entry.recorded.toNat < 2 ^ 31) := by
  induction entries generalizing h with
  | nil =>
      refine ⟨fun a isSet => ⟨isSet, fun holds => ?_⟩, by simp, by simp [judgeAll]⟩
      cases holds
  | cons entry rest ih =>
      have smallHere := small entry List.mem_cons_self
      obtain ⟨object, recorded, same, _⟩ := h.judge_same garbage entry
      obtain ⟨bits, moved⟩ := h.judge_kept garbage entry smallHere
      obtain ⟨bitsRest, movedRest, smallRest⟩ := ih (h.judge garbage entry).2
        fun other member => small other (List.mem_cons_of_mem entry member)
      simp only [judgeAll]
      generalize h.judge garbage entry = one at object recorded same bits moved bitsRest movedRest smallRest
      obtain ⟨judged, k⟩ := one
      simp only at object recorded same bits moved bitsRest movedRest smallRest ⊢
      refine ⟨?_, ?_, ?_⟩
      · intro a isSet
        obtain ⟨before, later⟩ := bitsRest a isSet
        obtain ⟨start, here⟩ := bits a before
        refine ⟨start, fun holds => ?_⟩
        rw [kept_cons]
        rw [holds_cons, Bool.or_eq_true, beq_iff_eq] at holds
        rcases holds with isHere | inRest
        · exact Or.inl ⟨here isHere, object.trans isHere⟩
        · exact Or.inr (later inRest)
      · intro other member outside changed
        rw [kept_cons]
        rcases List.mem_cons.mp member with isHere | inRest
        · subst isHere
          exact Or.inl ⟨moved outside changed, object⟩
        · rw [← same.countAt] at changed
          exact Or.inr (movedRest other inRest outside changed)
      · intro other member
        rcases List.mem_cons.mp member with isHere | inRest
        · rw [isHere, recorded]
          exact smallHere
        · exact smallRest other inRest

/-! The verdict on marked candidates -/

/-- What becomes of a candidate at the end of a pass. -/
def outcome (h : Heap) (garbage : List Addr) (entry : Candidate) : CandidateState :=
  if entry.object ∈ garbage then .suspectedCycleMember
  else if h.countAt entry.object = entry.recorded.toNat then .processed
  else .inProgress

def judged (h : Heap) (garbage : List Addr) (entry : Candidate) : Candidate :=
  { entry with
    state := h.outcome garbage entry
    marked := entry.marked || decide (entry.object ∈ garbage) }

theorem judged_congr (counts : ∀ a, k.countAt a = h.countAt a) (garbage : List Addr) :
    k.judged garbage = h.judged garbage := by
  funext entry
  simp only [judged, outcome, counts]

theorem bufferedAt_cleared (h : Heap) (a : Addr) (o : Object) (change : Object → Object)
    (there : h.objects[a]? = some o) (off : (change o).buffered = false) (b : Addr) :
    (h.update a change).bufferedAt b = true ↔ h.bufferedAt b = true ∧ a ≠ b := by
  by_cases here : a = b
  · subst here
    simp [bufferedAt, (Changed.of_update (h := h) change there).here, off]
  · rw [bufferedAt_update _ _ _ _ here]
    simp [here]

/-- A candidate with its bit set keeps it if its count has moved and it is not claimed; otherwise it
loses it. -/
theorem judge_exact (h : Heap) (garbage : List Addr) (entry : Candidate)
    (small : entry.recorded.toNat < 2 ^ 31) (isSet : h.bufferedAt entry.object = true) :
    (h.judge garbage entry).1 = h.judged garbage entry ∧
      ∀ a, (h.judge garbage entry).2.bufferedAt a = true ↔ h.bufferedAt a = true ∧
        (entry.object = a → h.outcome garbage entry = .inProgress) := by
  obtain ⟨o, there, bit⟩ := (Option.any_eq_true _ _).mp isSet
  have was : h.countAt entry.object = o.word.count.toNat := by simp [countAt, there, Object.count]
  have off : (o.word.setBuffered false).buffered = false := CountWord.buffered_setBuffered _ _
  unfold judge
  by_cases member : entry.object ∈ garbage
  · have outcome : h.outcome garbage entry = .suspectedCycleMember := by simp [outcome, member]
    rw [if_pos (List.contains_iff_mem.mpr member), outcome]
    refine ⟨by simp [judged, outcome, member], fun a => ?_⟩
    rw [bufferedAt_cleared h _ o (fun o => { o with word := o.word.setBuffered false }) there off]
    simp
  · rw [if_neg (mt List.contains_iff_mem.mp member)]
    by_cases moved : h.countAt entry.object = entry.recorded.toNat
    · have outcome : h.outcome garbage entry = .processed := by simp [outcome, member, moved]
      have count : o.word.count = entry.recorded := UInt32.toNat_inj.mp (was.symm.trans moved)
      have retired : (h.objects[entry.object]?).bind (fun o => o.word.retire entry.recorded) =
          some (o.word.setBuffered false) := by
        rw [there, Option.bind_some, ← count]
        exact CountWord.retire_buffered o.word bit
      simp only [retired, outcome]
      refine ⟨by simp [judged, outcome, member], fun a => ?_⟩
      rw [bufferedAt_cleared h _ o ({ · with word := o.word.setBuffered false }) there off]
      simp
    · have outcome : h.outcome garbage entry = .inProgress := by simp [outcome, member, moved]
      have kept : (h.objects[entry.object]?).bind (fun o => o.word.retire entry.recorded) = none := by
        rw [there, Option.bind_some, Option.eq_none_iff_forall_ne_some]
        intro word retired
        obtain ⟨_, _, count⟩ := CountWord.retire_spec _ _ _ retired small
        exact moved (was.trans (congrArg UInt32.toNat count))
      simp only [kept, outcome]
      exact ⟨by simp [judged, outcome, member], fun a => by simp⟩

theorem judgeAll_exact (h : Heap) (garbage : List Addr) (entries : List Candidate)
    (once : (entries.map Candidate.object).Nodup)
    (small : ∀ entry ∈ entries, entry.recorded.toNat < 2 ^ 31)
    (isSet : ∀ entry ∈ entries, h.bufferedAt entry.object = true) :
    (h.judgeAll garbage entries).1 = entries.map (h.judged garbage) ∧
      ∀ a, (h.judgeAll garbage entries).2.bufferedAt a = true ↔ h.bufferedAt a = true ∧
        ∀ entry ∈ entries, entry.object = a → h.outcome garbage entry = .inProgress := by
  induction entries generalizing h with
  | nil => exact ⟨rfl, fun a => by simp [judgeAll]⟩
  | cons entry rest ih =>
      obtain ⟨apart, onceRest⟩ := List.nodup_cons.mp once
      obtain ⟨_, _, same, _⟩ := h.judge_same garbage entry
      obtain ⟨report, bits⟩ := h.judge_exact garbage entry (small entry List.mem_cons_self)
        (isSet entry List.mem_cons_self)
      -- No later entry is about the same object, so this judgement takes no bit that they need; and it
      -- moves no count, so their outcomes are those on the heap at the start.
      have still : ∀ other ∈ rest, (h.judge garbage entry).2.bufferedAt other.object = true := by
        intro other member
        rw [bits]
        refine ⟨isSet other (List.mem_cons_of_mem entry member), fun equal => absurd ?_ apart⟩
        exact equal ▸ List.mem_map_of_mem member
      obtain ⟨reportRest, bitsRest⟩ := ih (h.judge garbage entry).2 onceRest
        (fun other member => small other (List.mem_cons_of_mem entry member)) still
      rw [judged_congr same.countAt] at reportRest
      have outcomes : ∀ other, (h.judge garbage entry).2.outcome garbage other =
          h.outcome garbage other := fun other => by simp only [outcome, same.countAt]
      simp only [outcomes] at bitsRest
      simp only [judgeAll, List.map_cons]
      refine ⟨by rw [report, reportRest], fun a => ?_⟩
      rw [bitsRest, bits]
      simp only [List.mem_cons, forall_eq_or_imp, and_assoc]

/-! The ends of a pass -/

theorem startPass_registry (h : Heap) (a : Addr) :
    h.startPass.2.collector.registry.holds a = true ↔
      h.collector.registry.holds a = true ∧ h.Live a ∧ h.claimedAt a = false := by
  unfold startPass
  simp only [holds_iff, List.mem_map, List.mem_filter, Live, claimedAt, Option.any_eq_true,
    Bool.and_eq_true, Bool.not_eq_true']
  constructor
  · rintro ⟨fresh, ⟨entry, ⟨member, o, there, valid, unclaimed⟩, same⟩, isHere⟩
    subst same isHere
    refine ⟨⟨entry, member, rfl⟩, ⟨o, there, valid⟩, ?_⟩
    simp [there, unclaimed]
  · rintro ⟨⟨entry, member, isHere⟩, ⟨o, there, valid⟩, unclaimed⟩
    subst isHere
    rw [there, Option.any_some] at unclaimed
    exact ⟨_, ⟨entry, ⟨member, o, there, valid, unclaimed⟩, rfl⟩, rfl⟩

theorem startPass_entries (h : Heap) (entry : Candidate)
    (member : entry ∈ h.startPass.2.collector.registry) :
    entry.recorded.toNat = h.countAt entry.object := by
  simp only [startPass, List.mem_map, List.mem_filter] at member
  rcases member with ⟨old, ⟨_, known⟩, same⟩
  subst same
  obtain ⟨o, there, _⟩ := (Option.any_eq_true _ _).mp known
  simp [countAt, there, Object.count]

/-- What a pass over a finished search claims. -/
def garbage (h : Heap) (p : Pass) : List Addr :=
  (h.claims p.minimum p.walk.found.verdict.garbage).flatten.map Prod.fst

/-- What the end of a pass leaves of a heap. -/
structure Ended (h : Heap) (p : Pass) (k : Heap) : Prop where
  body : Same Object.body h k
  live : ∀ a, k.Live a ↔ h.Live a
  counts : ∀ a, k.countAt a = h.countAt a
  claims : ∀ a, h.Live a → k.claimedAt a = (h.claimedAt a || decide (a ∈ h.garbage p))
  only : ∀ a, k.claimedAt a = true → h.claimedAt a = true ∨ a ∈ h.garbage p
  frame : k.pool = h.pool ∧ k.books = h.books ∧ k.autoRegister = h.autoRegister ∧
    k.collector.settings = h.collector.settings ∧ k.collector.canGrow = h.collector.canGrow
  bits : (∀ entry ∈ h.collector.registry, entry.recorded.toNat < 2 ^ 31) →
    (∀ a, k.bufferedAt a = true → h.bufferedAt a = true ∧
      (h.collector.registry.holds a = true → k.collector.registry.holds a = true)) ∧
    (∀ entry ∈ h.collector.registry, entry.object ∉ h.garbage p →
      h.countAt entry.object ≠ entry.recorded.toNat →
      k.collector.registry.holds entry.object = true) ∧
    (∀ entry ∈ k.collector.registry, entry.recorded.toNat < 2 ^ 31)

theorem finishPass_ended (h : Heap) (p : Pass)
    (once : (p.walk.found.verdict.garbage.flatten.map Prod.fst).Nodup)
    (fresh : ∀ a ∈ p.walk.found.verdict.garbage.flatten.map Prod.fst, h.Fresh a) :
    (h.finishPass p).1 = h.garbage p ∧ Ended h p (h.finishPass p).2 := by
  obtain ⟨k, done, claimed⟩ := h.claimGroups_fresh p.minimum p.walk.found.verdict.garbage once fresh
  have counts := claimed.countAt
  have sameBits : Same Object.buffered h k := claimed.same fun _ => rfl
  have bits : ∀ a, k.bufferedAt a = h.bufferedAt a := fun a =>
    sameBits.any_eq a Object.buffered id fun _ => rfl
  have rest := claimed.rest
  obtain ⟨same, frame⟩ := k.judgeAll_same (h.garbage p) k.collector.registry
  have judged := k.judgeAll_kept (h.garbage p) k.collector.registry
  have isGarbage : (h.claims p.minimum p.walk.found.verdict.garbage).flatten.map Prod.fst =
      h.garbage p := rfl
  rw [isGarbage] at claimed
  have collector : k.collector = h.collector := by rw [rest]
  simp only [finishPass, done, isGarbage, true_and]
  generalize k.judgeAll (h.garbage p) k.collector.registry = out at same frame judged
  obtain ⟨report, l⟩ := out
  simp only at same frame judged ⊢
  have shape := same.shape_of_standing
  constructor
  · have first : Same Object.body h k := claimed.same fun _ => rfl
    exact ⟨(first.trans same.body_of_standing).types, (first.trans same.body_of_standing).objects⟩
  · intro a
    have first : Same Object.valid h k := claimed.same fun _ => rfl
    exact (shape.live_iff a).trans (by rw [Live, Live, first.any_eq a Object.valid id fun _ => rfl])
  · intro a
    exact (same.countAt a).trans (counts a)
  · intro a live
    obtain ⟨o, there, _⟩ := (h.live_iff a).mp live
    refine (shape.claimedAt a).trans ?_
    rw [claimedAt, claimedAt, claimed.objects, there, Option.map_some, Option.any_some,
      Option.any_some]
    by_cases member : a ∈ h.garbage p <;> simp [member]
  · intro a isClaimed
    have still : k.claimedAt a = true := (shape.claimedAt a).symm.trans isClaimed
    by_cases member : a ∈ h.garbage p
    · exact Or.inr member
    · rw [claimedAt, claimed.objects] at still
      simp only [member, if_false, Option.map_id'] at still
      exact Or.inl still
  · refine ⟨?_, ?_, ?_, ?_, ?_⟩ <;> simp only [] <;> rw [frame, rest]
  · intro small
    rw [collector] at judged
    obtain ⟨bit, moved, recorded⟩ := judged small
    refine ⟨?_, ?_, ?_⟩
    · intro a isSet
      obtain ⟨before, stays⟩ := bit a isSet
      rw [bits] at before
      exact ⟨before, stays⟩
    · intro entry member outside changed
      rw [← counts] at changed
      exact moved entry member outside changed
    · intro entry member
      exact recorded entry (List.mem_filter.mp member).1

end Heap

end CountedHeap
