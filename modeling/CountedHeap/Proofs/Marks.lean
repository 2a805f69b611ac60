import CountedHeap.Proofs.Tidy

/-!
The marks of objects and what the registry says of them, whatever a client does: releases too many
and handles that are stale included. The bit on an object and its entry in the registry come and go
together; an entry is about an object that can still be found garbage; and an object whose memory is
free again keeps the claim it was destroyed under.
-/

namespace CountedHeap

open Heap (Same Changed)

namespace Object

/-- What the marks of an object are read from. -/
def marks (o : Object) : CountWord × Bool × Bool × Bool := (o.word, o.valid, o.claimed, o.traced)

/-- Whether an object is to be destroyed, and by whom. -/
def fate (o : Object) : Bool × Bool × Option Nat := (o.valid, o.claimed, o.destructor)

/-- What holds of an object that the registry lists or does not list. -/
structure Marked (o : Object) (listed : Bool) : Prop where
  buried : o.valid = true ∨ o.claimed = true
  vital : o.claimed = false → 0 < o.count
  mirrored : o.valid = true → o.buffered = listed
  eligible : listed = true → o.valid = true ∧ o.traced = true ∧ o.claimed = false

theorem Marked.of_marks {o p : Object} {listed : Bool} (marked : o.Marked listed)
    (same : p.marks = o.marks) : p.Marked listed := by
  simp only [marks, Prod.mk.injEq] at same
  obtain ⟨word, valid, claimed, traced⟩ := same
  have count : p.count = o.count := congrArg (·.count.toNat) word
  have bit : p.buffered = o.buffered := congrArg CountWord.buffered word
  constructor
  · rw [valid, claimed]
    exact marked.buried
  · rw [claimed, count]
    exact marked.vital
  · rw [valid, bit]
    exact marked.mirrored
  · rw [valid, traced, claimed]
    exact marked.eligible

end Object

/-- An entry that waits for a pass. -/
structure Candidate.Pending (entry : Candidate) : Prop where
  state : entry.state = .unvisited ∨ entry.state = .inProgress
  unmarked : entry.marked = false
  recorded : entry.recorded.toNat < 2 ^ 31

theorem Candidate.pending_new (a : Addr) (word : CountWord) :
    Pending { object := a, recorded := word.count } :=
  ⟨Or.inl rfl, rfl, word.toNat_count_lt⟩

namespace Heap

def fateAt (h : Heap) (a : Addr) : Option (Bool × Bool × Option Nat) := (h.objects[a]?).map Object.fate

theorem fateAt_eq_some_iff (h : Heap) (a : Addr) (valid claimed : Bool) (destructor : Option Nat) :
    h.fateAt a = some (valid, claimed, destructor) ↔
      ∃ o, h.objects[a]? = some o ∧ o.valid = valid ∧ o.claimed = claimed ∧
        o.destructor = destructor := by
  simp only [fateAt, Option.map_eq_some_iff, Object.fate, Prod.mk.injEq]

theorem live_iff_fate (h : Heap) (a : Addr) : h.Live a ↔ (h.fateAt a).any (·.1) = true := by
  rw [fateAt, Option.any_map]
  rfl

theorem claimedAt_eq_fate (h : Heap) (a : Addr) : h.claimedAt a = (h.fateAt a).any (·.2.1) := by
  rw [fateAt, Option.any_map]
  rfl

/-- The marks of a heap are in order. -/
structure Marked (h : Heap) : Prop where
  objects : ∀ (a : Addr) (o : Object), h.objects[a]? = some o →
    o.Marked (h.collector.registry.holds a)
  entries : ∀ entry ∈ h.collector.registry, entry.Pending ∧ ∃ o, h.objects[entry.object]? = some o
  once : (h.collector.registry.map Candidate.object).Nodup
  stocked : ∃ free, h.pool.Stocked h.Live free

variable {h k l : Heap}

theorem Marked.initial (settings : Settings) (entropy : UInt64) :
    (Heap.initial settings entropy).Marked := by
  refine ⟨fun a o there => ?_, by simp [Heap.initial], by simp [Heap.initial], fun _ => [], ?_⟩
  · simp [Heap.initial] at there
  · exact Pool.stocked_empty.transfer (fun _ => rfl) rfl (Nat.le_refl _) initial_dead

namespace Marked

theorem listed (marked : h.Marked) (a : Addr) (holds : h.collector.registry.holds a = true) :
    ∃ o, h.objects[a]? = some o ∧ o.valid = true ∧ o.traced = true ∧ o.claimed = false := by
  obtain ⟨entry, member, same⟩ := (holds_iff _ a).mp holds
  obtain ⟨_, o, there⟩ := marked.entries entry member
  rw [same] at there
  exact ⟨o, there, (marked.objects a o there).eligible holds⟩

theorem live_of_fresh (marked : h.Marked) (a : Addr) (fresh : h.Fresh a) : h.Live a := by
  obtain ⟨o, there, unclaimed⟩ := fresh
  rcases (marked.objects a o there).buried with valid | claimed
  · exact (h.live_iff a).mpr ⟨o, there, valid⟩
  · rw [unclaimed] at claimed
    cases claimed

theorem bufferedAt (marked : h.Marked) (a : Addr) (live : h.Live a) :
    h.bufferedAt a = h.collector.registry.holds a := by
  obtain ⟨o, there, valid⟩ := (h.live_iff a).mp live
  rw [← (marked.objects a o there).mirrored valid]
  exact Heap.bufferedAt_of_there there

theorem transfer (marked : h.Marked)
    (same : ∀ a : Addr, (k.objects[a]?).map Object.marks = (h.objects[a]?).map Object.marks)
    (registry : k.collector.registry.Perm h.collector.registry)
    (pool : ∀ free, h.pool.Stocked h.Live free → k.pool.Stocked h.Live free) : k.Marked := by
  have before : ∀ (a : Addr) (p : Object), k.objects[a]? = some p →
      ∃ o, h.objects[a]? = some o ∧ p.marks = o.marks := by
    intro a p there
    have view := same a
    rw [there, Option.map_some, eq_comm, Option.map_eq_some_iff] at view
    obtain ⟨o, found, equal⟩ := view
    exact ⟨o, found, equal.symm⟩
  constructor
  · intro a p there
    obtain ⟨o, found, equal⟩ := before a p there
    rw [holds_perm registry]
    exact (marked.objects a o found).of_marks equal
  · intro entry member
    obtain ⟨pending, o, there⟩ := marked.entries entry (registry.mem_iff.mp member)
    have view := same entry.object
    rw [there, Option.map_some, Option.map_eq_some_iff] at view
    exact ⟨pending, view.imp fun _ => And.left⟩
  · exact (registry.map Candidate.object).nodup_iff.mpr marked.once
  · obtain ⟨free, stocked⟩ := marked.stocked
    refine ⟨free, (pool free stocked).transfer (fun _ => rfl) rfl (Nat.le_refl _) fun a live => ?_⟩
    obtain ⟨p, there, valid⟩ := (k.live_iff a).mp live
    obtain ⟨o, found, equal⟩ := before a p there
    simp only [Object.marks, Prod.mk.injEq] at equal
    exact (h.live_iff a).mpr ⟨o, found, equal.2.1 ▸ valid⟩

theorem changed (marked : h.Marked) {a : Addr} {o p : Object} (changed : Changed h a p k)
    (there : h.objects[a]? = some o) (valid : p.valid = o.valid)
    (marks : p.Marked (k.collector.registry.holds a))
    (others : ∀ b, b ≠ a → k.collector.registry.holds b = h.collector.registry.holds b)
    (entries : ∀ entry ∈ k.collector.registry,
      entry.Pending ∧ (entry.object = a ∨ entry ∈ h.collector.registry))
    (once : (k.collector.registry.map Candidate.object).Nodup) : k.Marked := by
  refine ⟨fun b q found => ?_, fun entry member => ?_, once, ?_⟩
  · by_cases here : b = a
    · subst here
      rw [changed.here, Option.some.injEq] at found
      exact found ▸ marks
    · rw [changed.others b here] at found
      rw [others b here]
      exact marked.objects b q found
  · obtain ⟨pending, old⟩ := entries entry member
    refine ⟨pending, ?_⟩
    by_cases here : entry.object = a
    · exact ⟨p, by rw [here, changed.here]⟩
    · rw [changed.others _ here]
      exact (marked.entries entry (old.resolve_left here)).2
  · obtain ⟨free, stocked⟩ := marked.stocked
    rw [changed.rest]
    exact ⟨free, stocked.transfer (fun _ => rfl) rfl (Nat.le_refl _) fun b =>
      (changed.live_iff there valid b).mp⟩

theorem rewritten (marked : h.Marked) {a : Addr} {o p : Object} (changed : Changed h a p k)
    (there : h.objects[a]? = some o) (valid : p.valid = o.valid)
    (marks : p.Marked (h.collector.registry.holds a))
    (registry : k.collector.registry = h.collector.registry) : k.Marked := by
  refine marked.changed changed there valid (registry ▸ marks) (fun b _ => by rw [registry]) ?_ ?_
  · rw [registry]
    exact fun entry member => ⟨(marked.entries entry member).1, Or.inr member⟩
  · rw [registry]
    exact marked.once

theorem raised (marked : h.Marked) {a : Addr} (raised : h.Raised a k) : k.Marked := by
  obtain ⟨o, word, there, positive, count, bit⟩ := raised
  have was := marked.objects a o there
  refine marked.rewritten (Changed.of_update (fun o : Object => { o with word }) there) there rfl
    ⟨was.buried, fun _ => ?_, fun valid => bit.trans (was.mirrored valid), was.eligible⟩ rfl
  rw [Object.count, count]
  exact Nat.succ_pos _

theorem entered (marked : h.Marked) {a : Addr} {o p : Object} (there : h.objects[a]? = some o)
    (changed : Changed h a p k) (valid : p.valid = true) (was : o.valid = true)
    (traced : p.traced = true) (unclaimed : p.claimed = false) (positive : 0 < p.count)
    (bit : p.buffered = true) (absent : h.collector.registry.holds a = false)
    (registry : k.collector.registry =
      { object := a, recorded := p.word.count } :: h.collector.registry) : k.Marked := by
  have holds : ∀ b, k.collector.registry.holds b = (a == b || h.collector.registry.holds b) :=
    fun b => by rw [registry, holds_cons]
  refine marked.changed changed there (valid.trans was.symm) ?_ (fun b apart => ?_) ?_ ?_
  · rw [holds, beq_self_eq_true, Bool.true_or]
    exact ⟨Or.inl valid, fun _ => positive, fun _ => bit, fun _ => ⟨valid, traced, unclaimed⟩⟩
  · rw [holds, beq_false_of_ne (Ne.symm apart), Bool.false_or]
  · intro entry member
    rw [registry, List.mem_cons] at member
    rcases member with new | old
    · exact new ▸ ⟨Candidate.pending_new a p.word, Or.inl rfl⟩
    · exact ⟨(marked.entries entry old).1, Or.inr old⟩
  · rw [registry, List.map_cons, List.nodup_cons]
    refine ⟨fun member => ?_, marked.once⟩
    obtain ⟨entry, old, same⟩ := List.mem_map.mp member
    rw [(holds_iff _ a).mpr ⟨entry, old, same⟩] at absent
    cases absent

theorem holds_erase_self (registry : Registry) (a : Addr) : (registry.erase a).holds a = false := by
  simp [Registry.holds, Registry.erase]

theorem lowered (marked : h.Marked) {a : Addr} {o : Object} {last : Bool}
    (there : h.objects[a]? = some o) (valid : o.valid = true) (lowered : Lowered h a o last k) :
    k.Marked := by
  have was := marked.objects a o there
  cases lowered with
  | fell _ word count bit keeps changed registry enough =>
      refine marked.rewritten changed there rfl ⟨was.buried, fun unclaimed => ?_,
        fun valid => bit.trans (was.mirrored valid), was.eligible⟩ registry
      have many : o.count ≠ 1 := fun one => by
        rw [keeps one] at unclaimed
        cases unclaimed
      simp only [Object.count] at count many ⊢
      omega
  | entered _ word count bit many traced unclaimed unbuffered absent changed registry =>
      refine marked.entered there changed valid valid traced unclaimed ?_ bit absent registry
      simp only [Object.count] at count many ⊢
      have := was.vital unclaimed
      simp only [Object.count] at this
      omega
  | condemned _ word count one unclaimed changed registry =>
      rcases registry with ⟨same, bit, unlisted⟩ | ⟨erased, traced, bit⟩
      · refine marked.rewritten changed there rfl ⟨Or.inr rfl, fun impossible => (by cases impossible),
          fun valid => bit.trans (was.mirrored valid), fun holds => ?_⟩ same
        rw [unlisted (was.eligible holds).2.1] at holds
        cases holds
      · refine marked.changed changed there rfl ?_ (fun b apart => ?_) (fun entry member => ?_) ?_
        · rw [erased, holds_erase_self]
          exact ⟨Or.inr rfl, fun impossible => (by cases impossible), fun _ => bit,
            fun impossible => (by cases impossible)⟩
        · rw [erased, holds_erase _ a b apart]
        · rw [erased] at member
          have old := (List.mem_filter.mp member).1
          exact ⟨(marked.entries entry old).1, Or.inr old⟩
        · rw [erased]
          exact (List.filter_sublist.map Candidate.object).nodup marked.once

/-- A block is handed out again only when nobody waits for it, and what is made there starts out
unregistered. -/
theorem alloc (marked : h.Marked) {size type : Nat} {destructor : Option Nat} {a : Addr}
    (done : h.alloc size type destructor = .ok (a, k)) :
    ¬ h.Live a ∧ h.collector.registry.holds a = false ∧ k.Marked := by
  have born := alloc_born size type destructor a done
  obtain ⟨_, pool, served, isPool, _, _, collector, _⟩ := alloc_spec size type destructor a done
  obtain ⟨free, stocked⟩ := marked.stocked
  obtain ⟨dead, free', still⟩ := Pool.alloc_stocked stocked _ a served
  -- An entry would be about a live object, and a block in use is not handed out.
  have absent : h.collector.registry.holds a = false := by
    rw [← Bool.not_eq_true]
    intro holds
    obtain ⟨o, there, valid, _⟩ := marked.listed a holds
    exact dead ((h.live_iff a).mpr ⟨o, there, valid⟩)
  refine ⟨dead, absent, fun b o there => ?_, fun entry member => ?_, ?_, free', ?_⟩
  · rw [collector]
    by_cases here : b = a
    · subst here
      obtain ⟨p, found, valid, unclaimed, one, clear, _⟩ := born.here
      rw [there, Option.some.injEq] at found
      subst found
      rw [absent]
      exact ⟨Or.inl valid, fun _ => by omega, fun _ => clear, fun impossible => (by cases impossible)⟩
    · rw [born.others b here] at there
      exact marked.objects b o there
  · rw [collector] at member
    obtain ⟨pending, there⟩ := marked.entries entry member
    have apart : entry.object ≠ a := by
      rintro rfl
      rw [(holds_iff _ _).mpr ⟨entry, member, rfl⟩] at absent
      cases absent
    exact ⟨pending, by rwa [born.others _ apart]⟩
  · rw [collector]
    exact marked.once
  · rw [isPool]
    exact still.transfer (fun _ => rfl) rfl (Nat.le_refl _) fun b => (born.live b).mp

theorem takeDestructor (marked : h.Marked) (a : Addr) : (h.takeDestructor a).2.Marked := by
  have same : Same Object.marks h (h.takeDestructor a).2 := h.update_same a _ fun _ => rfl
  exact marked.transfer same.objects (.refl _) fun _ => id

theorem reclaim (marked : h.Marked) {a : Addr} {o : Object} (there : h.objects[a]? = some o)
    (valid : o.valid = true) (claimed : o.claimed = true) : (h.reclaim a).Marked := by
  obtain ⟨here, _, pool⟩ := h.reclaim_spec a o there
  have others := h.reclaim_others a
  have absent : h.collector.registry.holds a = false := by
    rw [← Bool.not_eq_true]
    intro holds
    rw [((marked.objects a o there).eligible holds).2.2] at claimed
    cases claimed
  have dead : Object.valid { o with mark := 0 } = false := rfl
  obtain ⟨free, stocked⟩ := marked.stocked
  obtain ⟨free', freed⟩ := Pool.free_stocked stocked o.totalBytes a ((h.live_iff a).mpr ⟨o, there, valid⟩)
  obtain ⟨_, collector, _⟩ := h.reclaim_frame a
  refine ⟨fun b p found => ?_, fun entry member => ?_, ?_, free', ?_⟩
  · rw [collector]
    by_cases isHere : b = a
    · subst isHere
      rw [here, Option.some.injEq] at found
      rw [← found, absent]
      refine ⟨Or.inr claimed, fun unclaimed => ?_, fun alive => ?_, fun impossible => (by cases impossible)⟩
      · exact absurd (claimed.symm.trans unclaimed) (by decide)
      · exact absurd (dead.symm.trans alive) (by decide)
    · rw [others b isHere] at found
      exact marked.objects b p found
  · rw [collector] at member
    obtain ⟨pending, found⟩ := marked.entries entry member
    have apart : entry.object ≠ a := by
      rintro rfl
      rw [(holds_iff _ _).mpr ⟨entry, member, rfl⟩] at absent
      cases absent
    exact ⟨pending, by rwa [others _ apart]⟩
  · rw [collector]
    exact marked.once
  · rw [pool]
    exact freed.transfer (fun _ => rfl) rfl (Nat.le_refl _) fun b => (h.reclaim_live a b).mp

/-! The ends of a pass -/

theorem startPass_objects (marked : h.Marked) :
    h.startPass.2.collector.registry.map Candidate.object =
      h.collector.registry.map Candidate.object := by
  have all : h.collector.registry.filter (fun entry =>
      (h.objects[entry.object]?).any fun o => o.valid && !o.claimed) = h.collector.registry := by
    rw [List.filter_eq_self]
    intro entry member
    obtain ⟨o, there, valid, _, unclaimed⟩ := marked.listed _ ((holds_iff _ _).mpr ⟨entry, member, rfl⟩)
    simp [there, valid, unclaimed]
  simp only [startPass, all, List.map_map]
  rfl

theorem startPass_holds (marked : h.Marked) (a : Addr) :
    h.startPass.2.collector.registry.holds a = h.collector.registry.holds a :=
  holds_congr marked.startPass_objects a

theorem startPass (marked : h.Marked) : h.startPass.2.Marked := by
  have objects := marked.startPass_objects
  refine ⟨fun a o there => ?_, fun entry member => ?_, objects ▸ marked.once, marked.stocked⟩
  · rw [marked.startPass_holds]
    exact marked.objects a o there
  · obtain ⟨old, isOld, same⟩ := List.mem_map.mp (objects ▸ List.mem_map_of_mem (f := Candidate.object) member)
    obtain ⟨_, there⟩ := marked.entries old isOld
    refine ⟨?_, same ▸ there⟩
    simp only [Heap.startPass, List.mem_map, List.mem_filter] at member
    obtain ⟨source, ⟨_, known⟩, isEntry⟩ := member
    obtain ⟨o, found, _⟩ := (Option.any_eq_true _ _).mp known
    rw [← isEntry, found]
    exact Candidate.pending_new source.object o.word

end Marked

/-- What the end of a pass makes of a heap, whatever the search took for garbage. -/
structure Finished (h : Heap) (garbage : List Addr) (k : Heap) : Prop where
  once : garbage.Nodup
  fresh : ∀ a ∈ garbage, h.Fresh a
  rights : ∀ a : Addr, (k.objects[a]?).map (fun o : Object => (o.traced, o.fate)) =
    (h.objects[a]?).map fun o =>
      (o.traced, o.valid, o.claimed || decide (a ∈ garbage), o.destructor)
  counts : ∀ a, k.countAt a = h.countAt a
  bits : ∀ a, k.bufferedAt a = true ↔ h.bufferedAt a = true ∧
    ∀ entry ∈ h.collector.registry, entry.object = a → h.outcome garbage entry = .inProgress
  registry : k.collector.registry =
    (h.collector.registry.map (h.judged garbage)).filter (·.state == .inProgress)
  pool : k.pool = h.pool

/-- Claims touch neither bits nor counts, so the candidates are judged as if on the heap before. -/
theorem Marked.judgeAll (marked : h.Marked) {garbage : List Addr} (claimed : Claimed h garbage k) :
    (k.judgeAll garbage h.collector.registry).1 = h.collector.registry.map (h.judged garbage) ∧
      ∀ a, (k.judgeAll garbage h.collector.registry).2.bufferedAt a = true ↔
        h.bufferedAt a = true ∧ ∀ entry ∈ h.collector.registry, entry.object = a →
          h.outcome garbage entry = .inProgress := by
  have sameBits : Same Object.buffered h k := claimed.same fun _ => rfl
  have bitsBefore : ∀ a, k.bufferedAt a = h.bufferedAt a := fun a =>
    sameBits.any_eq a Object.buffered id fun _ => rfl
  have isSet : ∀ entry ∈ h.collector.registry, k.bufferedAt entry.object = true := by
    intro entry member
    have holds := (holds_iff _ _).mpr ⟨entry, member, rfl⟩
    obtain ⟨o, there, valid, _⟩ := marked.listed _ holds
    rw [bitsBefore, marked.bufferedAt _ ((h.live_iff _).mpr ⟨o, there, valid⟩), holds]
  obtain ⟨report, bits⟩ := k.judgeAll_exact garbage h.collector.registry marked.once
    (fun entry member => (marked.entries entry member).1.recorded) isSet
  have outcomes : ∀ entry, k.outcome garbage entry = h.outcome garbage entry := fun entry => by
    simp only [outcome, claimed.countAt]
  rw [judged_congr claimed.countAt] at report
  simp only [outcomes, bitsBefore] at bits
  exact ⟨report, bits⟩

theorem Marked.finishPass (marked : h.Marked) (p : Pass) :
    Finished h (h.finishPass p).1 (h.finishPass p).2 := by
  obtain ⟨once, fresh, claimed⟩ := h.claimGroups_cases p.minimum p.walk.found.verdict.garbage
  simp only [Heap.finishPass]
  generalize h.claimGroups p.minimum p.walk.found.verdict.garbage = out at once fresh claimed
  obtain ⟨groups, k⟩ := out
  simp only at once fresh claimed ⊢
  generalize groups.flatten.map Prod.fst = garbage at once fresh claimed
  have collector : k.collector = h.collector := by rw [claimed.rest]
  obtain ⟨report, bits⟩ := marked.judgeAll claimed
  obtain ⟨standing, frame⟩ := k.judgeAll_same garbage k.collector.registry
  have rights : Same (fun o : Object => (o.traced, o.fate)) k _ :=
    k.judgeAll_words (fun _ _ => rfl) garbage k.collector.registry
  simp only [collector] at standing frame rights ⊢
  refine ⟨once, fresh, fun a => ?_, fun a => (standing.countAt a).trans (claimed.countAt a), bits,
    by rw [report], ?_⟩
  · rw [rights.objects, claimed.objects, Option.map_map]
    congr 1
    funext o
    by_cases member : a ∈ garbage <;> simp [member, Object.fate, Object.valid]
  · simp only
    rw [frame, claimed.rest]

/-- The report of a pass has each candidate with its outcome, and the counters go by the report and
by what was claimed. -/
theorem Marked.finishPass_collector (marked : h.Marked) (p : Pass) :
    let report := h.collector.registry.map (h.judged (h.finishPass p).1)
    (h.finishPass p).2.collector =
      { h.collector with
        registry := report.filter (·.state == .inProgress)
        lastPass := report
        cycles := h.collector.cycles +
          (h.claimGroups p.minimum p.walk.found.verdict.garbage).1.length
        collected := h.collector.collected + (h.finishPass p).1.length
        falsePositives := h.collector.falsePositives + report.countP (·.state == .processed)
        runs := h.collector.runs + 1
        since := 0 } := by
  obtain ⟨_, _, claimed⟩ := h.claimGroups_cases p.minimum p.walk.found.verdict.garbage
  simp only [Heap.finishPass]
  generalize h.claimGroups p.minimum p.walk.found.verdict.garbage = out at claimed
  obtain ⟨groups, k⟩ := out
  simp only at claimed ⊢
  have collector : k.collector = h.collector := by rw [claimed.rest]
  obtain ⟨_, frame⟩ := k.judgeAll_same (groups.flatten.map Prod.fst) k.collector.registry
  rw [frame, collector, (marked.judgeAll claimed).1]

namespace Finished

variable {garbage : List Addr}

theorem fates (finished : Finished h garbage k) (a : Addr) : k.fateAt a =
    (h.fateAt a).map fun fate => (fate.1, fate.2.1 || decide (a ∈ garbage), fate.2.2) := by
  have view := congrArg (Option.map Prod.snd) (finished.rights a)
  rw [Option.map_map, Option.map_map] at view
  rw [fateAt, fateAt, Option.map_map]
  exact view

theorem object (finished : Finished h garbage k) (a : Addr) (p : Object)
    (there : k.objects[a]? = some p) :
    ∃ o, h.objects[a]? = some o ∧ p.traced = o.traced ∧ p.valid = o.valid ∧
      p.claimed = (o.claimed || decide (a ∈ garbage)) ∧ p.count = o.count := by
  have view := finished.rights a
  rw [there, Option.map_some, eq_comm, Option.map_eq_some_iff] at view
  obtain ⟨o, found, equal⟩ := view
  simp only [Object.fate, Prod.mk.injEq] at equal
  have count := finished.counts a
  simp only [countAt, there, found, Option.elim_some] at count
  exact ⟨o, found, equal.1.symm, equal.2.1.symm, equal.2.2.1.symm, count⟩

theorem stays (finished : Finished h garbage k) (entry : Candidate) :
    entry ∈ k.collector.registry ↔ ∃ old ∈ h.collector.registry,
      h.outcome garbage old = .inProgress ∧ h.judged garbage old = entry := by
  rw [finished.registry, List.mem_filter, List.mem_map, beq_iff_eq]
  constructor
  · rintro ⟨⟨old, member, rfl⟩, state⟩
    exact ⟨old, member, state, rfl⟩
  · rintro ⟨old, member, state, rfl⟩
    exact ⟨⟨old, member, rfl⟩, state⟩

theorem holds (finished : Finished h garbage k) (a : Addr) :
    k.collector.registry.holds a = true ↔
      ∃ old ∈ h.collector.registry, old.object = a ∧ h.outcome garbage old = .inProgress := by
  rw [holds_iff]
  constructor
  · rintro ⟨entry, member, rfl⟩
    obtain ⟨old, isOld, state, rfl⟩ := (finished.stays entry).mp member
    exact ⟨old, isOld, rfl, state⟩
  · rintro ⟨old, member, rfl, state⟩
    exact ⟨_, (finished.stays _).mpr ⟨old, member, state, rfl⟩, rfl⟩

theorem outside (entry : Candidate) (state : h.outcome garbage entry = .inProgress) :
    entry.object ∉ garbage := by
  intro member
  simp [outcome, member] at state

theorem marked (finished : Finished h garbage k) (marked : h.Marked) : k.Marked := by
  have listed : ∀ a, k.collector.registry.holds a = true →
      h.collector.registry.holds a = true ∧ a ∉ garbage := by
    intro a holds
    obtain ⟨old, member, rfl, state⟩ := (finished.holds a).mp holds
    exact ⟨(holds_iff _ _).mpr ⟨old, member, rfl⟩, outside old state⟩
  refine ⟨fun a p there => ?_, fun entry member => ?_, ?_, ?_⟩
  · obtain ⟨o, found, traced, valid, claimed, count⟩ := finished.object a p there
    have was := marked.objects a o found
    constructor
    · rw [valid, claimed, Bool.or_eq_true]
      exact was.buried.imp_right Or.inl
    · rw [claimed, count, Bool.or_eq_false_iff]
      exact fun both => was.vital both.1
    · intro isValid
      rw [valid] at isValid
      have before : h.bufferedAt a = h.collector.registry.holds a :=
        marked.bufferedAt a ((h.live_iff a).mpr ⟨o, found, isValid⟩)
      have after : k.bufferedAt a = p.buffered := bufferedAt_of_there there
      rw [← after, Bool.eq_iff_iff, finished.bits, before, finished.holds]
      constructor
      · rintro ⟨holds, all⟩
        obtain ⟨entry, member, same⟩ := (holds_iff _ a).mp holds
        exact ⟨entry, member, same, all entry member same⟩
      · rintro ⟨old, member, rfl, state⟩
        refine ⟨(holds_iff _ _).mpr ⟨old, member, rfl⟩, fun entry other same => ?_⟩
        rwa [List.inj_on_of_nodup_map marked.once other member same]
    · intro holds
      obtain ⟨before, unlisted⟩ := listed a holds
      have parts := was.eligible before
      rw [valid, traced, claimed, decide_eq_false unlisted, Bool.or_false]
      exact parts
  · obtain ⟨old, isOld, state, rfl⟩ := (finished.stays entry).mp member
    obtain ⟨pending, o, there⟩ := marked.entries old isOld
    have view := finished.rights old.object
    rw [there, Option.map_some, Option.map_eq_some_iff] at view
    refine ⟨⟨Or.inr state, ?_, pending.recorded⟩, view.imp fun _ => And.left⟩
    simp [judged, pending.unmarked, outside old state]
  · have objects : (h.collector.registry.map (h.judged garbage)).map Candidate.object =
        h.collector.registry.map Candidate.object := by
      rw [List.map_map]
      rfl
    rw [finished.registry]
    exact (List.filter_sublist.map Candidate.object).nodup (objects ▸ marked.once)
  · obtain ⟨free, stocked⟩ := marked.stocked
    rw [finished.pool]
    refine ⟨free, stocked.transfer (fun _ => rfl) rfl (Nat.le_refl _) fun a live => ?_⟩
    obtain ⟨p, there, isValid⟩ := (k.live_iff a).mp live
    obtain ⟨o, found, _, valid, _⟩ := finished.object a p there
    exact (h.live_iff a).mpr ⟨o, found, valid ▸ isValid⟩

end Finished

end Heap

end CountedHeap
