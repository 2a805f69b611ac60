import CountedHeap.Proofs.Estate
import CountedHeap.Proofs.Level
import CountedHeap.Proofs.Transparency

/-!
Calls that are refused. When a call is refused, and with which fault, is said of the objects it names,
and of what the pool has and the system grants. A call that is refused leaves everything as it was, and
the plain form of a retain or a release counts the misuse and does nothing besides.
-/

namespace CountedHeap

/-- A pool has no block for so many bytes: they would have to come from the system, and it refuses. -/
def Pool.Short (p : Pool) (bytes : Nat) (fault : Fault) : Prop :=
  SizeClass.largest < bytes ∧ ¬ p.system.grants bytes = true ∧ fault = .outOfMemory bytes ∨
    ∃ c, bytes ≤ SizeClass.bytes c ∧ (∀ d < c, SizeClass.bytes d < bytes) ∧ p.freeList c = [] ∧
      ¬ p.system.grants (Pool.linkBytes + SizeClass.bytes c) = true ∧
      fault = .outOfMemory (Pool.linkBytes + SizeClass.bytes c)

namespace Heap

/-- No reference is added to an object that is not live, that has none left or whose count is full. -/
def Unretainable (h : Heap) (a : Addr) (fault : Fault) : Prop :=
  (¬ h.Live a ∨ h.countAt a = 0) ∧ fault = .invalidObject a ∨
    h.Live a ∧ h.countAt a = CountWord.maxCount.toNat ∧ fault = .countOverflow a

def Slotless (h : Heap) (a : Addr) (slot : Nat) (fault : Fault) : Prop :=
  ¬ h.Live a ∧ fault = .invalidObject a ∨
    ∃ o, h.objects[a]? = some o ∧ o.valid = true ∧ o.size / Payload.slotBytes ≤ slot ∧
      fault = .slotOutOfBounds slot o.size

/-- When a call is refused with a fault. Of an assignment the slot is looked at first. -/
def Refuses (h : Heap) (fault : Fault) : Call → Prop
  | .alloc size _ _ =>
      size = 0 ∧ fault = .invalidArgument "object payload size must be non-zero" ∨
        0 < size ∧ sizeLimit ≤ Object.headerBytes + size ∧ fault = .outOfMemory size ∨
        0 < size ∧ Object.headerBytes + size < sizeLimit ∧
          h.pool.Short (Object.headerBytes + size) fault
  | .retain a => h.Unretainable a fault
  | .tryRelease a =>
      ¬ h.Live a ∧ fault = .invalidObject a ∨
        h.Live a ∧ h.countAt a = 0 ∧ fault = .doubleRelease a
  | .load a slot | .take a slot => h.Slotless a slot fault
  | .assign a slot value =>
      h.Slotless a slot fault ∨
        (∀ other, ¬ h.Slotless a slot other) ∧ ∃ b, value = some b ∧ h.Unretainable b fault
  | .downgrade a =>
      (¬ h.Live a ∨ h.countAt a = 0 ∨ h.claimedAt a = true) ∧ fault = .invalidObject a
  | .declare type _ => type ∈ h.types ∧ fault = .duplicateType type
  | .configure settings => settings.validate = .error fault
  | _ => False

end Heap

/-! Each operation by itself -/

namespace Pool

variable {p : Pool} {blocks : List (Addr × Nat)}

theorem Lent.head_none_iff (lent : p.Lent blocks) (c : SizeClass) :
    (p.shelf c).head = none ↔ p.freeList c = [] := by
  obtain ⟨row, kept, _⟩ := lent
  rw [kept.stocked.head_none_iff, kept.freeList c]

theorem alloc_error_iff (lent : p.Lent blocks) (bytes : Nat) (fault : Fault) :
    p.alloc bytes = .error fault ↔ p.Short bytes fault := by
  have classOf : ∀ c, SizeClass.fit? bytes = some c ↔
      bytes ≤ SizeClass.bytes c ∧ ∀ d < c, SizeClass.bytes d < bytes := SizeClass.fit?_eq_some_iff bytes
  constructor
  · intro refused
    rcases alloc_refused bytes fault refused with ⟨big, denied, reason⟩ | ⟨c, fits, dry, denied, reason⟩
    · exact Or.inl ⟨(SizeClass.fit?_eq_none_iff bytes).mp big, denied, reason⟩
    · obtain ⟨holds, least⟩ := (classOf c).mp fits
      exact Or.inr ⟨c, holds, least, (lent.head_none_iff c).mp dry, denied, reason⟩
  · rintro (⟨big, denied, rfl⟩ | ⟨c, holds, least, dry, denied, rfl⟩)
    · simp [alloc, (SizeClass.fit?_eq_none_iff bytes).mpr big, allocLarge, request, denied]
    · simp [alloc, (classOf c).mpr ⟨holds, least⟩, (lent.head_none_iff c).mpr dry, carve, request, denied]

end Pool

namespace Heap

variable {h : Heap} {a : Addr} {o : Object} {fault : Fault}

theorem alloc_error_iff {blocks : List (Addr × Nat)} (lent : h.pool.Lent blocks) (size type : Nat)
    (destructor : Option Nat) :
    h.alloc size type destructor = .error fault ↔ h.Refuses fault (.alloc size type destructor) := by
  have short := Pool.alloc_error_iff lent (Object.headerBytes + size) fault
  simp only [Refuses, alloc]
  by_cases empty : size = 0
  · simp [empty, eq_comm]
  · by_cases huge : sizeLimit ≤ Object.headerBytes + size
    · simp [empty, huge, Nat.pos_of_ne_zero empty, Nat.not_lt.mpr huge, eq_comm]
    · rw [if_neg empty, if_neg huge, ← short]
      cases done : h.pool.alloc (Object.headerBytes + size) <;>
        simp [empty, huge, Nat.pos_of_ne_zero empty, Nat.not_le.mp huge]

theorem valid_ok (isValid : h.valid a = .ok o) :
    h.objects[a]? = some o ∧ o.valid = true ∧ h.Live a ∧ h.countAt a = o.count ∧
      h.claimedAt a = o.claimed := by
  obtain ⟨there, valid⟩ := (h.valid_eq a o).mp isValid
  exact ⟨there, valid, (h.live_iff a).mpr ⟨o, there, valid⟩, countAt_of_there there,
    claimedAt_of_there there⟩

theorem tryRetain_error_iff (h : Heap) (a : Addr) (fault : Fault) :
    h.tryRetain a = .error fault ↔ h.Unretainable a fault := by
  unfold tryRetain Unretainable
  cases isValid : h.valid a with
  | error reason =>
      obtain ⟨dead, rfl⟩ := (h.valid_error_iff a reason).mp isValid
      simp [dead, eq_comm]
  | ok o =>
      obtain ⟨_, _, live, count, _⟩ := valid_ok isValid
      have zero : o.word.count = 0 ↔ o.count = 0 := CountWord.count_eq_zero_iff o.word
      have full : o.word.count = CountWord.maxCount ↔ o.count = CountWord.maxCount.toNat :=
        UInt32.toNat_inj.symm
      have positive : 0 ≠ CountWord.maxCount.toNat := by decide
      rw [count]
      by_cases spent : o.count = 0
      · simp [CountWord.increment, zero, spent, live, positive, eq_comm]
      · by_cases top : o.count = CountWord.maxCount.toNat
        · simp [CountWord.increment, zero, full, top, live, positive.symm, eq_comm]
        · simp [CountWord.increment, zero, full, spent, top, live]

theorem slotted_error_iff (fitting : h.Fitting) (a : Addr) (slot : Nat) (fault : Fault) :
    h.slotted a slot = .error fault ↔ h.Slotless a slot fault := by
  unfold slotted Slotless
  cases isValid : h.valid a with
  | error reason =>
      obtain ⟨dead, rfl⟩ := (h.valid_error_iff a reason).mp isValid
      have vacant : ∀ o, h.objects[a]? = some o → o.valid = true → False := fun o there valid =>
        dead ((h.live_iff a).mpr ⟨o, there, valid⟩)
      simp only [dead, not_false_eq_true, true_and, Except.error.injEq]
      constructor
      · exact fun same => Or.inl same.symm
      · rintro (same | ⟨o, there, valid, _⟩)
        · exact same.symm
        · exact (vacant o there valid).elim
  | ok o =>
      obtain ⟨there, valid, live, _⟩ := valid_ok isValid
      have room : o.slotCount = o.size / Payload.slotBytes := fitting a o there
      simp only [there, Option.some.injEq, exists_eq_left', valid, live, not_true_eq_false, false_and,
        false_or, true_and, ← room]
      split
      · rename_i inside
        simp [Nat.not_le.mpr inside]
      · rename_i outside
        simp [Nat.not_lt.mp outside, eq_comm]

theorem exchangeRef_error_iff (fitting : h.Fitting) (a : Addr) (slot : Nat) (value : Option Addr)
    (fault : Fault) :
    h.exchangeRef a slot value = .error fault ↔ h.Refuses fault (.assign a slot value) := by
  have slotless := h.slotted_error_iff fitting a slot
  unfold exchangeRef
  simp only [Refuses, ← slotless]
  cases h.slotted a slot with
  | error reason => simp
  | ok p =>
      cases value with
      | none => simp
      | some b =>
          simp only [← tryRetain_error_iff]
          cases retained : h.tryRetain b <;> simp [retained]

theorem downgrade_error_iff (h : Heap) (a : Addr) (fault : Fault) :
    h.downgrade a = .error fault ↔ h.Refuses fault (.downgrade a) := by
  unfold downgrade
  simp only [Refuses]
  cases isValid : h.valid a with
  | error reason =>
      obtain ⟨dead, rfl⟩ := (h.valid_error_iff a reason).mp isValid
      simp only [Except.error.injEq, dead, not_false_eq_true, true_or, true_and]
      exact eq_comm
  | ok o =>
      obtain ⟨_, _, live, count, claimed⟩ := valid_ok isValid
      rw [count, claimed]
      by_cases dying : o.count = 0 ∨ o.claimed = true
      · simp only [if_pos dying, Except.error.injEq]
        simp only [dying, or_true, true_and]
        exact eq_comm
      · simp [dying, live]

theorem registerType_error_iff (h : Heap) (type : Nat) (tracer : Tracer) (fault : Fault) :
    h.registerType type tracer = .error fault ↔ h.Refuses fault (.declare type tracer) := by
  unfold registerType
  simp only [Refuses]
  by_cases declared : type ∈ h.types
  · simp [Std.TreeMap.contains_iff_mem.mpr declared, declared, eq_comm]
  · simp [declared]

end Heap

theorem Collector.configure_error_iff (c : Collector) (settings : CollectorSettings) (fault : Fault) :
    c.configure settings = .error fault ↔ settings.validate = .error fault := by
  unfold configure
  cases settings.validate <;> simp

theorem Reply.of_refused_iff {α : Type} (outcome : Except Fault α) (reply : α → Reply) (fault : Fault)
    (granted : ∀ x, reply x ≠ .refused fault) :
    of outcome reply = .refused fault ↔ outcome = .error fault := by
  cases outcome with
  | error reason => simp [of]
  | ok x => simp [of, granted x]

namespace Machine

variable {m : Machine} {fault : Fault}

theorem tryRelease_error_iff (m : Machine) (a : Addr) (fault : Fault) :
    m.tryRelease a = .error fault ↔ m.heap.Refuses fault (.tryRelease a) := by
  rw [Heap.Refuses, ← Heap.lower_error_iff, tryRelease]
  cases m.heap.lower a <;> simp

theorem assignRef_error_iff (fitting : m.heap.Fitting) (a : Addr) (slot : Nat) (value : Option Addr)
    (fault : Fault) :
    m.assignRef a slot value = .error fault ↔ m.heap.Refuses fault (.assign a slot value) := by
  rw [← Heap.exchangeRef_error_iff fitting, assignRef]
  cases m.heap.exchangeRef a slot value <;> simp

theorem map_error_iff {α β : Type} (outcome : Except Fault α) (f : α → β) (fault : Fault) :
    outcome.map f = .error fault ↔ outcome = .error fault := by
  cases outcome <;> simp [Except.map]

theorem answer_refused_iff {blocks : List (Addr × Nat)} (fitting : m.heap.Fitting)
    (lent : m.heap.pool.Lent blocks) (request : Call) :
    m.answer (.call request) = .refused fault ↔ m.heap.Refuses fault request := by
  cases request with
  | declare type tracer =>
      exact (Reply.of_refused_iff _ _ _ (by simp)).trans (m.heap.registerType_error_iff type tracer fault)
  | alloc size type destructor =>
      exact (Reply.of_refused_iff _ _ _ (by simp)).trans (Heap.alloc_error_iff lent size type destructor)
  | retain a => exact (Reply.of_refused_iff _ _ _ (by simp)).trans (m.heap.tryRetain_error_iff a fault)
  | tryRelease a => exact (Reply.of_refused_iff _ _ _ (by simp)).trans (m.tryRelease_error_iff a fault)
  | assign a slot value =>
      exact (Reply.of_refused_iff _ _ _ (by simp)).trans (assignRef_error_iff fitting a slot value fault)
  | load a slot =>
      exact (Reply.of_refused_iff _ _ _ (by simp)).trans
        ((map_error_iff _ _ _).trans (Heap.slotted_error_iff fitting a slot fault))
  | take a slot =>
      exact (Reply.of_refused_iff _ _ _ (by simp)).trans
        ((map_error_iff _ _ _).trans (Heap.slotted_error_iff fitting a slot fault))
  | downgrade a => exact (Reply.of_refused_iff _ _ _ (by simp)).trans (m.heap.downgrade_error_iff a fault)
  | configure settings =>
      exact (Reply.of_refused_iff _ _ _ (by simp)).trans (m.heap.collector.configure_error_iff settings fault)
  | release _ | addCandidate _ | upgrade _ | cloneHandle _ | dropHandle _ | collect | trigger | memory _
  | room _ | reorder _ => simp [answer, Heap.Refuses]

theorem operate_refused {request : Call} (refused : m.answer (.call request) = .refused fault) :
    m.operate (.call request) = m ∧ m.told (.call request) = [] := by
  cases request with
  | declare _ _ | alloc _ _ _ | retain _ | tryRelease _ | assign _ _ _ | downgrade _ | configure _ =>
      have outcome := (Reply.of_refused_iff _ _ _ (by simp)).mp refused
      simp [operate, Client.call, told, outcome]
  | take a slot =>
      have outcome := (Reply.of_refused_iff _ _ _ (by simp)).mp refused
      simp [operate, Client.call, told, outcome]
  | load a slot => exact ⟨rfl, rfl⟩
  | release _ | addCandidate _ | upgrade _ | cloneHandle _ | dropHandle _ | collect | trigger | memory _
  | room _ | reorder _ => simp [answer] at refused

/-- A plain operation does what its trying form does, but where that is refused it counts the misuse. -/
structure Absorbs (m : Machine) (plain trying : Operation) : Prop where
  same : (∀ fault, m.answer trying ≠ .refused fault) → m.operate plain = m.operate trying
  counted : ∀ fault, m.answer trying = .refused fault → m.operate plain = m.onHeap fun h =>
    { h with books := { h.books with misuse := h.books.misuse + 1 } }

/-- What is refused in a state, and that nothing is left of it. -/
structure Traceless (m : Machine) : Prop where
  refused : ∀ request fault,
    m.answer (.call request) = .refused fault ↔ m.heap.Refuses fault request
  unchanged : ∀ request fault, m.answer (.call request) = .refused fault →
    m.operate (.call request) = m ∧ m.told (.call request) = []
  retains : ∀ a, m.Absorbs (.retain a) (.call (.retain a))
  releases : ∀ a, m.Absorbs (.call (.release a)) (.call (.tryRelease a))
  assigns : ∀ a slot held b fault, m.answer (.call (.load a slot)) = .object held →
    m.answer (.call (.retain b)) = .refused fault →
      let n := m.operate (.call (.assign a slot (some b)))
      m.answer (.call (.assign a slot (some b))) = .refused fault ∧
        n.answer (.call (.load a slot)) = .object held ∧ ∀ c, n.heap.countAt c = m.heap.countAt c

theorem absorbs_retain (m : Machine) (a : Addr) : m.Absorbs (.retain a) (.call (.retain a)) := by
  cases done : m.heap.tryRetain a with
  | error reason =>
      constructor <;> simp [answer, Reply.of, operate, Heap.retain, Heap.absorb, onHeap, done]
  | ok k =>
      constructor <;>
        simp [answer, Reply.of, operate, Client.call, Client.onHeap, Heap.retain, onHeap, done]

theorem absorbs_release (m : Machine) (a : Addr) :
    m.Absorbs (.call (.release a)) (.call (.tryRelease a)) := by
  cases done : m.tryRelease a with
  | error reason =>
      constructor <;>
        simp [answer, Reply.of, operate, Client.call, release, Heap.absorb, onHeap, done]
  | ok n => constructor <;> simp [answer, Reply.of, operate, Client.call, release, done]

theorem traceless {blocks : List (Addr × Nat)} (fitting : m.heap.Fitting)
    (lent : m.heap.pool.Lent blocks) : m.Traceless := by
  have refuses : ∀ request fault,
      m.answer (.call request) = .refused fault ↔ m.heap.Refuses fault request := fun request _ =>
    answer_refused_iff fitting lent request
  refine ⟨refuses, fun _ _ => operate_refused, m.absorbs_retain, m.absorbs_release,
    fun a slot held b fault loads refused => ?_⟩
  have present : ∀ other, ¬ m.heap.Slotless a slot other := by
    intro other slotless
    rw [(refuses (.load a slot) other).mpr slotless] at loads
    cases loads
  have denied : m.answer (.call (.assign a slot (some b))) = .refused fault :=
    (refuses _ _).mpr (Or.inr ⟨present, b, rfl, (refuses _ _).mp refused⟩)
  refine ⟨denied, ?_⟩
  rw [(operate_refused denied).1]
  exact ⟨loads, fun c => rfl⟩

end Machine

namespace Estate

variable {e f : Estate}

theorem Run.fitting (run : Run e f) (fitting : e.heap.Fitting) : f.heap.Fitting := by
  induction run with
  | start => exact fitting
  | act deed run may ih =>
      cases deed with
      | operate operation => exact Machine.operate_fitting ih operation
      | step => exact Machine.step_fitting ih
      | deal _ | elsewhere _ => exact ih

/-- In every state a call is refused just when something refuses it, and then nothing changes. A plain
retain or release does what its trying form does, but where that is refused it counts the misuse. An
assignment whose new value gets no reference is refused for the reason that the value is, if the slot
is there; the slot holds what it held, and no count has moved. -/
theorem refusals_traceless (settings : Settings) (entropy : UInt64) (heap : Heap)
    (made : Heap.create settings entropy = .ok heap) (e : Estate)
    (run : Run { machine := { heap } } e) : e.machine.Traceless := by
  obtain rfl := Heap.create_initial made
  have lent := (run.sound (.initial settings entropy)).kept.lent
  have fitting : e.heap.Fitting := run.fitting (Heap.fitting_initial settings entropy)
  exact Machine.traceless fitting lent

/-- An object holds a second one in its first slot. A third one is in its destructor, and the system
refuses everything. -/
def refusalDeeds : List Deed :=
  [.operate (.call (.declare 1 (.leading 1))), .operate (.call (.alloc 16 1 none)),
    .operate (.call (.alloc 8 2 none)), .operate (.call (.alloc 8 2 (some 9))),
    .operate (.call (.assign 0x6b7000000000 0 (some 0x6b7000000060))),
    .operate (.call (.release 0x6b70000000c0)), .step, .step, .operate (.call (.memory 0))]

theorem refusals_traceless_dying :
    let start : Estate := { machine := { heap := .initial {} 0 } }
    let m := (refusalDeeds.foldl act start).machine
    let dying : Addr := 0x6b70000000c0
    start.Plays refusalDeeds ∧ m.callback? = some (.destructor dying 9) ∧
      m.answer (.call (.tryRelease dying)) = .refused (.doubleRelease dying) ∧
      (m.operate (.call (.release dying))).heap.books.misuse = 1 ∧
      m.operate (.call (.alloc 500 1 none)) = m ∧
      m.answer (.call (.assign 0x6b7000000000 0 (some dying))) = .refused (.invalidObject dying) ∧
      (m.operate (.call (.assign 0x6b7000000000 0 (some dying)))).answer
        (.call (.load 0x6b7000000000 0)) = .object (some 0x6b7000000060) := by
  intro start m dying
  have made : Heap.create {} 0 = .ok (.initial {} 0) := Heap.create_valid {} 0 (by decide +kernel)
  have plays : start.Plays refusalDeeds := by decide +kernel
  have traceless : m.Traceless :=
    refusals_traceless {} 0 _ made (refusalDeeds.foldl act start) (Run.start.plays _ plays)
  have live : m.heap.Live dying := by decide +kernel
  have spent : m.heap.countAt dying = 0 := by decide +kernel
  have released := (traceless.refused (.tryRelease dying) (.doubleRelease dying)).mpr
    (Or.inr ⟨live, spent, rfl⟩)
  have absorbed := (traceless.releases dying).counted _ released
  have short : m.answer (.call (.alloc 500 1 none)) = .refused (.outOfMemory 784) := by decide +kernel
  obtain ⟨denied, still, _⟩ := traceless.assigns 0x6b7000000000 0 (some 0x6b7000000060) dying
    (.invalidObject dying) (by decide +kernel) (by decide +kernel)
  refine ⟨plays, by decide +kernel, released, ?_, (traceless.unchanged _ _ short).1, denied, still⟩
  rw [absorbed]
  decide +kernel

end Estate

end CountedHeap
