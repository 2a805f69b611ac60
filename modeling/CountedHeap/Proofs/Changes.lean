import CountedHeap.Heap.Handles
import CountedHeap.Heap.Release
import CountedHeap.Proofs.CountWord
import CountedHeap.Proofs.References

/-!
What each operation on a heap leaves as it was. Most of them change one object, and of that object
its count word or a flag; no reference count, no claim and no release changes what objects hold.
-/

namespace CountedHeap

namespace Object

/-- The part of an object that says what it holds. -/
def body (o : Object) : Bool × Nat × Nat × Payload := (o.traced, o.type, o.size, o.payload)

/-- The body, and whether the object is live and whether it is claimed. -/
def shape (o : Object) : Bool × Bool × Bool × Nat × Nat × Payload := (o.valid, o.claimed, o.body)

/-- All that the books on references depend on. -/
def standing (o : Object) : Nat × Bool × Bool × Bool × Nat × Nat × Payload := (o.count, o.shape)

/-- The standing, and whether the object is marked as a candidate. -/
def face (o : Object) : CountWord × Bool × Bool × Bool × Nat × Nat × Payload := (o.word, o.shape)

end Object

namespace Heap

/-- Two heaps whose objects look the same to a view. -/
structure Same {α : Type} (view : Object → α) (h k : Heap) : Prop where
  types : k.types = h.types
  objects : ∀ a : Addr, (k.objects[a]?).map view = (h.objects[a]?).map view

namespace Same

variable {α β : Type} {view : Object → α} {h k l : Heap}

theorem refl (h : Heap) : Same view h h := ⟨rfl, fun _ => rfl⟩

theorem trans (first : Same view h k) (second : Same view k l) : Same view h l :=
  ⟨second.types.trans first.types, fun a => (second.objects a).trans (first.objects a)⟩

theorem coarser (same : Same view h k) (coarse : Object → β) (through : α → β)
    (factors : ∀ o, coarse o = through (view o)) : Same coarse h k := by
  refine ⟨same.types, fun a => ?_⟩
  have split : coarse = through ∘ view := funext factors
  rw [split, ← Option.map_map, same.objects, Option.map_map]

theorem body_of_shape (same : Same Object.shape h k) : Same Object.body h k :=
  same.coarser Object.body (·.2.2) fun _ => rfl

theorem shape_of_standing (same : Same Object.standing h k) : Same Object.shape h k :=
  same.coarser Object.shape (·.2) fun _ => rfl

theorem standing_of_face (same : Same Object.face h k) : Same Object.standing h k :=
  same.coarser Object.standing (fun view => (view.1.count.toNat, view.2)) fun _ => rfl

theorem body_of_standing (same : Same Object.standing h k) : Same Object.body h k :=
  same.shape_of_standing.body_of_shape

theorem elim_eq (same : Same view h k) (a : Addr) (fallback : β) (ask : Object → β) (through : α → β)
    (factors : ∀ o, ask o = through (view o)) :
    (k.objects[a]?).elim fallback ask = (h.objects[a]?).elim fallback ask := by
  have key : ∀ found : Option Object,
      found.elim fallback ask = (found.map view).elim fallback through := by
    intro found
    cases found with
    | none => rfl
    | some o => exact factors o
  rw [key, key, same.objects]

theorem any_eq (same : Same view h k) (a : Addr) (ask : Object → Bool) (through : α → Bool)
    (factors : ∀ o, ask o = through (view o)) :
    (k.objects[a]?).any ask = (h.objects[a]?).any ask := by
  have key : ∀ found : Option Object, found.any ask = found.elim false ask := by
    intro found
    cases found <;> rfl
  rw [key, key]
  exact same.elim_eq a false ask through factors

theorem bufferedAt (same : Same Object.face h k) (a : Addr) : k.bufferedAt a = h.bufferedAt a :=
  same.any_eq a Object.buffered (·.1.buffered) fun _ => rfl

theorem tracedAt (same : Same Object.body h k) (a : Addr) : k.tracedAt a = h.tracedAt a :=
  same.any_eq a Object.traced (·.1) fun _ => rfl

theorem edges (same : Same Object.body h k) (a b : Addr) : k.edges a b = h.edges a b :=
  same.elim_eq a 0 (·.payload.holding b) (·.2.2.2.holding b) fun _ => rfl

theorem tracer? (same : Same Object.body h k) (a : Addr) : k.tracer? a = h.tracer? a := by
  have key : ∀ heap : Heap, heap.tracer? a =
      (heap.objects[a]?).elim none fun o => heap.types[o.type]? := by
    intro heap
    unfold Heap.tracer?
    cases heap.objects[a]? <;> rfl
  rw [key, key, same.types]
  exact same.elim_eq a none (fun o => h.types[o.type]?) (fun body => h.types[body.2.1]?) fun _ => rfl

theorem children (same : Same Object.body h k) (a : Addr) : k.children a = h.children a := by
  have key : ∀ heap : Heap, heap.children a =
      (heap.objects[a]?).elim [] fun o =>
        (heap.tracer? a).elim [] fun t => t.children o.payload := by
    intro heap
    unfold Heap.children
    cases heap.objects[a]? <;> cases heap.tracer? a <;> rfl
  rw [key, key, same.tracer?]
  exact same.elim_eq a [] _ (fun body => (h.tracer? a).elim [] fun t => t.children body.2.2.2)
    fun _ => rfl

theorem drops (same : Same Object.body h k) (a b : Addr) : k.drops a b = h.drops a b := by
  rw [Heap.drops, Heap.drops, same.tracedAt, same.children]

theorem live_iff (same : Same Object.shape h k) (a : Addr) : k.Live a ↔ h.Live a := by
  rw [Live, Live, same.any_eq a Object.valid (·.1) fun _ => rfl]

theorem live (same : Same Object.shape h k) : k.live = h.live := by
  ext a
  rw [mem_live, mem_live, same.live_iff]

theorem claimedAt (same : Same Object.shape h k) (a : Addr) : k.claimedAt a = h.claimedAt a :=
  same.any_eq a Object.claimed (·.2.1) fun _ => rfl

theorem held (same : Same Object.shape h k) (b : Addr) : k.held b = h.held b := by
  rw [Heap.held, Heap.held, same.live]
  exact Finset.sum_congr rfl fun a _ => same.body_of_shape.edges a b

theorem points (same : Same Object.shape h k) (a b : Addr) : k.Points a b ↔ h.Points a b := by
  rw [Points, Points, same.live_iff, same.body_of_shape.edges]

theorem countAt (same : Same Object.standing h k) (a : Addr) : k.countAt a = h.countAt a :=
  same.elim_eq a 0 Object.count (·.1) fun _ => rfl

end Same

/-- A heap in which one object became another; besides, entries may have come and gone in the
registry. -/
structure Changed (h : Heap) (a : Addr) (o : Object) (k : Heap) : Prop where
  here : k.objects[a]? = some o
  others : ∀ b : Addr, b ≠ a → k.objects[b]? = h.objects[b]?
  rest : k = { h with
    objects := k.objects
    collector := { h.collector with registry := k.collector.registry } }

namespace Changed

variable {h k l : Heap} {a : Addr} {o p : Object}

theorem trans (first : Changed h a o k) (second : Changed k a p l) : Changed h a p l := by
  refine ⟨second.here, fun b apart => (second.others b apart).trans (first.others b apart), ?_⟩
  rw [second.rest, first.rest]

theorem of_update (change : Object → Object) (there : h.objects[a]? = some o) :
    Changed h a (change o) (h.update a change) := by
  refine ⟨?_, ?_, rfl⟩
  · rw [getElem?_update, if_pos rfl, there, Option.map_some]
  · intro b apart
    rw [getElem?_update, if_neg (Ne.symm apart)]

theorem of_registry (registry : Registry) (there : h.objects[a]? = some o) :
    Changed h a o { h with collector := { h.collector with registry } } :=
  ⟨there, fun _ _ => rfl, rfl⟩

theorem same {α : Type} {view : Object → α} (changed : Changed h a p k)
    (there : h.objects[a]? = some o) (equal : view p = view o) : Same view h k := by
  refine ⟨by rw [changed.rest], fun b => ?_⟩
  by_cases apart : b = a
  · subst apart
    rw [changed.here, there, Option.map_some, Option.map_some, equal]
  · rw [changed.others b apart]

theorem countAt_here (changed : Changed h a p k) : k.countAt a = p.count :=
  countAt_of_there changed.here

theorem countAt_others (changed : Changed h a p k) (b : Addr) (apart : b ≠ a) :
    k.countAt b = h.countAt b := by
  rw [countAt, countAt, changed.others b apart]

theorem claimedAt_here (changed : Changed h a p k) : k.claimedAt a = p.claimed :=
  claimedAt_of_there changed.here

theorem claimedAt_others (changed : Changed h a p k) (b : Addr) (apart : b ≠ a) :
    k.claimedAt b = h.claimedAt b := by
  rw [claimedAt, claimedAt, changed.others b apart]

theorem live_iff (changed : Changed h a p k) (there : h.objects[a]? = some o)
    (valid : p.valid = o.valid) (b : Addr) : k.Live b ↔ h.Live b := by
  have same : Same Object.valid h k := changed.same there valid
  rw [Live, Live, same.any_eq b Object.valid id fun _ => rfl]

end Changed

/-! The registry -/

/-- A registration is refused, or adds one entry and sets one bit. -/
theorem register_cases (h : Heap) (a : Addr) :
    (h.register a = .ok (false, h) ∧ ∀ o, h.objects[a]? = some o → o.valid = false ∨
        o.traced = false ∨ o.claimed = true ∨ o.buffered = true ∨
        h.collector.registry.holds a = true) ∨
      h.collector.canGrow = false ∧ h.register a = .error .registrationFailure ∨
      ∃ o, h.objects[a]? = some o ∧ o.valid = true ∧ o.traced = true ∧ o.claimed = false ∧
        o.buffered = false ∧ h.collector.registry.holds a = false ∧
        h.collector.canGrow = true ∧ ∃ k, h.register a = .ok (true, k) ∧
          Changed h a { o with word := o.word.setBuffered true } k ∧
          k.collector.registry =
            { object := a, recorded := o.word.count } :: h.collector.registry := by
  unfold register
  split
  · rename_i absent
    refine Or.inl ⟨rfl, fun o there => ?_⟩
    rw [absent] at there
    cases there
  · rename_i o there
    have only : ∀ p, h.objects[a]? = some p → p = o := fun p found => by
      rw [there, Option.some.injEq] at found
      exact found.symm
    split
    · rename_i refused
      refine Or.inl ⟨rfl, fun p found => ?_⟩
      rw [only p found]
      simp only [Bool.or_eq_true, Bool.not_eq_true'] at refused
      tauto
    · rename_i eligible
      split
      · rename_i listed
        refine Or.inl ⟨rfl, fun p found => ?_⟩
        rw [only p found]
        simp only [Bool.or_eq_true] at listed
        tauto
      · rename_i absent
        split
        · rename_i full
          exact Or.inr (Or.inl ⟨by simpa using full, rfl⟩)
        · rename_i room
          simp only [Bool.or_eq_true, Bool.not_eq_true', not_or, Bool.not_eq_false,
            Bool.not_eq_true] at eligible absent room
          obtain ⟨⟨valid, traced⟩, unclaimed⟩ := eligible
          refine Or.inr (Or.inr ⟨o, there, valid, traced, unclaimed, absent.1, absent.2, room, _, rfl, ?_,
            rfl⟩)
          have bit := Changed.of_update (h := h)
            (fun o : Object => { o with word := o.word.setBuffered true }) there
          exact bit.trans (Changed.of_registry _ bit.here)

theorem forget_cases (h : Heap) (a : Addr) (o : Object) (there : h.objects[a]? = some o) :
    h.collector.registry.holds a = false ∧ h.forget a = h ∨
      h.collector.registry.holds a = true ∧
        Changed h a { o with word := o.word.setBuffered false } (h.forget a) ∧
        (h.forget a).collector.registry = h.collector.registry.erase a := by
  unfold forget
  split
  · rename_i listed
    have bit := Changed.of_update (h := h)
      (fun o : Object => { o with word := o.word.setBuffered false }) there
    exact Or.inr ⟨listed, bit.trans (Changed.of_registry _ bit.here), rfl⟩
  · rename_i absent
    exact Or.inl ⟨by simpa using absent, rfl⟩

/-! Releases -/

-- The object keeps its word, or was a registered candidate and loses the bit with its entry.
theorem condemn_cases (h : Heap) (a : Addr) (o : Object) (there : h.objects[a]? = some o) :
    o.claimed = true ∧ (∃ k, h.condemn a = (false, k) ∧ Changed h a o k ∧
      k.collector.registry = h.collector.registry) ∨
      o.claimed = false ∧ ∃ k word, h.condemn a = (true, k) ∧
        Changed h a { o with word, claimed := true } k ∧ word.count = o.word.count ∧
        (k.collector.registry = h.collector.registry ∧ word = o.word ∧
            (o.traced = true → h.collector.registry.holds a = false) ∨
          k.collector.registry = h.collector.registry.erase a ∧ o.traced = true ∧
            word.buffered = false) := by
  have claim := Changed.of_update (h := h) (fun o : Object => { o with claimed := true }) there
  have tried : h.tryClaim a = (!o.claimed, h.update a ({ · with claimed := true })) := by
    simp [tryClaim, there]
  have registry : (h.update a ({ · with claimed := true })).collector = h.collector := rfl
  generalize h.update a ({ · with claimed := true }) = k at claim tried registry
  cases claimed : o.claimed with
  | true =>
      have unchanged : { o with claimed := true } = o := by rw [← claimed]
      rw [unchanged] at claim
      exact Or.inl ⟨rfl, k, by simp [condemn, tried, claimed], claim, by rw [registry]⟩
  | false =>
      refine Or.inr ⟨rfl, ?_⟩
      by_cases traced : o.traced = true
      · have done : h.condemn a = (true, k.forget a) := by
          simp [condemn, tried, claimed, claim.here, traced]
        rcases forget_cases k a _ claim.here with ⟨absent, same⟩ | ⟨listed, bit, erased⟩
        · rw [registry] at absent
          rw [same] at done
          exact ⟨k, o.word, done, claim, rfl, Or.inl ⟨by rw [registry], rfl, fun _ => absent⟩⟩
        · rw [registry] at erased
          exact ⟨k.forget a, o.word.setBuffered false, done, claim.trans bit,
            CountWord.count_setBuffered _ _,
            Or.inr ⟨erased, traced, CountWord.buffered_setBuffered _ _⟩⟩
      · have done : h.condemn a = (true, k) := by
          simp [condemn, tried, claimed, claim.here, traced]
        exact ⟨k, o.word, done, claim, rfl,
          Or.inl ⟨by rw [registry], rfl, fun yes => absurd yes traced⟩⟩

/-- What the registry has of a release: an object that is not the last to go stays in it, and enters
it if it has to. -/
structure Noted (h : Heap) (a : Addr) (o : Object) (last : Bool) (word : CountWord) (k : Heap) :
    Prop where
  others : ∀ b, b ≠ a → k.collector.registry.holds b = h.collector.registry.holds b
  kept : last = false → h.collector.registry.holds a = true → k.collector.registry.holds a = true
  bit : last = false → word.buffered = true →
    o.buffered = true ∨ k.collector.registry.holds a = true
  joins : last = false → k.collector.registry.holds a = true →
    h.collector.registry.holds a = true ∨
      (h.autoRegister = true ∧ h.collector.canGrow = true) ∧ o.traced = true
  survivor : o.count ≠ 1 → o.claimed = false → o.traced = true → h.autoRegister = true →
    h.collector.canGrow = true → o.buffered = true ∨ k.collector.registry.holds a = true
  calm : last = false → (o.traced = true → o.buffered = true) →
    k.collector.registry = h.collector.registry ∧ word.buffered = o.buffered
  entries : ∀ entry ∈ k.collector.registry,
    entry ∈ h.collector.registry ∨ entry.recorded.toNat < 2 ^ 31

theorem holds_cons (registry : Registry) (entry : Candidate) (b : Addr) :
    Registry.holds (entry :: registry) b = (entry.object == b || registry.holds b) := rfl

theorem holds_erase (registry : Registry) (a b : Addr) (apart : b ≠ a) :
    (registry.erase a).holds b = registry.holds b := by
  unfold Registry.holds Registry.erase
  rw [List.any_filter]
  congr 1
  funext entry
  by_cases same : entry.object = b
  · simp [same, apart]
  · simp [same]

namespace Noted

variable {h k : Heap} {a : Addr} {o : Object} {word : CountWord}

theorem silent (registry : k.collector.registry = h.collector.registry)
    (bit : word.buffered = o.buffered)
    (enough : o.count ≠ 1 → o.claimed = false → o.traced = true → h.autoRegister = true →
      h.collector.canGrow = true → o.buffered = true ∨ h.collector.registry.holds a = true) :
    Noted h a o false word k := by
  constructor
  · intro b _
    rw [registry]
  · intro _ holds
    rw [registry, holds]
  · intro _ isSet
    exact Or.inl (bit.symm.trans isSet)
  · intro _ holds
    exact Or.inl (registry ▸ holds)
  · intro many unclaimed traced auto room
    rw [registry]
    exact enough many unclaimed traced auto room
  · intro _ _
    exact ⟨registry, bit⟩
  · intro entry member
    exact Or.inl (registry ▸ member)

theorem entered (recorded : CountWord)
    (registry : k.collector.registry =
      { object := a, recorded := recorded.count } :: h.collector.registry)
    (needed : o.traced = true ∧ o.buffered = false)
    (eager : h.autoRegister = true ∧ h.collector.canGrow = true) : Noted h a o false word k := by
  have present : k.collector.registry.holds a = true := by
    rw [registry, holds_cons]
    simp
  constructor
  · intro b apart
    rw [registry, holds_cons]
    simp [Ne.symm apart]
  · exact fun _ _ => present
  · exact fun _ _ => Or.inr present
  · exact fun _ _ => Or.inr ⟨eager, needed.1⟩
  · exact fun _ _ _ _ _ => Or.inr present
  · intro _ listed
    rw [listed needed.1] at needed
    cases needed.2
  · intro entry member
    rw [registry, List.mem_cons] at member
    rcases member with isNew | old
    · rw [isNew]
      exact Or.inr (CountWord.toNat_count_lt _)
    · exact Or.inl old

theorem condemned (one : o.count = 1)
    (registry : k.collector.registry = h.collector.registry ∨
      k.collector.registry = h.collector.registry.erase a) : Noted h a o true word k := by
  constructor
  · intro b apart
    rcases registry with same | erased
    · rw [same]
    · rw [erased, holds_erase _ a b apart]
  · intro impossible
    cases impossible
  · intro impossible
    cases impossible
  · intro impossible
    cases impossible
  · intro many
    exact absurd one many
  · intro impossible
    cases impossible
  · intro entry member
    rcases registry with same | erased
    · exact Or.inl (same ▸ member)
    · rw [erased] at member
      exact Or.inl (List.mem_filter.mp member).1

end Noted

/-- What a release does to a live object with references: it drops one. A survivor may enter the
registry; the last release claims the object, unless it is claimed already, and takes it out. -/
inductive Lowered (h : Heap) (a : Addr) (o : Object) : Bool → Heap → Prop where
  | fell (k : Heap) (word : CountWord) (count : word.count.toNat + 1 = o.count)
      (bit : word.buffered = o.buffered) (kept : o.count = 1 → o.claimed = true)
      (changed : Changed h a { o with word } k)
      (registry : k.collector.registry = h.collector.registry)
      (enough : o.count ≠ 1 → o.claimed = false → o.traced = true → h.autoRegister = true →
        h.collector.canGrow = true → o.buffered = true ∨ h.collector.registry.holds a = true) :
      Lowered h a o false k
  | entered (k : Heap) (word : CountWord) (count : word.count.toNat + 1 = o.count)
      (bit : word.buffered = true) (many : o.count ≠ 1) (traced : o.traced = true)
      (unclaimed : o.claimed = false) (unbuffered : o.buffered = false)
      (absent : h.collector.registry.holds a = false) (changed : Changed h a { o with word } k)
      (registry : k.collector.registry =
        { object := a, recorded := word.count } :: h.collector.registry)
      (eager : h.autoRegister = true ∧ h.collector.canGrow = true) : Lowered h a o false k
  | condemned (k : Heap) (word : CountWord) (count : word.count.toNat + 1 = o.count)
      (one : o.count = 1) (unclaimed : o.claimed = false)
      (changed : Changed h a { o with word, claimed := true } k)
      (registry : k.collector.registry = h.collector.registry ∧ word.buffered = o.buffered ∧
          (o.traced = true → h.collector.registry.holds a = false) ∨
        k.collector.registry = h.collector.registry.erase a ∧ o.traced = true ∧
          word.buffered = false) :
      Lowered h a o true k

theorem Lowered.changed {h k : Heap} {a : Addr} {o : Object} {last : Bool}
    (lowered : Lowered h a o last k) :
    ∃ word, Changed h a { o with word, claimed := o.claimed || last } k := by
  cases lowered with
  | fell _ word _ _ _ changed | entered _ word _ _ _ _ _ _ _ changed =>
      exact ⟨word, by simpa using changed⟩
  | condemned _ word _ _ _ changed => exact ⟨word, by simpa using changed⟩

theorem lower_cases (h : Heap) (a : Addr) (o : Object) (there : h.objects[a]? = some o)
    (valid : o.valid = true) (positive : 0 < o.count) :
    ∃ last k, h.lower a = .ok (last, k) ∧ Lowered h a o last k := by
  obtain ⟨previous, lowered, done⟩ := o.word.decrement_positive positive
  obtain ⟨was, fewer, bit⟩ := o.word.decrement_spec lowered previous done
  have less := Changed.of_update (h := h) (fun o : Object => { o with word := lowered }) there
  have one : previous = 1 ↔ o.count = 1 := by
    rw [was, ← UInt32.toNat_inj]
    rfl
  have isValid := (h.valid_eq a o).mpr ⟨there, valid⟩
  have whole : o.word.decrementBuffered.getD o.word.decrement = .ok (previous, lowered) := by
    rw [CountWord.decrementBuffered_getD, done]
  have collector : (h.update a ({ · with word := lowered })).collector = h.collector := rfl
  have registers : (h.update a ({ · with word := lowered })).autoRegister = h.autoRegister := rfl
  simp only [lower, isValid, whole]
  generalize h.update a ({ · with word := lowered }) = k at less collector registers
  by_cases last : previous = 1
  · rw [if_pos last]
    have isOne := one.mp last
    rcases condemn_cases k a _ less.here with ⟨claimed, l, out, same, registry⟩ |
      ⟨unclaimed, l, word, out, claim, count, registry⟩
    · rw [collector] at registry
      exact ⟨false, l, by rw [out], .fell l lowered fewer bit (fun _ => claimed) (less.trans same)
        registry fun many => absurd isOne many⟩
    · simp only at unclaimed count registry
      rw [collector] at registry
      refine ⟨true, l, by rw [out], .condemned l word (by rw [count]; exact fewer) isOne unclaimed
        (less.trans claim) (registry.imp_left fun same => ⟨same.1, ?_, same.2.2⟩)⟩
      rw [same.2.1]
      exact bit
  · rw [if_neg last]
    have notOne : ¬ o.count = 1 := mt one.mpr last
    have registry : k.collector.registry = h.collector.registry := by rw [collector]
    split
    · rename_i asked
      simp only [Bool.and_eq_true, Bool.not_eq_true'] at asked
      rcases register_cases k a with ⟨out, why⟩ | ⟨full, out⟩ |
        ⟨p, found, _, _, unclaimed, unbuffered, absent, room, l, out, entry, entered⟩
      · refine ⟨false, k, by simp [out], .fell k lowered fewer bit (fun isOne => absurd isOne notOne)
          less registry ?_⟩
        intro _ unclaimed traced _ _
        rcases why _ less.here with dead | untraced | claimed | isSet | holds
        · simp only [Object.valid] at dead valid
          rw [valid] at dead
          cases dead
        · rw [traced] at untraced
          cases untraced
        · rw [unclaimed] at claimed
          cases claimed
        · exact Or.inl (bit.symm.trans isSet)
        · exact Or.inr (registry ▸ holds)
      · refine ⟨false, k, by simp [out], .fell k lowered fewer bit (fun isOne => absurd isOne notOne)
          less registry ?_⟩
        intro _ _ _ _ room
        rw [← collector, full] at room
        cases room
      · rw [less.here, Option.some.injEq] at found
        subst found
        rw [registry] at entered absent
        rw [registers] at asked
        rw [collector] at room
        have sameCount := CountWord.count_setBuffered lowered true
        refine ⟨false, l, by simp [out], .entered l (lowered.setBuffered true) (by rw [sameCount]; exact fewer)
          (CountWord.buffered_setBuffered _ _) notOne asked.2 unclaimed asked.1.1 absent
          (less.trans entry) (by rw [entered, sameCount]) ⟨asked.1.2, room⟩⟩
    · rename_i unasked
      refine ⟨false, k, rfl, .fell k lowered fewer bit (fun isOne => absurd isOne notOne) less registry ?_⟩
      intro _ _ traced auto _
      simp only [Bool.and_eq_true, Bool.not_eq_true', not_and, Bool.not_eq_true] at unasked
      by_contra absent
      rw [not_or, Bool.not_eq_true] at absent
      rw [unasked ⟨absent.1, registers.trans auto⟩] at traced
      cases traced

theorem lower_spec (h : Heap) (a : Addr) (o : Object) (there : h.objects[a]? = some o)
    (valid : o.valid = true) (positive : 0 < o.count) :
    ∃ last k word, h.lower a = .ok (last, k) ∧
      Changed h a { o with word, claimed := o.claimed || last } k ∧
      word.count.toNat + 1 = o.count ∧ (last = true ↔ o.count = 1 ∧ o.claimed = false) ∧
      Noted h a o last word k := by
  obtain ⟨last, k, done, lowered⟩ := h.lower_cases a o there valid positive
  cases lowered with
  | fell k word count bit kept changed registry enough =>
      refine ⟨false, k, word, done, by simpa using changed, count, ?_, .silent registry bit enough⟩
      simp only [Bool.false_eq_true, false_iff, not_and, Bool.not_eq_false]
      exact kept
  | entered k word count bit many traced unclaimed unbuffered absent changed registry eager =>
      exact ⟨false, k, word, done, by simpa using changed, count, by simp [many],
        .entered word registry ⟨traced, unbuffered⟩ eager⟩
  | condemned k word count one unclaimed changed registry =>
      exact ⟨true, k, word, done, by simpa using changed, count, by simp [one, unclaimed],
        .condemned one (registry.imp And.left And.left)⟩

theorem lower_error_iff (h : Heap) (a : Addr) (fault : Fault) :
    h.lower a = .error fault ↔ ¬ h.Live a ∧ fault = .invalidObject a ∨
      h.Live a ∧ h.countAt a = 0 ∧ fault = .doubleRelease a := by
  by_cases live : h.Live a
  · obtain ⟨o, there, valid⟩ := (h.live_iff a).mp live
    have count : h.countAt a = o.count := countAt_of_there there
    by_cases spent : o.count = 0
    · have refuses : o.word.decrement = .error 0 := by
        simp [CountWord.decrement, (CountWord.count_eq_zero_iff o.word).mpr spent]
      have whole : o.word.decrementBuffered.getD o.word.decrement = .error 0 := by
        rw [CountWord.decrementBuffered_getD, refuses]
      have refused : h.lower a = .error (.doubleRelease a) := by
        simp only [lower, (h.valid_eq a o).mpr ⟨there, valid⟩, whole]
      simp [refused, live, count, spent, eq_comm]
    · obtain ⟨last, k, done, _⟩ := h.lower_cases a o there valid (Nat.pos_of_ne_zero spent)
      simp [done, live, count, spent]
  · have refused : h.lower a = .error (.invalidObject a) := by
      simp only [lower, (h.valid_error_iff a _).mpr ⟨live, rfl⟩]
    simp [refused, live, eq_comm]

theorem lower_refused (h : Heap) (a : Addr) (refused : ¬ (h.Live a ∧ 0 < h.countAt a)) :
    ∃ fault, h.lower a = .error fault := by
  by_cases live : h.Live a
  · have spent : h.countAt a = 0 := Nat.eq_zero_of_not_pos fun positive => refused ⟨live, positive⟩
    exact ⟨_, (h.lower_error_iff a _).mpr (Or.inr ⟨live, spent, rfl⟩)⟩
  · exact ⟨_, (h.lower_error_iff a _).mpr (Or.inl ⟨live, rfl⟩)⟩

/-! Destruction -/

theorem update_same {α : Type} {view : Object → α} (h : Heap) (a : Addr)
    (change : Object → Object) (equal : ∀ o, view (change o) = view o) :
    Same view h (h.update a change) := by
  refine ⟨rfl, fun b => ?_⟩
  rw [getElem?_update]
  split
  · rw [Option.map_map]
    congr 1
    exact funext equal
  · rfl

theorem reclaim_spec (h : Heap) (a : Addr) (o : Object) (there : h.objects[a]? = some o) :
    (h.reclaim a).objects[a]? = some { o with mark := 0 } ∧
      (h.reclaim a).books = h.books.recordDealloc o.totalBytes ∧
      (h.reclaim a).pool = h.pool.free a o.totalBytes := by
  simp only [reclaim, there]
  refine ⟨?_, rfl, rfl⟩
  rw [getElem?_update, if_pos rfl, there, Option.map_some]

theorem reclaim_others (h : Heap) (a b : Addr) (apart : b ≠ a) :
    (h.reclaim a).objects[b]? = h.objects[b]? := by
  unfold reclaim
  split
  · rfl
  · rw [getElem?_update, if_neg (Ne.symm apart)]

theorem reclaim_frame (h : Heap) (a : Addr) :
    (h.reclaim a).types = h.types ∧ (h.reclaim a).collector = h.collector ∧
      (h.reclaim a).autoRegister = h.autoRegister := by
  unfold reclaim
  split <;> exact ⟨rfl, rfl, rfl⟩

theorem reclaim_body (h : Heap) (a : Addr) : Same Object.body h (h.reclaim a) := by
  refine ⟨(h.reclaim_frame a).1, fun b => ?_⟩
  by_cases here : b = a
  · subst here
    cases there : h.objects[b]? with
    | none => simp [reclaim, there]
    | some o =>
        rw [(h.reclaim_spec b o there).1]
        rfl
  · rw [h.reclaim_others a b here]

theorem reclaim_live (h : Heap) (a b : Addr) : (h.reclaim a).Live b ↔ b ≠ a ∧ h.Live b := by
  by_cases here : b = a
  · subst here
    have dead : (0 : UInt32) ≠ Object.magic := by decide
    cases there : h.objects[b]? with
    | none => simp [Live, reclaim, there]
    | some o => simp [Live, (h.reclaim_spec b o there).1, Object.valid, dead]
  · rw [Live, Live, h.reclaim_others a b here]
    simp [here]

/-! Handles -/

section Handles

variable {h k : Heap} {a : Addr} {handle : SlotId}

theorem downgrade_spec (done : h.downgrade a = .ok (handle, k)) :
    ∃ o, h.objects[a]? = some o ∧ o.valid = true ∧ o.claimed = false ∧
      handle = (h.weak.insert a).1 ∧
      k = { h.update a ({ · with weak := true }) with weak := (h.weak.insert a).2 } := by
  unfold downgrade at done
  split at done
  · cases done
  · rename_i o isValid
    obtain ⟨there, valid⟩ := (h.valid_eq a o).mp isValid
    split at done
    · cases done
    · rename_i eligible
      simp only [not_or, Bool.not_eq_true] at eligible
      cases done
      exact ⟨o, there, valid, eligible.2, rfl, rfl⟩

/-- What making one handle keeps, making any number of them keeps. -/
theorem downgradeBatch_keeps (keeps : Heap → Prop)
    (one : ∀ (h k : Heap) (a : Addr) (handle : SlotId), keeps h →
      h.downgrade a = .ok (handle, k) → keeps k)
    (start : keeps h) (objects : List Addr) : keeps (h.downgradeBatch objects).2 := by
  induction objects generalizing h with
  | nil => exact start
  | cons a rest ih =>
      unfold downgradeBatch
      split
      · rename_i handle k done
        exact ih (one h k a handle start done)
      · exact ih start

end Handles

end Heap

end CountedHeap
