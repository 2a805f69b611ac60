import CountedHeap.Heap.Handles
import CountedHeap.Heap.Release
import CountedHeap.Heap.Slots
import CountedHeap.Proofs.CountWord

/-!
Heaps that differ in nothing but what the registration of candidates leaves behind: the registry, the
bits that mirror it, the room it has, and whether releases register at all. Whatever is done to the
one and to the other, they answer alike and differ in nothing else afterwards.

A release takes one of three ways, depending on the bit and on whether it registers. All three come
to the plain one that knows no registry.
-/

namespace CountedHeap

/-- Two calls come to the same: both refuse for one reason, or what they return is related. -/
inductive Both {ε α β : Type} (related : α → β → Prop) : Except ε α → Except ε β → Prop where
  | refused (reason : ε) : Both related (.error reason) (.error reason)
  | granted {x : α} {y : β} (results : related x y) : Both related (.ok x) (.ok y)

theorem Both.cases {ε α β : Type} {related : α → β → Prop} {left : Except ε α} {right : Except ε β}
    (both : Both related left right) :
    (∃ reason, left = .error reason ∧ right = .error reason) ∨
      ∃ x y, left = .ok x ∧ right = .ok y ∧ related x y := by
  cases both with
  | refused reason => exact Or.inl ⟨reason, rfl, rfl⟩
  | granted results => exact Or.inr ⟨_, _, rfl, rfl, results⟩

theorem Both.symm {ε α : Type} {related : α → α → Prop} {left right : Except ε α}
    (both : Both related left right) (turned : ∀ {x y}, related x y → related y x) :
    Both related right left := by
  cases both with
  | refused reason => exact .refused reason
  | granted results => exact .granted (turned results)

theorem Both.trans {ε α : Type} {related : α → α → Prop} {left middle right : Except ε α}
    (first : Both related left middle) (second : Both related middle right)
    (joined : ∀ {x y z}, related x y → related y z → related x z) : Both related left right := by
  cases first with
  | refused reason =>
      cases second
      exact .refused reason
  | granted results =>
      cases second with
      | granted results' => exact .granted (joined results results')

/-! Words with the same count -/

namespace CountWord

variable {v w : CountWord}

def Level (x y : UInt32 × CountWord) : Prop := x.1 = y.1 ∧ x.2.count = y.2.count

theorem increment_both (same : v.count = w.count) : Both Level v.increment w.increment := by
  by_cases refuses : w.count = 0 ∨ w.count = maxCount
  · have left : v.increment = .error w.count := by simp [increment, same, refuses]
    have right : w.increment = .error w.count := by simp [increment, refuses]
    rw [left, right]
    exact .refused _
  · have left : v.increment = .ok (v.count, ⟨v.bits + 1⟩) := by simp [increment, same, refuses]
    have right : w.increment = .ok (w.count, ⟨w.bits + 1⟩) := by simp [increment, refuses]
    obtain ⟨_, _, more, _⟩ := increment_spec v _ _ left
    obtain ⟨_, _, more', _⟩ := increment_spec w _ _ right
    rw [left, right]
    exact .granted ⟨same, UInt32.toNat_inj.mp (by rw [more, more', same])⟩

theorem decrement_both (same : v.count = w.count) : Both Level v.decrement w.decrement := by
  by_cases refuses : w.count = 0
  · have left : v.decrement = .error 0 := by simp [decrement, same, refuses]
    have right : w.decrement = .error 0 := by simp [decrement, refuses]
    rw [left, right]
    exact .refused _
  · have left : v.decrement = .ok (v.count, ⟨v.bits - 1⟩) := by simp [decrement, same, refuses]
    have right : w.decrement = .ok (w.count, ⟨w.bits - 1⟩) := by simp [decrement, refuses]
    obtain ⟨_, less, _⟩ := decrement_spec v _ _ left
    obtain ⟨_, less', _⟩ := decrement_spec w _ _ right
    have counts : v.count.toNat = w.count.toNat := congrArg UInt32.toNat same
    rw [left, right]
    exact .granted ⟨same, UInt32.toNat_inj.mp (Nat.succ.inj (less.trans (counts.trans less'.symm)))⟩

theorem upgrade_both (same : v.count = w.count) (claimed : Bool) :
    (v.upgrade claimed).1 = (w.upgrade claimed).1 ∧
      (v.upgrade claimed).2.count = (w.upgrade claimed).2.count := by
  -- The answer hangs on the count alone, and what is left of the count on the answer.
  have answers : (v.upgrade claimed).1 = (w.upgrade claimed).1 := by
    rw [Bool.eq_iff_iff, upgrade_granted_iff, upgrade_granted_iff, same]
  refine ⟨answers, UInt32.toNat_inj.mp ?_⟩
  obtain ⟨_, granted, refused⟩ := v.upgrade_spec claimed
  obtain ⟨_, granted', refused'⟩ := w.upgrade_spec claimed
  cases answer : (w.upgrade claimed).1 with
  | true => rw [(granted (answers.trans answer)).2.2, (granted' answer).2.2, same]
  | false => rw [refused (answers.trans answer), refused' answer, same]

end CountWord

/-! Objects and heaps -/

/-- The same object but for the bit on top of its count word. -/
inductive Object.Alike (o : Object) : Object → Prop where
  | intro (word : CountWord) (same : word.count = o.word.count) : Alike o { o with word }

namespace Object.Alike

variable {o p q : Object}

theorem refl (o : Object) : Alike o o := ⟨o.word, rfl⟩

theorem symm : Alike o p → Alike p o := by
  rintro ⟨word, same⟩
  exact ⟨o.word, same.symm⟩

theorem trans : Alike o p → Alike p q → Alike o q := by
  rintro ⟨word, same⟩ ⟨word', same'⟩
  exact ⟨word', same'.trans same⟩

theorem count_eq : Alike o p → p.count = o.count := by
  rintro ⟨word, same⟩
  exact congrArg UInt32.toNat same

theorem image_drop (alike : Alike o p) (n : Nat) (beyond : 8 ≤ n) :
    p.image.drop n = o.image.drop n := by
  obtain ⟨word, _⟩ := alike
  -- Mark and count word are the first eight bytes.
  have split : ∀ word : CountWord, ({ o with word } : Object).image =
      (leastFirst 4 o.mark.toNat ++ leastFirst 4 word.bits.toNat) ++
        (leastFirst 4 o.flags ++ leastFirst 4 o.type ++ leastFirst 8 o.size ++ o.keep ++
          o.payload.bytes) := by
    intro word
    simp only [image, flags, List.append_assoc]
  have front : ∀ word : CountWord,
      (leastFirst 4 o.mark.toNat ++ leastFirst 4 word.bits.toNat).length = 8 := by
    intro word
    rw [List.length_append, length_leastFirst, length_leastFirst]
  obtain ⟨m, rfl⟩ := Nat.exists_eq_add_of_le beyond
  rw [split word, split o.word, ← front word, List.drop_length_add_append, front word,
    ← front o.word, List.drop_length_add_append]

end Object.Alike

/-- The same objects stand at the same addresses. -/
def Paired (m n : Std.TreeMap Addr Object) : Prop := ∀ a : Addr, Option.Rel Object.Alike m[a]? n[a]?

namespace Paired

variable {m n r : Std.TreeMap Addr Object}

theorem look (paired : Paired m n) (a : Addr) :
    (m[a]? = none ∧ n[a]? = none) ∨ ∃ o p, m[a]? = some o ∧ n[a]? = some p ∧ o.Alike p := by
  have here := paired a
  generalize m[a]? = left at here ⊢
  generalize n[a]? = right at here ⊢
  cases here with
  | none => exact Or.inl ⟨rfl, rfl⟩
  | some alike => exact Or.inr ⟨_, _, rfl, rfl, alike⟩

theorem refl (m : Std.TreeMap Addr Object) : Paired m m := by
  intro a
  cases m[a]? with
  | none => exact .none
  | some o => exact .some (.refl o)

theorem symm (paired : Paired m n) : Paired n m := by
  intro a
  rcases paired.look a with ⟨left, right⟩ | ⟨o, p, left, right, alike⟩
  · rw [left, right]
    exact .none
  · rw [left, right]
    exact .some alike.symm

theorem trans (first : Paired m n) (second : Paired n r) : Paired m r := by
  intro a
  have there := second a
  rcases first.look a with ⟨left, middle⟩ | ⟨o, p, left, middle, alike⟩
  · rw [middle] at there
    rw [left]
    generalize r[a]? = right at there ⊢
    cases there
    exact .none
  · rw [middle] at there
    rw [left]
    generalize r[a]? = right at there ⊢
    cases there with
    | some alike' => exact .some (alike.trans alike')

theorem modify (paired : Paired m n) (a : Addr) (change change' : Object → Object)
    (alike : ∀ o p, o.Alike p → (change o).Alike (change' p)) :
    Paired (m.modify a change) (n.modify a change') := by
  intro b
  rw [Std.TreeMap.getElem?_modify, Std.TreeMap.getElem?_modify]
  split
  · rcases paired.look a with ⟨left, right⟩ | ⟨o, p, left, right, same⟩
    · rw [left, right]
      exact .none
    · rw [left, right]
      exact .some (alike o p same)
  · exact paired b

theorem insert (paired : Paired m n) (a : Addr) (o : Object) : Paired (m.insert a o) (n.insert a o) := by
  intro b
  rw [Std.TreeMap.getElem?_insert, Std.TreeMap.getElem?_insert]
  split
  · exact .some (.refl o)
  · exact paired b

/-- Bits of count words may come and go. -/
theorem rebit (m : Std.TreeMap Addr Object) (a : Addr) (on : Bool) :
    Paired m (m.modify a fun o => { o with word := o.word.setBuffered on }) := by
  intro b
  rw [Std.TreeMap.getElem?_modify]
  split
  · rename_i here
    rw [← Std.LawfulEqCmp.eq_of_compare here]
    cases m[a]? with
    | none => exact .none
    | some o => exact .some ⟨_, o.word.count_setBuffered on⟩
  · exact refl m b

end Paired

namespace Heap

/-- The same heap but for what registration leaves behind. -/
inductive Twin (h : Heap) : Heap → Prop where
  | intro (objects : Std.TreeMap Addr Object) (registry : Registry) (canGrow autoRegister : Bool)
      (paired : Paired h.objects objects) :
      Twin h
        { h with
          objects
          autoRegister
          collector := { h.collector with registry, canGrow } }

/-- The same answer, and heaps that are twins. -/
def Agree {α : Type} (x y : α × Heap) : Prop := x.1 = y.1 ∧ Twin x.2 y.2

variable {h k l : Heap}

theorem Twin.refl (h : Heap) : Twin h h :=
  .intro h.objects h.collector.registry h.collector.canGrow h.autoRegister (.refl h.objects)

theorem Twin.symm : Twin h k → Twin k h := by
  rintro ⟨_, _, _, _, paired⟩
  exact .intro h.objects h.collector.registry h.collector.canGrow h.autoRegister paired.symm

theorem Twin.trans : Twin h k → Twin k l → Twin h l := by
  rintro ⟨_, _, _, _, paired⟩ ⟨objects, registry, canGrow, autoRegister, paired'⟩
  exact .intro objects registry canGrow autoRegister (paired.trans paired')

theorem Agree.symm {α : Type} {x y : α × Heap} (agree : Agree x y) : Agree y x :=
  ⟨agree.1.symm, agree.2.symm⟩

theorem Agree.trans {α : Type} {x y z : α × Heap} (first : Agree x y) (second : Agree y z) :
    Agree x z := ⟨first.1.trans second.1, first.2.trans second.2⟩

namespace Twin

theorem paired : Twin h k → Paired h.objects k.objects := by
  rintro ⟨_, _, _, _, paired⟩
  exact paired

theorem ask_eq {β : Type} (twin : Twin h k) (a : Addr) (ask : Option Object → β)
    (blind : ∀ o p, Object.Alike o p → ask (some p) = ask (some o)) :
    ask k.objects[a]? = ask h.objects[a]? := by
  rcases twin.paired.look a with ⟨left, right⟩ | ⟨o, p, left, right, alike⟩
  · rw [left, right]
  · rw [left, right]
    exact blind o p alike

theorem update (twin : Twin h k) (a : Addr) (change change' : Object → Object)
    (alike : ∀ o p, Object.Alike o p → (change o).Alike (change' p)) :
    Twin (h.update a change) (k.update a change') := by
  obtain ⟨_, _, _, _, paired⟩ := twin
  exact .intro _ _ _ _ (paired.modify a change change' alike)

theorem revise (twin : Twin h k) (a : Addr) (change : Object → Object)
    (blind : ∀ (o : Object) (word : CountWord), change { o with word } = { change o with word }) :
    Twin (h.update a change) (k.update a change) := by
  refine twin.update a change change ?_
  rintro o _ ⟨word, same⟩
  -- Put the object's own word in: the change keeps it.
  have kept : (change o).word = o.word := (congrArg Object.word (blind o o.word) :)
  rw [blind o word]
  exact .intro word (by rw [kept, same])

/-- A change that reads and writes none of what may differ, nor any object. -/
theorem refit (twin : Twin h k) (change : Heap → Heap) (objects : (change h).objects = h.objects)
    (blind : ∀ (objects : Std.TreeMap Addr Object) (registry : Registry) (canGrow autoRegister : Bool),
      change
          { h with
            objects
            autoRegister
            collector := { h.collector with registry, canGrow } } =
        { change h with
          objects
          autoRegister
          collector := { (change h).collector with registry, canGrow } }) :
    Twin (change h) (change k) := by
  obtain ⟨objects', registry, canGrow, autoRegister, paired⟩ := twin
  rw [blind objects' registry canGrow autoRegister]
  exact .intro objects' registry canGrow autoRegister (objects ▸ paired)

theorem recollect (h : Heap) (registry : Registry) (canGrow : Bool) :
    Twin h { h with collector := { h.collector with registry, canGrow } } :=
  .intro h.objects registry canGrow h.autoRegister (.refl h.objects)

/-- Whether the registry got an entry or lost one, with the bit that mirrors it. -/
theorem reregister (h : Heap) (a : Addr) (on : Bool) (registry : Registry) :
    Twin h
      { h.update a fun o => { o with word := o.word.setBuffered on } with
        collector := { h.collector with registry } } :=
  .intro _ registry h.collector.canGrow h.autoRegister (.rebit h.objects a on)

end Twin

theorem register_twin {a : Addr} {added : Bool} (done : h.register a = .ok (added, k)) : Twin h k := by
  unfold register at done
  split at done
  · cases done
    exact .refl h
  · split at done
    · cases done
      exact .refl h
    · split at done
      · cases done
        exact .refl h
      · split at done
        · cases done
        · cases done
          exact .reregister h a true _

theorem forget_twin (h : Heap) (a : Addr) : Twin h (h.forget a) := by
  unfold forget
  split
  · exact .reregister h a false _
  · exact .refl h

/-! The three ways of a release -/

def lowerPlain (h : Heap) (a : Addr) : Except Fault (Bool × Heap) :=
  match h.valid a with
  | .error fault => .error fault
  | .ok o =>
      match o.word.decrement with
      | .error _ => .error (.doubleRelease a)
      | .ok (previous, word) =>
          let h := h.update a ({ · with word })
          if previous = 1 then .ok (h.tryClaim a) else .ok (false, h)

theorem condemn_plain (h : Heap) (a : Addr) : Agree (h.condemn a) (h.tryClaim a) := by
  unfold condemn
  generalize h.tryClaim a = out
  obtain ⟨won, k⟩ := out
  cases won with
  | false => exact ⟨rfl, .refl k⟩
  | true =>
      refine ⟨rfl, ?_⟩
      simp only
      split
      · exact (k.forget_twin a).symm
      · exact .refl k

theorem lower_plain (h : Heap) (a : Addr) : Both Agree (h.lower a) (h.lowerPlain a) := by
  unfold lower lowerPlain
  cases h.valid a with
  | error fault => exact .refused fault
  | ok o =>
      simp only [CountWord.decrementBuffered_getD]
      cases o.word.decrement with
      | error count => exact .refused _
      | ok out =>
          obtain ⟨previous, word⟩ := out
          simp only
          generalize h.update a ({ · with word }) = k
          by_cases last : previous = 1
          · rw [if_pos last, if_pos last]
            exact .granted (k.condemn_plain a)
          · -- A survivor is registered, finds no room, or is passed over.
            rw [if_neg last, if_neg last]
            split
            · split
              · rename_i registered
                exact .granted ⟨rfl, (register_twin registered).symm⟩
              · exact .granted ⟨rfl, .refl k⟩
            · exact .granted ⟨rfl, .refl k⟩

/-! What is done to both -/

namespace Twin

variable {a : Addr}

theorem valid_both (twin : Twin h k) (a : Addr) : Both Object.Alike (h.valid a) (k.valid a) := by
  unfold valid
  rcases twin.paired.look a with ⟨left, right⟩ | ⟨o, p, left, right, alike⟩
  · rw [left, right]
    exact .refused _
  · rw [left, right]
    obtain ⟨word, same⟩ := alike
    change Both _ (if o.valid then _ else _) (if o.valid then _ else _)
    split
    · exact .granted (.intro word same)
    · exact .refused _

theorem absorb (twin : Twin h k) : Twin h.absorb k.absorb :=
  twin.refit Heap.absorb rfl fun _ _ _ _ => rfl

theorem registerType_both (twin : Twin h k) (type : Nat) (tracer : Tracer) :
    Both Twin (h.registerType type tracer) (k.registerType type tracer) := by
  obtain ⟨_, _, _, _, paired⟩ := twin
  unfold registerType
  simp only
  split
  · exact .refused _
  · exact .granted (.intro _ _ _ _ paired)

theorem memoryAt_drop (twin : Twin h k) (a : Addr) (n : Nat) (beyond : 8 ≤ n) :
    (k.memoryAt a).drop n = (h.memoryAt a).drop n := by
  have pools : k.pool = h.pool := by
    obtain ⟨_, _, _, _, _⟩ := twin
    rfl
  unfold memoryAt
  rw [pools]
  exact twin.ask_eq a (fun found => (found.elim (h.pool.written a) Object.image).drop n)
    fun o p alike => alike.image_drop n beyond

theorem configure_both (twin : Twin h k) (settings : CollectorSettings) :
    Both (fun c d => Twin { h with collector := c } { k with collector := d })
      (h.collector.configure settings) (k.collector.configure settings) := by
  obtain ⟨_, _, _, _, paired⟩ := twin
  unfold Collector.configure
  cases settings.validate with
  | error fault => exact .refused fault
  | ok done => exact .granted (.intro _ _ _ _ paired)

/-- What stood in a block before is left behind an object made there, but not its count word. -/
theorem alloc_both (twin : Twin h k) (size type : Nat) (destructor : Option Nat) :
    Both Agree (h.alloc size type destructor) (k.alloc size type destructor) := by
  have behind := fun a => twin.memoryAt_drop a (Object.headerBytes + size)
    (Nat.le_add_right_of_le (by decide))
  obtain ⟨_, _, _, _, paired⟩ := twin
  unfold alloc
  simp only
  split
  · exact .refused _
  · split
    · exact .refused _
    · cases h.pool.alloc (Object.headerBytes + size) with
      | error fault => exact .refused _
      | ok out =>
          obtain ⟨a, pool⟩ := out
          simp only [behind a]
          exact .granted ⟨rfl, .intro _ _ _ _ (paired.insert a _)⟩

theorem reword (twin : Twin h k) (a : Addr) (word word' : CountWord) (same : word'.count = word.count) :
    Twin (h.update a ({ · with word })) (k.update a ({ · with word := word' })) := by
  refine twin.update a _ _ ?_
  rintro o _ ⟨_, _⟩
  exact .intro word' same

theorem tryRetain_both (twin : Twin h k) (a : Addr) :
    Both Twin (h.tryRetain a) (k.tryRetain a) := by
  unfold tryRetain
  rcases (twin.valid_both a).cases with ⟨fault, left, right⟩ | ⟨o, _, left, right, ⟨word, same⟩⟩
  · rw [left, right]
    exact .refused fault
  · rw [left, right]
    rcases (CountWord.increment_both same.symm).cases with
      ⟨count, more, more'⟩ | ⟨x, y, more, more', level⟩
    · simp only [more, more']
      exact .refused _
    · simp only [more, more']
      exact .granted (twin.reword a _ _ level.2.symm)

theorem retain (twin : Twin h k) (a : Addr) : Twin (h.retain a) (k.retain a) := by
  unfold Heap.retain
  rcases (twin.tryRetain_both a).cases with ⟨fault, left, right⟩ | ⟨_, _, left, right, after⟩
  · rw [left, right]
    exact twin.absorb
  · rw [left, right]
    exact after

theorem retainBatch (twin : Twin h k) (objects : List Addr) :
    Twin (h.retainBatch objects) (k.retainBatch objects) := by
  unfold Heap.retainBatch
  induction objects generalizing h k with
  | nil => exact twin
  | cons a rest ih => exact ih (twin.retain a)

theorem tryClaim_agree (twin : Twin h k) (a : Addr) : Agree (h.tryClaim a) (k.tryClaim a) := by
  have claimed := twin.update a ({ · with claimed := true }) ({ · with claimed := true }) (by
    rintro o _ ⟨word, same⟩
    exact .intro word same)
  unfold tryClaim
  rcases twin.paired.look a with ⟨left, right⟩ | ⟨o, _, left, right, ⟨word, same⟩⟩
  · rw [left, right]
    exact ⟨rfl, twin⟩
  · rw [left, right]
    exact ⟨rfl, claimed⟩

theorem lowerPlain_both (twin : Twin h k) (a : Addr) :
    Both Agree (h.lowerPlain a) (k.lowerPlain a) := by
  unfold lowerPlain
  rcases (twin.valid_both a).cases with ⟨fault, left, right⟩ | ⟨o, _, left, right, ⟨word, same⟩⟩
  · rw [left, right]
    exact .refused fault
  · rw [left, right]
    rcases (CountWord.decrement_both same.symm).cases with
      ⟨count, less, less'⟩ | ⟨x, ⟨_, word'⟩, less, less', rfl, counts⟩
    · simp only [less, less']
      exact .refused _
    · have after := twin.reword a x.2 word' counts.symm
      simp only [less, less']
      split
      · exact .granted (after.tryClaim_agree a)
      · exact .granted ⟨rfl, after⟩

theorem lower_both (twin : Twin h k) (a : Addr) : Both Agree (h.lower a) (k.lower a) :=
  ((h.lower_plain a).trans (twin.lowerPlain_both a) Agree.trans).trans
    ((k.lower_plain a).symm Agree.symm) Agree.trans

/-! Slots and payloads -/

theorem slotted_both (twin : Twin h k) (a : Addr) (slot : Nat) :
    Both Eq (h.slotted a slot) (k.slotted a slot) := by
  unfold slotted
  rcases (twin.valid_both a).cases with ⟨fault, left, right⟩ | ⟨o, _, left, right, ⟨word, same⟩⟩
  · rw [left, right]
    exact .refused fault
  · rw [left, right]
    change Both _ (if slot < o.slotCount then _ else _) (if slot < o.slotCount then _ else _)
    split
    · exact .granted rfl
    · exact .refused _

theorem storeRef (twin : Twin h k) (a : Addr) (slot : Nat) (value : Option Addr) :
    Twin (h.storeRef a slot value) (k.storeRef a slot value) := twin.revise a _ fun _ _ => rfl

theorem loadRef_eq (twin : Twin h k) (a : Addr) (slot : Nat) :
    k.loadRef a slot = h.loadRef a slot := by
  unfold loadRef
  rcases (twin.slotted_both a slot).cases with ⟨fault, left, right⟩ | ⟨p, _, left, right, rfl⟩
  · rw [left, right]
  · rw [left, right]

theorem takeRef_both (twin : Twin h k) (a : Addr) (slot : Nat) :
    Both Agree (h.takeRef a slot) (k.takeRef a slot) := by
  unfold takeRef
  rcases (twin.slotted_both a slot).cases with ⟨fault, left, right⟩ | ⟨p, _, left, right, rfl⟩
  · rw [left, right]
    exact .refused fault
  · rw [left, right]
    exact .granted ⟨rfl, twin.storeRef a slot none⟩

theorem exchangeRef_both (twin : Twin h k) (a : Addr) (slot : Nat) (value : Option Addr) :
    Both Agree (h.exchangeRef a slot value) (k.exchangeRef a slot value) := by
  have retained : Both Twin (value.elim (.ok h) h.tryRetain) (value.elim (.ok k) k.tryRetain) := by
    cases value with
    | none => exact .granted twin
    | some b => exact twin.tryRetain_both b
  unfold exchangeRef
  rcases (twin.slotted_both a slot).cases with ⟨fault, left, right⟩ | ⟨p, _, left, right, rfl⟩
  · rw [left, right]
    exact .refused fault
  · rw [left, right]
    rcases retained.cases with ⟨fault, left', right'⟩ | ⟨_, _, left', right', after⟩
    · simp only [left', right']
      exact .refused fault
    · simp only [left', right']
      exact .granted ⟨rfl, after.storeRef a slot value⟩

/-! Weak handles -/

theorem downgrade_both (twin : Twin h k) (a : Addr) :
    Both Agree (h.downgrade a) (k.downgrade a) := by
  have marked := twin.revise a ({ · with weak := true }) fun _ _ => rfl
  unfold downgrade
  rcases (twin.valid_both a).cases with ⟨fault, left, right⟩ | ⟨o, p, left, right, alike⟩
  · rw [left, right]
    exact .refused fault
  · rw [left, right]
    have counts := alike.count_eq
    obtain ⟨word, same⟩ := alike
    -- Taken apart only here: the flag above is put on heaps that are known as twins.
    obtain ⟨_, _, _, _, paired⟩ := twin
    simp only [counts]
    split
    · exact .refused _
    · exact .granted ⟨rfl, .intro _ _ _ _ marked.paired⟩

theorem downgradeBatch_agree (twin : Twin h k) (objects : List Addr) :
    Agree (h.downgradeBatch objects) (k.downgradeBatch objects) := by
  induction objects generalizing h k with
  | nil => exact ⟨rfl, twin⟩
  | cons a rest ih =>
      unfold downgradeBatch
      rcases (twin.downgrade_both a).cases with
        ⟨fault, left, right⟩ | ⟨⟨slot, _⟩, ⟨_, _⟩, left, right, rfl, after⟩
      · simp only [left, right]
        exact ⟨congrArg (none :: ·) (ih twin).1, (ih twin).2⟩
      · simp only [left, right]
        exact ⟨congrArg (some slot :: ·) (ih after).1, (ih after).2⟩

theorem weak_eq : Twin h k → k.weak = h.weak := by
  rintro ⟨_, _, _, _, _⟩
  rfl

theorem upgrade_agree (twin : Twin h k) (handle : SlotId) :
    Agree (h.upgrade handle) (k.upgrade handle) := by
  unfold upgrade
  rw [twin.weak_eq]
  cases h.weak.target? handle with
  | none => exact ⟨rfl, twin⟩
  | some a =>
      rcases twin.paired.look a with ⟨left, right⟩ | ⟨o, _, left, right, ⟨word, same⟩⟩
      · simp only [left, right]
        exact ⟨rfl, twin⟩
      · obtain ⟨answers, counts⟩ := CountWord.upgrade_both same o.claimed
        simp only [left, right, answers]
        exact ⟨rfl, twin.reword a _ _ counts⟩

theorem detachWeak (twin : Twin h k) (a : Addr) : Twin (h.detachWeak a) (k.detachWeak a) := by
  have named : (k.objects[a]?).any Object.weak = (h.objects[a]?).any Object.weak :=
    twin.ask_eq a (·.any Object.weak) (by
      rintro o _ ⟨_, _⟩
      rfl)
  unfold Heap.detachWeak
  rw [named]
  split
  · obtain ⟨_, _, _, _, paired⟩ := twin
    exact .intro _ _ _ _ paired
  · exact twin

/-! The end of an object -/

theorem takeDestructor_agree (twin : Twin h k) (a : Addr) :
    Agree (h.takeDestructor a) (k.takeDestructor a) := by
  have number := twin.ask_eq a (·.bind Object.destructor) (by
    rintro o _ ⟨_, _⟩
    rfl)
  exact ⟨number.symm, twin.revise a _ fun _ _ => rfl⟩

theorem reclaim (twin : Twin h k) (a : Addr) : Twin (h.reclaim a) (k.reclaim a) := by
  have dead := twin.revise a ({ · with mark := 0 }) fun _ _ => rfl
  unfold Heap.reclaim
  rcases twin.paired.look a with ⟨left, right⟩ | ⟨o, _, left, right, ⟨word, same⟩⟩
  · rw [left, right]
    exact twin
  · rw [left, right]
    obtain ⟨_, _, _, _, _⟩ := twin
    exact .intro _ _ _ _ dead.paired

theorem tracer_eq (twin : Twin h k) (a : Addr) : k.tracer? a = h.tracer? a := by
  have types : k.types = h.types := by
    obtain ⟨_, _, _, _, _⟩ := twin
    rfl
  unfold tracer?
  rw [types]
  exact twin.ask_eq a (·.bind fun o => h.types[o.type]?) (by
    rintro o _ ⟨_, _⟩
    rfl)

theorem children_eq (twin : Twin h k) (a : Addr) : k.children a = h.children a := by
  unfold children
  rw [twin.tracer_eq]
  rcases twin.paired.look a with ⟨left, right⟩ | ⟨o, _, left, right, ⟨word, same⟩⟩
  · rw [left, right]
  · rw [left, right]
    cases h.tracer? a <;> rfl

end Twin

end Heap

end CountedHeap
