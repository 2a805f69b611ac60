import CountedHeap.Proofs.CountWord

/-!
A count word as the pair that it stands for: whether its object is registered, and a count of 31 bits.
There is one word for each pair. Every move does to the word what it does to the pair and gives the
same answer, without a carry or a borrow between the two; so a row of moves may be followed on either.
-/

namespace CountedHeap

@[ext]
structure Tally where
  registered : Bool
  count : Nat
  fits : count < 2 ^ 31
  deriving DecidableEq

namespace Tally

/-- What may be done to a count and to a registration. -/
inductive Move where
  | increment
  | decrement
  | decrementBuffered
  /-- Clears the bit, provided the count is still the expected one. -/
  | retire (expected : UInt32)
  | setBuffered (on : Bool)
  /-- An increment on behalf of a weak handle, to an object that is claimed or not. -/
  | upgrade (claimed : Bool)
  deriving DecidableEq, Repr

/-- What a move tells. -/
inductive Finding where
  | done
  | counted (made : Bool) (previous : Nat)
  | unregistered
  | outcome (yes : Bool)
  deriving DecidableEq, Repr

def number (t : Tally) : Nat := t.registered.toNat * 2 ^ 31 + t.count

def raise (t : Tally) : Finding × Tally :=
  if room : 0 < t.count ∧ t.count < 2 ^ 31 - 1
  then (.counted true t.count, { t with count := t.count + 1, fits := by omega })
  else (.counted false t.count, t)

def lower (t : Tally) : Finding × Tally :=
  if t.count = 0 then (.counted false 0, t)
  else (.counted true t.count, { t with count := t.count - 1, fits := by have := t.fits; omega })

/-- A pair is retired if it is registered with the expected count. Only the low 31 bits of what is
expected decide the answer; but a number that is no count clears nothing. -/
def retire (t : Tally) (expected : Nat) : Finding × Tally :=
  (.outcome (t.registered && t.count == expected % 2 ^ 31),
    { t with registered := t.registered && t.count != expected })

def move (t : Tally) : Move → Finding × Tally
  | .increment => t.raise
  | .decrement => t.lower
  | .decrementBuffered => if t.registered then t.lower else (.unregistered, t)
  | .retire expected => t.retire expected.toNat
  | .setBuffered on => (.done, { t with registered := on })
  | .upgrade claimed =>
      if claimed then (.outcome false, t) else
      match t.raise with
      | (.counted made _, u) => (.outcome made, u)
      | (_, u) => (.outcome false, u)

def run (t : Tally) : List Move → List Finding × Tally
  | [] => ([], t)
  | first :: rest =>
      let (finding, u) := t.move first
      let (findings, last) := u.run rest
      (finding :: findings, last)

end Tally

namespace CountWord

open Tally (Move Finding)

def settle (w : CountWord) : Except UInt32 (UInt32 × CountWord) → Finding × CountWord
  | .ok (previous, v) => (.counted true previous.toNat, v)
  | .error found => (.counted false found.toNat, w)

def move (w : CountWord) : Move → Finding × CountWord
  | .increment => w.settle w.increment
  | .decrement => w.settle w.decrement
  | .decrementBuffered =>
      match w.decrementBuffered with
      | some lowered => w.settle lowered
      | none => (.unregistered, w)
  | .retire expected =>
      match w.retire expected with
      | some left => (.outcome true, left)
      | none => (.outcome false, w)
  | .setBuffered on => (.done, w.setBuffered on)
  | .upgrade claimed => (.outcome (w.upgrade claimed).1, (w.upgrade claimed).2)

def run (w : CountWord) : List Move → List Finding × CountWord
  | [] => ([], w)
  | first :: rest =>
      let (finding, v) := w.move first
      let (findings, last) := v.run rest
      (finding :: findings, last)

def tally (w : CountWord) : Tally := ⟨w.buffered, w.count.toNat, w.toNat_count_lt⟩

theorem toNat_bits (w : CountWord) : w.bits.toNat = w.tally.number := by
  have bound : w.bits.toNat < 2 ^ 32 := w.bits.toNat_lt
  have low : w.tally.count = w.bits.toNat % 2 ^ 31 := w.toNat_count
  have high := w.buffered_iff
  rw [Tally.number, low]
  cases bit : w.tally.registered with
  | false =>
      have clear : ¬ 2 ^ 31 ≤ w.bits.toNat := fun marked => by
        rw [← high] at marked
        exact Bool.false_ne_true (bit.symm.trans marked)
      simp only [Bool.toNat_false]
      omega
  | true =>
      have marked : 2 ^ 31 ≤ w.bits.toNat := high.mp bit
      simp only [Bool.toNat_true]
      omega

theorem tally_injective : Function.Injective tally := by
  intro v w same
  exact ext_views v w (congrArg Tally.count same) (congrArg Tally.registered same)

theorem tally_surjective : Function.Surjective tally := by
  intro t
  have low : (UInt32.ofNat t.count).toNat = t.count := by
    have fits := t.fits
    rw [UInt32.toNat_ofNat']
    omega
  refine ⟨CountWord.setBuffered ⟨UInt32.ofNat t.count⟩ t.registered, ?_⟩
  ext
  · exact buffered_setBuffered _ _
  · have count := congrArg UInt32.toNat (count_setBuffered ⟨UInt32.ofNat t.count⟩ t.registered)
    rw [toNat_count ⟨UInt32.ofNat t.count⟩, low, Nat.mod_eq_of_lt t.fits] at count
    exact count

/-! Moves -/

theorem raise_tally (w : CountWord) :
    (w.settle w.increment).1 = w.tally.raise.1 ∧ (w.settle w.increment).2.tally = w.tally.raise.2 := by
  have room := w.increment_ok_iff
  have limit : maxCount.toNat = 2 ^ 31 - 1 := by decide
  rw [limit] at room
  cases done : w.increment with
  | ok out =>
      obtain ⟨previous, raised⟩ := out
      obtain ⟨rfl, _, count, bit⟩ := increment_spec w raised previous done
      have within : 0 < w.tally.count ∧ w.tally.count < 2 ^ 31 - 1 := room.mp ⟨_, _, done⟩
      rw [Tally.raise, dif_pos within]
      exact ⟨rfl, Tally.ext bit count⟩
  | error found =>
      have refused : ¬ (0 < w.tally.count ∧ w.tally.count < 2 ^ 31 - 1) := fun within => by
        obtain ⟨_, _, made⟩ := room.mpr within
        rw [done] at made
        cases made
      have isCount : found = w.count := by
        unfold increment at done
        split at done <;> cases done
        rfl
      rw [Tally.raise, dif_neg refused, isCount]
      exact ⟨rfl, rfl⟩

theorem lower_tally (w : CountWord) :
    (w.settle w.decrement).1 = w.tally.lower.1 ∧ (w.settle w.decrement).2.tally = w.tally.lower.2 := by
  by_cases empty : w.tally.count = 0
  · have refused : w.decrement = .error 0 := if_pos ((count_eq_zero_iff w).mpr empty)
    rw [Tally.lower, if_pos empty, refused]
    exact ⟨rfl, rfl⟩
  · obtain ⟨previous, lowered, done⟩ := decrement_positive w (Nat.pos_of_ne_zero empty)
    obtain ⟨rfl, count, bit⟩ := decrement_spec w lowered previous done
    rw [Tally.lower, if_neg empty, done]
    exact ⟨rfl, Tally.ext bit (Nat.eq_sub_of_add_eq count)⟩

theorem retire_tally (w : CountWord) (expected : UInt32) :
    (w.move (.retire expected)).1 = (w.tally.retire expected.toNat).1 ∧
      (w.move (.retire expected)).2.tally = (w.tally.retire expected.toNat).2 := by
  have low : (CountWord.mk expected).count.toNat = expected.toNat % 2 ^ 31 := toNat_count ⟨expected⟩
  have form : (CountWord.mk expected).setBuffered true = ⟨bufferedBit ||| expected⟩ := by
    rw [setBuffered, if_pos rfl, UInt32.or_comm]
  have registeredForm : w.bits = bufferedBit ||| expected ↔
      w.buffered = true ∧ w.count.toNat = expected.toNat % 2 ^ 31 := by
    constructor
    · intro same
      have isForm : w = (CountWord.mk expected).setBuffered true := by
        rw [form]
        cases w
        exact congrArg CountWord.mk same
      rw [isForm, buffered_setBuffered, count_setBuffered]
      exact ⟨rfl, low⟩
    · rintro ⟨bit, count⟩
      have isForm : w = (CountWord.mk expected).setBuffered true := by
        apply ext_views
        · rw [count_setBuffered, low, count]
        · rw [buffered_setBuffered, bit]
      rw [isForm, form]
  by_cases same : w.bits = bufferedBit ||| expected
  · obtain ⟨bit, count⟩ := registeredForm.mp same
    have left : w.retire expected = some ⟨expected⟩ := if_pos same
    have small := (buffered_iff ⟨expected⟩)
    rw [CountWord.move, left, Tally.retire]
    constructor
    · simp [tally, bit, count]
    · ext
      · -- What is expected may carry a bit of its own, and then it stays.
        rw [tally, tally, Bool.eq_iff_iff, small]
        simp only [bit, count, Bool.true_and, bne_iff_ne, ne_eq]
        omega
      · exact low.trans count.symm
  · have kept : w.retire expected = none := if_neg same
    rw [registeredForm] at same
    rw [CountWord.move, kept, Tally.retire]
    constructor
    · simpa [tally] using same
    · ext
      · cases bit : w.buffered with
        | false => simp [tally, bit]
        | true =>
            have other : w.count.toNat ≠ expected.toNat := fun equal => same ⟨bit, by
              have bound := toNat_count_lt w
              omega⟩
            simp [tally, bit, other]
      · rfl

theorem upgrade_tally (w : CountWord) (claimed : Bool) :
    (w.move (.upgrade claimed)).1 = (w.tally.move (.upgrade claimed)).1 ∧
      (w.move (.upgrade claimed)).2.tally = (w.tally.move (.upgrade claimed)).2 := by
  obtain ⟨bit, _, restored⟩ := w.upgrade_spec claimed
  cases claimed with
  | true =>
      have refused : (w.upgrade true).1 = false := by
        have granted := w.upgrade_granted_iff true
        simpa using granted
      have same : (w.upgrade true).2 = w := ext_views _ _ (restored refused) bit
      rw [CountWord.move, refused, same]
      exact ⟨rfl, rfl⟩
  | false =>
      obtain ⟨finding, after⟩ := w.raise_tally
      cases done : w.increment with
      | ok out =>
          rw [done] at finding after
          have raised : w.tally.raise = (.counted true out.1.toNat, out.2.tally) :=
            Prod.ext finding.symm after.symm
          simp [CountWord.move, upgrade, done, Tally.move, raised]
      | error found =>
          rw [done] at finding after
          have refused : w.tally.raise = (.counted false found.toNat, w.tally) :=
            Prod.ext finding.symm after.symm
          simp [CountWord.move, upgrade, done, Tally.move, refused]

theorem move_tally (w : CountWord) (m : Move) :
    (w.move m).1 = (w.tally.move m).1 ∧ (w.move m).2.tally = (w.tally.move m).2 := by
  cases m with
  | increment => exact w.raise_tally
  | decrement => exact w.lower_tally
  | decrementBuffered =>
      cases bit : w.buffered with
      | false =>
          have out : w.decrementBuffered = none := by simp [decrementBuffered, bit]
          simp [CountWord.move, Tally.move, out, tally, bit]
      | true =>
          have inside : w.decrementBuffered = some w.decrement := by simp [decrementBuffered, bit]
          have registered : w.tally.registered = true := bit
          simpa [CountWord.move, Tally.move, inside, registered] using w.lower_tally
  | retire expected => exact w.retire_tally expected
  | setBuffered on =>
      exact ⟨rfl, Tally.ext (buffered_setBuffered w on) (congrArg UInt32.toNat (count_setBuffered w on))⟩
  | upgrade claimed => exact w.upgrade_tally claimed

theorem run_tally (w : CountWord) (row : List Move) :
    (w.run row).1 = (w.tally.run row).1 ∧ (w.run row).2.tally = (w.tally.run row).2 := by
  induction row generalizing w with
  | nil => exact ⟨rfl, rfl⟩
  | cons first rest ih =>
      obtain ⟨finding, after⟩ := w.move_tally first
      obtain ⟨findings, last⟩ := ih (w.move first).2
      rw [after] at findings last
      exact ⟨congrArg₂ List.cons finding findings, last⟩

/-- The sum is that of natural numbers: nothing is carried out of the count, nor out of the word. -/
theorem increment_exact (w : CountWord) (previous : UInt32) (raised : CountWord)
    (done : w.increment = .ok (previous, raised)) :
    raised.bits.toNat = w.bits.toNat + 1 ∧ raised.buffered = w.buffered := by
  obtain ⟨_, _, count, bit⟩ := increment_spec w raised previous done
  have same : raised.tally.registered = w.tally.registered := bit
  have more : raised.tally.count = w.tally.count + 1 := count
  rw [toNat_bits, toNat_bits, Tally.number, Tally.number, same, more]
  exact ⟨(Nat.add_assoc _ _ 1).symm, bit⟩

theorem decrement_exact (w : CountWord) (previous : UInt32) (lowered : CountWord)
    (done : w.decrement = .ok (previous, lowered)) :
    lowered.bits.toNat + 1 = w.bits.toNat ∧ lowered.buffered = w.buffered := by
  obtain ⟨_, count, bit⟩ := decrement_spec w lowered previous done
  have same : lowered.tally.registered = w.tally.registered := bit
  have less : lowered.tally.count + 1 = w.tally.count := count
  rw [toNat_bits, toNat_bits, Tally.number, Tally.number, same, ← less]
  exact ⟨Nat.add_assoc _ _ 1, bit⟩

/-- A decrement takes back what an increment did. -/
theorem decrement_increment (w : CountWord) (previous : UInt32) (raised : CountWord)
    (done : w.increment = .ok (previous, raised)) : raised.decrement = .ok (raised.count, w) := by
  obtain ⟨_, _, more, bit⟩ := increment_spec w raised previous done
  obtain ⟨found, lowered, undone⟩ := decrement_positive raised (by omega)
  obtain ⟨rfl, less, same⟩ := decrement_spec raised lowered found undone
  have back : lowered = w := ext_views lowered w (by omega) (same.trans bit)
  rw [undone, back]

/-- What moves on a word are beside the same moves on its pair. -/
structure Refined (w : CountWord) (row : List Move) : Prop where
  bijective : Function.Bijective tally
  findings : (w.run row).1 = (w.tally.run row).1
  pair : (w.run row).2.tally = (w.tally.run row).2
  number : (w.run row).2.bits.toNat = (w.tally.run row).2.number
  raised : ∀ previous raised, (w.run row).2.increment = .ok (previous, raised) →
    raised.bits.toNat = (w.run row).2.bits.toNat + 1 ∧ raised.buffered = (w.run row).2.buffered ∧
      raised.decrement = .ok (raised.count, (w.run row).2)
  lowered : ∀ previous lowered, (w.run row).2.decrement = .ok (previous, lowered) →
    lowered.bits.toNat + 1 = (w.run row).2.bits.toNat ∧ lowered.buffered = (w.run row).2.buffered

/-- Words and pairs correspond one to one, and moves in any order tell of a word what they tell of its
pair and leave the word of the pair they leave. The word after them is the number that bit and count
spell; and each sum or difference that a further move forms, that of a refused upgrade included, is the
one of natural numbers and leaves the bit as it was. -/
theorem run_refines (w : CountWord) (row : List Move) : w.Refined row := by
  obtain ⟨findings, last⟩ := w.run_tally row
  refine ⟨⟨tally_injective, tally_surjective⟩, findings, last, ?_, ?_, (w.run row).2.decrement_exact⟩
  · rw [← last]
    exact (w.run row).2.toNat_bits
  · intro previous raised done
    obtain ⟨more, bit⟩ := (w.run row).2.increment_exact previous raised done
    exact ⟨more, bit, (w.run row).2.decrement_increment previous raised done⟩

/-- An object that is registered and claimed, with a count one below the largest: an upgrade is refused
and leaves no trace, and so is the second of two increments. -/
example : (CountWord.mk 0xfffffffe).run
    [.upgrade true, .increment, .increment, .retire 0x7fffffff, .decrementBuffered] =
    ([.outcome false, .counted true 0x7ffffffe, .counted false 0x7fffffff, .outcome true,
      .unregistered], ⟨0x7fffffff⟩) := by decide

end CountWord

end CountedHeap
