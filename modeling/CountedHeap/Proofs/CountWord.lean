import CountedHeap.CountWord
import Mathlib

/-!
A count word read as a number: the count is its remainder and the bit its quotient by `2 ^ 31`.
Every operation moves the count by at most one and leaves the bit alone, or the other way round.
-/

namespace CountedHeap.CountWord

theorem toNat_count (w : CountWord) : w.count.toNat = w.bits.toNat % 2 ^ 31 := by
  have mask : maxCount.toNat = 2 ^ 31 - 1 := by decide
  rw [count, UInt32.toNat_and, mask, Nat.and_two_pow_sub_one_eq_mod]

theorem toNat_count_lt (w : CountWord) : w.count.toNat < 2 ^ 31 := by
  rw [toNat_count]
  exact Nat.mod_lt _ (by decide)

theorem buffered_iff (w : CountWord) : w.buffered = true ↔ 2 ^ 31 ≤ w.bits.toNat := by
  have bound : w.bits.toNat < 2 ^ 32 := w.bits.toNat_lt
  have top : (w.bits &&& bufferedBit).toNat = 2 ^ 31 * (w.bits.toNat / 2 ^ 31 % 2) := by
    have bit : bufferedBit.toNat = 2 ^ 31 := by decide
    rw [UInt32.toNat_and, bit, Nat.and_two_pow, Nat.testBit_eq_decide_div_mod_eq]
    rcases Nat.mod_two_eq_zero_or_one (w.bits.toNat / 2 ^ 31) with even | odd
    · rw [even]
      rfl
    · rw [odd]
      rfl
  rw [buffered, bne_iff_ne, ne_eq, ← UInt32.toNat_inj, top]
  simp only [UInt32.toNat_zero]
  omega

theorem count_eq_zero_iff (w : CountWord) : w.count = 0 ↔ w.count.toNat = 0 := by
  rw [← UInt32.toNat_inj, UInt32.toNat_zero]

theorem ext_views (v w : CountWord) (count : v.count.toNat = w.count.toNat)
    (bit : v.buffered = w.buffered) : v = w := by
  have boundV : v.bits.toNat < 2 ^ 32 := v.bits.toNat_lt
  have boundW : w.bits.toNat < 2 ^ 32 := w.bits.toNat_lt
  have same : 2 ^ 31 ≤ v.bits.toNat ↔ 2 ^ 31 ≤ w.bits.toNat := by
    rw [← buffered_iff, ← buffered_iff, bit]
  rw [toNat_count, toNat_count] at count
  cases v with
  | mk v =>
    cases w with
    | mk w =>
      have equal : v.toNat = w.toNat := by
        simp only at count same boundV boundW
        omega
      exact congrArg CountWord.mk (UInt32.toNat_inj.mp equal)

theorem increment_spec (w raised : CountWord) (previous : UInt32)
    (done : w.increment = .ok (previous, raised)) :
    previous = w.count ∧ 0 < w.count.toNat ∧ raised.count.toNat = w.count.toNat + 1 ∧
      raised.buffered = w.buffered := by
  unfold increment at done
  split at done
  · cases done
  · rename_i within
    rw [not_or] at within
    obtain ⟨positive, below⟩ := within
    cases done
    have limit : maxCount.toNat = 2 ^ 31 - 1 := by decide
    have nonzero : w.count.toNat ≠ 0 := fun zero => positive ((count_eq_zero_iff w).mpr zero)
    have unsaturated : w.count.toNat ≠ 2 ^ 31 - 1 := fun full =>
      below (UInt32.toNat_inj.mp (full.trans limit.symm))
    have bound : w.bits.toNat < 2 ^ 32 := w.bits.toNat_lt
    have raisedBits : (w.bits + 1).toNat = w.bits.toNat + 1 := by
      rw [toNat_count] at unsaturated
      rw [UInt32.toNat_add]
      simp only [UInt32.toNat_one]
      omega
    refine ⟨rfl, by omega, ?_, ?_⟩
    · rw [toNat_count, toNat_count, raisedBits]
      rw [toNat_count] at unsaturated
      omega
    · rw [Bool.eq_iff_iff, buffered_iff, buffered_iff, raisedBits]
      rw [toNat_count] at unsaturated
      omega

theorem decrement_spec (w lowered : CountWord) (previous : UInt32)
    (done : w.decrement = .ok (previous, lowered)) :
    previous = w.count ∧ lowered.count.toNat + 1 = w.count.toNat ∧
      lowered.buffered = w.buffered := by
  unfold decrement at done
  split at done
  · cases done
  · rename_i positive
    cases done
    have nonzero : w.count.toNat ≠ 0 := fun zero => positive ((count_eq_zero_iff w).mpr zero)
    have bound : w.bits.toNat < 2 ^ 32 := w.bits.toNat_lt
    rw [toNat_count] at nonzero
    have loweredBits : (w.bits - 1).toNat + 1 = w.bits.toNat := by
      rw [UInt32.toNat_sub]
      simp only [UInt32.toNat_one]
      omega
    refine ⟨rfl, ?_, ?_⟩
    · rw [toNat_count, toNat_count]
      simp only
      omega
    · rw [Bool.eq_iff_iff, buffered_iff, buffered_iff]
      simp only
      omega

theorem decrement_positive (w : CountWord) (positive : 0 < w.count.toNat) :
    ∃ previous lowered, w.decrement = .ok (previous, lowered) := by
  have nonzero : ¬ w.count = 0 := fun zero => by
    rw [count_eq_zero_iff] at zero
    omega
  exact ⟨w.count, ⟨w.bits - 1⟩, by simp [decrement, nonzero]⟩

/-- Whether the bit is set decides only who lowers the count, not what becomes of it. -/
theorem decrementBuffered_getD (w : CountWord) :
    w.decrementBuffered.getD w.decrement = w.decrement := by
  unfold decrementBuffered
  split <;> rfl

theorem toNat_bufferedBit : bufferedBit.toNat = 2 ^ 31 := by decide

theorem count_setBuffered (w : CountWord) (on : Bool) :
    (w.setBuffered on).count = w.count := by
  cases on with
  | true =>
      have dropped : 2 ^ 31 % 2 ^ 31 = 0 := by decide
      rw [← UInt32.toNat_inj, toNat_count, toNat_count]
      simp only [setBuffered, if_true, UInt32.toNat_or, toNat_bufferedBit]
      rw [Nat.or_mod_two_pow, dropped, Nat.or_zero]
  | false =>
      have keeps : ~~~bufferedBit &&& maxCount = maxCount := by decide
      simp [setBuffered, count, UInt32.and_assoc, keeps]

theorem buffered_setBuffered (w : CountWord) (on : Bool) :
    (w.setBuffered on).buffered = on := by
  cases on with
  | true =>
      rw [buffered_iff]
      simp only [setBuffered, if_true, UInt32.toNat_or, toNat_bufferedBit]
      exact Nat.right_le_or
  | false =>
      have apart : ~~~bufferedBit &&& bufferedBit = 0 := by decide
      simp [setBuffered, buffered, UInt32.and_assoc, apart]

theorem toNat_buffered_or (count : UInt32) (small : count.toNat < 2 ^ 31) :
    (bufferedBit ||| count).toNat = 2 ^ 31 + count.toNat := by
  rw [UInt32.toNat_or, toNat_bufferedBit, Nat.or_comm, Nat.or_two_pow_eq_add_of_lt small,
    Nat.add_comm]

/-- A word leaves the registry with its count, and does so only from inside it. -/
theorem retire_spec (w left : CountWord) (expected : UInt32)
    (done : w.retire expected = some left) (small : expected.toNat < 2 ^ 31) :
    left = w.setBuffered false ∧ w.buffered = true ∧ w.count = expected := by
  unfold retire at done
  split at done
  · rename_i same
    cases done
    have parts : w.bits.toNat = 2 ^ 31 + expected.toNat := by
      rw [same, toNat_buffered_or expected small]
    have count : w.count = expected := by
      rw [← UInt32.toNat_inj, toNat_count, parts]
      omega
    have bit : w.buffered = true := (buffered_iff w).mpr (by omega)
    refine ⟨ext_views _ _ ?_ ?_, bit, count⟩
    · rw [count_setBuffered, count, toNat_count]
      exact Nat.mod_eq_of_lt small
    · rw [buffered_setBuffered, Bool.eq_false_iff, ne_eq, buffered_iff]
      simp only
      omega
  · cases done

theorem retire_count (w left : CountWord) (expected : UInt32)
    (done : w.retire expected = some left) : left.count = w.count := by
  unfold retire at done
  split at done
  · rename_i same
    cases done
    have back : w = CountWord.setBuffered ⟨expected⟩ true := by
      cases w with
      | mk bits =>
          simp only at same
          simp [setBuffered, same, UInt32.or_comm]
    rw [back, count_setBuffered]
  · cases done

theorem retire_buffered (w : CountWord) (bit : w.buffered = true) :
    w.retire w.count = some (w.setBuffered false) := by
  have small := toNat_count_lt w
  have whole : w.bits = bufferedBit ||| w.count := by
    have low := toNat_count w
    have high := (buffered_iff w).mp bit
    have bound : w.bits.toNat < 2 ^ 32 := w.bits.toNat_lt
    rw [← UInt32.toNat_inj, toNat_buffered_or w.count small]
    omega
  have left : w.retire w.count = some ⟨w.count⟩ := by
    unfold retire
    rw [if_pos whole]
  rw [left]
  exact congrArg some (retire_spec w ⟨w.count⟩ w.count left small).1

/-- A word takes one more reference exactly if it has some, and room. -/
theorem increment_ok_iff (w : CountWord) :
    (∃ previous raised, w.increment = .ok (previous, raised)) ↔
      0 < w.count.toNat ∧ w.count.toNat < maxCount.toNat := by
  have below : w.count.toNat ≤ maxCount.toNat := by
    have limit : maxCount.toNat = 2 ^ 31 - 1 := by decide
    have := toNat_count_lt w
    omega
  have full : w.count = maxCount ↔ w.count.toNat = maxCount.toNat := UInt32.toNat_inj.symm
  have ready : (∃ previous raised, w.increment = .ok (previous, raised)) ↔
      ¬ (w.count = 0 ∨ w.count = maxCount) := by
    unfold increment
    split
    · rename_i refuses
      simp [refuses]
    · rename_i takes
      simp [takes]
  rw [ready, not_or, count_eq_zero_iff, full]
  omega

theorem upgrade_spec (w : CountWord) (claimed : Bool) :
    (w.upgrade claimed).2.buffered = w.buffered ∧
      ((w.upgrade claimed).1 = true → 0 < w.count.toNat ∧ claimed = false ∧
        (w.upgrade claimed).2.count.toNat = w.count.toNat + 1) ∧
      ((w.upgrade claimed).1 = false → (w.upgrade claimed).2.count.toNat = w.count.toNat) := by
  unfold upgrade
  split
  · simp
  · rename_i previous raised done
    obtain ⟨_, positive, more, bit⟩ := increment_spec w raised previous done
    cases claimed with
    | false => simp [bit, positive, more]
    | true =>
        obtain ⟨_, restored, undone⟩ := decrement_positive raised (by omega)
        obtain ⟨_, less, same⟩ := decrement_spec raised restored _ undone
        simp only [undone]
        refine ⟨by simp [same, bit], by simp, ?_⟩
        intro _
        simp
        omega

theorem upgrade_granted_iff (w : CountWord) (claimed : Bool) :
    (w.upgrade claimed).1 = true ↔
      claimed = false ∧ 0 < w.count.toNat ∧ w.count.toNat < maxCount.toNat := by
  rw [← increment_ok_iff]
  unfold upgrade
  cases done : w.increment with
  | error count => simp
  | ok out =>
      obtain ⟨previous, raised⟩ := out
      cases claimed with
      | false => simp
      | true => cases undone : raised.decrement <;> simp [undone]

end CountedHeap.CountWord
