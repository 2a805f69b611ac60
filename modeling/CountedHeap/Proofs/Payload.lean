import CountedHeap.Object
import Mathlib

/-!
The bytes of a payload spell its slots.
-/

namespace CountedHeap

theorem spelled_leastFirst (count n : Nat) : spelled (leastFirst count n) = n % 256 ^ count := by
  induction count generalizing n with
  | zero => simp [leastFirst, spelled, Nat.mod_one]
  | succ count ih =>
      have rest : spelled (leastFirst (count + 1) n) = n % 256 + 256 * (n / 256 % 256 ^ count) := by
        rw [← ih (n / 256)]
        simp [leastFirst, spelled]
      rw [rest, Nat.pow_succ, Nat.mul_comm (256 ^ count), Nat.mod_mul]

namespace Payload

-- An empty slot is spelled zero, so a reference has to be another number.
theorem slotOf_leastFirst (slot : Option Addr) (fits : ∀ a, slot = some a → 0 < a ∧ a < 2 ^ 64) :
    slotOf (leastFirst slotBytes (slot.getD 0)) = slot := by
  unfold slotOf
  rw [spelled_leastFirst]
  cases slot with
  | none => rfl
  | some a =>
      have bound := fits a rfl
      have small : a % 256 ^ slotBytes = a := Nat.mod_eq_of_lt bound.2
      have positive : a ≠ 0 := Nat.pos_iff_ne_zero.mp bound.1
      simp [small, positive]

theorem slotsOf_leastFirst (slots : List (Option Addr)) (tail : List UInt8)
    (fits : ∀ a, some a ∈ slots → 0 < a ∧ a < 2 ^ 64) :
    let bytes := slots.flatMap (fun s => leastFirst slotBytes (s.getD 0)) ++ tail
    slotsOf slots.length bytes = slots ∧ bytes.drop (slotBytes * slots.length) = tail := by
  induction slots with
  | nil => exact ⟨rfl, rfl⟩
  | cons slot rest ih =>
      obtain ⟨same, behind⟩ := ih fun a member => fits a (List.mem_cons_of_mem _ member)
      have width : (leastFirst slotBytes (slot.getD 0)).length = slotBytes := length_leastFirst _ _
      have first : slotOf (leastFirst slotBytes (slot.getD 0)) = slot :=
        slotOf_leastFirst slot fun a held => fits a (held ▸ List.mem_cons_self)
      constructor
      · simp only [List.length_cons, slotsOf, List.flatMap_cons, List.append_assoc]
        rw [List.take_left' width, List.drop_left' width, first, same]
      · have split : slotBytes * (rest.length + 1) = slotBytes + slotBytes * rest.length := by
          rw [Nat.mul_succ, Nat.add_comm]
        simp only [List.length_cons, List.flatMap_cons, List.append_assoc]
        rw [split, ← List.drop_drop, List.drop_left' width, behind]

/-- Reading the bytes of a payload gives the payload, if its references fit a slot. -/
theorem ofBytes_bytes (p : Payload) (fits : ∀ a, some a ∈ p.slots → 0 < a ∧ a < 2 ^ 64) :
    ofBytes p.slots.size p.bytes = p := by
  obtain ⟨same, behind⟩ := slotsOf_leastFirst p.slots.toList p.tail fun a member =>
    fits a (Array.mem_toList_iff.mp member)
  cases p with
  | mk slots tail =>
      simp only [Array.length_toList] at same behind
      simp only [ofBytes, bytes, Payload.mk.injEq]
      exact ⟨by rw [same], behind⟩

/-! Writing a payload anew gives it no more slots, and no fewer -/

theorem length_slotsOf (count : Nat) (bytes : List UInt8) : (slotsOf count bytes).length = count := by
  induction count generalizing bytes with
  | zero => rfl
  | succ count ih => rw [slotsOf, List.length_cons, ih]

theorem size_write (p : Payload) (offset : Nat) (new : List UInt8) :
    (p.write offset new).slots.size = p.slots.size := by
  rw [write, ofBytes, List.size_toArray, length_slotsOf]

theorem size_blank (size : Nat) (beyond : List UInt8) :
    (blank size beyond).slots.size = size / slotBytes := Array.size_replicate

end Payload

end CountedHeap
