import CountedHeap.Proofs.Fractions

/-!
The stream of draws. A state is scrambled by three shifts, none of which has a fixed word but zero, so
each can be undone: no two states have the same successor, and a stream that does not start from zero
never comes there. A draw is a fraction of `2 ^ 53` and no rounding enters it.
-/

namespace CountedHeap

namespace Draws

/-! Shifts -/

variable {width : Nat}

/-- A word mixed with its image under a linear map can be told from the mixture, if the map leaves no
word but zero as it is. -/
theorem mixture_injective (image : BitVec width → BitVec width)
    (linear : ∀ x y, image (x ^^^ y) = image x ^^^ image y) (free : ∀ z, image z = z → z = 0) :
    Function.Injective fun x => x ^^^ image x := by
  intro x y same
  have fixed : image (x ^^^ y) = x ^^^ y := by
    rw [linear]
    have equal : x ^^^ image x = y ^^^ image y := same
    calc image x ^^^ image y = x ^^^ (x ^^^ image x) ^^^ image y := by
          rw [← BitVec.xor_assoc, BitVec.xor_self, BitVec.zero_xor]
      _ = x ^^^ y := by
          rw [equal, BitVec.xor_assoc, BitVec.xor_assoc, BitVec.xor_self, BitVec.xor_zero]
  exact BitVec.xor_eq_zero_iff.mp (free _ fixed)

theorem shiftRight_free (shift : Nat) (positive : 0 < shift) (z : BitVec width)
    (fixed : z >>> shift = z) : z = 0 := by
  have number : z.toNat / 2 ^ shift = z.toNat := by
    rw [← Nat.shiftRight_eq_div_pow, ← BitVec.toNat_ushiftRight, fixed]
  apply BitVec.eq_of_toNat_eq
  by_contra nonzero
  have less := Nat.div_lt_self (Nat.pos_of_ne_zero nonzero) (Nat.one_lt_two_pow positive.ne')
  omega

/-- The lowest bits become zero, and with them the next ones that they are shifted to. -/
theorem shiftLeft_free (shift : Nat) (positive : 0 < shift) (z : BitVec width)
    (fixed : z <<< shift = z) : z = 0 := by
  apply BitVec.eq_of_getLsbD_eq
  intro i _
  rw [BitVec.ofNat_eq_ofNat, BitVec.getLsbD_zero]
  induction i using Nat.strongRecOn with
  | ind i ih =>
      rw [← fixed, BitVec.getLsbD_shiftLeft]
      by_cases low : i < shift
      · simp [low]
      · have lower := ih (i - shift) (by omega) (by omega)
        simp [lower]

theorem scramble_injective : Function.Injective scramble := by
  intro x y same
  have right : ∀ shift, 0 < shift → Function.Injective fun z : BitVec 64 => z ^^^ z >>> shift :=
    fun shift positive => mixture_injective (· >>> shift)
      (fun x y => BitVec.ushiftRight_xor_distrib x y shift) (shiftRight_free shift positive)
  have left : ∀ shift, 0 < shift → Function.Injective fun z : BitVec 64 => z ^^^ z <<< shift :=
    fun shift positive => mixture_injective (· <<< shift)
      (fun x y => BitVec.shiftLeft_xor_distrib x y shift) (shiftLeft_free shift positive)
  have words := congrArg UInt64.toBitVec same
  have third := right 27 (by decide) words
  have second := left 25 (by decide) third
  have first := right 12 (by decide) second
  exact UInt64.toBitVec_inj.mp first

theorem scramble_bijective : Function.Bijective scramble :=
  Finite.injective_iff_bijective.mp scramble_injective

theorem scramble_eq_zero_iff (x : UInt64) : scramble x = 0 ↔ x = 0 := by
  have zero : scramble 0 = 0 := by decide
  constructor
  · intro out
    exact scramble_injective (out.trans zero.symm)
  · rintro rfl
    exact zero

/-! The stream -/

theorem seeded_nonzero (seed : UInt64) : (seeded seed).state ≠ 0 := by
  unfold seeded
  split
  · exact (by decide : (0x9e3779b97f4a7c15 : UInt64) ≠ 0)
  · assumption

theorem next_nonzero (d : Draws) (nonzero : d.state ≠ 0) : d.next.2.state ≠ 0 :=
  fun zero => nonzero ((scramble_eq_zero_iff d.state).mp zero)

theorem after_nonzero (d : Draws) (nonzero : d.state ≠ 0) (count : Nat) : (d.after count).state ≠ 0 := by
  induction count with
  | zero => exact nonzero
  | succ count ih =>
      rw [after_succ]
      exact next_nonzero _ ih

theorem next_injective : Function.Injective fun d : Draws => d.next.2 := by
  intro c d same
  cases c
  cases d
  exact congrArg Draws.mk (scramble_injective (congrArg Draws.state same))

def unit (d : Draws) : Binary64 := .ofCounts d.next.1 (2 ^ 53)

theorem unit_value (d : Draws) : d.unit.value = (d.next.1 : ℚ) / 2 ^ 53 :=
  Binary64.value_ofCounts d.next.1 d.next_lt

theorem unit_nonneg (d : Draws) : 0 ≤ d.unit.value := Binary64.value_nonneg d.unit

theorem unit_lt_one (d : Draws) : d.unit.value < 1 := by
  rw [unit_value, div_lt_one (by positivity)]
  exact_mod_cast d.next_lt

structure Fraction (d : Draws) : Prop where
  counted : d.next.1 < 2 ^ 53
  value : d.unit.value = (d.next.1 : ℚ) / 2 ^ 53
  nonneg : 0 ≤ d.unit.value
  lt_one : d.unit.value < 1
  below : ∀ frequency : Binary64, frequency.inUnitInterval = true →
    (frequency.exceeds d.next.1 = true ↔ d.unit.value < frequency.value)
  always : (Binary64.ofNat 1).exceeds d.next.1 = true
  never : Binary64.zero.exceeds d.next.1 = false
  neverNegative : Binary64.zero.negate.exceeds d.next.1 = false

theorem fraction (d : Draws) : d.Fraction := by
  have below : ∀ frequency : Binary64, frequency.inUnitInterval = true →
      (frequency.exceeds d.next.1 = true ↔ d.unit.value < frequency.value) := by
    intro frequency inside
    rw [frequency.exceeds_iff inside, unit_value]
  have never : ∀ frequency : Binary64, frequency.inUnitInterval = true →
      frequency.magnitudeBits = 0 → frequency.exceeds d.next.1 = false := by
    intro frequency inside zero
    rw [Bool.eq_false_iff, ne_eq, below frequency inside, frequency.value_eq_zero_iff.mpr zero]
    exact not_lt.mpr d.unit_nonneg
  have whole : (Binary64.ofNat 1).value = 1 := by
    have units : (Binary64.ofNat 1).units = Binary64.one := by decide +kernel
    rw [Binary64.value, units, div_self Binary64.one_pos.ne']
  refine ⟨d.next_lt, d.unit_value, d.unit_nonneg, d.unit_lt_one, below, ?_,
    never _ (by decide +kernel) (by decide +kernel), never _ (by decide +kernel) (by decide +kernel)⟩
  rw [below _ (by decide +kernel), whole]
  exact d.unit_lt_one

/-- A stream that never gives out, wherever it starts and whatever is done to its heap. -/
structure Regular : Prop where
  bijective : Function.Bijective scramble
  zero : ∀ x, scramble x = 0 ↔ x = 0
  injective : Function.Injective fun d : Draws => d.next.2
  nonzero : ∀ seed count, ((seeded seed).after count).state ≠ 0
  installed : ∀ settings entropy heap, Heap.create settings entropy = .ok heap → ∀ deeds : List Deed,
    (deeds.foldl Estate.act { machine := { heap } }).heap.collector.draws.state ≠ 0
  drawn : ∀ d : Draws, d.Fraction

/-- No two states have the same successor, every state is one, and zero is its own and that of no
other. So from any seed, the zero that is replaced included, no number of draws leads to zero; nor does
anything that is done to a heap. A draw is a fraction of `2 ^ 53` below one, as a number too. It lies
below a frequency of one, and never below a frequency of zero with either sign. -/
theorem stream_regular : Regular := by
  refine ⟨scramble_bijective, scramble_eq_zero_iff, next_injective,
    fun seed => (seeded seed).after_nonzero (seeded_nonzero seed), ?_, fraction⟩
  intro settings entropy heap made deeds
  let start : Estate := { machine := { heap } }
  have timely := start.play_timely (Collector.Timely.created made) deeds
  rw [timely.draws]
  exact after_nonzero _ (seeded_nonzero _) _

/-- The seed zero under the frequency one: the draw after two allocations starts a pass. -/
def certainSettings : Settings :=
  { collector := { frequency := ⟨0x3ff0000000000000⟩ }, seed := some 0 }

theorem stream_regular_zero :
    let start : Estate := { machine := { heap := .initial certainSettings 0 } }
    let deeds : List Deed := [.operate (.call .trigger), .step, .step, .operate (.call .trigger)]
    let d := (deeds.foldl Estate.act start).heap.collector.draws
    d = (seeded 0).after 2 ∧ d.state ≠ 0 ∧ d.next.2.state ≠ 0 ∧
      (certainSettings.collector.frequency.exceeds d.next.1 = true ↔
        d.unit.value < certainSettings.collector.frequency.value) ∧
      Binary64.zero.exceeds d.next.1 = false := by
  intro start deeds d
  have made : Heap.create certainSettings 0 = .ok (.initial certainSettings 0) :=
    Heap.create_valid _ 0 (by decide +kernel)
  have regular := stream_regular
  have nonzero : d.state ≠ 0 := by
    unfold d start
    exact regular.installed certainSettings 0 _ made deeds
  exact ⟨by decide +kernel, nonzero, fun stuck => nonzero ((regular.zero d.state).mp stuck),
    (regular.drawn d).below _ (by decide +kernel), (regular.drawn d).never⟩

end Draws

end CountedHeap
