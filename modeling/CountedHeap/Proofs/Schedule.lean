import CountedHeap.Proofs.Estate
import CountedHeap.Proofs.Level

/-!
When a pass starts of itself. Clients count their allocations; a pass is due when as many were counted
since the last search ended as the threshold says, or else by a draw. What was counted and where the
searches ended is told as a row of ticks, the latest first, and count and draws are read from the ticks
alone, whatever happens between them.
-/

namespace CountedHeap

/-! Frequencies and draws as fractions -/

namespace Binary64

def value (x : Binary64) : ℚ := x.units / one

theorem one_pos : (0 : ℚ) < one := Nat.cast_pos.mpr (by decide +kernel)

/-- What lies in the unit interval is a negative zero, or has no bit above those of one. -/
theorem inUnitInterval_cases (x : Binary64) (inside : x.inUnitInterval = true) :
    x = ⟨signBit⟩ ∨ x.bits.toNat ≤ 0x3ff0000000000000 := by
  have top : (ofNat 1).bits = 0x3ff0000000000000 := by decide +kernel
  rw [inUnitInterval, top, Bool.or_eq_true, beq_iff_eq, decide_eq_true_eq, UInt64.le_iff_toNat_le] at inside
  rcases inside with isSign | below
  · exact Or.inl (by rw [← isSign])
  · exact Or.inr below

/-- A draw lies below a frequency as the fraction that it stands for. -/
theorem exceeds_iff (x : Binary64) (inside : x.inUnitInterval = true) (k : Nat) :
    x.exceeds k = true ↔ (k : ℚ) / 2 ^ 53 < x.value := by
  rcases x.inUnitInterval_cases inside with rfl | below
  · have negative : exceeds ⟨signBit⟩ k = false := rfl
    have zero : value ⟨signBit⟩ = 0 := by
      have units : units ⟨signBit⟩ = 0 := by decide +kernel
      rw [value, units, Nat.cast_zero, zero_div]
    have nonnegative : ¬ (k : ℚ) / 2 ^ 53 < 0 := not_lt.mpr (by positivity)
    simp [negative, zero, nonnegative]
  · have unsigned : x.negative = false := by
      have bit : x.bits.toNat.testBit 63 = false := Nat.testBit_lt_two_pow (by omega)
      have unsigned : x.bits &&& signBit = 0 := by
        rw [← UInt64.toNat_inj, UInt64.toNat_and, show signBit.toNat = 2 ^ 63 from rfl, Nat.and_two_pow, bit]
        rfl
      rw [negative, unsigned]
      rfl
    have magnitude : x.magnitudeBits < infinityBits.toNat := by
      have infinite : infinityBits.toNat = 0x7ff0000000000000 := rfl
      have width : signBit.toNat = 0x8000000000000000 := rfl
      rw [magnitudeBits, width, infinite]
      omega
    have finite : x.isNaN = false ∧ x.isInfinite = false := by
      simp only [isNaN, isInfinite, decide_eq_false_iff_not, beq_eq_false_iff_ne]
      omega
    rw [value, div_lt_div_iff₀ (by positivity) one_pos]
    simp only [exceeds, unsigned, finite, Bool.not_false, Bool.true_and, Bool.false_or, decide_eq_true_eq,
      Nat.shiftLeft_eq]
    exact_mod_cast Iff.rfl

end Binary64

namespace Draws

theorem next_lt (d : Draws) : d.next.1 < 2 ^ 53 := by
  have state := UInt64.toNat_lt (scramble d.state * 0x2545f4914f6cdd1d)
  rw [next, UInt64.toNat_shiftRight, show (11 : UInt64).toNat % 64 = 11 from rfl,
    Nat.shiftRight_eq_div_pow]
  omega

def after (d : Draws) (count : Nat) : Draws := (fun d => d.next.2)^[count] d

theorem after_succ (d : Draws) (count : Nat) : d.after (count + 1) = (d.after count).next.2 :=
  Function.iterate_succ_apply' _ count d

end Draws

/-! Ticks -/

/-- What moves the clock of a collector: an allocation is counted, under the threshold of the time, or
a search ends. -/
inductive Tick where
  | counted (threshold : Nat)
  | searched
  deriving DecidableEq, Repr

namespace Tick

def since : List Tick → Nat
  | .counted _ :: past => since past + 1
  | _ => 0

def drawn : List Tick → Nat
  | [] => 0
  | .counted threshold :: past => drawn past + if since past + 1 < threshold then 1 else 0
  | .searched :: past => drawn past

end Tick

namespace Machine

def ticks (m : Machine) : Operation → List Tick
  | .call .trigger =>
      if m.heap.collector.settings.automatic then [.counted m.heap.collector.settings.threshold] else []
  | _ => []

def ticking (m : Machine) : List Tick := if m.ends?.isSome then [.searched] else []

end Machine

namespace Estate

def ticks (e : Estate) : Deed → List Tick
  | .operate operation => e.machine.ticks operation
  | .step => e.machine.ticking
  | .deal _ | .elsewhere _ => []

def ticked (e : Estate) (past : List Tick) : List Deed → List Tick
  | [] => past
  | deed :: rest => (e.act deed).ticked (e.ticks deed ++ past) rest

end Estate

namespace Collector

theorem noteAllocation_cases (c : Collector) :
    c.settings.automatic = false ∧ c.noteAllocation = (false, c) ∨
      c.settings.automatic = true ∧
        (c.settings.threshold ≤ c.since + 1 ∧
            c.noteAllocation = (true, { c with since := c.since + 1 }) ∨
          c.since + 1 < c.settings.threshold ∧
            c.noteAllocation = (c.settings.frequency.exceeds c.draws.next.1,
              { c with since := c.since + 1, draws := c.draws.next.2 })) := by
  cases automatic : c.settings.automatic with
  | false => simp [noteAllocation, automatic]
  | true =>
      refine Or.inr ⟨rfl, ?_⟩
      by_cases reached : c.settings.threshold ≤ c.since + 1
      · exact Or.inl ⟨reached, by simp [noteAllocation, automatic, reached]⟩
      · exact Or.inr ⟨Nat.not_le.mp reached, by simp [noteAllocation, automatic, reached]⟩

/-- The clock of a collector stands where the ticks since its first day have moved it, and its settings
passed their check. -/
structure Timely (seed : Draws) (past : List Tick) (c : Collector) : Prop where
  since : c.since = Tick.since past
  draws : c.draws = seed.after (Tick.drawn past)
  checked : c.settings.validate = .ok ()

variable {seed : Draws} {past : List Tick} {c d : Collector}

namespace Timely

theorem created {settings : Settings} {entropy : UInt64} {heap : Heap}
    (made : Heap.create settings entropy = .ok heap) :
    heap.collector.Timely (.seeded (settings.seed.getD entropy)) [] := by
  unfold Heap.create at made
  split at made
  · cases made
  · rename_i checked
    cases made
    exact ⟨rfl, rfl, checked⟩

theorem level (timely : c.Timely seed past) (same : d.clock = c.clock) : d.Timely seed past := by
  simp only [clock, Prod.mk.injEq] at same
  exact ⟨same.2.2.trans timely.since, same.2.1.trans timely.draws, same.1 ▸ timely.checked⟩

theorem searched (timely : c.Timely seed past) (same : d.clock = (c.settings, c.draws, 0)) :
    d.Timely seed (.searched :: past) := by
  simp only [clock, Prod.mk.injEq] at same
  exact ⟨same.2.2, same.2.1.trans timely.draws, same.1 ▸ timely.checked⟩

theorem noted (timely : c.Timely seed past) :
    c.noteAllocation.2.Timely seed
      ((if c.settings.automatic then [.counted c.settings.threshold] else []) ++ past) := by
  rcases c.noteAllocation_cases with ⟨off, noted⟩ | ⟨on, ⟨reached, noted⟩ | ⟨below, noted⟩⟩
  · simpa [off, noted] using timely
  · rw [noted, on]
    refine ⟨congrArg (· + 1) timely.since, ?_, timely.checked⟩
    rw [timely.since] at reached
    simp [Tick.drawn, Nat.not_lt.mpr reached, timely.draws]
  · rw [noted, on]
    refine ⟨congrArg (· + 1) timely.since, ?_, timely.checked⟩
    rw [timely.since] at below
    simp [Tick.drawn, below, timely.draws, Draws.after_succ]

theorem configured (timely : c.Timely seed past) {settings : CollectorSettings}
    (done : c.configure settings = .ok d) : d.Timely seed past := by
  unfold configure at done
  split at done
  · cases done
  · rename_i checked
    cases done
    exact ⟨timely.since, timely.draws, checked⟩

theorem inUnitInterval (timely : c.Timely seed past) : c.settings.frequency.inUnitInterval = true := by
  have checked := timely.checked
  unfold CollectorSettings.validate at checked
  split at checked
  · cases checked
  · rename_i inside
    simpa using inside

end Timely

end Collector

open Collector (Timely)

namespace Machine

variable {m : Machine} {seed : Draws} {past : List Tick}

theorem operate_timely (timely : m.heap.collector.Timely seed past) (operation : Operation) :
    (m.operate operation).heap.collector.Timely seed (m.ticks operation ++ past) := by
  by_cases timed : operation = .call .trigger
  · subst timed
    have clock : m.trigger.2.heap.collector.clock = m.heap.collector.noteAllocation.2.clock := by
      simp only [trigger]
      split <;> rfl
    exact timely.noted.level clock
  · by_cases configures : ∃ settings, operation = .call (.configure settings)
    · obtain ⟨settings, rfl⟩ := configures
      simp only [operate, Client.call]
      split
      · rename_i done
        exact timely.configured done
      · exact timely
    · have level := m.operate_level operation (fun settings here => configures ⟨settings, here⟩) timed
      have silent : m.ticks operation = [] := by
        unfold ticks
        split
        · exact absurd rfl timed
        · rfl
      rw [silent]
      exact timely.level level.clock

theorem step_timely (timely : m.heap.collector.Timely seed past) :
    m.step.heap.collector.Timely seed (m.ticking ++ past) := by
  unfold ticking
  cases isEnd : m.ends? with
  | none => exact timely.level (step_level isEnd).clock
  | some pass =>
      rw [step_finishes isEnd]
      exact timely.searched (m.heap.finishPass_clock pass)

def noted (m : Machine) (past : List Tick) : Machine :=
  let c := m.heap.collector
  m.onHeap fun h => { h with
    collector := { c with
      since := Tick.since past + 1
      draws := if c.settings.threshold ≤ Tick.since past + 1 then c.draws else c.draws.next.2 } }

theorem trigger_counted (timely : m.heap.collector.Timely seed past)
    (on : m.heap.collector.settings.automatic = true) :
    (m.trigger.1 = true ↔ m.heap.collector.settings.threshold ≤ Tick.since past + 1 ∨
      (m.heap.collector.draws.next.1 : ℚ) / 2 ^ 53 < m.heap.collector.settings.frequency.value) ∧
    m.trigger.2 = if m.trigger.1 then (m.noted past).collect else m.noted past := by
  have fraction := m.heap.collector.settings.frequency.exceeds_iff timely.inUnitInterval
    m.heap.collector.draws.next.1
  have due : m.trigger = (m.heap.collector.noteAllocation.1,
      if m.heap.collector.noteAllocation.1
      then (m.onHeap ({ · with collector := m.heap.collector.noteAllocation.2 })).collect
      else m.onHeap ({ · with collector := m.heap.collector.noteAllocation.2 })) := rfl
  rcases m.heap.collector.noteAllocation_cases with ⟨off, _⟩ | ⟨_, ⟨reached, answer⟩ | ⟨below, answer⟩⟩
  · rw [on] at off
    cases off
  · rw [timely.since] at reached answer
    rw [due, answer]
    simp [noted, reached]
  · rw [timely.since] at below answer
    rw [due, answer]
    simp [noted, Nat.not_le.mpr below, fraction]

/-- When passes are due after the ticks so far. -/
structure Punctual (m : Machine) (seed : Draws) (past : List Tick) : Prop where
  since : m.heap.collector.since = Tick.since past
  draws : m.heap.collector.draws = seed.after (Tick.drawn past)
  off : m.heap.collector.settings.automatic = false → m.trigger = (false, m)
  due : m.heap.collector.settings.automatic = true →
    (m.trigger.1 = true ↔ m.heap.collector.settings.threshold ≤ Tick.since past + 1 ∨
      (m.heap.collector.draws.next.1 : ℚ) / 2 ^ 53 < m.heap.collector.settings.frequency.value)
  counted : m.heap.collector.settings.automatic = true →
    m.trigger.2 = if m.trigger.1 then (m.noted past).collect else m.noted past
  ends : m.heap.collector.settings.automatic = true → m.trigger.1 = true →
    ∃ k, ((m.trigger.2.steps k).ends?).isSome = true
  never : m.heap.collector.settings.automatic = true →
    m.heap.collector.settings.frequency.value = 0 →
      (m.trigger.1 = true ↔ m.heap.collector.settings.threshold ≤ Tick.since past + 1)
  always : m.heap.collector.settings.automatic = true →
    m.heap.collector.settings.frequency.value = 1 → m.trigger.1 = true

theorem punctual (timely : m.heap.collector.Timely seed past) : m.Punctual seed past := by
  refine ⟨timely.since, timely.draws, fun off => ?_, fun on => (trigger_counted timely on).1,
    fun on => (trigger_counted timely on).2, fun on isDue => ?_, fun on never => ?_, fun on always => ?_⟩
  · have same : m.heap.collector.noteAllocation = (false, m.heap.collector) := by
      simp [Collector.noteAllocation, off]
    rw [trigger, same]
    rfl
  · have begun : (m.noted past).collect.Scan (m.noted past).collect := .start
    obtain ⟨k, _, isEnd⟩ := begun.ends
    rw [(trigger_counted timely on).2, if_pos isDue]
    exact ⟨k, isEnd⟩
  · have nonnegative : ¬ (m.heap.collector.draws.next.1 : ℚ) / 2 ^ 53 < 0 := not_lt.mpr (by positivity)
    rw [(trigger_counted timely on).1, never]
    exact or_iff_left nonnegative
  · have below : (m.heap.collector.draws.next.1 : ℚ) / 2 ^ 53 < 1 := by
      rw [div_lt_one (by positivity)]
      exact_mod_cast m.heap.collector.draws.next_lt
    exact (trigger_counted timely on).1.mpr (Or.inr (always ▸ below))

end Machine

namespace Estate

variable {e : Estate} {seed : Draws} {past : List Tick}

theorem act_timely (timely : e.heap.collector.Timely seed past) (deed : Deed) :
    (e.act deed).heap.collector.Timely seed (e.ticks deed ++ past) := by
  cases deed with
  | operate operation => exact Machine.operate_timely timely operation
  | step => exact Machine.step_timely timely
  | deal _ | elsewhere _ => exact timely

theorem play_timely (timely : e.heap.collector.Timely seed past) (deeds : List Deed) :
    (deeds.foldl act e).heap.collector.Timely seed (e.ticked past deeds) := by
  induction deeds generalizing e past with
  | nil => exact timely
  | cons deed rest ih => exact ih (act_timely timely deed)

/-- After any deeds, in destructors and in tracers too, the count of allocations is that of the ticks
since the last search ended, and the stream of draws has gone on by one for each allocation that did
not reach the threshold of its time. While collections are not automatic a further allocation is not
counted, and nothing changes. Otherwise it is: a pass starts just when the threshold is reached with it
or a draw lies below the frequency, and its search comes to an end unless it is held up. So under the
frequency zero passes start where the threshold is reached and nowhere else, and under the frequency
one they start every time. -/
theorem passes_due (settings : Settings) (entropy : UInt64) (heap : Heap)
    (made : Heap.create settings entropy = .ok heap) (deeds : List Deed) :
    let start : Estate := { machine := { heap } }
    (deeds.foldl act start).machine.Punctual (Draws.seeded (settings.seed.getD entropy))
      (start.ticked [] deeds) := by
  intro start
  have timely := play_timely (e := start) (Timely.created made) deeds
  exact Machine.punctual timely

/-- Every second allocation starts a pass. The second one does, and it finds an object that holds
itself; in its destructor a third allocation is counted. When all is done the frequency becomes one. -/
def scheduleSettings : Settings :=
  { collector := { threshold := 2, frequency := .zero, minimum := 1 }, seed := some 7 }

def scheduleDeeds : List Deed :=
  [.operate (.call (.declare 1 (.leading 1))), .operate (.call (.alloc 8 1 (some 5))),
    .operate (.call (.assign 0x6b7000000000 0 (some 0x6b7000000000))),
    .operate (.call (.release 0x6b7000000000)), .operate (.call .trigger),
    .operate (.call .trigger), .step, .step, .step, .step, .step, .step, .step, .step,
    .operate (.call .trigger), .step, .step, .step, .step, .step, .step, .step, .step,
    .operate (.call (.configure { threshold := 100, frequency := ⟨0x3ff0000000000000⟩ }))]

theorem passes_due_destructor :
    let start : Estate := { machine := { heap := .initial scheduleSettings 0 } }
    let m := (scheduleDeeds.foldl act start).machine
    start.Plays scheduleDeeds ∧ m.idle = true ∧ m.heap.collector.runs = 1 ∧
      start.ticked [] scheduleDeeds = [.counted 2, .searched, .counted 2, .counted 2] ∧
      m.heap.collector.since = 1 ∧ m.heap.collector.draws = (Draws.seeded 7).after 2 ∧
      m.trigger.1 = true ∧ ∃ k, ((m.trigger.2.steps k).ends?).isSome = true := by
  intro start m
  have made : Heap.create scheduleSettings 0 = .ok (.initial scheduleSettings 0) :=
    Heap.create_valid _ 0 (by decide +kernel)
  have past : start.ticked [] scheduleDeeds = [.counted 2, .searched, .counted 2, .counted 2] := by
    decide +kernel
  have punctual : m.Punctual (Draws.seeded 7) (start.ticked [] scheduleDeeds) :=
    passes_due scheduleSettings 0 _ made scheduleDeeds
  have automatic : m.heap.collector.settings.automatic = true := by decide +kernel
  have whole : m.heap.collector.settings.frequency.units = Binary64.one := by decide +kernel
  have due := punctual.always automatic (by rw [Binary64.value, whole, div_self Binary64.one_pos.ne'])
  refine ⟨by decide +kernel, by decide +kernel, by decide +kernel, past, ?_, ?_, due,
    punctual.ends automatic due⟩
  · rw [punctual.since, past]
    rfl
  · rw [punctual.draws, past]
    rfl

end Estate

end CountedHeap
