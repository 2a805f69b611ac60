import CountedHeap.Proofs.Decimals
import CountedHeap.Proofs.ForeignCalls
import CountedHeap.Proofs.Fractions
import CountedHeap.Proofs.Schedule
import CountedHeap.Proofs.Spelling

/-!
What the environment decides about a heap. Every setting belongs to one variable, and is what that
variable spells or else its default. Settings make a heap unless they break a rule, and then the first
rule that is broken is told. No heap ever holds settings that break one.
-/

namespace CountedHeap

/-! What a variable told -/

namespace Settings

open Environment Text

variable {α : Type} {vars : String → Option ByteArray} {name : String}

/-- The variable holds a text that spells the value. -/
def Tells (vars : String → Option ByteArray) (name : String) (spells : α → List Char → Prop) (v : α) :
    Prop :=
  ∃ text : String, vars name = some text.toUTF8 ∧ spells v text.toList

theorem ofBytes_eq_some_iff (text : String) :
    Environment.ofBytes vars name = some text ↔ vars name = some text.toUTF8 := by
  rw [Environment.ofBytes, Option.bind_eq_some_iff]
  constructor
  · rintro ⟨bytes, held, decoded⟩
    unfold String.fromUTF8? at decoded
    split at decoded
    · cases decoded
      exact held
    · cases decoded
  · intro held
    refine ⟨text.toUTF8, held, ?_⟩
    have valid : text.toUTF8.IsValidUTF8 := text.isValidUTF8
    unfold String.fromUTF8?
    rw [dif_pos valid]
    rfl

theorem read?_eq_some_iff {parse : List Char → Option α} {spells : α → List Char → Prop}
    (reads : ∀ v text, parse (trim text) = some v ↔ spells v text) (v : α) :
    (Environment.ofBytes vars).read? name parse = some v ↔ Tells vars name spells v := by
  rw [Environment.read?, Option.bind_eq_some_iff]
  simp only [ofBytes_eq_some_iff, reads]
  rfl

/-- One variable rules a setting. -/
structure Rules (name : String) (spells : α → List Char → Prop) (field : Settings → α) : Prop where
  alone : ∀ vars vars' : String → Option ByteArray, vars name = vars' name →
    field (ofEnvironment (.ofBytes vars)) = field (ofEnvironment (.ofBytes vars'))
  spelled : ∀ vars v, Tells vars name spells v → field (ofEnvironment (.ofBytes vars)) = v
  /-- A variable that is not set, is not UTF-8 or spells nothing leaves the default. -/
  unspelled : ∀ vars, (¬ ∃ v, Tells vars name spells v) →
    field (ofEnvironment (.ofBytes vars)) = field {}

theorem Rules.of_read (parse : List Char → Option α) {spells : α → List Char → Prop}
    {field : Settings → α} (reads : ∀ v text, parse (trim text) = some v ↔ spells v text)
    (taken : ∀ env, field (ofEnvironment env) = (env.read? name parse).getD (field {})) :
    Rules name spells field := by
  constructor
  case alone =>
    intro vars vars' same
    simp only [taken, Environment.read?, Environment.ofBytes, same]
  case spelled =>
    intro vars v told
    rw [taken, (read?_eq_some_iff reads v).mpr told, Option.getD_some]
  case unspelled =>
    intro vars silent
    have unread : (Environment.ofBytes vars).read? name parse = none := by
      rw [Option.eq_none_iff_forall_ne_some]
      exact fun v read => silent ⟨v, (read?_eq_some_iff reads v).mp read⟩
    rw [taken, unread, Option.getD_none]

def SpellsSeed (seed : Option UInt64) (text : List Char) : Prop :=
  ∃ word : UInt64, seed = some word ∧ SpellsWord word.toNat text

/-- The variables and the settings that they rule. -/
structure Ruled : Prop where
  threshold : Rules "WYN_GC_THRESHOLD" SpellsWord (·.collector.threshold)
  budget : Rules "WYN_GC_MAX_OBJECTS" SpellsWord (·.collector.budget)
  automatic : Rules "WYN_GC_AUTO" SpellsFlag (·.collector.automatic)
  frequency : Rules "WYN_GC_FREQUENCY" Binary64.SpellsNumber (·.collector.frequency)
  minimum : Rules "WYN_GC_MIN_CYCLE" SpellsWord (·.collector.minimum)
  seed : Rules "WYN_GC_SEED" SpellsSeed (·.seed)
  autoRegister : ∀ env, (ofEnvironment env).autoRegister = true

theorem read_seed_iff (seed : Option UInt64) (text : List Char) :
    ((word? (trim text)).map fun n => some n.toUInt64) = some seed ↔ SpellsSeed seed text := by
  simp only [Option.map_eq_some_iff, word?_trim_iff]
  constructor
  · rintro ⟨n, spelled, rfl⟩
    refine ⟨n.toUInt64, rfl, ?_⟩
    rw [Nat.toUInt64, UInt64.toNat_ofNat_of_lt' spelled.1]
    exact spelled
  · rintro ⟨word, rfl, spelled⟩
    exact ⟨word.toNat, spelled, congrArg some word.ofNat_toNat⟩

theorem ruled : Ruled := by
  constructor
  case threshold => exact .of_read word? word?_trim_iff fun env => rfl
  case budget => exact .of_read word? word?_trim_iff fun env => rfl
  case automatic => exact .of_read flag? flag?_trim_iff fun env => rfl
  case frequency => exact .of_read Binary64.read? Binary64.read?_trim_iff fun env => rfl
  case minimum => exact .of_read word? word?_trim_iff fun env => rfl
  case seed =>
    refine .of_read (fun text => (word? text).map fun n => some n.toUInt64) read_seed_iff fun env => ?_
    cases held : env "WYN_GC_SEED" with
    | none => simp [ofEnvironment, Environment.read?, held]
    | some text => cases read : word? (trim text.toList) <;>
        simp [ofEnvironment, Environment.read?, held, read]
  case autoRegister => exact fun env => rfl

end Settings

/-! Which settings pass their check -/

structure Binary64.Fraction (x : Binary64) : Prop where
  number : x.isNaN = false
  finite : x.isInfinite = false
  nonneg : 0 ≤ x.signed
  atMostOne : x.signed ≤ 1

theorem Binary64.fraction_iff (x : Binary64) : x.Fraction ↔ x.inUnitInterval = true := by
  rw [inUnitInterval_iff]
  exact ⟨fun h => ⟨h.number, h.finite, h.nonneg, h.atMostOne⟩, fun ⟨a, b, c, d⟩ => ⟨a, b, c, d⟩⟩

namespace CollectorSettings

def Proper (s : CollectorSettings) : Prop := s.frequency.Fraction ∧ 1 ≤ s.budget ∧ 1 ≤ s.minimum

/-- The fault tells the first rule that the settings break. -/
inductive Breaks (s : CollectorSettings) : Fault → Prop
  | frequency (outside : ¬ s.frequency.Fraction) :
      Breaks s (.invalidArgument "collection_frequency must lie in [0, 1]")
  | budget (inside : s.frequency.Fraction) (short : s.budget < 1) :
      Breaks s (.invalidArgument "max_objects_per_cycle must be at least 1")
  | minimum (inside : s.frequency.Fraction) (roomy : 1 ≤ s.budget) (short : s.minimum < 1) :
      Breaks s (.invalidArgument "min_cycle_size must be at least 1")

variable {s : CollectorSettings} {fault : Fault}

theorem Proper.validate (proper : s.Proper) : s.validate = .ok () := by
  obtain ⟨inside, budget, minimum⟩ := proper
  rw [Binary64.fraction_iff] at inside
  simp [CollectorSettings.validate, inside, Nat.pos_iff_ne_zero.mp budget, Nat.pos_iff_ne_zero.mp minimum]

theorem Breaks.validate (breaks : s.Breaks fault) : s.validate = .error fault := by
  cases breaks with
  | frequency outside =>
      rw [Binary64.fraction_iff, Bool.not_eq_true] at outside
      simp [CollectorSettings.validate, outside]
  | budget inside short =>
      rw [Binary64.fraction_iff] at inside
      simp [CollectorSettings.validate, inside, Nat.lt_one_iff.mp short]
  | minimum inside roomy short =>
      rw [Binary64.fraction_iff] at inside
      simp [CollectorSettings.validate, inside, Nat.pos_iff_ne_zero.mp roomy, Nat.lt_one_iff.mp short]

theorem proper_or_breaks (s : CollectorSettings) : s.Proper ∨ ∃ fault, s.Breaks fault := by
  by_cases inside : s.frequency.Fraction
  · rcases Nat.lt_or_ge s.budget 1 with short | roomy
    · exact .inr ⟨_, .budget inside short⟩
    · rcases Nat.lt_or_ge s.minimum 1 with short | enough
      · exact .inr ⟨_, .minimum inside roomy short⟩
      · exact .inl ⟨inside, roomy, enough⟩
  · exact .inr ⟨_, .frequency inside⟩

theorem validate_ok_iff : s.validate = .ok () ↔ s.Proper := by
  refine ⟨fun passed => ?_, Proper.validate⟩
  rcases s.proper_or_breaks with proper | ⟨fault, breaks⟩
  · exact proper
  · rw [breaks.validate] at passed
    cases passed

theorem validate_error_iff : s.validate = .error fault ↔ s.Breaks fault := by
  refine ⟨fun failed => ?_, Breaks.validate⟩
  rcases s.proper_or_breaks with proper | ⟨first, breaks⟩
  · rw [proper.validate] at failed
    cases failed
  · rw [breaks.validate] at failed
    cases failed
    exact breaks

end CollectorSettings

/-! Which heaps are made -/

namespace Heap

variable {settings : Settings} {entropy : UInt64} {heap : Heap} {fault : Fault}

theorem create_ok_iff : create settings entropy = .ok heap ↔
    settings.collector.Proper ∧ heap = initial settings entropy := by
  rw [← CollectorSettings.validate_ok_iff]
  constructor
  · intro made
    obtain rfl := create_initial made
    exact ⟨(Collector.Timely.created made).checked, rfl⟩
  · rintro ⟨passed, rfl⟩
    exact create_valid settings entropy (by rw [passed]; rfl)

theorem create_error_iff :
    create settings entropy = .error fault ↔ settings.collector.Breaks fault := by
  rw [← CollectorSettings.validate_error_iff, create]
  cases settings.collector.validate with
  | ok done => simp
  | error other => simp

end Heap

theorem Boundary.create_some_iff (env : Settings.Environment) (entropy : UInt64) (m : Machine) :
    create env entropy = some m ↔ ∃ heap, Heap.ofEnvironment env entropy = .ok heap ∧ m = { heap } := by
  unfold create
  cases Heap.ofEnvironment env entropy with
  | ok heap => simp [eq_comm]
  | error fault => simp

theorem Boundary.create_none_iff (env : Settings.Environment) (entropy : UInt64) :
    create env entropy = none ↔ ∃ fault, Heap.ofEnvironment env entropy = .error fault := by
  unfold create
  cases Heap.ofEnvironment env entropy with
  | ok heap => simp
  | error fault => simp

/-! Settings that are kept -/

namespace Machine

variable {m n : Machine}

/-- The collector's settings have passed their check, whatever it has counted and drawn since. -/
def Checked (m : Machine) : Prop := ∃ seed past, m.heap.collector.Timely seed past

namespace Checked

theorem steps (checked : m.Checked) (n : Nat) : (m.steps n).Checked := by
  induction n generalizing m with
  | zero => exact checked
  | succ n ih =>
      obtain ⟨seed, past, timely⟩ := checked
      exact ih ⟨seed, _, step_timely timely⟩

theorem serve (checked : m.Checked) (native : Native) : (m.serve native).2.Checked := by
  obtain ⟨seed, past, timely⟩ := checked
  cases native with
  | operate operation => exact ⟨seed, _, operate_timely timely operation⟩
  | poolAlloc bytes =>
      simp only [Machine.serve]
      split <;> exact ⟨seed, past, timely⟩
  | ask _ | poolFree _ _ | reclaimed | cycleStats => exact ⟨seed, past, timely⟩

theorem serves (checked : m.Checked) (natives : List Native) : (m.serves natives).2.Checked := by
  induction natives generalizing m with
  | nil => exact checked
  | cons native rest ih => exact ih (checked.serve native)

theorem converse (checked : m.Checked) (groups : List (List Native × Nat)) :
    (m.converse groups).2.Checked := by
  induction groups generalizing m with
  | nil => exact checked
  | cons group rest ih => exact ih ((checked.serves group.1).steps group.2)

theorem play (checked : m.Checked) (script : List (Boundary.Call × Nat))
    (played : (Boundary.play (some m) script).2 = some n) : n.Checked := by
  rw [Boundary.play_some] at played
  cases played
  exact checked.converse _

end Checked

end Machine

/-- The environment decides every setting but one, each by its own variable. A heap is made under the
settings if they are proper, and otherwise the first rule that they break is told, or null at the entry
point. Whatever is done to a heap then, in destructors and tracers too, at the entry points or behind
them, the settings that it holds are proper. -/
theorem environment_decides :
    Settings.Ruled ∧
    (∀ (vars : String → Option ByteArray) (entropy : UInt64),
      let settings : Settings := .ofEnvironment (.ofBytes vars)
      let made := Heap.ofEnvironment (.ofBytes vars) entropy
      let host := Boundary.create (.ofBytes vars) entropy
      (∀ heap, made = .ok heap ↔ settings.collector.Proper ∧ heap = .initial settings entropy) ∧
      (∀ fault, made = .error fault ↔ settings.collector.Breaks fault) ∧
      (∀ m, host = some m ↔
        settings.collector.Proper ∧ m = { heap := .initial settings entropy }) ∧
      (host = none ↔ ∃ fault, settings.collector.Breaks fault)) ∧
    (∀ settings entropy heap, Heap.create settings entropy = .ok heap → ∀ deeds : List Deed,
      (deeds.foldl Estate.act { machine := { heap } }).heap.collector.settings.validate = .ok ()) ∧
    ∀ env entropy m, Boundary.create env entropy = some m → ∀ script n,
      (Boundary.play (some m) script).2 = some n →
        (Boundary.settings (some n)).validate = .ok () := by
  refine ⟨Settings.ruled, fun vars entropy => ?_, ?_, ?_⟩
  · intro settings made host
    refine ⟨fun heap => Heap.create_ok_iff, fun fault => Heap.create_error_iff, fun m => ?_, ?_⟩
    · rw [Boundary.create_some_iff]
      constructor
      · rintro ⟨heap, made, rfl⟩
        obtain ⟨proper, rfl⟩ := Heap.create_ok_iff.mp made
        exact ⟨proper, rfl⟩
      · rintro ⟨proper, rfl⟩
        exact ⟨_, Heap.create_ok_iff.mpr ⟨proper, rfl⟩, rfl⟩
    · rw [Boundary.create_none_iff]
      exact exists_congr fun fault => Heap.create_error_iff
  · intro settings entropy heap made deeds
    let start : Estate := { machine := { heap } }
    exact (start.play_timely (Collector.Timely.created made) deeds).checked
  · intro env entropy m made script n played
    obtain ⟨heap, created, rfl⟩ := (Boundary.create_some_iff env entropy m).mp made
    have checked : Machine.Checked { heap } := ⟨_, _, Collector.Timely.created created⟩
    obtain ⟨seed, past, timely⟩ := checked.play script played
    exact timely.checked

/-- A threshold behind blanks, a sign and zeros, a flag in capitals, and a budget that is not text. -/
def oddVariables : String → Option ByteArray
  | "WYN_GC_THRESHOLD" => some "\u00a0 +007\n".toUTF8
  | "WYN_GC_AUTO" => some "oFF".toUTF8
  | "WYN_GC_MAX_OBJECTS" => some ⟨#[0xff]⟩
  | _ => none

theorem environment_decides_odd :
    let settings : Settings := .ofEnvironment (.ofBytes oddVariables)
    settings.collector.threshold = 7 ∧ settings.collector.automatic = false ∧
      settings.collector.budget = 100 ∧ settings.seed = none ∧
      ∃ heap, Heap.ofEnvironment (.ofBytes oddVariables) 0 = .ok heap ∧
        ∀ chosen, (Estate.act { machine := { heap } }
          (.operate (.call (.configure chosen)))).heap.collector.settings.validate = .ok () := by
  intro settings
  obtain ⟨ruled, made, kept, _⟩ := environment_decides
  have threshold : settings.collector.threshold = 7 := by
    have numeral : Text.Numeral 7 ['+', '0', '0', '7'] := ⟨['+'], 2, .inr rfl, by decide⟩
    refine ruled.threshold.spelled _ 7 ⟨"\u00a0 +007\n", rfl, by decide, _, numeral, ?_⟩
    exact ⟨['\u00a0', ' '], ['\n'], by decide, by simp [Text.isBlank, Text.blankRanges],
      by simp [Text.isBlank, Text.blankRanges]⟩
  have automatic : settings.collector.automatic = false := by
    have cased : List.Forall₂ Text.Cased ['o', 'F', 'F'] "off".toList :=
      .cons (.inl rfl) (.cons (.inr ⟨rfl, rfl⟩) (.cons (.inr ⟨rfl, rfl⟩) .nil))
    refine ruled.automatic.spelled _ false ⟨"oFF", rfl, _, ⟨"off", by decide, cased⟩, ?_⟩
    exact ⟨[], [], by decide, by simp, by simp⟩
  have budget : settings.collector.budget = 100 := by
    refine ruled.budget.unspelled _ ?_
    rintro ⟨v, text, held, _⟩
    have bytes : text.toUTF8 = ⟨#[0xff]⟩ := (Option.some.inj held).symm
    have valid : text.toUTF8.IsValidUTF8 := text.isValidUTF8
    rw [bytes] at valid
    exact absurd valid (by decide +kernel)
  have minimum : settings.collector.minimum = 2 := by
    refine ruled.minimum.unspelled _ ?_
    rintro ⟨v, text, held, _⟩
    cases held
  have seed : settings.seed = none := by
    refine ruled.seed.unspelled _ ?_
    rintro ⟨v, text, held, _⟩
    cases held
  have frequency : settings.collector.frequency = ⟨0x3fb999999999999a⟩ := by
    refine ruled.frequency.unspelled _ ?_
    rintro ⟨v, text, held, _⟩
    cases held
  have proper : settings.collector.Proper := by
    rw [CollectorSettings.Proper, frequency, budget, minimum, Binary64.fraction_iff]
    decide +kernel
  have ok := ((made oddVariables 0).1 _).mpr ⟨proper, rfl⟩
  exact ⟨threshold, automatic, budget, seed, _, ok, fun chosen =>
    kept settings 0 _ ok [.operate (.call (.configure chosen))]⟩

end CountedHeap
