import CountedHeap.Settings.Environment
import Mathlib

/-!
The texts that settings are read from. What is trimmed off a text frames it; what is left is read.
A word is read from its decimal digits, behind zeros and a plus sign if there are any, and from no
other text. A flag is read from eight spellings, whatever the case of their letters.
-/

namespace CountedHeap.Text

variable {α : Type} {core text : List Char} {n : Nat}

/-! Blanks around a text -/

/-- The text is the core with nothing but blanks before and after it. -/
def Framed (core text : List Char) : Prop :=
  ∃ before after, text = before ++ core ++ after ∧ (∀ c ∈ before, isBlank c = true) ∧
    ∀ c ∈ after, isBlank c = true

theorem trim_framed (text : List Char) : Framed (trim text) text := by
  let inner := text.dropWhile isBlank
  refine ⟨text.takeWhile isBlank, (inner.reverse.takeWhile isBlank).reverse, ?_,
    fun c member => List.mem_takeWhile_imp member,
    fun c member => List.mem_takeWhile_imp (List.mem_reverse.mp member)⟩
  have back : trim text ++ (inner.reverse.takeWhile isBlank).reverse = inner := by
    rw [trim, ← List.reverse_append, List.takeWhile_append_dropWhile, List.reverse_reverse]
  rw [List.append_assoc, back, List.takeWhile_append_dropWhile]

theorem dropWhile_blanks {before : List Char} (blank : ∀ c ∈ before, isBlank c = true)
    (nonempty : core ≠ []) (bare : ∀ c ∈ core, isBlank c = false) (rest : List Char) :
    (before ++ (core ++ rest)).dropWhile isBlank = core ++ rest := by
  cases core with
  | nil => exact absurd rfl nonempty
  | cons first core =>
      rw [List.dropWhile_append_of_pos blank, List.cons_append,
        List.dropWhile_cons_of_neg (by simp [bare first List.mem_cons_self])]

theorem Framed.trim_eq (framed : Framed core text) (bare : ∀ c ∈ core, isBlank c = false) :
    trim text = core := by
  obtain ⟨before, after, rfl, blank, blank'⟩ := framed
  by_cases empty : core = []
  · subst empty
    have all : ∀ c ∈ before ++ [] ++ after, isBlank c = true := by
      intro c member
      rw [List.append_nil, List.mem_append] at member
      exact member.elim (blank c) (blank' c)
    rw [trim, List.dropWhile_eq_nil_iff.mpr all]
    rfl
  · have behind : (after.reverse ++ (core.reverse ++ [])).dropWhile isBlank = core.reverse ++ [] :=
      dropWhile_blanks (fun c member => blank' c (List.mem_reverse.mp member))
        (List.reverse_ne_nil_iff.mpr empty) (fun c member => bare c (List.mem_reverse.mp member)) []
    rw [List.append_nil] at behind
    rw [trim, List.append_assoc, dropWhile_blanks blank empty bare, List.reverse_append, behind,
      List.reverse_reverse]

/-- A text is read when a shape without blanks is found between its blanks. -/
theorem read_trim_iff {parse : List Char → Option α} {shape : α → List Char → Prop}
    (parses : ∀ v core, parse core = some v ↔ shape v core)
    (bare : ∀ v core, shape v core → ∀ c ∈ core, isBlank c = false) (v : α) (text : List Char) :
    parse (trim text) = some v ↔ ∃ core, shape v core ∧ Framed core text := by
  constructor
  · exact fun read => ⟨trim text, (parses v _).mp read, trim_framed text⟩
  · rintro ⟨core, shaped, framed⟩
    rw [framed.trim_eq (bare v core shaped)]
    exact (parses v core).mpr shaped

/-! Numerals -/

/-- The decimal digits of a number, behind any zeros and perhaps a plus sign. -/
def Numeral (n : Nat) (core : List Char) : Prop :=
  ∃ sign zeros, (sign = [] ∨ sign = ['+']) ∧
    core = sign ++ (List.replicate zeros '0' ++ Nat.toDigits 10 n)

theorem digitsValue_zeros (zeros : Nat) (digits : List Char) :
    digitsValue (List.replicate zeros '0' ++ digits) = digitsValue digits := by
  induction zeros with
  | zero => rfl
  | succ zeros ih =>
      rw [List.replicate_succ, List.cons_append]
      exact ih

theorem isDigit_range {c : Char} (digit : c.isDigit = true) : 48 ≤ c.toNat ∧ c.toNat ≤ 57 := by
  simpa [Char.isDigit, UInt32.le_iff_toNat_le] using digit

theorem toDigits_digit {c : Char} (digit : c.isDigit = true) :
    c.toNat - '0'.toNat < 10 ∧ Nat.toDigits 10 (c.toNat - '0'.toNat) = [c] := by
  have range := isDigit_range digit
  have zero : '0'.toNat = 48 := by decide
  have small : c.toNat - '0'.toNat < 10 := by omega
  have same : (c.toNat - '0'.toNat).digitChar = c := by
    apply Char.toNat_inj.mp
    rw [Nat.toNat_digitChar_of_lt_ten small]
    omega
  exact ⟨small, by rw [Nat.toDigits_of_lt_base small, same]⟩

/-- Every row of digits is that of its value behind zeros. The induction takes the last digit off. -/
theorem digits_eq (digits : List Char) (nonempty : digits ≠ []) (all : digits.all Char.isDigit = true) :
    ∃ zeros, digits = List.replicate zeros '0' ++ Nat.toDigits 10 (digitsValue digits) := by
  induction digits using List.reverseRecOn with
  | nil => exact absurd rfl nonempty
  | append_singleton front c ih =>
      rw [List.all_append, Bool.and_eq_true, List.all_cons, List.all_nil, Bool.and_true] at all
      obtain ⟨digits, digit⟩ := all
      obtain ⟨small, spelling⟩ := toDigits_digit digit
      have value : digitsValue (front ++ [c]) = 10 * digitsValue front + (c.toNat - '0'.toNat) := by
        simp [digitsValue, List.foldl_append]
      by_cases empty : front = []
      · subst empty
        have nothing : digitsValue [] = 0 := rfl
        exact ⟨0, by rw [value, nothing, Nat.mul_zero, Nat.zero_add, spelling]; rfl⟩
      · obtain ⟨zeros, spelled⟩ := ih empty digits
        rw [value]
        generalize digitsValue front = n at spelled
        subst spelled
        rcases Nat.eq_zero_or_pos n with rfl | positive
        · refine ⟨zeros + 1, ?_⟩
          rw [Nat.mul_zero, Nat.zero_add, spelling, List.replicate_succ']
          rfl
        · refine ⟨zeros, ?_⟩
          rw [← Nat.toDigits_append_toDigits (by decide) positive small, spelling, List.append_assoc]

theorem digits_iff (n : Nat) (digits : List Char) :
    (digits ≠ [] ∧ digits.all Char.isDigit = true ∧ digitsValue digits = n) ↔
      ∃ zeros, digits = List.replicate zeros '0' ++ Nat.toDigits 10 n := by
  constructor
  · rintro ⟨nonempty, all, rfl⟩
    exact digits_eq digits nonempty all
  · rintro ⟨zeros, rfl⟩
    refine ⟨List.append_ne_nil_of_right_ne_nil _ Nat.toDigits_ne_nil, ?_, ?_⟩
    · rw [List.all_eq_true]
      intro c member
      rcases List.mem_append.mp member with zero | digit
      · rw [List.eq_of_mem_replicate zero]
        decide
      · exact Nat.isDigit_of_mem_toDigits (by decide) (by decide) digit
    · rw [digitsValue_zeros]
      exact Nat.ofDigitChars_ten_toDigits

def unsigned (core : List Char) : List Char :=
  match core with
  | '+' :: rest => rest
  | _ => core

theorem unsigned_cases (core : List Char) : unsigned core = core ∨ ∃ rest, core = '+' :: rest := by
  unfold unsigned
  split
  · exact .inr ⟨_, rfl⟩
  · exact .inl rfl

theorem word?_digits (n : Nat) (core : List Char) : word? core = some n ↔
    n < 2 ^ 64 ∧ ∃ zeros, unsigned core = List.replicate zeros '0' ++ Nat.toDigits 10 n := by
  have read : word? core =
      if unsigned core ≠ [] ∧ (unsigned core).all Char.isDigit ∧
          digitsValue (unsigned core) < UInt64.size
        then some (digitsValue (unsigned core)) else none := rfl
  rw [read, Option.ite_none_right_eq_some, Option.some.injEq, ← digits_iff]
  constructor
  · rintro ⟨⟨nonempty, all, small⟩, rfl⟩
    exact ⟨small, nonempty, all, rfl⟩
  · rintro ⟨small, nonempty, all, rfl⟩
    exact ⟨⟨nonempty, all, small⟩, rfl⟩

/-- A word is read from its numerals, and from nothing else. -/
theorem word?_eq_some_iff (n : Nat) (core : List Char) :
    word? core = some n ↔ n < 2 ^ 64 ∧ Numeral n core := by
  rw [word?_digits]
  refine and_congr_right fun _ => ⟨?_, ?_⟩
  · rintro ⟨zeros, spelled⟩
    rcases unsigned_cases core with bare | ⟨rest, rfl⟩
    · exact ⟨[], zeros, .inl rfl, bare ▸ spelled⟩
    · exact ⟨['+'], zeros, .inr rfl, congrArg ('+' :: ·) spelled⟩
  · rintro ⟨sign, zeros, rfl | rfl, rfl⟩
    · refine ⟨zeros, ?_⟩
      rcases unsigned_cases (List.replicate zeros '0' ++ Nat.toDigits 10 n) with bare | ⟨rest, plus⟩
      · exact bare
      · -- The plus would be a digit.
        have digits := ((digits_iff n ('+' :: rest)).mpr ⟨zeros, plus.symm⟩).2.1
        cases digits
    · exact ⟨zeros, rfl⟩

theorem isBlank_false_of_range {c : Char} (low : 0x21 ≤ c.toNat) (high : c.toNat ≤ 0x84) :
    isBlank c = false := by
  simp [isBlank, blankRanges]
  omega

theorem Numeral.bare (numeral : Numeral n core) : ∀ c ∈ core, isBlank c = false := by
  obtain ⟨sign, zeros, signed, rfl⟩ := numeral
  intro c member
  rcases List.mem_append.mp member with inSign | inDigits
  · have plus : c = '+' := by
      rcases signed with rfl | rfl
      · cases inSign
      · exact List.mem_singleton.mp inSign
    rw [plus]
    decide
  · have all := ((digits_iff n _).mpr ⟨zeros, rfl⟩).2.1
    have range := isDigit_range (List.all_eq_true.mp all c inDigits)
    exact isBlank_false_of_range (by omega) (by omega)

def SpellsWord (n : Nat) (text : List Char) : Prop :=
  n < 2 ^ 64 ∧ ∃ core, Numeral n core ∧ Framed core text

theorem word?_trim_iff (n : Nat) (text : List Char) :
    word? (trim text) = some n ↔ SpellsWord n text := by
  rw [read_trim_iff word?_eq_some_iff (fun n core numeral => numeral.2.bare)]
  simp only [SpellsWord, and_assoc, exists_and_left]

/-! Flags -/

/-- The same character, or the capital of a lower-case one. -/
def Cased (c d : Char) : Prop := c = d ∨ c.isUpper = true ∧ c.toNat + 32 = d.toNat

theorem isUpper_range {c : Char} (capital : c.isUpper = true) : 65 ≤ c.toNat ∧ c.toNat ≤ 90 := by
  simpa [Char.isUpper, UInt32.le_iff_toNat_le] using capital

theorem toNat_toLower {c : Char} (capital : c.isUpper = true) : c.toLower.toNat = c.toNat + 32 := by
  have small : c.val.toNat ≤ 90 := (isUpper_range capital).2
  have shift : ('a'.val - 'A'.val).toNat = 32 := by decide
  rw [Char.toLower, dif_pos (by simpa [Char.isUpper] using capital)]
  change (c.val + ('a'.val - 'A'.val)).toNat = c.val.toNat + 32
  rw [UInt32.toNat_add, shift]
  omega

theorem toLower_eq_iff {c d : Char} (small : d.isUpper = false) : c.toLower = d ↔ Cased c d := by
  by_cases capital : c.isUpper = true
  · have lowered := toNat_toLower capital
    rw [Cased, ← Char.toNat_inj, lowered]
    constructor
    · exact fun same => .inr ⟨capital, same⟩
    · rintro (rfl | ⟨_, same⟩)
      · rw [small] at capital
        cases capital
      · exact same
  · rw [Char.toLower_eq_of_not_isUpper capital, Cased]
    exact (or_iff_left fun other => capital other.1).symm

theorem map_toLower_iff {core word : List Char} (small : ∀ d ∈ word, d.isUpper = false) :
    core.map Char.toLower = word ↔ List.Forall₂ Cased core word := by
  rw [← List.forall₂_eq_eq_eq, List.forall₂_map_left_iff]
  induction word generalizing core with
  | nil => simp
  | cons d word ih =>
      cases core with
      | nil => simp
      | cons c core =>
          rw [List.forall₂_cons, List.forall₂_cons, toLower_eq_iff (small d List.mem_cons_self),
            ih fun d member => small d (List.mem_cons_of_mem _ member)]

end CountedHeap.Text

namespace CountedHeap.Settings.Environment

open Text

def spellings : Bool → List String
  | true => ["1", "true", "yes", "on"]
  | false => ["0", "false", "no", "off"]

/-- A text spells a flag when blanks frame one of its spellings, each letter in either case. -/
def SpellsFlag (flag : Bool) (text : List Char) : Prop :=
  ∃ core, (∃ word ∈ spellings flag, List.Forall₂ Cased core word.toList) ∧ Framed core text

theorem spellings_small (flag : Bool) : ∀ word ∈ spellings flag, ∀ d ∈ word.toList,
    d.isUpper = false ∧ 0x21 ≤ d.toNat ∧ d.toNat ≤ 0x7a := by
  cases flag <;> simp [spellings]

theorem spelled_iff (flag : Bool) (core : List Char) :
    String.ofList (core.map Char.toLower) ∈ spellings flag ↔
      ∃ word ∈ spellings flag, List.Forall₂ Cased core word.toList := by
  have small : ∀ word ∈ spellings flag, ∀ d ∈ word.toList, d.isUpper = false :=
    fun word member d inside => (spellings_small flag word member d inside).1
  constructor
  · intro member
    exact ⟨_, member, (map_toLower_iff (small _ member)).mp String.toList_ofList.symm⟩
  · rintro ⟨word, member, cased⟩
    rw [(map_toLower_iff (small word member)).mpr cased, String.ofList_toList]
    exact member

theorem flag?_eq_some_iff (flag : Bool) (core : List Char) : flag? core = some flag ↔
    ∃ word ∈ spellings flag, List.Forall₂ Cased core word.toList := by
  rw [← spelled_iff]
  change (if String.ofList (core.map Char.toLower) ∈ spellings true then some true
    else if String.ofList (core.map Char.toLower) ∈ spellings false then some false else none) =
      some flag ↔ _
  generalize String.ofList (core.map Char.toLower) = lower
  have apart : ∀ word ∈ spellings true, word ∉ spellings false := by decide
  cases flag with
  | true => split <;> simp_all
  | false =>
      split
      next yes => simp [apart lower yes]
      next no => simp

theorem cased_bare {core word : List Char} (cased : List.Forall₂ Cased core word)
    (plain : ∀ d ∈ word, d.isUpper = false ∧ 0x21 ≤ d.toNat ∧ d.toNat ≤ 0x7a) :
    ∀ c ∈ core, isBlank c = false := by
  induction cased with
  | nil => exact fun c member => absurd member List.not_mem_nil
  | cons same _ ih =>
      rintro c (_ | ⟨_, member⟩)
      · obtain ⟨_, low, high⟩ := plain _ List.mem_cons_self
        rcases same with rfl | ⟨capital, _⟩
        · exact isBlank_false_of_range low (by omega)
        · have range := isUpper_range capital
          exact isBlank_false_of_range (by omega) (by omega)
      · exact ih (fun d inside => plain d (List.mem_cons_of_mem _ inside)) c member

theorem flag?_trim_iff (flag : Bool) (text : List Char) :
    flag? (trim text) = some flag ↔ SpellsFlag flag text := by
  rw [read_trim_iff flag?_eq_some_iff]
  · rfl
  · rintro flag core ⟨word, member, cased⟩
    exact cased_bare cased (spellings_small flag word member)

end CountedHeap.Settings.Environment
