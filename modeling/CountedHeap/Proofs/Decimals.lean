import CountedHeap.Binary64.Decimal
import CountedHeap.Proofs.Spelling

/-!
The decimal notation of numbers. A number is read from the texts of a grammar: infinity and NaN by
name, and everything else as digits with a point and an exponent, behind a sign or none. Nothing else
is read.
-/

namespace CountedHeap.Binary64

open Text

/-! Rows of digits -/

def Digits (row : List Char) : Prop := ∀ c ∈ row, c.isDigit = true

def Ends (rest : List Char) : Prop := ∀ c ∈ rest.head?, c.isDigit = false

theorem takeDigits_eq_iff {text row rest : List Char} :
    takeDigits text = (row, rest) ↔ text = row ++ rest ∧ Digits row ∧ Ends rest := by
  constructor
  · intro taken
    cases taken
    refine ⟨List.takeWhile_append_dropWhile.symm, fun c member => List.mem_takeWhile_imp member,
      fun c head => ?_⟩
    have stopped := List.head?_dropWhile_not Char.isDigit text
    rw [Option.mem_def.mp head] at stopped
    exact stopped
  · rintro ⟨rfl, digits, ends⟩
    have stops : rest.takeWhile Char.isDigit = [] ∧ rest.dropWhile Char.isDigit = rest := by
      cases rest with
      | nil => exact ⟨rfl, rfl⟩
      | cons c rest =>
          have other : c.isDigit = false := ends c rfl
          simp [other]
    rw [takeDigits, List.takeWhile_append_of_pos digits, List.dropWhile_append_of_pos digits,
      stops.1, stops.2, List.append_nil]

theorem takeDigits_all_iff {text row : List Char} :
    takeDigits text = (row, []) ↔ text = row ∧ Digits row := by
  rw [takeDigits_eq_iff, List.append_nil]
  exact and_congr_right fun _ => and_iff_left fun c head => by cases head

theorem isAlpha_range {c : Char} (letter : c.isAlpha = true) : 65 ≤ c.toNat ∧ c.toNat ≤ 122 := by
  rw [Char.isAlpha, Bool.or_eq_true] at letter
  rcases letter with upper | lower
  · have range := isUpper_range upper
    omega
  · have range : 97 ≤ c.toNat ∧ c.toNat ≤ 122 := by
      simpa [Char.isLower, UInt32.le_iff_toNat_le] using lower
    omega

theorem isDigit_false_of_isAlpha {c : Char} (letter : c.isAlpha = true) : c.isDigit = false := by
  have range := isAlpha_range letter
  by_contra digit
  rw [Bool.not_eq_false] at digit
  have small := isDigit_range digit
  omega

theorem isAlpha_false_of_isDigit {c : Char} (digit : c.isDigit = true) : c.isAlpha = false := by
  by_contra letter
  rw [Bool.not_eq_false] at letter
  rw [isDigit_false_of_isAlpha letter] at digit
  cases digit

/-! Exponents -/

/-- How an exponent is written, or left out. -/
inductive SpellsExponent : Int → List Char → Prop
  | absent : SpellsExponent 0 []
  | positive {mark : Char} {sign digits : List Char} (marked : Cased mark 'e')
      (signed : sign = [] ∨ sign = ['+']) (nonempty : digits ≠ []) (all : Digits digits) :
      SpellsExponent (digitsValue digits) (mark :: (sign ++ digits))
  | negative {mark : Char} {digits : List Char} (marked : Cased mark 'e')
      (nonempty : digits ≠ []) (all : Digits digits) :
      SpellsExponent (-digitsValue digits) (mark :: '-' :: digits)

def splitSign (text : List Char) : Bool × List Char :=
  match text with
  | '-' :: tail => (true, tail)
  | '+' :: tail => (false, tail)
  | tail => (false, tail)

theorem splitSign_cases (text : List Char) :
    (∃ tail, text = '-' :: tail ∧ splitSign text = (true, tail)) ∨
    (∃ tail, text = '+' :: tail ∧ splitSign text = (false, tail)) ∨
    splitSign text = (false, text) := by
  unfold splitSign
  split
  · exact .inl ⟨_, rfl, rfl⟩
  · exact .inr (.inl ⟨_, rfl, rfl⟩)
  · exact .inr (.inr rfl)

theorem splitSign_digits {digits : List Char} (all : Digits digits) :
    splitSign digits = (false, digits) := by
  rcases splitSign_cases digits with ⟨tail, rfl, _⟩ | ⟨tail, rfl, _⟩ | bare
  · have digit := all '-' List.mem_cons_self
    cases digit
  · have digit := all '+' List.mem_cons_self
    cases digit
  · exact bare

def power? (mark : Char) (minus : Bool) : List Char × List Char → Option Int
  | (digits, []) =>
      if mark.toLower ≠ 'e' ∨ digits = [] then none
      else some (if minus then -(digitsValue digits : Int) else digitsValue digits)
  | (_, _ :: _) => none

theorem exponent?_marked (mark : Char) (rest : List Char) (e : Int) :
    exponent? (mark :: rest) = some e ↔
      Cased mark 'e' ∧ (splitSign rest).2 ≠ [] ∧ Digits (splitSign rest).2 ∧
        e = if (splitSign rest).1 then -(digitsValue (splitSign rest).2 : Int)
          else digitsValue (splitSign rest).2 := by
  have read : exponent? (mark :: rest) =
      power? mark (splitSign rest).1 (takeDigits (splitSign rest).2) := rfl
  have marked : mark.toLower = 'e' ↔ Cased mark 'e' := toLower_eq_iff (by decide)
  rw [read, ← marked]
  generalize (splitSign rest).1 = minus
  generalize (splitSign rest).2 = digits
  by_cases all : Digits digits
  · rw [takeDigits_all_iff.mpr ⟨rfl, all⟩, power?, Option.ite_none_left_eq_some, not_or, not_not,
      Option.some.injEq]
    constructor
    · exact fun ⟨⟨mark, nonempty⟩, value⟩ => ⟨mark, nonempty, all, value.symm⟩
    · exact fun ⟨mark, nonempty, _, value⟩ => ⟨⟨mark, nonempty⟩, value.symm⟩
  · constructor
    · intro value
      cases taken : takeDigits digits with
      | mk row rest =>
          rw [taken] at value
          cases rest with
          | nil =>
              obtain ⟨rfl, digits⟩ := takeDigits_all_iff.mp taken
              exact absurd digits all
          | cons c rest => cases value
    · exact fun ⟨_, _, digits, _⟩ => absurd digits all

theorem exponent?_eq_some_iff {text : List Char} {e : Int} :
    exponent? text = some e ↔ SpellsExponent e text := by
  constructor
  · intro read
    cases text with
    | nil =>
        cases read
        exact .absent
    | cons mark rest =>
        obtain ⟨marked, nonempty, all, value⟩ := (exponent?_marked mark rest e).mp read
        rcases splitSign_cases rest with ⟨tail, rfl, sign⟩ | ⟨tail, rfl, sign⟩ | sign
        · rw [sign] at nonempty all value
          subst value
          exact .negative marked nonempty all
        · rw [sign] at nonempty all value
          subst value
          exact .positive marked (.inr rfl) nonempty all
        · rw [sign] at nonempty all value
          subst value
          exact .positive marked (.inl rfl) nonempty all
  · intro spells
    cases spells with
    | absent => rfl
    | negative marked nonempty all => exact (exponent?_marked ..).mpr ⟨marked, nonempty, all, rfl⟩
    | positive marked sign nonempty all =>
        rcases sign with rfl | rfl
        · rw [exponent?_marked, List.nil_append, splitSign_digits all]
          exact ⟨marked, nonempty, all, rfl⟩
        · exact (exponent?_marked ..).mpr ⟨marked, nonempty, all, rfl⟩

/-! Numbers -/

/-- How a number is written that has no sign. -/
inductive SpellsMagnitude : Binary64 → List Char → Prop
  | infinite {core : List Char} {word : String} (named : word ∈ ["inf", "infinity"])
      (cased : List.Forall₂ Cased core word.toList) : SpellsMagnitude infinity core
  | undefined {core : List Char} (cased : List.Forall₂ Cased core "nan".toList) :
      SpellsMagnitude nan core
  | whole {digits power : List Char} {e : Int} (nonempty : digits ≠ []) (all : Digits digits)
      (exponent : SpellsExponent e power) :
      SpellsMagnitude (ofDecimal (digitsValue digits) e) (digits ++ power)
  | pointed {digits places power : List Char} {e : Int} (nonempty : digits ≠ [] ∨ places ≠ [])
      (all : Digits digits) (all' : Digits places) (exponent : SpellsExponent e power) :
      SpellsMagnitude (ofDecimal (digitsValue (digits ++ places)) (e - places.length))
        (digits ++ '.' :: (places ++ power))

def splitPoint (rest : List Char) : List Char × List Char :=
  match rest with
  | '.' :: tail => takeDigits tail
  | tail => ([], tail)

theorem splitPoint_cases (rest : List Char) :
    (∃ tail, rest = '.' :: tail ∧ splitPoint rest = takeDigits tail) ∨
      (∀ tail, rest ≠ '.' :: tail) ∧ splitPoint rest = ([], rest) := by
  unfold splitPoint
  split
  · exact .inl ⟨_, rfl, rfl⟩
  next other => exact .inr ⟨other, rfl⟩

def Named (text : List Char) : Prop :=
  text.map Char.toLower ∈ ["inf".toList, "infinity".toList, "nan".toList]

theorem unsigned?_unnamed {text : List Char} (other : ¬ Named text) (x : Binary64) :
    unsigned? text = some x ↔
      ((takeDigits text).1 ≠ [] ∨ (splitPoint (takeDigits text).2).1 ≠ []) ∧
        ∃ e, SpellsExponent e (splitPoint (takeDigits text).2).2 ∧
          x = ofDecimal (digitsValue ((takeDigits text).1 ++ (splitPoint (takeDigits text).2).1))
            (e - (splitPoint (takeDigits text).2).1.length) := by
  have read : unsigned? text =
      if text.map Char.toLower = "inf".toList ∨ text.map Char.toLower = "infinity".toList
      then some infinity
      else if text.map Char.toLower = "nan".toList then some nan
      else if (takeDigits text).1 = [] ∧ (splitPoint (takeDigits text).2).1 = [] then none
      else (exponent? (splitPoint (takeDigits text).2).2).map fun e =>
        ofDecimal (digitsValue ((takeDigits text).1 ++ (splitPoint (takeDigits text).2).1))
          (e - (splitPoint (takeDigits text).2).1.length) := rfl
  simp only [Named, List.mem_cons, List.not_mem_nil, or_false, not_or] at other
  rw [read, if_neg (by tauto), if_neg other.2.2, Option.ite_none_left_eq_some, not_and_or]
  refine and_congr_right fun _ => ?_
  rw [Option.map_eq_some_iff]
  exact exists_congr fun e => and_congr exponent?_eq_some_iff eq_comm

theorem named_of_infinite {core : List Char} {word : String} (named : word ∈ ["inf", "infinity"])
    (cased : List.Forall₂ Cased core word.toList) : Named core := by
  have small : ∀ d ∈ word.toList, d.isUpper = false := by
    rcases List.mem_pair.mp named with rfl | rfl <;> simp
  rw [Named, (map_toLower_iff small).mpr cased]
  rcases List.mem_pair.mp named with rfl | rfl <;> simp

theorem named_of_undefined {core : List Char} (cased : List.Forall₂ Cased core "nan".toList) :
    Named core := by
  rw [Named, (map_toLower_iff (by simp)).mpr cased]
  simp

theorem Named.letters {text : List Char} (named : Named text) : ∀ c ∈ text, c.isAlpha = true := by
  have words : ∀ word ∈ ["inf".toList, "infinity".toList, "nan".toList],
      ∀ d ∈ word, d.isAlpha = true := by simp
  intro c member
  rw [← Char.isAlpha_toLower_eq_isAlpha]
  exact words _ named _ (List.mem_map_of_mem member)

theorem SpellsExponent.mark {e : Int} {power : List Char} (spells : SpellsExponent e power) :
    ∀ c ∈ power.head?, c.isAlpha = true := by
  have letter : ∀ mark, Cased mark 'e' → mark.isAlpha = true := by
    intro mark marked
    rw [← Char.isAlpha_toLower_eq_isAlpha, (toLower_eq_iff (by decide)).mpr marked]
    rfl
  intro c head
  cases spells with
  | absent => cases head
  | positive marked | negative marked =>
      cases head
      exact letter _ marked

theorem unsigned?_sound {text : List Char} {x : Binary64} (read : unsigned? text = some x) :
    SpellsMagnitude x text := by
  by_cases named : Named text
  · unfold unsigned? at read
    simp only at read
    split at read
    next infinite =>
      cases read
      rcases infinite with short | long
      · exact .infinite (by simp) ((map_toLower_iff (by simp)).mp short)
      · exact .infinite (by simp) ((map_toLower_iff (by simp)).mp long)
    next finite =>
      have undefined : text.map Char.toLower = "nan".toList := by
        simp only [Named, List.mem_cons, List.not_mem_nil, or_false] at named
        tauto
      rw [if_pos undefined] at read
      cases read
      exact .undefined ((map_toLower_iff (by simp)).mp undefined)
  · obtain ⟨nonempty, e, exponent, rfl⟩ := (unsigned?_unnamed named x).mp read
    cases taken : takeDigits text with
    | mk digits rest =>
        obtain ⟨rfl, all, _⟩ := takeDigits_eq_iff.mp taken
        rw [taken] at nonempty exponent
        rcases splitPoint_cases rest with ⟨tail, rfl, behind⟩ | ⟨_, unsplit⟩
        · cases taken' : takeDigits tail with
          | mk places power =>
              obtain ⟨rfl, all', _⟩ := takeDigits_eq_iff.mp taken'
              simp only [behind, taken'] at nonempty exponent ⊢
              exact .pointed nonempty all all' exponent
        · simp only [unsplit] at nonempty exponent ⊢
          simpa using SpellsMagnitude.whole (nonempty.resolve_right fun no => no rfl) all exponent

theorem unnamed_of_mem {text : List Char} {c : Char} (member : c ∈ text) (other : c.isAlpha = false) :
    ¬ Named text := fun named => by
  rw [named.letters c member] at other
  cases other

theorem unsigned?_complete {text : List Char} {x : Binary64} (spells : SpellsMagnitude x text) :
    unsigned? text = some x := by
  cases spells with
  | @infinite _ word named cased =>
      unfold unsigned?
      rcases List.mem_pair.mp named with rfl | rfl
      · have same := (map_toLower_iff (by simp)).mpr cased
        simp [same]
      · have same := (map_toLower_iff (by simp)).mpr cased
        simp [same]
  | undefined cased =>
      have same : text.map Char.toLower = "nan".toList := (map_toLower_iff (by simp)).mpr cased
      unfold unsigned?
      simp [same]
  | @whole digits power e nonempty all exponent =>
      obtain ⟨c, inside⟩ := List.exists_mem_of_ne_nil digits nonempty
      have unnamed := unnamed_of_mem (List.mem_append_left power inside)
        (isAlpha_false_of_isDigit (all c inside))
      -- An exponent begins with a letter, so that the digits end there.
      have ends : Ends power := fun c head => isDigit_false_of_isAlpha (exponent.mark c head)
      have taken : takeDigits (digits ++ power) = (digits, power) :=
        takeDigits_eq_iff.mpr ⟨rfl, all, ends⟩
      have unsplit : splitPoint power = ([], power) := by
        rcases splitPoint_cases power with ⟨tail, rfl, _⟩ | ⟨_, unsplit⟩
        · have mark := exponent.mark '.' rfl
          cases mark
        · exact unsplit
      rw [unsigned?_unnamed unnamed, taken, unsplit]
      exact ⟨.inl nonempty, e, exponent, by simp⟩
  | @pointed digits row power e nonempty all all' exponent =>
      have unnamed : ¬ Named (digits ++ '.' :: (row ++ power)) :=
        unnamed_of_mem (List.mem_append_right digits List.mem_cons_self)
          (by decide : '.'.isAlpha = false)
      have ends : Ends power := fun c head => isDigit_false_of_isAlpha (exponent.mark c head)
      have taken : takeDigits (digits ++ '.' :: (row ++ power)) = (digits, '.' :: (row ++ power)) :=
        takeDigits_eq_iff.mpr ⟨rfl, all, fun c head => by cases head; rfl⟩
      have behind : splitPoint ('.' :: (row ++ power)) = (row, power) :=
        takeDigits_eq_iff.mpr ⟨rfl, all', ends⟩
      rw [unsigned?_unnamed unnamed, taken, behind]
      exact ⟨nonempty, e, exponent, rfl⟩

/-- How a number is written. -/
inductive SpellsDecimal : Binary64 → List Char → Prop
  | unsigned {x : Binary64} {core : List Char} (magnitude : SpellsMagnitude x core) :
      SpellsDecimal x core
  | positive {x : Binary64} {core : List Char} (magnitude : SpellsMagnitude x core) :
      SpellsDecimal x ('+' :: core)
  | negative {x : Binary64} {core : List Char} (magnitude : SpellsMagnitude x core) :
      SpellsDecimal x.negate ('-' :: core)

theorem SpellsMagnitude.head {x : Binary64} {core : List Char} (spells : SpellsMagnitude x core) :
    ∀ c ∈ core.head?, c ≠ '-' ∧ c ≠ '+' := by
  have letter : ∀ c : Char, c.isAlpha = true → c ≠ '-' ∧ c ≠ '+' := by
    rintro c letter
    constructor <;> rintro rfl <;> cases letter
  have digit : ∀ c : Char, c.isDigit = true → c ≠ '-' ∧ c ≠ '+' := by
    rintro c digit
    constructor <;> rintro rfl <;> cases digit
  intro c head
  cases spells with
  | infinite named cased =>
      exact letter c ((named_of_infinite named cased).letters c (List.mem_of_mem_head? head))
  | undefined cased => exact letter c ((named_of_undefined cased).letters c (List.mem_of_mem_head? head))
  | @whole digits _ _ nonempty all _ =>
      cases digits with
      | nil => exact absurd rfl nonempty
      | cons first _ =>
          cases head
          exact digit c (all c List.mem_cons_self)
  | @pointed digits _ _ _ _ all _ _ =>
      cases digits with
      | nil =>
          cases head
          decide
      | cons first _ =>
          cases head
          exact digit c (all c List.mem_cons_self)

/-- A number is read from its notations, and from nothing else. -/
theorem decimal_iff (x : Binary64) (core : List Char) :
    read? core = some x ↔ SpellsDecimal x core := by
  constructor
  · intro read
    unfold read? at read
    split at read
    · obtain ⟨y, magnitude, rfl⟩ := Option.map_eq_some_iff.mp read
      exact .negative (unsigned?_sound magnitude)
    · exact .positive (unsigned?_sound read)
    · exact .unsigned (unsigned?_sound read)
  · intro spells
    cases spells with
    | positive magnitude => exact unsigned?_complete magnitude
    | negative magnitude =>
        rw [read?, unsigned?_complete magnitude]
        rfl
    | unsigned magnitude =>
        unfold read?
        split
        next => exact absurd rfl (magnitude.head '-' rfl).1
        next => exact absurd rfl (magnitude.head '+' rfl).2
        next => exact unsigned?_complete magnitude

/-! Blanks -/

theorem isBlank_false_of_isAlpha {c : Char} (letter : c.isAlpha = true) : isBlank c = false := by
  have range := isAlpha_range letter
  exact isBlank_false_of_range (by omega) (by omega)

theorem Digits.bare {row : List Char} (all : Digits row) : ∀ c ∈ row, isBlank c = false := by
  intro c member
  have range := isDigit_range (all c member)
  exact isBlank_false_of_range (by omega) (by omega)

theorem SpellsExponent.bare {e : Int} {power : List Char} (spells : SpellsExponent e power) :
    ∀ c ∈ power, isBlank c = false := by
  have mark := spells.mark
  intro c member
  cases spells with
  | absent => cases member
  | positive _ sign _ all =>
      rcases List.mem_cons.mp member with rfl | behind
      · exact isBlank_false_of_isAlpha (mark c rfl)
      · rcases sign with rfl | rfl
        · exact all.bare c behind
        · rcases List.mem_cons.mp behind with rfl | digit
          · decide
          · exact all.bare c digit
  | negative _ _ all =>
      rcases List.mem_cons.mp member with rfl | behind
      · exact isBlank_false_of_isAlpha (mark c rfl)
      · rcases List.mem_cons.mp behind with rfl | digit
        · decide
        · exact all.bare c digit

theorem SpellsMagnitude.bare {x : Binary64} {core : List Char} (spells : SpellsMagnitude x core) :
    ∀ c ∈ core, isBlank c = false := by
  intro c member
  cases spells with
  | infinite named cased =>
      exact isBlank_false_of_isAlpha ((named_of_infinite named cased).letters c member)
  | undefined cased => exact isBlank_false_of_isAlpha ((named_of_undefined cased).letters c member)
  | whole _ all exponent =>
      rcases List.mem_append.mp member with digit | behind
      · exact all.bare c digit
      · exact exponent.bare c behind
  | pointed _ all all' exponent =>
      rcases List.mem_append.mp member with digit | behind
      · exact all.bare c digit
      · rcases List.mem_cons.mp behind with rfl | behind
        · decide
        · rcases List.mem_append.mp behind with digit | behind
          · exact all'.bare c digit
          · exact exponent.bare c behind

theorem SpellsDecimal.bare {x : Binary64} {core : List Char} (spells : SpellsDecimal x core) :
    ∀ c ∈ core, isBlank c = false := by
  intro c member
  cases spells with
  | unsigned magnitude => exact magnitude.bare c member
  | positive magnitude | negative magnitude =>
      rcases List.mem_cons.mp member with rfl | behind
      · decide
      · exact magnitude.bare c behind

/-- A text spells a number when blanks frame a notation of it. -/
def SpellsNumber (x : Binary64) (text : List Char) : Prop :=
  ∃ core, SpellsDecimal x core ∧ Framed core text

theorem read?_trim_iff (x : Binary64) (text : List Char) :
    read? (trim text) = some x ↔ SpellsNumber x text :=
  read_trim_iff decimal_iff (fun _ _ spells => spells.bare) x text

end CountedHeap.Binary64
