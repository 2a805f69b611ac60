import CountedHeap.Binary64.Decimal
import CountedHeap.Settings
import CountedHeap.Text.Blank

/-!
Settings from environment variables. A field keeps its default when its variable is unset, is not
text or cannot be read.
-/

namespace CountedHeap.Settings

abbrev Environment := String → Option String

namespace Environment

/-- What variables say that hold bytes, or nothing. Bytes that are not UTF-8 say nothing. -/
def ofBytes (vars : String → Option ByteArray) : Environment :=
  fun name => (vars name).bind String.fromUTF8?

def read? {α : Type} (env : Environment) (name : String) (parse : List Char → Option α) : Option α :=
  (env name).bind fun value => parse (Text.trim value.toList)

def flag? (text : List Char) : Option Bool :=
  let lower := String.ofList (text.map Char.toLower)
  if lower ∈ ["1", "true", "yes", "on"] then some true
  else if lower ∈ ["0", "false", "no", "off"] then some false
  else none

end Environment

def ofEnvironment (env : Environment) : Settings :=
  let fallback : Settings := {}
  { collector :=
      { threshold := (env.read? "WYN_GC_THRESHOLD" Text.word?).getD fallback.collector.threshold
        budget := (env.read? "WYN_GC_MAX_OBJECTS" Text.word?).getD fallback.collector.budget
        automatic :=
          (env.read? "WYN_GC_AUTO" Environment.flag?).getD fallback.collector.automatic
        frequency :=
          (env.read? "WYN_GC_FREQUENCY" Binary64.read?).getD fallback.collector.frequency
        minimum := (env.read? "WYN_GC_MIN_CYCLE" Text.word?).getD fallback.collector.minimum }
    autoRegister := fallback.autoRegister
    seed := ((env.read? "WYN_GC_SEED" Text.word?).map Nat.toUInt64).or fallback.seed }

end CountedHeap.Settings
