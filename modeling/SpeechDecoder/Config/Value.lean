import SpeechDecoder.Text.Numeral
import SpeechDecoder.Decimal.Layout

/-! The kinds of option values and their written forms. -/
namespace SpeechDecoder.Config

inductive Kind where
  | text
  | integer
  | number
  | flag
  deriving DecidableEq, Repr

def Kind.describe : Kind → String
  | .text => "a string"
  | .integer => "an integer"
  | .number => "a number"
  | .flag => "a boolean"

inductive Value where
  | text (s : String)
  | integer (n : Int)
  | number (x : Float)
  | flag (b : Bool)

namespace Value

def kind : Value → Kind
  | .text _ => .text
  | .integer _ => .integer
  | .number _ => .number
  | .flag _ => .flag

def flag? (s : List Char) : Option Bool :=
  let word := String.ofList (s.map Text.lower)
  if word ∈ ["yes", "true", "on", "1"] then some true
  else if word ∈ ["no", "false", "off", "0"] then some false
  else none

/-- Reads a written value; blanks around it do not count. -/
def read? (kind : Kind) (s : String) : Option Value :=
  let s := Text.trim s.toList
  match kind with
  | .text => some (.text (String.ofList s))
  | .integer => (Text.integer? 64 s).map .integer
  | .number => (Text.float? s).map .number
  | .flag => (flag? s).map .flag

def write : Value → String
  | .text s => s
  | .integer n => toString n
  | .number x => String.ofList (Decimal.plainFloat x)
  | .flag b => if b then "yes" else "no"

end Value

theorem Value.kindRead {kind : Kind} {s : String} {v : Value} (h : read? kind s = some v) :
    v.kind = kind := by
  cases kind <;> simp only [read?, Option.map_eq_some_iff] at h
  · cases h; rfl
  all_goals obtain ⟨_, _, rfl⟩ := h; rfl

end SpeechDecoder.Config
