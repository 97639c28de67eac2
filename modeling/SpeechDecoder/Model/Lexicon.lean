import SpeechDecoder.Model.Dictionary
import SpeechDecoder.Model.Ngram

/-! The vocabulary of a search: the words of a dictionary that the language model knows, and the
fillers, in dictionary order. The marks of a sentence's ends are known to the language model alone. -/
namespace SpeechDecoder.Model

structure LexiconWord where
  spelling : String
  base : String
  /-- The number in the language model; fillers have none. -/
  languageId : Option Nat
  kind : WordClass
  phones : List Nat
  deriving DecidableEq, Repr

def LexiconWord.isFiller (w : LexiconWord) : Bool := w.languageId.isNone

structure Lexicon where
  words : Array LexiconWord
  start : Option Nat
  finish : Option Nat
  deriving Repr

namespace Lexicon

inductive Problem where
  | noWord
  deriving DecidableEq, Repr

def Problem.message : Problem → String
  | .noWord => "no dictionary word appears in the language model"

def ofWord {α : Type} (m : Ngram α) (w : DictionaryWord) : Option LexiconWord :=
  let make (languageId : Option Nat) : LexiconWord :=
    ⟨w.spelling, w.base, languageId, w.kind, w.phones⟩
  match w.kind with
  | .sentenceMark => none
  | .silence | .filler => some (make none)
  | .normal => (m.id? w.base).map fun id => make (some id)

def build {α : Type} (d : Dictionary) (m : Ngram α) : Except Problem Lexicon :=
  let words := d.words.filterMap (ofWord m)
  if words.any fun w => w.languageId.isSome then
    .ok ⟨words, m.id? sentenceStart, m.id? sentenceEnd⟩
  else .error .noWord

end Lexicon

end SpeechDecoder.Model
