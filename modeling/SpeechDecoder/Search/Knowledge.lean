import SpeechDecoder.Search.Params
import SpeechDecoder.Model.Scorer
import SpeechDecoder.Model.Transitions
import SpeechDecoder.Model.Lexicon

/-! What a search goes by: its parameters and the models of phones, sounds and words. Entering a word
costs its weighted language score and a penalty, or the penalty of its kind of filler, which leaves
the history as it is. -/
namespace SpeechDecoder.Search

open Model (History PhoneSet Transitions Scorer Ngram Lexicon)

structure Knowledge (α : Type) where
  params : Params α
  phones : PhoneSet
  transitions : Transitions α
  scorer : Scorer α
  language : Ngram α
  lexicon : Lexicon

namespace Knowledge
variable {α : Type} [Score α]

def startHistory (k : Knowledge α) : History := ⟨k.lexicon.start, none⟩

def enter (k : Knowledge α) (word : Nat) (h : History) : α × History :=
  match k.lexicon.words[word]? with
  | none => (k.params.fillerPenalty, h)
  | some w =>
    match w.kind, w.languageId with
    | .normal, some id =>
      (k.params.languageWeight * k.language.score id h + k.params.wordPenalty, h.push id)
    | .silence, _ => (k.params.silencePenalty, h)
    | _, _ => (k.params.fillerPenalty, h)

/-- The part of `enter` that no history changes. -/
def enterBound (k : Knowledge α) (word : Nat) : α :=
  match k.lexicon.words[word]?.map Model.LexiconWord.kind with
  | some .normal => k.params.wordPenalty
  | some .silence => k.params.silencePenalty
  | _ => k.params.fillerPenalty

def leave (k : Knowledge α) (h : History) : α :=
  match k.lexicon.finish with
  | some id => k.params.languageWeight * k.language.score id h
  | none => Score.zero

end Knowledge

end SpeechDecoder.Search
