import SpeechDecoder.Decimal.Binary
import SpeechDecoder.Text.Blank

/-! What decoding an utterance gives: a text with its score and confidence, the words with their
frames, and alternatives in order of score. A decoding without words is a result like any other. -/
namespace SpeechDecoder

structure Hypothesis (α : Type) where
  text : String
  score : α
  /-- The share of the text's path among all complete paths. -/
  confidence : α
  deriving DecidableEq, Repr

def Hypothesis.isEmpty {α : Type} (h : Hypothesis α) : Bool := h.text.isEmpty

def Hypothesis.words {α : Type} (h : Hypothesis α) : List String :=
  (Text.fields h.text.toList).map String.ofList

structure Segment (α : Type) where
  word : String
  startFrame : Nat
  endFrame : Nat
  acousticScore : α
  languageScore : α
  deriving DecidableEq, Repr

namespace Segment
variable {α : Type}

def frames (s : Segment α) : Nat := s.endFrame + 1 - s.startFrame

def startSeconds (s : Segment α) (frameRate : Nat) : Float32 :=
  Binary.ofNatural32 s.startFrame / Binary.ofNatural32 frameRate

def endSeconds (s : Segment α) (frameRate : Nat) : Float32 :=
  Binary.ofNatural32 (s.endFrame + 1) / Binary.ofNatural32 frameRate

end Segment

structure Alternative (α : Type) where
  rank : Nat
  hypothesis : Hypothesis α
  segments : List (Segment α)
  deriving DecidableEq, Repr

structure Utterance where
  id : String
  hypothesis : Hypothesis Float32
  frameRate : Nat
  segments : List (Segment Float32)
  alternatives : List (Alternative Float32)
  deriving DecidableEq

end SpeechDecoder
