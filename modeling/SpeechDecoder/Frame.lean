/-! Frames of features, numbered from the first of their utterance on. A front end gives them out, and what scores them
is given them whole. -/
namespace SpeechDecoder

structure Frame (α : Type) where
  index : Nat
  values : List α
  deriving DecidableEq

end SpeechDecoder
