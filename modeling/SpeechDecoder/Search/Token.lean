import SpeechDecoder.Score

/-! Tokens: the best score of a way into a state, with the word exit that the way comes from. -/
namespace SpeechDecoder.Search

structure Token (α : Type) where
  score : α
  origin : Nat
  deriving DecidableEq, Repr

namespace Token
variable {α : Type} [Score α]

def dead : Token α := ⟨Score.impossible, 0⟩

def isLive (t : Token α) : Bool := Score.isLive t.score

def add (t : Token α) (x : α) : Token α := ⟨t.score + x, t.origin⟩

/-- The better of two; the one that was there first wins a tie. -/
def better (held offered : Token α) : Token α :=
  if Score.below held.score offered.score then offered else held

end Token

end SpeechDecoder.Search
