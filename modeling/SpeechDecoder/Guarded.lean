/-! Computations that are watched: they end with the first read outside a table, or the first difference below zero.
One that gives what the unwatched one gives has done neither. -/
namespace SpeechDecoder

inductive Region where
  | phones
  | matrices
  | states
  | transitions
  | senones
  | codebooks
  | densities
  | moments
  | weights
  | scores
  | words
  | entries
  | unigrams
  | exits
  | frames
  | outlook
  deriving DecidableEq, Repr

inductive Breach where
  | outside (region : Region) (place : Nat)
  | below (n less : Nat)
  deriving DecidableEq, Repr

abbrev Guarded (β : Type) := Except Breach β

namespace Guarded
variable {β γ σ : Type}

def known (region : Region) (place : Nat) : Option β → Guarded β
  | some b => .ok b
  | none => .error (.outside region place)

def within (region : Region) (place size : Nat) : Guarded Unit :=
  if place < size then .ok () else .error (.outside region place)

def minus (n less : Nat) : Guarded Nat := if less ≤ n then .ok (n - less) else .error (.below n less)

/-- So many values from a place on. -/
def slice (region : Region) (first count : Nat) (a : Array β) : Guarded (List β) :=
  if first + count ≤ a.size then .ok (a.extract first (first + count)).toList
  else .error (.outside region (first + count))

end Guarded

end SpeechDecoder
