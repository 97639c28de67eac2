import SpeechDecoder.Score
import SpeechDecoder.ParameterFile

/-! Transition matrices of phone models, as log scores. A matrix has a row for each of its `states`
and, behind a column for each of them, one for leaving the phone. A transition that goes back must
have probability zero. -/
namespace SpeechDecoder.Model

structure Transitions (α : Type) where
  states : Nat
  values : Array α
  deriving Repr

namespace Transitions
variable {α : Type}

/-- The score of going from state `source` to `target`; `target = states` leaves the phone. -/
def get [Score α] (t : Transitions α) (matrix source target : Nat) : α :=
  t.values.getD ((matrix * t.states + source) * (t.states + 1) + target) Score.impossible

def count (t : Transitions α) : Except Fault Nat :=
  checkedDiv t.values.size (t.states * (t.states + 1))

inductive Problem where
  | negative (place : Nat)
  | backward (matrix : Nat)
  | fault (cause : Fault)
  deriving DecidableEq, Repr

def Problem.message : Problem → String
  | .negative place => s!"negative transition probability at {place}"
  | .backward matrix => s!"transition matrix {matrix} is not upper triangular"
  | .fault cause => (Failure.fault cause).message

def Problem.failure (path : String) : Problem → Failure
  | .fault cause => .fault cause
  | p => .model path p.message

variable [Elementary]

/-- The score of one probability; `floor` is the least probability of a transition that can be. -/
def scoreOf (floor : Float32) (states place : Nat) (p : Float32) : Except Problem Float32 :=
  match checkedMod (place / (states + 1)) states with
  | .error cause => .error (.fault cause)
  | .ok source =>
    if p < 0 then .error (.negative place)
    else if place % (states + 1) < source then
      if 0 < p then .error (.backward (place / (states * (states + 1))))
      else .ok Single.impossible
    else if p == 0 then .ok Single.impossible
    else .ok (Elementary.ln32 (Single.larger p floor))

def scoresFrom (floor : Float32) (states place : Nat) :
    List Float32 → Except Problem (List Float32)
  | [] => .ok []
  | p :: rest => do
    let x ← scoreOf floor states place p
    let xs ← scoresFrom floor states (place + 1) rest
    .ok (x :: xs)

def ofProbabilities (states : Nat) (probabilities : List Float32) (floor : Float32) :
    Except Problem (Transitions Float32) := do
  let values ← scoresFrom floor states 0 probabilities
  .ok ⟨states, values.toArray⟩

end Transitions

end SpeechDecoder.Model
