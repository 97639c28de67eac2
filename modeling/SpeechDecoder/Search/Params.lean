import SpeechDecoder.Score
import SpeechDecoder.Config.Settings

/-! Parameters of a search, as log scores. A beam is the distance from the best score of a frame
below which states, phone crossings or word exits are given up. -/
namespace SpeechDecoder.Search

structure Params (α : Type) where
  beam : α
  phoneBeam : α
  wordBeam : α
  languageWeight : α
  wordPenalty : α
  phonePenalty : α
  silencePenalty : α
  fillerPenalty : α
  maxActive : Option Nat
  maxExits : Option Nat
  maxAlternatives : Nat
  acousticScale : α
  scoreAll : Bool

inductive ParamsProblem where
  | negativeWeight (value : Float32)
  | scaleNotPositive (value : Float32)
  | negativeLimit (value : Int)
  | notProbability (key : String) (value : Float)
  | notPenalty (key : String) (value : Float)

def ParamsProblem.message : ParamsProblem → String
  | .negativeWeight value =>
    let written := String.ofList (Decimal.plainFloat32 value)
    s!"'-lw' must not be negative, got {written}"
  | .scaleNotPositive value =>
    let written := String.ofList (Decimal.plainFloat32 value)
    s!"'-ascale' must be positive, got {written}"
  | .negativeLimit value => s!"'-maxnbest' must not be negative, got {value}"
  | .notProbability key value =>
    let written := String.ofList (Decimal.plainFloat value)
    s!"'-{key}' must be in (0, 1], got {written}"
  | .notPenalty key value =>
    let written := String.ofList (Decimal.plainFloat value)
    s!"'-{key}' must be positive, got {written}"

def ParamsProblem.failure (p : ParamsProblem) : Failure := .configuration p.message

variable [Elementary]

def logOf (x : Float) : Float32 := Binary.narrow (Elementary.ln x)

def logProbability (c : Config) (key : String) : Outcome Float32 := do
  let p ← Config.orFail (c.getNumber key)
  if 0 < p ∧ p ≤ 1 then .ok (logOf p) else .error (ParamsProblem.notProbability key p).failure

/-- The logarithm of an option that holds a penalty, which may exceed one. -/
def logPenalty (c : Config) (key : String) : Outcome Float32 := do
  let p ← Config.orFail (c.getNumber key)
  if 0 < p ∧ p.isFinite then .ok (logOf p) else .error (ParamsProblem.notPenalty key p).failure

/-- A limit; zero and negative numbers stand for none. -/
def limit (c : Config) (key : String) : Outcome (Option Nat) := do
  let n ← Config.orFail (c.getInteger key)
  .ok (if 0 < n then some n.toNat else none)

/-- The parameters that a configuration asks for; of several faults the first in this order counts. -/
def Params.ofConfig (c : Config) : Outcome (Params Float32) := do
  let languageWeight := Binary.narrow (← Config.orFail (c.getNumber "lw"))
  if languageWeight < 0 then .error (ParamsProblem.negativeWeight languageWeight).failure
  let acousticScale := Binary.narrow (← Config.orFail (c.getNumber "ascale"))
  if acousticScale ≤ 0 then .error (ParamsProblem.scaleNotPositive acousticScale).failure
  let maxAlternatives ← Config.orFail (c.getInteger "maxnbest")
  if maxAlternatives < 0 then .error (ParamsProblem.negativeLimit maxAlternatives).failure
  let beam ← logProbability c "beam"
  let phoneBeam ← logProbability c "pbeam"
  let wordBeam ← logProbability c "wbeam"
  let wordPenalty ← logPenalty c "wip"
  let phonePenalty ← logPenalty c "pip"
  let silence ← logProbability c "silprob"
  let filler ← logProbability c "fillprob"
  let maxActive ← limit c "maxhmmpf"
  let maxExits ← limit c "maxwpf"
  let scoreAll ← Config.orFail (c.getFlag "compallsen")
  .ok {
    beam, phoneBeam, wordBeam, languageWeight, wordPenalty, phonePenalty,
    silencePenalty := languageWeight * silence, fillerPenalty := languageWeight * filler,
    maxActive, maxExits, maxAlternatives := maxAlternatives.toNat, acousticScale, scoreAll }

end SpeechDecoder.Search
