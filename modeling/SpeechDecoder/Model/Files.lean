import SpeechDecoder.FileTree
import SpeechDecoder.Model.Lexicon
import SpeechDecoder.Model.Scorer
import SpeechDecoder.Model.Transitions

/-! Models from files. The binary ones state their dimensions; the number of values that follow must be
the product of them. -/
namespace SpeechDecoder.Model

open ParameterFile (Reader Problem)

def fileResult {α : Type} (path : String) : Except SystemError α → Outcome α
  | .ok a => .ok a
  | .error e => .error (.model path e.message)

abbrev Reading := StateT Reader Outcome

namespace Reading
variable {α : Type}

def step (s : Reader.Step α) : Reading α := fun r =>
  match s r with
  | (.ok a, r) => .ok (a, r)
  | (.error p, r) => .error (p.failure r.path)

def refuse (p : Problem) : Reading α := fun r => .error (p.failure r.path)

def count (what : String) : Reading Nat := step (Reader.count what)

/-- The values of a file, after their number, which must be the product of the dimensions. -/
def values (first : Nat) (others : List Nat) : Reading (List Float32) := do
  let total ← count "value count"
  let product ← orFault (checkedProduct first others)
  if total ≠ product then refuse (.size total (first :: others))
  let words ← step (Reader.words total)
  return words.map Float32.ofBits

def run (files : FileTree) (path : String) (body : Reading α) : Outcome α := do
  let bytes ← fileResult path (files.read path)
  match Reader.ofBytes path bytes with
  | .error p => .error (p.failure path)
  | .ok r =>
    let (a, r) ← body r
    match r.finish with
    | .error p => .error (p.failure path)
    | .ok () => .ok a

end Reading

def PhoneSet.load (files : FileTree) (path : String) : Outcome PhoneSet := do
  let text ← fileResult path (files.readText path)
  (PhoneSet.ofText text).mapError (PhoneSet.Problem.failure path)

def Transitions.contents : Reading (Nat × List Float32) := do
  let matrices ← Reading.count "tmat count"
  let sources ← Reading.count "source states"
  let targets ← Reading.count "destination states"
  if targets ≠ sources + 1 then Reading.refuse (.destinations (sources + 1) targets)
  let values ← Reading.values matrices [sources, targets]
  return (sources, values)

def Transitions.load [Elementary] (files : FileTree) (path : String) (floor : Float32) :
    Outcome (Transitions Float32) := do
  let (states, probabilities) ← Reading.run files path Transitions.contents
  (ofProbabilities states probabilities floor).mapError (Transitions.Problem.failure path)

structure Moments where
  codebooks : Nat
  densities : Nat
  dimension : Nat
  values : List Float32

def Moments.contents : Reading Moments := do
  let codebooks ← Reading.count "codebook count"
  let streams ← Reading.count "stream count"
  let densities ← Reading.count "density count"
  if streams ≠ 1 then Reading.refuse (.streams streams)
  let dimension ← Reading.count "vector length"
  let values ← Reading.values codebooks [densities, dimension]
  return { codebooks, densities, dimension, values }

def Gaussians.load [Elementary] (files : FileTree) (meanPath variancePath : String)
    (floor : Float32) : Outcome Gaussians := do
  let means ← Reading.run files meanPath Moments.contents
  let variances ← Reading.run files variancePath Moments.contents
  if means.codebooks ≠ variances.codebooks ∨ means.densities ≠ variances.densities ∨
      means.dimension ≠ variances.dimension then
    .error (.model variancePath "variance dimensions do not match means")
  orFault (checkedRoom (means.codebooks * means.densities) 4)
  .ok (ofMoments means.codebooks means.densities means.dimension means.values variances.values floor)

def Weights.contents : Reading (Nat × List Float32) := do
  let senones ← Reading.count "senone count"
  let streams ← Reading.count "stream count"
  let densities ← Reading.count "density count"
  if streams ≠ 1 then Reading.refuse (.streams streams)
  let values ← Reading.values senones [densities]
  return (densities, values)

def Weights.load [Elementary] (files : FileTree) (path : String) (floor : Float32) :
    Outcome Weights := do
  let (densities, counts) ← Reading.run files path Weights.contents
  .ok (ofCounts densities counts floor)

def Dictionary.load (files : FileTree) (path : String) (fillerPath : Option String)
    (phones : PhoneSet) : Outcome Dictionary := do
  let text ← fileResult path (files.readText path)
  let words ← addText {} false phones path text
  match fillerPath with
  | none => .ok (words.ensureSilence phones)
  | some fillerPath =>
    let text ← fileResult fillerPath (files.readText fillerPath)
    let words ← words.addText true phones fillerPath text
    .ok (words.ensureSilence phones)

def Ngram.load [Elementary] (files : FileTree) (path : String) : Outcome (Ngram Float32) := do
  let bytes ← fileResult path (files.read path)
  match Text.Utf8.decode? bytes with
  | none =>
    .error (.model path "not an ARPA text file; binary language models are not supported")
  | some text =>
    (ofText decimalLog (String.ofList text)).mapError fun p => .model path p.message

end SpeechDecoder.Model
