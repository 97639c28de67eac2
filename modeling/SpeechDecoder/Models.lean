import SpeechDecoder.Feature.Settings
import SpeechDecoder.Model.Files
import SpeechDecoder.Search.Knowledge

/-! All that decoding goes by, from parts or from files. The parts must fit: as many transition
matrices, states and senones as the phones use, and features of the size that the scorer takes. -/
namespace SpeechDecoder

open Model (PhoneSet Transitions Scorer Ngram Lexicon Gaussians Weights Mixture Dictionary)
open Search (Knowledge)

structure Models where
  config : Config
  features : Feature.Settings
  knowledge : Knowledge Float32

namespace Models

inductive Problem where
  | matrices (used held : Nat)
  | states (held used : Nat)
  | senones (held used : Nat)
  | dimension (produced expected : Nat)
  deriving DecidableEq, Repr

def Problem.message : Problem → String
  | .matrices used held =>
    s!"model definition uses {used} transition matrices but only {held} were loaded"
  | .states held used => s!"transition matrices have {held} states but phones have {used}"
  | .senones held used => s!"scorer has {held} senones but the model definition uses {used}"
  | .dimension produced expected =>
    s!"frontend produces {produced}-dimensional features but the acoustic model expects {expected}"

def Problem.failure : Problem → Failure
  | .dimension produced expected => .configuration (Problem.dimension produced expected).message
  | p => .mismatch p.message

/-- Sees whether the parts fit; the first misfit in this order counts. -/
def check (features : Feature.Settings) (k : Knowledge Float32) : Outcome Unit := do
  let held ← orFault k.transitions.count
  if held < k.phones.matrices then .error (Problem.matrices k.phones.matrices held).failure
  if k.transitions.states ≠ k.phones.states then
    .error (Problem.states k.transitions.states k.phones.states).failure
  if k.scorer.senones < k.phones.senones then
    .error (Problem.senones k.scorer.senones k.phones.senones).failure
  if k.scorer.dimension ≠ features.dimension then
    .error (Problem.dimension features.dimension k.scorer.dimension).failure

variable [Elementary]

def ofParts (config : Config) (phones : PhoneSet) (transitions : Transitions Float32)
    (scorer : Scorer Float32) (language : Ngram Float32) (lexicon : Lexicon) : Outcome Models := do
  let features ← Feature.Settings.ofConfig config
  let params ← Search.Params.ofConfig config
  let knowledge : Knowledge Float32 := { params, phones, transitions, scorer, language, lexicon }
  check features knowledge
  .ok { config, features, knowledge }

structure Paths where
  phones : String
  means : String
  variances : String
  weights : String
  transitions : String
  parameters : Option String
  fillers : Option String
  dictionary : String
  language : String
  deriving DecidableEq, Repr

namespace Paths

def required (c : Config) (key : String) : Outcome String := do
  match ← Config.orFail (c.getText key) with
  | some path => .ok path
  | none => .error (.configuration s!"required option '-{key}' is not set")

def existing (files : FileTree) (key path : String) : Outcome String :=
  if files.isFile path then .ok path
  else .error (.configuration s!"file for '-{key}' not found: {path}")

/-- A file of the acoustic model: the one that an option names or the usual one. -/
def inModel (files : FileTree) (c : Config) (directory key usual : String) : Outcome String := do
  match ← Config.orFail (c.getText key) with
  | some path => existing files key path
  | none => existing files key (FileTree.join directory usual)

def inModel? (files : FileTree) (c : Config) (directory key usual : String) :
    Outcome (Option String) := do
  match ← Config.orFail (c.getText key) with
  | some path =>
    let path ← existing files key path
    .ok (some path)
  | none =>
    let path := FileTree.join directory usual
    .ok (if files.isFile path then some path else none)

def ofConfig (files : FileTree) (c : Config) : Outcome Paths := do
  let directory ← required c "hmm"
  if !files.isDirectory directory then
    .error (.configuration s!"acoustic model directory '{directory}' does not exist")
  let phones ← inModel files c directory "mdef" "mdef"
  let means ← inModel files c directory "mean" "means"
  let variances ← inModel files c directory "var" "variances"
  let weights ← inModel files c directory "mixw" "mixture_weights"
  let transitions ← inModel files c directory "tmat" "transition_matrices"
  let parameters ← inModel? files c directory "featparams" "feat.params"
  let fillers ← inModel? files c directory "fdict" "noisedict"
  let dictionary ← existing files "dict" (← required c "dict")
  let language ← existing files "lm" (← required c "lm")
  .ok {
    phones, means, variances, weights, transitions, parameters, fillers, dictionary, language }

end Paths

def supplied (files : FileTree) (c : Config) : Option String → Outcome Config
  | none => .ok c
  | some path => do
    let text ← Model.fileResult path (files.readText path)
    Config.orFail (c.supply text)

def single (c : Config) (key : String) : Outcome Float32 := do
  .ok (Binary.narrow (← Config.orFail (c.getNumber key)))

/-- Reads the files that a configuration names. A misfit of the parts is one of the model definition. -/
def load (files : FileTree) (config : Config) : Outcome Models := do
  let paths ← Paths.ofConfig files config
  let config ← supplied files config paths.parameters
  let phones ← PhoneSet.load files paths.phones
  let transitions ← Transitions.load files paths.transitions (← single config "tmatfloor")
  let gaussians ← Gaussians.load files paths.means paths.variances (← single config "varfloor")
  let weights ← Weights.load files paths.weights (← single config "mixwfloor")
  if weights.senones ≠ phones.senones then
    let (mixed, used) := (weights.senones, phones.senones)
    .error (.model paths.weights
      s!"{mixed} senones in mixture weights but {used} in the model definition")
  let mixture ← (Mixture.ofParts gaussians weights).mapError fun p => .model paths.means p.message
  let dictionary ← Dictionary.load files paths.dictionary paths.fillers phones
  let language ← Ngram.load files paths.language
  let lexicon ← (Lexicon.build dictionary language).mapError
    fun p => .model paths.language p.message
  match ofParts config phones transitions mixture.scorer language lexicon with
  | .error (.mismatch reason) => .error (.model paths.phones reason)
  | result => result

def summary (m : Models) : String :=
  let (phones, senones) := (m.knowledge.phones.phones.length, m.knowledge.scorer.senones)
  let (words, longest) := (m.knowledge.lexicon.words.size, m.knowledge.language.order)
  s!"Models \x7b phones: {phones}, senones: {senones}, words: {words}, lm_order: {longest} \x7d"

end Models

end SpeechDecoder
