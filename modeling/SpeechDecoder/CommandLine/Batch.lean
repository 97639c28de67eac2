import SpeechDecoder.Audio.Wave
import SpeechDecoder.CommandLine.Arguments
import SpeechDecoder.Stream

/-! Decoding a batch of inputs. Each input is decoded by itself and its utterances are reported in the
order of the inputs; an input that fails is left out and counted. The run fails when its settings or
models cannot be used, when something cannot be written, or when an input failed. -/
namespace SpeechDecoder.CommandLine

structure Trouble where
  message : String
  cause : Option String := none
  deriving DecidableEq, Repr

def Trouble.render (t : Trouble) : String :=
  match t.cause with
  | none => "Error: " ++ t.message
  | some cause =>
    let lines := (cause.toList.splitOn '\n').map String.ofList
    "Error: " ++ t.message ++ "\n\nCaused by:\n    " ++ "\n    ".intercalate lines

def applySetting (c : Config) (setting : String) : Except Trouble Config :=
  match Text.cut? '=' setting.toList with
  | none => .error { message := s!"option '{setting}' is not of the form key=value" }
  | some (key, value) =>
    match c.setText (String.ofList (Text.trim key)) (String.ofList (Text.trim value)) with
    | .ok c => .ok c
    | .error p => .error ⟨s!"invalid option '{setting}'", some p.failure.message⟩

def applySettings (c : Config) : List String → Except Trouble Config
  | [] => .ok c
  | setting :: rest => do
    let c ← applySetting c setting
    applySettings c rest

def setPaths (c : Config) : List (String × String) → Except Trouble Config
  | [] => .ok c
  | (key, value) :: rest =>
    match c.setText key value with
    | .ok c => setPaths c rest
    | .error p => .error { message := p.failure.message }

def Arguments.config (a : Arguments) : Except Trouble Config := do
  let fillers := a.fillers.toList.map fun path => ("fdict", path)
  let c ← setPaths Config.initial
    ([("hmm", a.model), ("dict", a.dictionary), ("lm", a.language)] ++ fillers)
  applySettings c a.settings

variable [Elementary]

def pieceBytes : Nat := 4096

def samplePieces (samples : List Int16) : List (List Int16) :=
  Pieces.ofList (pieceBytes / 2) samples

def fileFailure (e : SystemError) : Failure := .system e

def readBytes (files : FileTree) (name : String) : Outcome (List UInt8) :=
  (files.read name).mapError fileFailure

def readSamples (files : FileTree) (settings : Feature.Settings) (raw : Bool) (name : String) :
    Outcome (List Int16) := do
  let bytes ← readBytes files name
  if raw then .ok (Audio.samplesIn settings.bigEndian bytes).1
  else
    match Audio.Wave.read settings.sampleRate bytes with
    | .ok (samples, _) => .ok samples
    | .error p => .error p.failure

def pushPieces (d : StreamSession) :
    List (List Int16) → Outcome (List FoundUtterance × StreamSession)
  | [] => .ok ([], d)
  | piece :: rest => do
    let (first, d) ← d.push piece
    let (more, d) ← pushPieces d rest
    .ok (first ++ more, d)

def foundName (name : String) (u : FoundUtterance) : String :=
  let start := String.ofList (Decimal.fixedFloat 2 u.start)
  let finish := String.ofList (Decimal.fixedFloat 2 u.finish)
  s!"{name}_{start}-{finish}"

def namedUtterance (name : String) (frameRate : Nat) (u : FoundUtterance) : Utterance :=
  ⟨foundName name u, u.hypothesis, frameRate, u.segments, u.alternatives⟩

def decodeSegments (name : String) (wanted : Nat) (s : Session) (samples : List Int16) :
    Outcome (List Utterance × Session) := do
  let settings := EndpointerSettings.initial s.models.features.sampleRate
  let endpointer ← (Endpointer.make Activity.decibelScale settings).mapError
    Endpointer.Problem.failure
  let stream ← (StreamSession.make s endpointer wanted).mapError StreamSession.Problem.failure
  let (found, stream) ← pushPieces stream (samplePieces samples)
  let (last, stream) ← stream.finish
  let session := stream.session
  .ok ((found ++ last).map (namedUtterance name session.frameRate), session)

def finishFed : Outcome (List Nat) × Session → Outcome Session
  | (.ok _, s) => s.finish
  | (.error f, _) => .error f

def decodeWhole (files : FileTree) (a : Arguments) (s : Session) (input : String) :
    Outcome Session := do
  if a.raw then
    let bytes ← readBytes files input
    finishFed ((← s.start).feed (·.processBytes · false false) (Pieces.ofList pieceBytes bytes))
  else
    let samples ← readSamples files s.models.features false input
    finishFed ((← s.start).feed (·.processSamples · false false) (samplePieces samples))

def decodeInput (files : FileTree) (a : Arguments) (s : Session) (input : String) :
    Outcome (List Utterance × Session) := do
  let name := FileTree.stem input
  if a.segment then
    let samples ← readSamples files s.models.features a.raw input
    decodeSegments name a.alternatives s samples
  else
    let s ← decodeWhole files a s input
    .ok ([s.utterance name a.alternatives], s)

/-- Decodes inputs one after another. One that fails leaves the session as it was. -/
def decodeInputs (files : FileTree) (a : Arguments) (s : Session) :
    List String → List (Outcome (List Utterance))
  | [] => []
  | input :: rest =>
    match decodeInput files a s input with
    | .ok (utterances, s) => .ok utterances :: decodeInputs files a s rest
    | .error e => .error e :: decodeInputs files a s rest

def writeAll (e : Report.Encoder) : List Utterance → Outcome Unit × Report.Encoder
  | [] => (.ok (), e)
  | u :: rest =>
    match e.write u with
    | (.ok (), e) => writeAll e rest
    | failed => failed

def reported (results : List (Outcome (List Utterance))) : List Utterance :=
  results.flatMap fun
    | .ok utterances => utterances
    | .error _ => []

def failures (results : List (Outcome (List Utterance))) : Nat :=
  results.countP fun
    | .ok _ => false
    | .error _ => true

/-- Writes what was decoded; `room` is how many bytes can be written, if there is a limit. -/
def report (format : Report.Format) (room : Option Nat) (results : List (Outcome (List Utterance))) :
    List UInt8 × Option Trouble :=
  match writeAll (Report.Encoder.make format room) (reported results) with
  | (.error f, e) => (e.sink.written, some { message := f.message })
  | (.ok (), e) =>
    match e.close with
    | (.error f, e) => (e.sink.written, some { message := f.message })
    | (.ok (), e) =>
      let (failed, all) := (failures results, results.length)
      if failed = 0 then (e.sink.written, none)
      else (e.sink.written, some { message := s!"{failed} of {all} inputs failed" })

def run (files : FileTree) (room : Option Nat) (a : Arguments) : List UInt8 × Option Trouble :=
  match a.config with
  | .error trouble => ([], some trouble)
  | .ok config =>
    match Models.load files config with
    | .error f => ([], some ⟨"failed to load models", some f.message⟩)
    | .ok models =>
      report a.format room (decodeInputs files a (.ofModels models) a.inputs)

structure Ending where
  code : UInt32
  written : List UInt8
  report : String
  deriving DecidableEq, Repr

/-- The command as a whole. Wrong arguments end it with 2, every other failure with 1. -/
def command (files : FileTree) (room : Option Nat) (args : List String) : Ending :=
  match Arguments.read? args with
  | none => ⟨2, [], ""⟩
  | some a =>
    match run files room a with
    | (written, none) => ⟨0, written, ""⟩
    | (written, some trouble) => ⟨1, written, trouble.render⟩

def Arguments.fileNames (a : Arguments) : List String :=
  match a.config with
  | .error _ => []
  | .ok c =>
    let named (key : String) : List String :=
      match c.getText key with
      | .ok (some path) => [path]
      | _ => []
    let directory := (named "hmm").headD ""
    let usual := ["mdef", "means", "variances", "mixture_weights", "transition_matrices",
      "feat.params", "noisedict"]
    directory :: usual.map (FileTree.join directory) ++
      ["mdef", "mean", "var", "mixw", "tmat", "featparams", "fdict", "dict", "lm"].flatMap named ++
      a.inputs

end SpeechDecoder.CommandLine
