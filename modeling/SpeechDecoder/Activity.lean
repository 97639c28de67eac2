import SpeechDecoder.Score
import SpeechDecoder.Failure
import SpeechDecoder.Decimal.Layout

/-! Voice activity. A frame of audio is speech when its level is high enough above a noise floor,
which falls at once to a quieter frame and rises slowly towards a louder one. The floor does not
depend on what is called speech. -/
namespace SpeechDecoder.Activity

inductive Mode where
  | loose
  | mediumLoose
  | mediumStrict
  | strict
  deriving DecidableEq, Repr

structure Scale (α : Type) where
  level : List Int16 → α
  margin : Mode → α
  leastSpeech : α
  initialFloor : α
  rise : α

variable {α : Type} [Score α]

def Scale.isSpeech (s : Scale α) (mode : Mode) (floor level : α) : Bool :=
  Score.below s.leastSpeech level && Score.below (floor + s.margin mode) level

def Scale.follow (s : Scale α) (floor level : α) : α :=
  if Score.below level floor then level else floor + (level - floor) * s.rise

def decibels [Elementary] (frame : List Int16) : Float32 :=
  let values := frame.map fun x => Binary.ofInteger x.toInt
  let power := values.foldl (fun sum x => sum + x * x) 0 / Binary.ofNatural frame.length
  Binary.narrow (10 * Elementary.log10 (power + 1))

def decibelScale [Elementary] : Scale Float32 where
  level := decibels
  margin
    | .loose => 6
    | .mediumLoose => 9
    | .mediumStrict => 12
    | .strict => 15
  leastSpeech := 30
  initialFloor := 40
  rise := 0.01

structure Detector (α : Type) where
  mode : Mode
  sampleRate : Nat
  frameSize : Nat
  floor : α
  deriving Repr

def defaultFrameLength : Float := 0.03

inductive Problem where
  | frameLength (sampleRate : Nat) (seconds : Float)
  | emptyFrame (sampleRate : Nat) (seconds : Float)
  | frameSize (expected found : Nat)

def Problem.failure : Problem → Failure
  | .frameLength rate seconds =>
    let written := String.ofList (Decimal.plainFloat seconds)
    .configuration (s!"VAD needs a positive sample rate and a frame of at most 100 ms, got {rate}" ++
      s!" Hz and {written} s")
  | .emptyFrame rate seconds =>
    let written := String.ofList (Decimal.plainFloat seconds)
    .configuration s!"VAD frame of {written} s holds no samples at {rate} Hz"
  | .frameSize expected found =>
    .mismatch s!"VAD frame must hold {expected} samples, got {found}"

namespace Detector

/-- A detector of frames that last `seconds`; zero stands for the usual length. -/
def make (s : Scale α) (mode : Mode) (sampleRate : Nat) (seconds : Float) :
    Except Problem (Detector α) :=
  let seconds := if seconds == 0 then defaultFrameLength else seconds
  if sampleRate = 0 ∨ ¬ (0 < seconds ∧ seconds ≤ 0.1) then
    .error (.frameLength sampleRate seconds)
  else
    let size := Binary.truncateToWord (Binary.ofNatural sampleRate * seconds)
    if size = 0 then .error (.emptyFrame sampleRate seconds)
    else .ok ⟨mode, sampleRate, size, s.initialFloor⟩

def frameLength (d : Detector α) : Float :=
  Binary.ofNatural d.frameSize / Binary.ofNatural d.sampleRate

def reset (s : Scale α) (d : Detector α) : Detector α := { d with floor := s.initialFloor }

def classify (s : Scale α) (d : Detector α) (frame : List Int16) :
    Except Problem (Bool × Detector α) :=
  if frame.length ≠ d.frameSize then .error (.frameSize d.frameSize frame.length)
  else
    let level := s.level frame
    .ok (s.isSpeech d.mode d.floor level, { d with floor := s.follow d.floor level })

end Detector

end SpeechDecoder.Activity
