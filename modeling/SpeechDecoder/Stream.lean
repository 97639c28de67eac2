import SpeechDecoder.Endpointer
import SpeechDecoder.Session

/-! Decoding a stream: each utterance that the endpointer finds is decoded by itself. -/
namespace SpeechDecoder

/-- An utterance found in a stream, with its times in seconds; frames count from its start. -/
structure FoundUtterance where
  start : Float
  finish : Float
  hypothesis : Hypothesis Float32
  segments : List (Segment Float32)
  alternatives : List (Alternative Float32)

structure StreamSession where
  session : Session
  endpointer : Endpointer Float Float32
  wanted : Nat

namespace StreamSession

inductive Problem where
  | rate (found expected : Nat)
  | inUtterance
  deriving DecidableEq, Repr

def Problem.message : Problem → String
  | .rate found expected =>
    s!"endpointer runs at {found} Hz but the acoustic model expects {expected} Hz"
  | .inUtterance => "cannot segment a stream while an utterance is in progress"

def Problem.failure : Problem → Failure
  | .rate found expected => .configuration (Problem.rate found expected).message
  | .inUtterance => .outOfOrder Problem.inUtterance.message

variable [Elementary]

def make (s : Session) (e : Endpointer Float Float32) (wanted : Nat) :
    Except Problem StreamSession :=
  let expected := s.models.features.sampleRate
  if e.detector.sampleRate ≠ expected then .error (.rate e.detector.sampleRate expected)
  else if s.inUtterance then .error .inUtterance
  else .ok ⟨s, e, wanted⟩

def found (s : Session) (start finish : Float) (wanted : Nat) : FoundUtterance where
  start := start
  finish := finish
  hypothesis := s.hypothesis?.getD ⟨"", 0, 0⟩
  segments := s.segments
  alternatives := s.alternatives wanted

def follow (start : Float) (wanted : Nat) (s : Session) :
    List (SpeechEvent Float) → Outcome (List FoundUtterance × Session)
  | [] => .ok ([], s)
  | .start _ :: rest => do
    let s ← s.start
    follow start wanted s rest
  | .audio samples :: rest => do
    let (_, s) ← s.processSamples samples false false
    follow start wanted s rest
  | .finish time :: rest => do
    let s ← s.finish
    let first := found s start time wanted
    let (more, s) ← follow start wanted s rest
    .ok (first :: more, s)

/-- Follows the events of a call. The start that counts is the last one that the endpointer saw. -/
def apply (d : StreamSession) (e : Endpointer Float Float32) (events : List (SpeechEvent Float)) :
    Outcome (List FoundUtterance × StreamSession) := do
  let (utterances, session) ← follow e.speechStart d.wanted d.session events
  .ok (utterances, { d with session, endpointer := e })

def push (d : StreamSession) (samples : List Int16) :
    Outcome (List FoundUtterance × StreamSession) := do
  let (events, e) ← d.endpointer.push Activity.decibelScale samples
  d.apply e events

def finish (d : StreamSession) : Outcome (List FoundUtterance × StreamSession) :=
  let (events, e) := d.endpointer.finish
  d.apply e events

end StreamSession

end SpeechDecoder
