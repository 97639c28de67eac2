import SpeechDecoder.Audio.Samples
import SpeechDecoder.Feature.Frontend
import SpeechDecoder.Models
import SpeechDecoder.Search.Engine

/-! Decoding sessions: one utterance after another over the same models. An utterance is started, fed
with audio in pieces of any size, and ended; its result stays until the next one is started. Frames
may be held back, and are then searched when audio is next searched or the utterance ends. -/
namespace SpeechDecoder

open Feature (Frontend)
open Search (Engine)

structure Session where
  models : Models
  frontend : Frontend
  engine : Engine Float32
  inUtterance : Bool
  /-- The first byte of a sample whose second byte is still to come. -/
  carry : Option UInt8
  /-- Frames that were held back, latest first. -/
  deferred : List (Frame Float32)

namespace Session

inductive Problem where
  | alreadyStarted
  | bytesBeforeStart
  | samplesBeforeStart
  | endBeforeStart
  deriving DecidableEq, Repr

def Problem.message : Problem → String
  | .alreadyStarted => "start_utt called while an utterance is in progress"
  | .bytesBeforeStart => "process_raw called before start_utt"
  | .samplesBeforeStart => "process_int16 called before start_utt"
  | .endBeforeStart => "end_utt called without start_utt"

def Problem.failure (p : Problem) : Failure := .outOfOrder p.message

variable [Elementary]

def ofModels (m : Models) : Session where
  models := m
  frontend := .ofSettings m.features
  engine := .make m.knowledge
  inUtterance := false
  carry := none
  deferred := []

def searched : Except Engine.Problem (Engine Float32) → Outcome (Engine Float32)
  | .ok e => .ok e
  | .error p => .error p.failure

def advanceAll (e : Engine Float32) : List (Frame Float32) → Outcome (Engine Float32)
  | [] => .ok e
  | frame :: rest => do
    let e ← searched (e.advance frame)
    advanceAll e rest

/-- Starts an utterance and drops the result of the one before. -/
def start (s : Session) : Outcome Session :=
  if s.inUtterance then .error Problem.alreadyStarted.failure
  else do
    let engine ← searched s.engine.reset.start
    .ok { s with
      frontend := s.frontend.reset, engine, inUtterance := true, carry := none, deferred := [] }

/-- Takes samples; their frames are searched or, with `hold`, held back. Also the number of frames. -/
def process (s : Session) (samples : List Int16) (hold : Bool) : Outcome (Nat × Session) := do
  let (frames, frontend) := s.frontend.push samples
  if hold then
    .ok (frames.length, { s with frontend, deferred := frames.reverse ++ s.deferred })
  else
    let engine ← advanceAll s.engine s.deferred.reverse
    let engine ← advanceAll engine frames
    .ok (frames.length, { s with frontend, engine, deferred := [] })

/-- Takes bytes of samples in the configured order. Whether they are a whole utterance, as `whole` says,
changes nothing. -/
def processBytes (s : Session) (bytes : List UInt8) (hold _whole : Bool) : Outcome (Nat × Session) :=
  if s.inUtterance then
    let (samples, carry) := Audio.samplesIn s.models.features.bigEndian (s.carry.toList ++ bytes)
    process { s with carry } samples hold
  else .error Problem.bytesBeforeStart.failure

def processSamples (s : Session) (samples : List Int16) (hold _whole : Bool) :
    Outcome (Nat × Session) :=
  if s.inUtterance then s.process samples hold else .error Problem.samplesBeforeStart.failure

/-- Processes pieces up to the first that fails. Also the number of frames of each. -/
def feed {β : Type} (process : Session → β → Outcome (Nat × Session)) (s : Session) :
    List β → Outcome (List Nat) × Session
  | [] => (.ok [], s)
  | piece :: rest =>
    match process s piece with
    | .error f => (.error f, s)
    | .ok (n, s) =>
      let (counts, s) := feed process s rest
      (counts.map (n :: ·), s)

def finish (s : Session) : Outcome Session :=
  if s.inUtterance then do
    let engine ← advanceAll s.engine s.deferred.reverse
    let (frames, frontend) := s.frontend.flush
    let engine ← advanceAll engine frames
    let engine ← searched engine.finish
    .ok { s with frontend, engine, inUtterance := false, carry := none, deferred := [] }
  else .error Problem.endBeforeStart.failure

def frames (s : Session) : Nat := s.engine.frames

def frameRate (s : Session) : Nat := s.models.features.frameRate

def hypothesis? (s : Session) : Option (Hypothesis Float32) :=
  s.engine.result.map Search.Result.hypothesis

def segments (s : Session) : List (Segment Float32) :=
  s.engine.result.elim [] Search.Result.segments

def alternatives (s : Session) (wanted : Nat) : List (Alternative Float32) :=
  s.engine.alternatives wanted

def utterance (s : Session) (id : String) (wanted : Nat) : Utterance where
  id := id
  hypothesis := s.hypothesis?.getD ⟨"", 0, 0⟩
  frameRate := s.frameRate
  segments := s.segments
  alternatives := s.alternatives wanted

def summary (s : Session) : String :=
  let (active, count, waiting) := (s.inUtterance, s.frames, s.deferred.length)
  s!"Decoder \x7b in_utt: {active}, n_frames: {count}, deferred: {waiting} \x7d"

end Session

end SpeechDecoder
