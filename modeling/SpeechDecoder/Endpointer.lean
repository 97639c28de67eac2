import SpeechDecoder.Activity
import SpeechDecoder.Fifo
import SpeechDecoder.Pieces

/-! Endpoints of speech in a stream. The labels of the latest frames stand in a window; speech begins
when enough of them are speech and ends when too few are. In speech the oldest frame of the window is
handed out as each new one comes in, so the beginning of an utterance is not lost. Times are counted
in any arithmetic that can add; the program counts seconds in double precision. -/
namespace SpeechDecoder
open Activity (Detector Mode Scale)

class Time (τ : Type) where
  zero : τ
  add : τ → τ → τ
  ofSamples : (samples rate : Nat) → τ

instance : Time Float where
  zero := 0
  add a b := a + b
  ofSamples n rate := Binary.ofNatural n / Binary.ofNatural rate

structure EndpointerSettings where
  window : Float
  /-- The share of the window that must be speech for an utterance to begin. -/
  ratio : Float
  mode : Mode
  sampleRate : Nat
  frameLength : Float

def EndpointerSettings.initial (sampleRate : Nat) : EndpointerSettings :=
  ⟨0.3, 0.9, .loose, sampleRate, Activity.defaultFrameLength⟩

inductive SpeechEvent (τ : Type) where
  | start (time : τ)
  | audio (samples : List Int16)
  | finish (time : τ)
  deriving DecidableEq, Repr

structure LabelledFrame where
  samples : List Int16
  isSpeech : Bool
  deriving DecidableEq, Repr

structure Endpointer (τ α : Type) where
  detector : Detector α
  capacity : Nat
  /-- More speech frames than this begin an utterance. -/
  startFrames : Nat
  /-- Fewer speech frames than this end it. -/
  endFrames : Nat
  /-- The window; its oldest frame is the first to go. -/
  queue : Fifo LabelledFrame
  speechCount : Nat
  queueStart : τ
  inSpeech : Bool
  speechStart : τ
  speechEnd : τ
  /-- The samples of the frame that is not whole yet. -/
  pending : Fifo Int16

namespace Endpointer

inductive Problem where
  | detector (cause : Activity.Problem)
  | startRoom (ratio : Float) (frames capacity : Nat)
  | endRoom (ratio : Float) (frames capacity : Nat)

def Problem.failure : Problem → Failure
  | .detector cause => cause.failure
  | .startRoom ratio frames size =>
    let share := String.ofList (Decimal.fixedFloat 2 ratio)
    .configuration
      s!"ratio {share} leaves no room to detect speech start ({frames} of {size} frames)"
  | .endRoom ratio frames size =>
    let share := String.ofList (Decimal.fixedFloat 2 ratio)
    .configuration s!"ratio {share} leaves no room to detect speech end ({frames} of {size} frames)"

variable {τ α : Type} [Time τ] [Score α]

/-- An endpointer at the beginning of a stream; a window or ratio of zero stands for the usual. -/
def make (s : Scale α) (c : EndpointerSettings) : Except Problem (Endpointer τ α) := do
  let detector ← match Detector.make s c.mode c.sampleRate c.frameLength with
    | .ok d => .ok d
    | .error p => .error (.detector p)
  let usual := EndpointerSettings.initial c.sampleRate
  let window := if c.window == 0 then usual.window else c.window
  let ratio := if c.ratio == 0 then usual.ratio else c.ratio
  let capacity := Binary.truncateToWord (window / detector.frameLength + 0.5)
  let frames := Binary.ofNatural capacity
  let startFrames := Binary.truncateToWord (ratio * frames)
  let endFrames := Binary.truncateToWord ((1 - ratio) * frames + 0.5)
  if startFrames = 0 ∨ capacity ≤ startFrames then .error (.startRoom ratio startFrames capacity)
  if endFrames = 0 ∨ capacity ≤ endFrames then .error (.endRoom ratio endFrames capacity)
  .ok {
    detector, capacity, startFrames, endFrames, queue := .empty, speechCount := 0,
    queueStart := Time.zero, inSpeech := false, speechStart := Time.zero, speechEnd := Time.zero,
    pending := .empty }

def reset (s : Scale α) (e : Endpointer τ α) : Endpointer τ α :=
  { e with
    detector := e.detector.reset s, queue := .empty, speechCount := 0, queueStart := Time.zero,
    inSpeech := false, speechStart := Time.zero, speechEnd := Time.zero, pending := .empty }

def frameTime (e : Endpointer τ α) : τ :=
  Time.ofSamples e.detector.frameSize e.detector.sampleRate

def pop (e : Endpointer τ α) : Option LabelledFrame × Endpointer τ α :=
  match e.queue.pop? with
  | none => (none, e)
  | some (f, queue) =>
    (some f, { e with
      queue, queueStart := Time.add e.queueStart e.frameTime,
      speechCount := if f.isSpeech then e.speechCount - 1 else e.speechCount })

def release (e : Endpointer τ α) : List (SpeechEvent τ) × Endpointer τ α :=
  match e.pop with
  | (some f, e) => ([.audio f.samples], e)
  | (none, e) => ([], e)

/-- Puts a labelled frame into the window, which drops its oldest frame when it is full. -/
def insert (e : Endpointer τ α) (f : LabelledFrame) : Endpointer τ α :=
  let e := if e.queue.size = e.capacity then e.pop.2 else e
  { e with
    queue := e.queue.push f,
    speechCount := if f.isSpeech then e.speechCount + 1 else e.speechCount }

def conclude (e : Endpointer τ α) : List (SpeechEvent τ) × Endpointer τ α :=
  if e.inSpeech then
    let (audio, e') := e.release
    if e.speechCount < e.endFrames then
      -- the frames that stay belong to no utterance yet
      let e' := { e' with speechEnd := e'.queueStart, inSpeech := false }
      (audio ++ [.finish e'.speechEnd], e')
    else (audio, e')
  else if e.startFrames < e.speechCount then
    let e := { e with speechStart := e.queueStart, speechEnd := Time.zero, inSpeech := true }
    let (audio, e') := e.release
    (.start e.speechStart :: audio, e')
  else ([], e)

def processFrame (s : Scale α) (e : Endpointer τ α) (samples : List Int16) :
    Except Activity.Problem (List (SpeechEvent τ) × Endpointer τ α) := do
  let (isSpeech, detector) ← e.detector.classify s samples
  .ok (({ e with detector }.insert ⟨samples, isSpeech⟩).conclude)

def processFrames (s : Scale α) (e : Endpointer τ α) :
    List (List Int16) → Except Activity.Problem (List (SpeechEvent τ) × Endpointer τ α)
  | [] => .ok ([], e)
  | frame :: rest => do
    let (events, e) ← e.processFrame s frame
    let (more, e) ← e.processFrames s rest
    .ok (events ++ more, e)

def push (s : Scale α) (e : Endpointer τ α) (samples : List Int16) :
    Outcome (List (SpeechEvent τ) × Endpointer τ α) :=
  let (frames, rest) := Pieces.gather (e.detector.frameSize - 1) e.pending samples
  match e.processFrames s frames with
  | .ok (events, e) => .ok (events, { e with pending := rest })
  | .error p => .error p.failure

def releaseSpeech : Nat → Endpointer τ α → List (SpeechEvent τ) × Endpointer τ α
  | 0, e => ([], e)
  | fuel + 1, e =>
    match e.queue.pop? with
    | none => ([], e)
    | some (f, _) =>
      if f.isSpeech then
        let (audio, e) := e.release
        let (more, e) := releaseSpeech fuel { e with speechEnd := e.queueStart }
        (audio ++ more, e)
      else ([], e)

def clearQueue : Nat → Endpointer τ α → Endpointer τ α
  | 0, e => e
  | fuel + 1, e => if e.queue.size = 0 then e else clearQueue fuel e.pop.2

/-- Ends the stream. An open utterance gets the speech that still stands at its end. -/
def finish (e : Endpointer τ α) : List (SpeechEvent τ) × Endpointer τ α :=
  let tail := e.pending.toList
  let e := { e with pending := .empty }
  if e.inSpeech then
    let e := { e with inSpeech := false, speechEnd := e.queueStart }
    let (audio, e) := releaseSpeech e.queue.size e
    let (rest, e) :=
      if e.queue.size = 0 ∧ !tail.isEmpty then
        let last := Time.ofSamples tail.length e.detector.sampleRate
        ([SpeechEvent.audio tail], { e with speechEnd := Time.add e.speechEnd last })
      else ([], e)
    let e := clearQueue e.queue.size e
    (audio ++ rest ++ [.finish e.speechEnd], e)
  else ([], clearQueue e.queue.size e)

end Endpointer

end SpeechDecoder
