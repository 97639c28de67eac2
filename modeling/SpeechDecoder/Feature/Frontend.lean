import SpeechDecoder.Feature.Signal
import SpeechDecoder.Feature.Cepstrum
import SpeechDecoder.Feature.Dynamics

/-! The acoustic front end: from samples, as they come, to frames of features. Frames are made when they
are drawn; those that are not drawn in one call come first in the next. -/
namespace SpeechDecoder.Feature

structure Frontend where
  analysis : Analysis
  signal : Signal
  stage : Stage

namespace Frontend
variable [Elementary]

def ofSettings (s : Settings) : Frontend :=
  ⟨.ofSettings s, .ofSettings s, .ofSettings s⟩

def reset (f : Frontend) : Frontend := { f with signal := f.signal.reset, stage := f.stage.reset }

/-- Draws frames, at most `limit` where there is one, in at most `steps` steps. A step gives out a frame,
takes a window or, when `flushing`, ends the input of the stage. -/
def drawFrom : (steps : Nat) → (flushing : Bool) → (limit : Option Nat) → Frontend →
    List (Frame Float32) × Frontend
  | 0, _, _, f => ([], f)
  | steps + 1, flushing, limit, f =>
    if limit = some 0 then ([], f)
    else
      match f.stage.pop? with
      | some (frame, stage) =>
        let (frames, f) := drawFrom steps flushing (limit.map (· - 1)) { f with stage }
        (frame :: frames, f)
      | none =>
        match f.signal.next? with
        | some (window, signal) =>
          drawFrom steps flushing limit
            { f with signal, stage := f.stage.push (f.analysis.cepstrum window) }
        | none =>
          if flushing then drawFrom steps false limit { f with stage := f.stage.finish }
          else ([], f)

/-- Draws frames. A window uses up at least one sample and makes one frame, so the steps are enough. -/
def draw (flushing : Bool) (limit : Option Nat) (f : Frontend) : List (Frame Float32) × Frontend :=
  drawFrom (2 * f.signal.available + f.stage.waiting + 1) flushing limit f

def push (f : Frontend) (samples : List Int16) (limit : Option Nat := none) :
    List (Frame Float32) × Frontend :=
  draw false limit { f with signal := f.signal.push samples }

def flush (f : Frontend) (limit : Option Nat := none) : List (Frame Float32) × Frontend :=
  draw true limit { f with signal := f.signal.finish }

end Frontend

end SpeechDecoder.Feature
