import SpeechDecoder.Report.Json
import SpeechDecoder.Text.Utf8
import SpeechDecoder.Failure

/-! Reports of decoded utterances: one JSON array, a line per word with its times, or a line per
utterance with its score. A report is written to a sink that may have only so much room; what still
fits is written before the sink reports that it is full. -/
namespace SpeechDecoder.Report

inductive Format where
  | json
  | ctm
  | hyp
  deriving DecidableEq, Repr

structure Sink where
  room : Option Nat
  written : List UInt8 := []
  deriving DecidableEq, Repr

/-- Writes a text, or the part of it that fits; tells whether all of it did. -/
def Sink.write (s : Sink) (text : List Char) : Bool × Sink :=
  let bytes := Text.Utf8.encode text
  match s.room with
  | none => (true, { s with written := s.written ++ bytes })
  | some room =>
    let bytes' := bytes.take room
    (bytes.length ≤ room, ⟨some (room - bytes'.length), s.written ++ bytes'⟩)

structure Encoder where
  format : Format
  sink : Sink
  started : Bool := false
  count : Nat := 0
  closed : Bool := false
  deriving DecidableEq, Repr

def closedFailure : Failure := .mismatch "cannot write utterance: encoder is already closed"

def wordLine (id : String) (frameRate : Nat) (s : Segment Float32) : List Char :=
  let start := s.startSeconds frameRate
  let length := s.endSeconds frameRate - start
  id.toList ++ " 1 ".toList ++ Decimal.fixedFloat32 2 start ++ ' ' ::
    Decimal.fixedFloat32 2 length ++ ' ' :: s.word.toList ++ ['\n']

def hypothesisLine (u : Utterance) : List Char :=
  u.hypothesis.text.toList ++ ' ' :: '(' :: u.id.toList ++ ' ' ::
    Decimal.fixedFloat32 2 u.hypothesis.score ++ [')', '\n']

def alternativeLine (a : Alternative Float32) : List Char :=
  ' ' :: ' ' :: Decimal.natural a.rank ++ ' ' :: a.hypothesis.text.toList ++ ' ' :: '(' ::
    Decimal.fixedFloat32 2 a.hypothesis.score ++ [')', '\n']

namespace Encoder

def make (format : Format) (room : Option Nat) : Encoder := { format, sink := ⟨room, []⟩ }

/-- Writes a text to the sink; `failure` is what a full sink is reported as. -/
def put (e : Encoder) (text : List Char) (failure : Failure) : Outcome Unit × Encoder :=
  match e.sink.write text with
  | (true, sink) => (.ok (), { e with sink })
  | (false, sink) => (.error failure, { e with sink })

def full : Failure := .system .full

def start (e : Encoder) : Outcome Unit × Encoder :=
  if e.started then (.ok (), e)
  else
    match e.put ['['] full with
    | (.ok (), e) => (.ok (), { e with started := true })
    | failed => failed

def separate (e : Encoder) : Outcome Unit × Encoder :=
  if 0 < e.count then e.put [',', '\n'] full else (.ok (), e)

def writeElement (e : Encoder) (u : Utterance) : Outcome Unit × Encoder :=
  match e.start with
  | (.error f, e) => (.error f, e)
  | (.ok (), e) =>
    match e.separate with
    | (.error f, e) => (.error f, e)
    | (.ok (), e) =>
      match e.put (Json.ofUtterance u).render (.content SystemError.full.message) with
      | (.ok (), e) => (.ok (), { e with count := e.count + 1 })
      | failed => failed

def linesOf (u : Utterance) : Format → List Char
  | .json => []
  | .ctm => u.segments.flatMap (wordLine u.id u.frameRate)
  | .hyp => hypothesisLine u ++ u.alternatives.flatMap alternativeLine

def write (e : Encoder) (u : Utterance) : Outcome Unit × Encoder :=
  if e.closed then (.error closedFailure, e)
  else
    match e.format with
    | .json => e.writeElement u
    | format => e.put (linesOf u format) full

def close (e : Encoder) : Outcome Unit × Encoder :=
  if e.closed then (.ok (), e)
  else
    match e.format with
    | .json =>
      match e.start with
      | (.error f, e) => (.error f, e)
      | (.ok (), e) =>
        match e.put [']'] full with
        | (.ok (), e) => (.ok (), { e with closed := true })
        | failed => failed
    | _ => (.ok (), { e with closed := true })

def written? (e : Encoder) : Option Nat := if e.format = .json then some e.count else none

end Encoder

end SpeechDecoder.Report
