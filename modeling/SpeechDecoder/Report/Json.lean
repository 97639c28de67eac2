import SpeechDecoder.Hypothesis
import SpeechDecoder.Decimal.Layout

/-! JSON texts: values, their compact written form, and the value of an utterance. A number is kept
as it is written. -/
namespace SpeechDecoder.Report

inductive Json where
  | null
  | number (written : List Char)
  | text (s : List Char)
  | list (items : List Json)
  | object (fields : List (List Char × Json))

namespace Json

def hexDigits (n : Nat) : List Char := [Nat.digitChar (n / 16), Nat.digitChar (n % 16)]

def escape (c : Char) : List Char :=
  if c = '"' then ['\\', '"']
  else if c = '\\' then ['\\', '\\']
  else if c = '\n' then ['\\', 'n']
  else if c = '\r' then ['\\', 'r']
  else if c = '\t' then ['\\', 't']
  else if c.toNat = 8 then ['\\', 'b']
  else if c.toNat = 12 then ['\\', 'f']
  else if c.toNat < 32 then '\\' :: 'u' :: '0' :: '0' :: hexDigits c.toNat
  else [c]

def quote (s : List Char) : List Char := '"' :: s.flatMap escape ++ ['"']

mutual

def render : Json → List Char
  | .null => ['n', 'u', 'l', 'l']
  | .number written => written
  | .text s => quote s
  | .list items => '[' :: renderItems items ++ [']']
  | .object fields => Char.ofNat 0x7B :: renderFields fields ++ [Char.ofNat 0x7D]

def renderItems : List Json → List Char
  | [] => []
  | [item] => render item
  | item :: rest => render item ++ ',' :: renderItems rest

def renderFields : List (List Char × Json) → List Char
  | [] => []
  | [(name, value)] => quote name ++ ':' :: render value
  | (name, value) :: rest => quote name ++ ':' :: render value ++ ',' :: renderFields rest

end

def natural (n : Nat) : Json := .number (Decimal.natural n)

def single (x : Float32) : Json :=
  if x.isFinite then .number (Decimal.jsonFloat32 x) else .null

def string (s : String) : Json := .text s.toList

def ofSegment (s : Segment Float32) : Json :=
  .object [
    ("word".toList, string s.word), ("start_frame".toList, natural s.startFrame),
    ("end_frame".toList, natural s.endFrame), ("ascore".toList, single s.acousticScore),
    ("lscore".toList, single s.languageScore)]

def hypothesisFields (h : Hypothesis Float32) : List (List Char × Json) := [
  ("text".toList, string h.text), ("score".toList, single h.score),
  ("confidence".toList, single h.confidence)]

def ofAlternative (a : Alternative Float32) : Json :=
  .object [
    ("rank".toList, natural a.rank), ("hypothesis".toList, .object (hypothesisFields a.hypothesis)),
    ("segments".toList, .list (a.segments.map ofSegment))]

/-- An utterance; the field of alternatives is there only when there are some. -/
def ofUtterance (u : Utterance) : Json :=
  .object (
    ("id".toList, string u.id) :: hypothesisFields u.hypothesis ++ [
      ("frame_rate".toList, natural u.frameRate),
      ("segments".toList, .list (u.segments.map ofSegment))] ++
    if u.alternatives.isEmpty then []
    else [("nbest".toList, .list (u.alternatives.map ofAlternative))])

end Json

end SpeechDecoder.Report
