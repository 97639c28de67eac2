import SpeechDecoder.Feature.Dither
import SpeechDecoder.Feature.Settings

/-! The samples of an utterance on their way into windows: with noise, if it is asked for, and less a
share of the sample before each. Windows are given out as soon as all their samples are there. At the
end of input one shorter window follows if some sample was in no window yet. -/
namespace SpeechDecoder.Feature

structure Signal where
  length : Nat
  shift : Nat
  emphasis : Float32
  dither : Option Dither
  values : Array Float32 := #[]
  /-- Where the next window starts, which may be behind the last value when windows leave gaps. -/
  offset : Nat := 0
  prior : Float32 := 0
  total : Nat := 0
  windows : Nat := 0
  ending : Bool := false

namespace Signal

def ofSettings (s : Settings) : Signal where
  length := s.length
  shift := s.shift
  emphasis := s.emphasis
  dither := if s.dither then some (Dither.make s.seed) else none

def reset (s : Signal) : Signal where
  length := s.length
  shift := s.shift
  emphasis := s.emphasis
  dither := s.dither.map Dither.reset

/-- Values before the next window are dropped once there are so many. -/
def compactAt : Nat := 1 <<< 14

def compact (s : Signal) : Signal :=
  if s.offset < compactAt then s
  else
    let consumed := min s.offset s.values.size
    { s with values := s.values.extract consumed s.values.size, offset := s.offset - consumed }

def noise (d : Option Dither) (x : Float32) : Float32 × Option Dither :=
  match d with
  | none => (x, none)
  | some d =>
    let (y, d) := d.next
    (x + y, some d)

def pushSample (s : Signal) (sample : Int16) : Signal :=
  let (x, dither) := noise s.dither (Binary.ofInteger32 sample.toInt)
  { s with
    values := s.values.push (x - s.emphasis * s.prior), prior := x, dither, total := s.total + 1 }

def push (s : Signal) (samples : List Int16) : Signal := samples.foldl pushSample s.compact

def finish (s : Signal) : Signal := { s with ending := true }

def available (s : Signal) : Nat := s.values.size - s.offset

def covered (s : Signal) : Nat :=
  if s.windows = 0 then 0 else (s.windows - 1) * s.shift + s.length

def next? (s : Signal) : Option (List Float32 × Signal) :=
  if s.length ≤ s.available then
    let window := (s.values.extract s.offset (s.offset + s.length)).toList
    some (window, { s with offset := s.offset + s.shift, windows := s.windows + 1 })
  else if s.ending && 0 < s.available && s.covered < s.total then
    let window := (s.values.extract s.offset s.values.size).toList
    some (window,
      { s with offset := s.values.size, windows := s.windows + 1, ending := false })
  else none

end Signal

end SpeechDecoder.Feature
