import SpeechDecoder.Feature.Settings
import SpeechDecoder.Frame

/-! From cepstra to frames of features: the mean is taken off, and differences in time follow the values
themselves. A frame is ready when the cepstra behind it that it needs are there, or when no more will
come; before the first and behind the last cepstrum those two stand in. -/
namespace SpeechDecoder.Feature

/-- Changes the values that have a partner in another list; the others stay. -/
def paired (f : Float32 → Float32 → Float32) (xs ys : List Float32) : List Float32 :=
  List.zipWith f xs ys ++ xs.drop ys.length

structure RunningMean where
  initial : List Float32
  sum : List Float32
  weight : Float32

namespace RunningMean

/-- The weight of the mean given beforehand, and of what is kept when the weight grows too large. -/
def usualWeight : Float32 := 500

def mostWeight : Float32 := 800

def make (initial : List Float32) : RunningMean :=
  ⟨initial, initial.map (· * usualWeight), usualWeight⟩

def reset (m : RunningMean) : RunningMean := make m.initial

/-- Takes the mean off a cepstrum and adds the cepstrum to it. -/
def apply (m : RunningMean) (cepstrum : List Float32) : List Float32 × RunningMean :=
  let values := paired (fun x s => x - s / m.weight) cepstrum m.sum
  let sum := paired (· + ·) m.sum cepstrum
  let weight := m.weight + 1
  if mostWeight < weight then
    let scale := usualWeight / weight
    (values, { m with sum := sum.map (· * scale), weight := usualWeight })
  else (values, { m with sum, weight })

end RunningMean

def centered (cepstra : List (List Float32)) : List (List Float32) :=
  match cepstra with
  | [] => []
  | first :: _ =>
    let sum := cepstra.foldl (paired (· + ·)) (first.map fun _ => 0)
    let mean := sum.map (· / Binary.ofNatural32 cepstra.length)
    cepstra.map fun c => paired (· - ·) c mean

structure Stage where
  streams : Streams
  mode : MeanMode
  mean : RunningMean
  held : Array (List Float32) := #[]
  /-- Cepstra less their mean, from the one numbered `base` on to the last that was received. -/
  history : List (List Float32) := []
  base : Nat := 0
  received : Nat := 0
  emitted : Nat := 0
  finished : Bool := false

namespace Stage

def ofSettings (s : Settings) : Stage where
  streams := s.streams
  mode := s.meanMode
  mean := RunningMean.make s.initialMean

def reset (s : Stage) : Stage where
  streams := s.streams
  mode := s.mode
  mean := s.mean.reset

def accept (s : Stage) (cepstra : List (List Float32)) : Stage :=
  { s with history := s.history ++ cepstra, received := s.received + cepstra.length }

def push (s : Stage) (cepstrum : List Float32) : Stage :=
  match s.mode with
  | .none => s.accept [cepstrum]
  | .live =>
    let (values, mean) := s.mean.apply cepstrum
    { s with mean }.accept [values]
  | .batch => { s with held := s.held.push cepstrum }

def finish (s : Stage) : Stage :=
  if s.finished then s
  else
    let s := match s.mode with
      | .batch => { s with held := #[] }.accept (centered s.held.toList)
      | _ => s
    { s with finished := true }

/-- The cepstrum numbered `t`, or the nearest that there is. -/
def cepstrumAt (s : Stage) (t : Int) : List Float32 :=
  let t := (max 0 (min t (s.received - 1))).toNat
  let place := max t s.base - s.base
  s.history.getD (min place (s.history.length - 1)) []

def difference (x y : List Float32) : List Float32 := List.zipWith (· - ·) x y

def valuesAt (s : Stage) (t : Nat) : List Float32 :=
  let around (d : Int) : List Float32 := s.cepstrumAt (t + d)
  let first := difference (around 2) (around (-2))
  let second := difference (difference (around 3) (around (-1)))
    (difference (around 1) (around (-3)))
  match s.streams with
  | .static => around 0
  | .delta => around 0 ++ first
  | .deltaDelta => around 0 ++ first ++ second

def isReady (s : Stage) : Bool :=
  s.emitted < s.received && (s.finished || s.emitted + s.streams.context < s.received)

/-- Drops cepstra that no later frame needs, but never the last one. -/
def trim (s : Stage) : Stage :=
  let unused := min (s.emitted - s.streams.context - s.base) (s.history.length - 1)
  { s with history := s.history.drop unused, base := s.base + unused }

def pop? (s : Stage) : Option (Frame Float32 × Stage) :=
  if s.isReady then
    some (⟨s.emitted, s.valuesAt s.emitted⟩, { s with emitted := s.emitted + 1 }.trim)
  else none

def waiting (s : Stage) : Nat := s.held.size + (s.received - s.emitted)

end Stage

end SpeechDecoder.Feature
