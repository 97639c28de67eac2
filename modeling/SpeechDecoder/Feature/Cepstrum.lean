import SpeechDecoder.Feature.Filterbank
import SpeechDecoder.Feature.Spectrum
import SpeechDecoder.Score

/-! From a window of samples to a cepstrum: tapering, power spectrum, filters, logarithms, and a cosine
transform whose values may be weighted once more. -/
namespace SpeechDecoder.Feature

structure Analysis where
  removeOffset : Bool
  taper : List Float32
  plan : Spectrum.Plan
  filters : List (Filter Float32)
  basis : List (List Float32)
  lifter : Option (List Float32)

namespace Analysis

def leastEnergy : Float32 := 1e-10

variable [Elementary]

def taperOf (n : Nat) : List Float32 :=
  if n = 1 then [1]
  else
    (List.range n).map fun i =>
      let angle := 2 * Elementary.circle * Binary.ofNatural32 i / Binary.ofNatural32 (n - 1)
      0.54 - 0.46 * Elementary.cos32 angle

def scale (t : Transform) (filters : Float32) (row column : Nat) : Float32 :=
  match t with
  | .legacy => if column = 0 then 0.5 / filters else 1 / filters
  | .dct => if row = 0 then (1 / filters).sqrt else (2 / filters).sqrt
  | .htk => (2 / filters).sqrt

def basisOf (t : Transform) (cepstra filters : Nat) : List (List Float32) :=
  let count := Binary.ofNatural32 filters
  let centres := (List.range filters).map fun j => Binary.ofNatural32 j + 0.5
  (List.range cepstra).map fun i =>
    let turn := Elementary.circle * Binary.ofNatural32 i
    centres.mapIdx fun j centre => Elementary.cos32 (turn * centre / count) * scale t count i j

/-- Weights that follow a sine of the given period; none when it is zero. -/
def lifterOf (period cepstra : Nat) : Option (List Float32) :=
  if period = 0 then none
  else
    let length := Binary.ofNatural32 period
    some ((List.range cepstra).map fun i =>
      1 + 0.5 * length * Elementary.sin32 (Elementary.circle * Binary.ofNatural32 i / length))

def ofSettings (s : Settings) : Analysis where
  removeOffset := s.removeOffset
  taper := taperOf s.length
  plan := .ofSize s.fftSize
  filters := Filterbank.ofSettings s
  basis := basisOf s.transform s.cepstra s.filters
  lifter := lifterOf s.lifter s.cepstra

def cepstrum (a : Analysis) (window : List Float32) : List Float32 :=
  let offset :=
    if a.removeOffset then window.foldl (· + ·) 0 / Binary.ofNatural32 window.length else 0
  let tapered := List.zipWith (fun x w => (x - offset) * w) window a.taper
  let spectrum := Elementary.power a.plan tapered
  let energies := a.filters.map fun f => f.energy spectrum
  let logs := energies.map fun e => Elementary.ln32 (Single.larger e leastEnergy)
  let values := a.basis.map fun row => (List.zipWith (· * ·) row logs).foldl (· + ·) 0
  match a.lifter with
  | none => values
  | some weights => List.zipWith (· * ·) values weights

end Analysis

end SpeechDecoder.Feature
