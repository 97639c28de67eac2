import SpeechDecoder.Elementary
import SpeechDecoder.Feature.Settings

/-! Triangular filters of unit area on the mel scale, with their edges at whole frequencies of the
spectrum. Edges that fall together still leave a filter that holds its center. -/
namespace SpeechDecoder.Feature

structure Filter (α : Type) where
  first : Nat
  weights : List α
  deriving DecidableEq, Repr

/-- The filter between the places `left` and `right` of a spectrum of `bins` frequencies that are
`width` apart; `number` is the number that a natural stands for. -/
def Filter.ofEdges {α : Type} [Mul α] [Div α] (number : Nat → α) (bins : Nat) (width : α)
    (left center right : Nat) : Filter α :=
  let center := max center left
  let right := max right (center + 1)
  let height := number 2 / (number (right - left) * width)
  let weight (k : Nat) : α :=
    if k < center then height * number (k - left) / number (center - left)
    else if k = center then height
    else height * number (right - k) / number (right - center)
  ⟨left, (List.range' left (min right bins - left)).map weight⟩

def Filter.bank {α : Type} [Mul α] [Div α] (number : Nat → α) (bins : Nat) (width : α)
    (edge : Nat → Nat) (count : Nat) : List (Filter α) :=
  (List.range count).map fun i =>
    Filter.ofEdges number bins width (edge i) (edge (i + 1)) (edge (i + 2))

def Filter.energy (f : Filter Float32) (spectrum : List Float32) : Float32 :=
  (List.zipWith (· * ·) f.weights (spectrum.drop f.first)).foldl (· + ·) 0

namespace Filterbank
variable [Elementary]

def mel (hertz : Float32) : Float32 := 2595 * Elementary.log10of32 (1 + hertz / 700)

def hertz (mel : Float32) : Float32 := 700 * (Elementary.pow32 10 (mel / 2595) - 1)

def placeOf (bins : Nat) (width hertz : Float32) : Nat :=
  min (Binary.ofFloat32 (hertz / width + 0.5)).truncateToWord (bins - 1)

def width (s : Settings) : Float32 :=
  Binary.ofNatural32 s.sampleRate / Binary.ofNatural32 s.fftSize

/-- The place of an edge; edges are equally far apart on the mel scale. -/
def edge (s : Settings) : Nat → Nat :=
  let low := mel s.lowest
  let step := (mel s.highest - low) / Binary.ofNatural32 (s.filters + 1)
  fun i => placeOf (s.fftSize / 2 + 1) (width s) (hertz (low + Binary.ofNatural32 i * step))

def ofSettings (s : Settings) : List (Filter Float32) :=
  Filter.bank Binary.ofNatural32 (s.fftSize / 2 + 1) (width s) (edge s) s.filters

end Filterbank

end SpeechDecoder.Feature
