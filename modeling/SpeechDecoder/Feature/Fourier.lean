/-! Power spectra by a plan. A window is padded with zeros to a power of two and transformed in place: its
values are put so that those at even places come before those at odd places, in each half again, and then
parts of one, two, four … values are joined in pairs. -/
namespace SpeechDecoder.Feature

/-- Complex numbers, their parts apart. -/
structure Points where
  re : FloatArray
  im : FloatArray

namespace Spectrum

/-- The places of `2 ^ levels` values in the order in which they are put. -/
def places : (levels : Nat) → List Nat
  | 0 => [0]
  | levels + 1 =>
    let half := places levels
    half.map (2 * ·) ++ half.map (2 * · + 1)

structure Plan where
  levels : Nat
  order : Array Nat
  table : Points

/-- Joins the first `count` values of two parts of `half` values, one behind the other from `start`;
`step` is the distance of the roots in the table. -/
def joinParts (table : Points) (half step start : Nat) : (count : Nat) → Points → Points
  | 0, xs => xs
  | k + 1, ⟨re, im⟩ =>
    let i := start + k
    let j := i + half
    let (c, s) := (table.re.get! (k * step), table.im.get! (k * step))
    let (x, y) := (re.get! j, im.get! j)
    let (a, b) := (x * c - y * s, x * s + y * c)
    let (u, v) := (re.get! i, im.get! i)
    joinParts table half step start k
      ⟨(re.set! i (u + a)).set! j (u - a), (im.set! i (v + b)).set! j (v - b)⟩

def joinPairs (table : Points) (half step : Nat) : (pairs : Nat) → Points → Points
  | 0, xs => xs
  | p + 1, xs => joinPairs table half step p (joinParts table half step (2 * half * p) half xs)

/-- Joins parts of `half` values until one is left, in `levels` rounds. -/
def joinAll (table : Points) : (levels half : Nat) → Points → Points
  | 0, _, xs => xs
  | levels + 1, half, xs =>
    joinAll table levels (2 * half) (joinPairs table half (Nat.pow 2 levels) (Nat.pow 2 levels) xs)

/-- The power of the frequencies from zero up to half of the size of the plan. -/
def Plan.power (p : Plan) (window : List Float32) : List Float32 :=
  let values := window.toArray
  let re : FloatArray := ⟨p.order.map fun i => (values.getD i 0).toFloat⟩
  let im : FloatArray := ⟨.replicate p.order.size 0⟩
  let spectrum := joinAll p.table p.levels 1 ⟨re, im⟩
  (List.range (p.order.size / 2 + 1)).map fun k =>
    let (x, y) := ((spectrum.re.get! k).toFloat32, (spectrum.im.get! k).toFloat32)
    x * x + y * y

end Spectrum

end SpeechDecoder.Feature
