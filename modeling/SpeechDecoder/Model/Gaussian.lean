import SpeechDecoder.Decimal.Binary
import SpeechDecoder.Score
import SpeechDecoder.Pieces
import SpeechDecoder.Guarded

/-! Gaussian densities with diagonal covariance, by codebook, and the weights with which a senone
mixes the densities of a codebook. Densities are evaluated in single precision, dimension after
dimension. Their watched forms end where the tables do not have what they read. -/
namespace SpeechDecoder.Model

open Guarded (known within slice)

/-- Densities in flat order: codebook, density, dimension. -/
structure Gaussians where
  codebooks : Nat
  densities : Nat
  dimension : Nat
  means : Array Float32
  /-- One half over each variance. -/
  precisions : Array Float32
  logFactors : Array Float32

/-- Log weights in flat order: senone, density. -/
structure Weights where
  densities : Nat
  logs : Array Float32

namespace Gaussians
variable [Elementary]

def logFactor (dimension : Nat) (variances : List Float32) : Float32 :=
  let logDet := variances.foldl (fun sum v => sum + Elementary.ln32 v) 0
  (-0.5) * (Binary.ofNatural32 dimension * Elementary.ln32 (2 * Elementary.circle) + logDet)

/-- Codebooks from means and variances; `floor` is the least variance. -/
def ofMoments (codebooks densities dimension : Nat) (means variances : List Float32)
    (floor : Float32) : Gaussians :=
  let variances := variances.map fun v => Single.larger v floor
  { codebooks, densities, dimension, means := means.toArray,
    precisions := (variances.map fun v => 1 / (2 * v)).toArray,
    logFactors := ((Pieces.ofList dimension variances).map (logFactor dimension)).toArray }

def logDensity (g : Gaussians) (codebook density : Nat) (x : List Float32) : Float32 :=
  let index := codebook * g.densities + density
  let first := index * g.dimension
  let mean := (g.means.extract first (first + g.dimension)).toList
  let precision := (g.precisions.extract first (first + g.dimension)).toList
  (x.zip (mean.zip precision)).foldl
    (fun sum (x, m, p) =>
      let difference := x - m
      sum - difference * difference * p)
    (g.logFactors.getD index 0)

def checkedLogDensity (g : Gaussians) (codebook density : Nat) (x : List Float32) : Guarded Float32 := do
  within .codebooks codebook g.codebooks
  within .densities density g.densities
  let index := codebook * g.densities + density
  let first := index * g.dimension
  let mean ← slice .moments first g.dimension g.means
  let precision ← slice .moments first g.dimension g.precisions
  let factor ← known .densities index g.logFactors[index]?
  .ok ((x.zip (mean.zip precision)).foldl
    (fun sum (x, m, p) =>
      let difference := x - m
      sum - difference * difference * p)
    factor)

end Gaussians

namespace Weights

def senones (w : Weights) : Nat := w.logs.size / w.densities

def get (w : Weights) (senone : Nat) : List Float32 :=
  (w.logs.extract (senone * w.densities) (senone * w.densities + w.densities)).toList

def checkedGet (w : Weights) (senone : Nat) : Guarded (List Float32) := do
  within .senones senone w.senones
  slice .weights (senone * w.densities) w.densities w.logs

variable [Elementary]

def normalize (floor : Float32) (weights : List Float32) : List Float32 :=
  let sum := Score.sum weights
  weights.map fun w => Elementary.ln32 (Single.larger (if 0 < sum then w / sum else 0) floor)

/-- Each senone's weights over their sum; `floor` is the least weight. -/
def ofCounts (densities : Nat) (weights : List Float32) (floor : Float32) : Weights :=
  ⟨densities, ((Pieces.ofList densities weights).flatMap (normalize floor)).toArray⟩

end Weights

end SpeechDecoder.Model
