import SpeechDecoder.Failure
import SpeechDecoder.Frame
import SpeechDecoder.Model.Gaussian

/-! What scores a frame of features: a number of senones, a dimension, and a log likelihood for each
senone. A mixture scorer has one codebook for each senone or one that all senones share. -/
namespace SpeechDecoder.Model

structure Scorer (α : Type) where
  senones : Nat
  dimension : Nat
  score : Frame α → Nat → α

/-- The scorer whose score for a senone is the value of the frame at that place. -/
def Scorer.direct {α : Type} [Score α] (senones dimension : Nat) : Scorer α :=
  ⟨senones, dimension, fun frame senone => frame.values.getD senone Score.zero⟩

def Scorer.checkedDirect {α : Type} (frame : Frame α) (senone : Nat) : Guarded α :=
  Guarded.known .scores senone frame.values[senone]?

structure Mixture where
  gaussians : Gaussians
  weights : Weights
  shared : Bool

namespace Mixture

inductive Problem where
  | densities (weights codebooks : Nat)
  | codebooks (codebooks senones : Nat)
  deriving DecidableEq, Repr

def Problem.message : Problem → String
  | .densities mixed held =>
    s!"mixture weights have {mixed} densities but codebooks have {held}"
  | .codebooks held senones =>
    s!"{held} codebooks for {senones} senones; expected 1 or one per senone"

def Problem.failure (p : Problem) : Failure := .mismatch p.message

def ofParts (g : Gaussians) (w : Weights) : Except Problem Mixture :=
  if g.densities ≠ w.densities then .error (.densities w.densities g.densities)
  else if g.codebooks ≠ 1 ∧ g.codebooks ≠ w.senones then
    .error (.codebooks g.codebooks w.senones)
  else .ok ⟨g, w, g.codebooks == 1⟩

variable [Elementary]

def terms (m : Mixture) (frame : Frame Float32) (senone : Nat) : List Float32 :=
  let codebook := if m.shared then 0 else senone
  (m.weights.get senone).mapIdx fun k w => w + m.gaussians.logDensity codebook k frame.values

def score (m : Mixture) (frame : Frame Float32) (senone : Nat) : Float32 :=
  Score.logSumExp (m.terms frame senone)

def checkedTerms (m : Mixture) (frame : Frame Float32) (senone : Nat) : Guarded (List Float32) := do
  let codebook := if m.shared then 0 else senone
  let weights ← m.weights.checkedGet senone
  weights.zipIdx.mapM fun (w, k) => do
    let density ← m.gaussians.checkedLogDensity codebook k frame.values
    .ok (w + density)

def checkedScore (m : Mixture) (frame : Frame Float32) (senone : Nat) : Guarded Float32 := do
  let terms ← m.checkedTerms frame senone
  .ok (Score.logSumExp terms)

def scorer (m : Mixture) : Scorer Float32 :=
  ⟨m.weights.senones, m.gaussians.dimension, m.score⟩

end Mixture

end SpeechDecoder.Model
