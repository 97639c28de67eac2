import SpeechDecoder.Proofs.Bounds.Frames
import SpeechDecoder.Proofs.Model.Sizes

/-! Mixtures that are watched while they score a frame. Where the densities and the weights are as many as the files
say, and there is a codebook for each senone or one for all, every senone below their number is accepted. -/
namespace SpeechDecoder

open Guarded (known within slice)

theorem Pieces.lengths {α : Type} {n : Nat} {pieces : List (List α)} (each : ∀ piece ∈ pieces, piece.length = n) :
    pieces.map List.length = List.replicate pieces.length n := by
  refine List.eq_replicate_iff.mpr ⟨List.length_map _, fun size mem => ?_⟩
  obtain ⟨piece, inside, rfl⟩ := List.mem_map.mp mem
  exact each piece inside

theorem Pieces.flattenLength {α : Type} {n : Nat} {pieces : List (List α)} (each : ∀ piece ∈ pieces, piece.length = n) :
    pieces.flatten.length = pieces.length * n := by
  rw [List.length_flatten, lengths each, List.sum_replicate_nat]

theorem Pieces.ofListWhole {α : Type} {n : Nat} (some : 0 < n) {xs : List α} (whole : n ∣ xs.length) :
    ∀ piece ∈ ofList n xs, piece.length = n := by
  have all := gatherFlatten (n - 1) .empty xs
  have full := gatherLengths (n - 1) .empty xs (Nat.zero_le _)
  have open' := gatherSize (n - 1) .empty xs (Nat.zero_le _)
  unfold ofList
  generalize gather (n - 1) .empty xs = parts at all full open' ⊢
  obtain ⟨pieces, last⟩ := parts
  dsimp only at all full open' ⊢
  have each : ∀ piece ∈ pieces, piece.length = n := fun piece inside => (full piece inside).trans (by omega)
  have length := congrArg List.length all
  rw [Fifo.toListEmpty, List.nil_append, List.length_append, flattenLength each, ← Fifo.sizeEq] at length
  -- the open piece is shorter than a whole one, so it is empty
  have none : last.size = 0 := by
    rw [← length] at whole
    exact Nat.eq_zero_of_dvd_of_lt ((Nat.dvd_add_right (Nat.dvd_mul_left n _)).mp whole) (by omega)
  rw [if_pos none]
  exact each

theorem Pieces.ofListLength {α : Type} {n count : Nat} (some : 0 < n) {xs : List α} (whole : xs.length = count * n) :
    (ofList n xs).length = count := by
  have each := ofListWhole some (whole ▸ Nat.dvd_mul_left n count)
  have length := flattenLength each
  rw [flattenOfList, whole] at length
  exact (Nat.eq_of_mul_eq_mul_right some length).symm

namespace Model

namespace Gaussians

/-- As many means and variances as the densities of all codebooks have, and a factor for each density. -/
structure Sound (g : Gaussians) : Prop where
  means : g.means.size = g.codebooks * g.densities * g.dimension
  precisions : g.precisions.size = g.codebooks * g.densities * g.dimension
  factors : g.logFactors.size = g.codebooks * g.densities

theorem checkedLogDensityOk {g : Gaussians} (sound : g.Sound) {codebook density : Nat} (held : codebook < g.codebooks)
    (inside : density < g.densities) (x : List Float32) :
    g.checkedLogDensity codebook density x = .ok (g.logDensity codebook density x) := by
  have index : codebook * g.densities + density < g.codebooks * g.densities := by
    calc codebook * g.densities + density < (codebook + 1) * g.densities := by rw [Nat.succ_mul]; omega
      _ ≤ g.codebooks * g.densities := Nat.mul_le_mul_right _ held
  have last : (codebook * g.densities + density) * g.dimension + g.dimension ≤
      g.codebooks * g.densities * g.dimension := by
    rw [← Nat.succ_mul]
    exact Nat.mul_le_mul_right _ index
  have factor := Nat.lt_of_lt_of_eq index sound.factors.symm
  unfold checkedLogDensity logDensity
  rw [Guarded.withinOk held, Guarded.okBind, Guarded.withinOk inside, Guarded.okBind]
  dsimp only
  rw [Guarded.sliceOk (sound.means.symm ▸ last), Guarded.okBind, Guarded.sliceOk (sound.precisions.symm ▸ last),
    Guarded.okBind, Guarded.knownArray _ factor, Guarded.okBind, Guarded.getArray factor]

theorem ofMomentsSound [Elementary] {codebooks densities dimension : Nat} {means variances : List Float32}
    (some : 0 < dimension) (mean : means.length = codebooks * densities * dimension)
    (variance : variances.length = codebooks * densities * dimension) (floor : Float32) :
    (ofMoments codebooks densities dimension means variances floor).Sound := by
  refine ⟨mean, ?_, ?_⟩
  · change ((variances.map _).map _).toArray.size = _
    rw [List.size_toArray, List.length_map, List.length_map]
    exact variance
  · change ((Pieces.ofList _ (variances.map _)).map _).toArray.size = _ * _
    rw [List.size_toArray, List.length_map]
    exact Pieces.ofListLength some ((List.length_map _).trans variance)

theorem loadSound [Elementary] {files : FileTree} {meanPath variancePath : String} {floor : Float32} {g : Gaussians}
    (loaded : load files meanPath variancePath floor = .ok g) (some : 0 < g.dimension) : g.Sound := by
  obtain ⟨means, variances, read, read', ⟨codebooks, densities, dimension⟩, rfl⟩ := loadMade loaded
  obtain ⟨_, _, size⟩ := Moments.readOk read
  obtain ⟨_, _, size'⟩ := Moments.readOk read'
  refine ofMomentsSound some size ?_ floor
  rw [codebooks, densities, dimension]
  exact size'

end Gaussians

namespace Weights

theorem checkedGetOk {w : Weights} {senone : Nat} (inside : senone < w.senones) :
    w.checkedGet senone = .ok (w.get senone) := by
  have last : senone * w.densities + w.densities ≤ w.logs.size := by
    calc senone * w.densities + w.densities = (senone + 1) * w.densities := (Nat.succ_mul _ _).symm
      _ ≤ w.logs.size / w.densities * w.densities := Nat.mul_le_mul_right _ inside
      _ ≤ w.logs.size := Nat.div_mul_le_self _ _
  unfold checkedGet get
  rw [Guarded.withinOk inside, Guarded.okBind, Guarded.sliceOk last]

theorem getLength {w : Weights} (senone : Nat) : (w.get senone).length ≤ w.densities := by
  rw [get, Array.length_toList, Array.size_extract]
  omega

end Weights

namespace Mixture

structure Sound (m : Mixture) : Prop where
  gaussians : m.gaussians.Sound
  densities : m.gaussians.densities = m.weights.densities
  codebooks : ∀ senone < m.weights.senones, (if m.shared then 0 else senone) < m.gaussians.codebooks

theorem ofPartsMade {g : Gaussians} {w : Weights} {m : Mixture} (made : ofParts g w = .ok m) :
    m = ⟨g, w, g.codebooks == 1⟩ ∧ g.densities = w.densities ∧ (g.codebooks = 1 ∨ g.codebooks = w.senones) := by
  unfold ofParts at made
  split at made
  · cases made
  · split at made
    · cases made
    · cases made
      exact ⟨rfl, by omega, by omega⟩

theorem ofPartsSound {g : Gaussians} {w : Weights} {m : Mixture} (sound : g.Sound) (made : ofParts g w = .ok m) :
    m.Sound := by
  obtain ⟨rfl, densities, codebooks⟩ := ofPartsMade made
  refine ⟨sound, densities, fun senone inside => ?_⟩
  change senone < w.senones at inside
  simp only [beq_iff_eq]
  split <;> omega

theorem checkedTermsOk {m : Mixture} (sound : m.Sound) (frame : Frame Float32) {senone : Nat}
    (inside : senone < m.weights.senones) : m.checkedTerms frame senone = .ok (m.terms frame senone) := by
  unfold checkedTerms terms
  rw [Weights.checkedGetOk inside, Guarded.okBind, List.mapIdx_eq_zipIdx_map]
  refine Guarded.mapOk fun x mem => ?_
  obtain ⟨w, k⟩ := x
  have few : k < m.gaussians.densities := by
    have := List.snd_lt_of_mem_zipIdx mem
    have := Weights.getLength (w := m.weights) senone
    have := sound.densities
    omega
  dsimp only
  rw [Gaussians.checkedLogDensityOk sound.gaussians (sound.codebooks senone inside) few]
  rfl

variable [Elementary]

theorem Sound.scored {m : Mixture} (sound : m.Sound) (frame : Frame Float32) {senone : Nat}
    (inside : senone < m.weights.senones) : m.checkedScore frame senone = .ok (m.score frame senone) := by
  unfold checkedScore
  rw [checkedTermsOk sound frame inside]
  rfl

theorem Sound.accepts {m : Mixture} (sound : m.Sound) : m.scorer.Accepts m.checkedScore :=
  fun frame _ _ inside => sound.scored frame inside

end Mixture

end Model

theorem Models.readMixtureSound [Elementary] {files : FileTree} {config : Config} {m : Model.Mixture}
    (read : readMixture files config = .ok m) (some : 0 < m.gaussians.dimension) : m.Sound := by
  unfold readMixture at read
  obtain ⟨_, _, read⟩ := Outcome.bindOk read
  obtain ⟨_, _, read⟩ := Outcome.bindOk read
  obtain ⟨_, _, read⟩ := Outcome.bindOk read
  obtain ⟨gaussians, loaded, read⟩ := Outcome.bindOk read
  obtain ⟨_, _, read⟩ := Outcome.bindOk read
  obtain ⟨weights, _, read⟩ := Outcome.bindOk read
  have made := Outcome.mapErrorOk read
  obtain ⟨rfl, _⟩ := Model.Mixture.ofPartsMade made
  exact Model.Mixture.ofPartsSound (Model.Gaussians.loadSound loaded some) made

end SpeechDecoder
