import SpeechDecoder.Proofs.Bounds.Mixture

/-! One codebook that all senones share, and as many codebooks as there are senones, all alike. Both are laid out
flat: codebook, density, dimension. What a density reads in any of the codebooks is what it reads in the one, so a
senone scores the same under both, to the bit. -/
namespace SpeechDecoder

def repeated {α : Type} (count : Nat) (xs : List α) : List α := (List.replicate count xs).flatten

section
variable {α β : Type} {count : Nat} {xs : List α}

theorem repeatedLength (count : Nat) (xs : List α) : (repeated count xs).length = count * xs.length := by
  rw [repeated, Pieces.flattenLength fun piece mem => congrArg List.length (List.eq_of_mem_replicate mem),
    List.length_replicate]

theorem repeatedMap (f : α → β) (count : Nat) (xs : List α) : (repeated count xs).map f = repeated count (xs.map f) := by
  rw [repeated, List.map_flatten, List.map_replicate, repeated]

theorem repeatedAround {before : Nat} (inside : before < count) :
    repeated count xs = repeated before xs ++ (xs ++ repeated (count - before - 1) xs) := by
  have parts : List.replicate count xs =
      List.replicate before xs ++ xs :: List.replicate (count - before - 1) xs := by
    rw [← List.replicate_succ, List.replicate_append_replicate]
    congr 1
    omega
  rw [repeated, parts, List.flatten_append, List.flatten_cons]
  rfl

theorem repeatedSlice {before first size : Nat} (inside : before < count) (within : first + size ≤ xs.length) :
    ((repeated count xs).drop (before * xs.length + first)).take size = (xs.drop first).take size := by
  rw [repeatedAround inside, ← repeatedLength, List.drop_append, List.drop_eq_nil_of_le (Nat.le_add_right _ _),
    List.nil_append, Nat.add_sub_cancel_left, List.drop_append_of_le_length (by omega),
    List.take_append_of_le_length (by rw [List.length_drop]; omega)]

theorem repeatedAt {before place : Nat} (inside : before < count) (within : place < xs.length) :
    (repeated count xs)[before * xs.length + place]? = xs[place]? := by
  rw [repeatedAround inside, ← repeatedLength, List.getElem?_append_right (Nat.le_add_right _ _),
    Nat.add_sub_cancel_left, List.getElem?_append_left within]

theorem Pieces.ofListFlatten {n : Nat} (some : 0 < n) {pieces : List (List α)}
    (each : ∀ piece ∈ pieces, piece.length = n) : ofList n pieces.flatten = pieces := by
  have size := flattenLength each
  have whole := ofListWhole some (size ▸ Nat.dvd_mul_left n _)
  refine (List.eq_iff_flatten_eq).mpr ⟨flattenOfList n _, ?_⟩
  rw [lengths whole, lengths each, ofListLength some size]

theorem Pieces.ofListRepeated {n : Nat} (some : 0 < n) (whole : n ∣ xs.length) (count : Nat) :
    ofList n (repeated count xs) = repeated count (ofList n xs) := by
  have joined : repeated count xs = (repeated count (ofList n xs)).flatten := by
    rw [repeated, repeated, List.flatten_flatten, List.map_replicate, flattenOfList]
  rw [joined]
  refine ofListFlatten some fun piece mem => ?_
  obtain ⟨pieces, copy, inside⟩ := List.mem_flatten.mp mem
  rw [List.eq_of_mem_replicate copy] at inside
  exact ofListWhole some whole piece inside

end

namespace Model

namespace Gaussians

/-- The one codebook of `g`, so many times over. -/
structure Copies (count : Nat) (g h : Gaussians) : Prop where
  single : g.codebooks = 1
  densities : h.densities = g.densities
  dimension : h.dimension = g.dimension
  means : h.means.toList = repeated count g.means.toList
  precisions : h.precisions.toList = repeated count g.precisions.toList
  factors : h.logFactors.toList = repeated count g.logFactors.toList

theorem Copies.logDensity {count : Nat} {g h : Gaussians} (copies : Copies count g h) (sound : g.Sound)
    {codebook density : Nat} (held : codebook < count) (inside : density < g.densities) (x : List Float32) :
    h.logDensity codebook density x = g.logDensity 0 density x := by
  have slice {a b : Array Float32} (copied : b.toList = repeated count a.toList)
      (size : a.size = g.codebooks * g.densities * g.dimension) :
      (b.extract ((codebook * g.densities + density) * g.dimension)
        ((codebook * g.densities + density) * g.dimension + g.dimension)).toList =
      (a.extract (density * g.dimension) (density * g.dimension + g.dimension)).toList := by
    rw [copies.single, Nat.one_mul] at size
    have last : density * g.dimension + g.dimension ≤ a.toList.length := by
      rw [Array.length_toList, size, ← Nat.succ_mul]
      exact Nat.mul_le_mul_right _ inside
    have place : (codebook * g.densities + density) * g.dimension =
        codebook * a.toList.length + density * g.dimension := by
      rw [Array.length_toList, size, Nat.add_mul, Nat.mul_assoc]
    rw [Array.toList_extract, Array.toList_extract, List.extract_eq_take_drop, List.extract_eq_take_drop, place,
      copied, Nat.add_sub_cancel_left, Nat.add_sub_cancel_left]
    exact repeatedSlice held last
  have factor : h.logFactors.getD (codebook * g.densities + density) 0 = g.logFactors.getD density 0 := by
    have size := sound.factors
    rw [copies.single, Nat.one_mul, ← Array.length_toList] at size
    rw [Array.getD_eq_getD_getElem?, Array.getD_eq_getD_getElem?, ← Array.getElem?_toList, ← Array.getElem?_toList,
      copies.factors, ← size, repeatedAt held (size ▸ inside)]
  unfold Gaussians.logDensity
  simp only [copies.densities, copies.dimension, slice copies.means sound.means,
    slice copies.precisions sound.precisions, factor, Nat.zero_mul, Nat.zero_add]

variable [Elementary]

theorem ofMomentsCopies {densities dimension : Nat} {variances : List Float32} (some : 0 < dimension)
    (whole : dimension ∣ variances.length) (means : List Float32) (floor : Float32) (count : Nat) :
    Copies count (ofMoments 1 densities dimension means variances floor)
      (ofMoments count densities dimension (repeated count means) (repeated count variances) floor) where
  single := rfl
  densities := rfl
  dimension := rfl
  means := rfl
  precisions := by
    simp only [ofMoments, repeatedMap]
  factors := by
    simp only [ofMoments, repeatedMap]
    rw [Pieces.ofListRepeated some (by rwa [List.length_map]), repeatedMap]

end Gaussians

namespace Mixture

theorem termsCopied {count : Nat} {shared own : Mixture} (copies : shared.gaussians.Copies count own.gaussians)
    (sound : shared.Sound) (weights : own.weights = shared.weights) (one : shared.shared = true) {senone : Nat}
    (held : (if own.shared then 0 else senone) < count) (frame : Frame Float32) :
    own.terms frame senone = shared.terms frame senone := by
  unfold terms
  rw [weights, List.mapIdx_eq_zipIdx_map, List.mapIdx_eq_zipIdx_map, if_pos one]
  refine List.map_congr_left fun (w, density) mem => ?_
  have few : density < shared.gaussians.densities := by
    have := List.snd_lt_of_mem_zipIdx mem
    have := Weights.getLength (w := shared.weights) senone
    have := sound.densities
    omega
  exact congrArg (w + ·) (copies.logDensity sound.gaussians held few frame.values)

/-- Senones that mix the densities of one codebook score as senones that each have a copy of it. -/
theorem sharedAsOwn [Elementary] {densities dimension senones : Nat} (someDensities : 0 < densities)
    (someDimension : 0 < dimension) {means variances counts : List Float32} (mean : means.length = densities * dimension)
    (variance : variances.length = densities * dimension) (counted : counts.length = senones * densities)
    (varianceFloor weightFloor : Float32) :
    let weights := Weights.ofCounts densities counts weightFloor
    ∃ shared own, ofParts (.ofMoments 1 densities dimension means variances varianceFloor) weights = .ok shared ∧
      ofParts (.ofMoments senones densities dimension (repeated senones means) (repeated senones variances)
        varianceFloor) weights = .ok own ∧
      shared.shared = true ∧ (own.shared = true ↔ senones = 1) ∧
      shared.scorer.senones = senones ∧ own.scorer.senones = senones ∧
      ∀ (frame : Frame Float32) (senone : Nat), senone < senones →
        shared.checkedScore frame senone = .ok (shared.score frame senone) ∧
        own.checkedScore frame senone = .ok (own.score frame senone) ∧
        own.score frame senone = shared.score frame senone := by
  intro weights
  let g := Gaussians.ofMoments 1 densities dimension means variances varianceFloor
  let h := Gaussians.ofMoments senones densities dimension (repeated senones means) (repeated senones variances)
    varianceFloor
  have number : weights.senones = senones := by
    rw [Weights.senones, Weights.countsLength, counted]
    exact Nat.mul_div_cancel senones someDensities
  let shared : Mixture := ⟨g, weights, true⟩
  let own : Mixture := ⟨h, weights, h.codebooks == 1⟩
  have made : ofParts g weights = .ok shared := by
    unfold ofParts
    rw [if_neg (fun other => other rfl), if_neg fun other => other.1 rfl]
    rfl
  have made' : ofParts h weights = .ok own := by
    unfold ofParts
    rw [if_neg (fun other => other rfl), if_neg fun other => other.2 number.symm]
  have several (xs : List Float32) (size : xs.length = densities * dimension) :
      (repeated senones xs).length = senones * densities * dimension := by
    rw [repeatedLength, size, Nat.mul_assoc]
  have sound : shared.Sound := ofPartsSound (Gaussians.ofMomentsSound someDimension (by rw [mean, Nat.one_mul])
    (by rw [variance, Nat.one_mul]) varianceFloor) made
  have sound' : own.Sound := ofPartsSound (Gaussians.ofMomentsSound someDimension (several means mean)
    (several variances variance) varianceFloor) made'
  have copies : shared.gaussians.Copies senones own.gaussians :=
    Gaussians.ofMomentsCopies someDimension (variance ▸ Nat.dvd_mul_left dimension densities) means varianceFloor senones
  refine ⟨shared, own, made, made', rfl, beq_iff_eq, number, number, fun frame senone inside => ?_⟩
  have place : senone < weights.senones := number ▸ inside
  refine ⟨sound.scored frame place, sound'.scored frame place, ?_⟩
  have held : (if own.shared then 0 else senone) < senones := sound'.codebooks senone place
  exact congrArg Score.logSumExp (termsCopied copies sound rfl rfl held frame)

@[reducible] local instance : Elementary := Elementary.system

theorem twoSenonesAlike : 0 < 2 ∧ 0 < 1 ∧ [(-1 : Float32), 1].length = 2 * 1 ∧ [(1 : Float32), 2].length = 2 * 1 ∧
    [(9 : Float32), 1, 1, 9].length = 2 * 2 ∧
    ∃ shared own, ofParts (.ofMoments 1 2 1 [-1, 1] [1, 2] 0.1) (.ofCounts 2 [9, 1, 1, 9] 0) = .ok shared ∧
      ofParts (.ofMoments 2 2 1 [-1, 1, -1, 1] [1, 2, 1, 2] 0.1) (.ofCounts 2 [9, 1, 1, 9] 0) = .ok own ∧
      shared.shared = true ∧ own.shared = false ∧ shared.scorer.senones = 2 ∧
      own.checkedScore ⟨0, [0.5]⟩ 1 = shared.checkedScore ⟨0, [0.5]⟩ 1 ∧
      own.score ⟨0, [0.5]⟩ 1 = shared.score ⟨0, [0.5]⟩ 1 := by
  obtain ⟨shared, own, made, made', one, single, senones, _, same⟩ :=
    sharedAsOwn (show 0 < 2 by decide) (show 0 < 1 by decide) (show [(-1 : Float32), 1].length = 2 * 1 from rfl)
      (show [(1 : Float32), 2].length = 2 * 1 from rfl) (show [(9 : Float32), 1, 1, 9].length = 2 * 2 from rfl) 0.1 0
  obtain ⟨first, second, scores⟩ := same ⟨0, [0.5]⟩ 1 (by decide)
  have apart : own.shared = false := Bool.eq_false_iff.mpr fun all => absurd (single.mp all) (by decide)
  exact ⟨by decide, by decide, rfl, rfl, rfl, shared, own, made, made', one, apart, senones,
    second.trans ((congrArg Except.ok scores).trans first.symm), scores⟩

end Mixture

end Model

end SpeechDecoder
