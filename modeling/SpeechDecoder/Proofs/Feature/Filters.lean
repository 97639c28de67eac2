import SpeechDecoder.Feature.Cepstrum
import SpeechDecoder.Proofs.Decimal.Products

/-! Filters of every shape. Wherever the edges fall in a spectrum, together or out of order, a filter holds its center,
ends with the spectrum, and divides by nothing that is zero; and one that rises has an area of exactly one. -/
namespace SpeechDecoder.Feature

namespace Filter

section
variable {α : Type}

structure Placed (bins center : Nat) (f : Filter α) : Prop where
  some : f.weights ≠ []
  within : f.first + f.weights.length ≤ bins
  before : f.first ≤ center
  behind : center < f.first + f.weights.length

def map {β : Type} (g : α → β) (f : Filter α) : Filter β := ⟨f.first, f.weights.map g⟩

variable [Mul α] [Div α] (number : Nat → α) {bins left center right : Nat} {width : α}

theorem ofEdgesPlaced (width : α) (right : Nat) (inside : left < bins) (inside' : center < bins) :
    (ofEdges number bins width left center right).Placed bins (max center left) := by
  have length : (ofEdges number bins width left center right).weights.length =
      min (max right (max center left + 1)) bins - left := by
    simp [ofEdges]
  have first : (ofEdges number bins width left center right).first = left := rfl
  refine ⟨fun none => ?_, ?_, ?_, ?_⟩
  · rw [none, List.length_nil] at length
    omega
  · omega
  · omega
  · omega

theorem ofEdgesClosed {P : α → Prop} (times : ∀ x y, P x → P y → P (x * y)) (parts : ∀ x y, P x → P y → P (x / y))
    (natural : ∀ n, P (number n)) (wide : P width) :
    ∀ w ∈ (ofEdges number bins width left center right).weights, P w := by
  have height (n : Nat) : P (number 2 / (number n * width)) :=
    parts _ _ (natural 2) (times _ _ (natural n) wide)
  intro w mem
  obtain ⟨k, -, rfl⟩ := List.mem_map.mp mem
  split
  · exact parts _ _ (times _ _ (height _) (natural _)) (natural _)
  · split
    · exact height _
    · exact parts _ _ (times _ _ (height _) (natural _)) (natural _)

theorem bankLength (edge : Nat → Nat) (count : Nat) : (bank number bins width edge count).length = count := by
  simp [bank]

theorem bankAt {edge : Nat → Nat} {count i : Nat} {f : Filter α}
    (found : (bank number bins width edge count)[i]? = some f) :
    i < count ∧ f = ofEdges number bins width (edge i) (edge (i + 1)) (edge (i + 2)) := by
  obtain ⟨inside, rfl⟩ := List.getElem?_eq_some_iff.mp found
  rw [bankLength] at inside
  exact ⟨inside, by simp [bank]⟩

end

/-! ### The area -/

section
variable {K : Type} [Field K] [LinearOrder K] [IsStrictOrderedRing K]

theorem seriesSum (a d : K) (n : Nat) :
    ((List.range n).map fun j : Nat => a + d * j).sum * 2 = n * (2 * a + d * (n - 1)) := by
  induction n with
  | zero => simp
  | succ n ih =>
    rw [List.range_succ, List.map_append, List.sum_append, add_mul, ih]
    simp only [List.map_cons, List.map_nil, List.sum_cons, List.sum_nil]
    push_cast
    ring

theorem riseSum (h : K) {a : Nat} (some : 0 < a) :
    ((List.range a).map fun j : Nat => h * j / a).sum * 2 = h * (a - 1) := by
  have nonzero : (a : K) ≠ 0 := Nat.cast_ne_zero.mpr some.ne'
  have steps : (fun j : Nat => h * (j : K) / a) = fun j : Nat => 0 + h / a * (j : K) := by
    funext j
    ring
  rw [steps, seriesSum]
  field_simp
  ring

theorem fallSum (h : K) {b : Nat} (some : 0 < b) :
    ((List.range b).map fun j : Nat => h * (b - j : Nat) / b).sum * 2 = h * (b + 1) := by
  have nonzero : (b : K) ≠ 0 := Nat.cast_ne_zero.mpr some.ne'
  have steps : (List.range b).map (fun j : Nat => h * ((b - j : Nat) : K) / b) =
      (List.range b).map fun j : Nat => h + -(h / b) * (j : K) := by
    refine List.map_congr_left fun j mem => ?_
    rw [Nat.cast_sub (List.mem_range.mp mem).le]
    field_simp
    ring
  rw [steps, seriesSum]
  field_simp
  ring

variable {bins left center right : Nat} {width : K}

/-- The weights below the center are an arithmetic series, and those from it on are another one. -/
theorem ofEdgesSum (rising : left < center) (inside : center < bins) (inside' : right < bins) :
    (ofEdges (Nat.cast : Nat → K) bins width left center right).weights.sum =
      2 / (((max right (center + 1) - left : Nat) : K) * width) * ((max right (center + 1) - left : Nat) / 2) := by
  obtain ⟨a, some, rfl⟩ : ∃ a, 0 < a ∧ center = left + a := ⟨center - left, by omega, by omega⟩
  obtain ⟨b, more, behind⟩ : ∃ b, 0 < b ∧ max right (left + a + 1) = left + a + b :=
    ⟨max right (left + a + 1) - (left + a), by omega, by omega⟩
  have middle : max (left + a) left = left + a := by omega
  have last : min (left + a + b) bins - left = a + b := by omega
  have wide : left + a + b - left = a + b := by omega
  simp only [ofEdges, middle]
  rw [behind, last, wide, ← List.range'_append_1, List.map_append, List.sum_append, List.range'_eq_map_range,
    List.range'_eq_map_range, List.map_map, List.map_map, Nat.cast_ofNat]
  generalize (2 : K) / (((a + b : Nat) : K) * width) = h
  have rise := riseSum h some
  have fall := fallSum h more
  refine (congrArg₂ (· + ·) (congrArg List.sum (List.map_congr_left (g := fun j : Nat => h * j / a) ?_))
    (congrArg List.sum (List.map_congr_left (g := fun j : Nat => h * (b - j : Nat) / b) ?_))).trans ?_
  · intro j mem
    have less := List.mem_range.mp mem
    have before : left + j < left + a := by omega
    simp only [Function.comp_apply, if_pos before, Nat.add_sub_cancel_left]
  · intro j mem
    have after : ¬ left + a + j < left + a := by omega
    have rest : left + a + b - (left + a + j) = b - j := by omega
    simp only [Function.comp_apply, if_neg after, rest, Nat.add_sub_cancel_left]
    split
    next center =>
      have none : j = 0 := by omega
      rw [none, Nat.sub_zero, mul_div_cancel_right₀ h (Nat.cast_ne_zero.mpr more.ne')]
    next => rfl
  · push_cast
    linear_combination (rise + fall) / 2

theorem ofEdgesArea (positive : 0 < width) (rising : left < center) (inside : center < bins) (inside' : right < bins) :
    (ofEdges (Nat.cast : Nat → K) bins width left center right).weights.sum * width = 1 := by
  have some : ((max right (center + 1) - left : Nat) : K) ≠ 0 := by
    rw [Nat.cast_ne_zero]
    omega
  rw [ofEdgesSum rising inside inside']
  field_simp

end

end Filter

/-! ### Under watch -/

/-- A number, unless something was divided by zero on the way to it. -/
structure Watched where
  value : Option Float32

namespace Watched

def of (x : Float32) : Watched := ⟨some x⟩

instance : Mul Watched := ⟨fun x y => ⟨x.value.bind fun a => y.value.map (a * ·)⟩⟩

instance : Div Watched :=
  ⟨fun x y => ⟨x.value.bind fun a => y.value.bind fun b => if b == 0 then none else some (a / b)⟩⟩

theorem mulOf (x y : Float32) : of x * of y = of (x * y) := rfl

theorem divOf (x : Float32) {y : Float32} (positive : 0 < y) : of x / of y = of (x / y) := by
  have nonzero : (y == 0) = false := Binary.notZero positive
  have divided : of x / of y = ⟨if y == 0 then none else some (x / y)⟩ := rfl
  rw [divided, nonzero]
  rfl

end Watched

namespace Filter

theorem ofEdgesWatched {bins left center right : Nat} {width : Float32} (positive : 0 < width) :
    ofEdges (fun n => Watched.of (Binary.ofNatural32 n)) bins (.of width) left center right =
      (ofEdges Binary.ofNatural32 bins width left center right).map Watched.of := by
  have wide : 0 < max right (max center left + 1) - left := by omega
  have height := Watched.divOf (Binary.ofNatural32 2) (Binary.scaledAbove wide positive)
  simp only [ofEdges, map, Watched.mulOf, height, List.map_map]
  congr 1
  refine List.map_congr_left fun k mem => ?_
  have least := (List.mem_range'_1.mp mem).1
  simp only [Function.comp_apply]
  split
  next below => exact Watched.divOf _ (Binary.naturalAbove (by omega))
  next =>
    split
    next => rfl
    next => exact Watched.divOf _ (Binary.naturalAbove (by omega))

/-- The energy by reading for each weight the power at its place. -/
def energy? (f : Filter Float32) (spectrum : List Float32) : Option Float32 := do
  let products ← f.weights.zipIdx.mapM fun x => spectrum[f.first + x.2]?.map (x.1 * ·)
  some (products.foldl (· + ·) 0)

theorem productsRead {spectrum : List Float32} (first : Nat) {weights : List Float32} {k : Nat}
    (within : first + k + weights.length ≤ spectrum.length) :
    (weights.zipIdx k).mapM (fun x => spectrum[first + x.2]?.map (x.1 * ·)) =
      some (List.zipWith (· * ·) weights (spectrum.drop (first + k))) := by
  induction weights generalizing k with
  | nil => rfl
  | cons w rest ih =>
    rw [List.length_cons] at within
    have inside : first + k < spectrum.length := by omega
    have later := @ih (k + 1) (by omega)
    rw [List.zipIdx_cons, List.mapM_cons, later, List.drop_eq_getElem_cons inside, List.getElem?_eq_getElem inside]
    rfl

theorem energyRead {f : Filter Float32} {spectrum : List Float32}
    (within : f.first + f.weights.length ≤ spectrum.length) :
    f.energy? spectrum = some (f.energy spectrum) := by
  have read := @productsRead spectrum f.first f.weights 0 within
  rw [energy?, read]
  rfl

theorem bankWatched {bins count : Nat} {edge : Nat → Nat} {width : Float32} (positive : 0 < width) :
    bank (fun n => Watched.of (Binary.ofNatural32 n)) bins (.of width) edge count =
      (bank Binary.ofNatural32 bins width edge count).map (map Watched.of) := by
  rw [bank, bank, List.map_map]
  exact List.map_congr_left fun i _ => ofEdgesWatched positive

theorem ofEdgesUnsigned {bins left center right : Nat} {width : Float32} (positive : 0 < width) :
    ∀ w ∈ (ofEdges Binary.ofNatural32 bins width left center right).weights, Binary.Unsigned (Single.unpacked w) := by
  obtain ⟨size, -, -, reads⟩ := Binary.aboveZero.mp positive
  exact ofEdgesClosed (P := fun x => Binary.Unsigned (Single.unpacked x)) _
    (fun x y first second => (first.mul second).pack) (fun x y first second => (first.div second).pack)
    Binary.naturalUnsigned reads.unsigned

/-- The filters between edges that lie in the spectrum, over singles and over exact numbers. -/
theorem filtersEveryShape (size count : Nat) {edge : Nat → Nat} (inside : ∀ i ≤ count + 1, edge i < size / 2 + 1)
    {width : Float32} (positive : 0 < width) {K : Type} [Field K] [LinearOrder K] [IsStrictOrderedRing K] {wide : K}
    (positive' : 0 < wide) :
    let filters := bank Binary.ofNatural32 (size / 2 + 1) width edge count
    let exact := bank (Nat.cast : Nat → K) (size / 2 + 1) wide edge count
    filters.length = count ∧ exact.length = count ∧
      bank (fun n => Watched.of (Binary.ofNatural32 n)) (size / 2 + 1) (.of width) edge count =
        filters.map (map Watched.of) ∧
      (∀ (i : Nat) (f : Filter Float32), filters[i]? = some f →
        f.Placed (size / 2 + 1) (max (edge (i + 1)) (edge i)) ∧
        (∀ w ∈ f.weights, ¬ w < 0) ∧
        ∀ spectrum : List Float32, spectrum.length = size / 2 + 1 → f.energy? spectrum = some (f.energy spectrum)) ∧
      ∀ (i : Nat) (f : Filter K), exact[i]? = some f → f.Placed (size / 2 + 1) (max (edge (i + 1)) (edge i)) ∧
        (∀ w ∈ f.weights, 0 ≤ w) ∧ (edge i < edge (i + 1) → f.weights.sum * wide = 1) := by
  intro filters exact
  refine ⟨bankLength _ edge count, bankLength _ edge count, bankWatched positive, fun i f found => ?_,
    fun i f found => ?_⟩
  · obtain ⟨few, rfl⟩ := bankAt _ found
    have placed := ofEdgesPlaced Binary.ofNatural32 width (edge (i + 2)) (inside i (by omega))
      (inside (i + 1) (by omega))
    refine ⟨placed, fun w mem => Binary.notNegative (ofEdgesUnsigned positive w mem), fun spectrum sized => ?_⟩
    exact energyRead (sized ▸ placed.within)
  · obtain ⟨few, rfl⟩ := bankAt _ found
    refine ⟨ofEdgesPlaced _ _ _ (inside i (by omega)) (inside (i + 1) (by omega)), ?_, fun rising => ?_⟩
    · exact ofEdgesClosed _ (fun x y => mul_nonneg) (fun x y => div_nonneg) Nat.cast_nonneg positive'.le
    · exact ofEdgesArea positive' rising (inside (i + 1) (by omega)) (inside (i + 2) (by omega))

/-- A filter that falls at once, one that does not rise, and one whose center is the last frequency. -/
theorem filtersOfThreeShapes :
    let edge : Nat → Nat := fun i => [0, 2, 2, 4, 4].getD i 0
    let filters := bank Binary.ofNatural32 5 0.5 edge 3
    let exact := bank (Nat.cast : Nat → ℚ) 5 (1 / 2) edge 3
    (∀ i ≤ 3 + 1, edge i < 8 / 2 + 1) ∧ (0 : Float32) < 0.5 ∧ (0 : ℚ) < 1 / 2 ∧
      bank (fun n => Watched.of (Binary.ofNatural32 n)) 5 (.of 0.5) edge 3 = filters.map (map Watched.of) ∧
      (∀ (i : Nat) (f : Filter Float32), filters[i]? = some f →
        f.Placed 5 (max (edge (i + 1)) (edge i)) ∧ ∀ w ∈ f.weights, ¬ w < 0) ∧
      (∀ (i : Nat) (f : Filter ℚ), exact[i]? = some f → edge i < edge (i + 1) → f.weights.sum * (1 / 2) = 1) ∧
      filters.map (fun f => (f.first, f.weights.length)) = [(0, 3), (2, 2), (2, 3)] ∧
      exact.map (fun f => f.weights.sum * (1 / 2)) = [1, 3 / 2, 1] := by
  intro edge filters exact
  have inside : ∀ i ≤ 3 + 1, edge i < 8 / 2 + 1 := by decide
  have positive : (0 : Float32) < 0.5 := by decide +kernel
  have half : (0 : ℚ) < 1 / 2 := by norm_num
  obtain ⟨-, -, watched, singles, numbers⟩ := filtersEveryShape 8 3 inside positive half
  refine ⟨inside, positive, half, watched, fun i f found => ?_, fun i f found => ?_, by decide +kernel,
    by decide +kernel⟩
  · obtain ⟨placed, unsigned, -⟩ := singles i f found
    exact ⟨placed, unsigned⟩
  · exact (numbers i f found).2.2

end Filter

/-! ### The filters of the settings -/

theorem Spectrum.placesLength (levels : Nat) : (places levels).length = 2 ^ levels := by
  induction levels with
  | zero => rfl
  | succ levels ih =>
    simp only [places, List.length_append, List.length_map, ih]
    omega

section
variable [Elementary]

theorem Spectrum.powerLength (size : Nat) (window : List Float32) :
    ((Plan.ofSize size).power window).length = 2 ^ size.log2 / 2 + 1 := by
  simp [Plan.power, Plan.ofSize, placesLength]

theorem Filterbank.edgeInside (s : Settings) (i : Nat) : edge s i < s.fftSize / 2 + 1 :=
  Nat.lt_succ_of_le (Nat.min_le_right _ _)

/-- No energy of a cepstrum is read outside its spectrum. -/
theorem Analysis.energiesRead (usual : Elementary.power = Spectrum.Plan.power) {s : Settings}
    (whole : 2 ^ s.fftSize.log2 = s.fftSize) (window : List Float32) :
    let spectrum := Elementary.power (Analysis.ofSettings s).plan window
    ∀ f ∈ (Analysis.ofSettings s).filters, f.energy? spectrum = some (f.energy spectrum) := by
  intro spectrum f mem
  have sized : spectrum.length = s.fftSize / 2 + 1 := by
    have length := Spectrum.powerLength s.fftSize window
    rw [whole] at length
    exact (congrArg (fun p => (p (Analysis.ofSettings s).plan window).length) usual).trans length
  obtain ⟨i, -, rfl⟩ := List.mem_map.mp mem
  have placed := Filter.ofEdgesPlaced Binary.ofNatural32 (Filterbank.width s) (Filterbank.edge s (i + 2))
    (Filterbank.edgeInside s i) (Filterbank.edgeInside s (i + 1))
  exact Filter.energyRead (sized ▸ placed.within)

end

end SpeechDecoder.Feature
