import SpeechDecoder.Search.Params
import SpeechDecoder.Proofs.Acceptance
import SpeechDecoder.Proofs.Decimal.Narrow

/-! What the checks of a configuration are worth: which numbers the settings and the parameters that they pass can
hold. Two checks let through what they mean to refuse: comparisons are not met by what is no number, and rates are
told to be positive before they are cut to a word. -/
namespace SpeechDecoder
open Outcome

namespace Feature

theorem wordExact {n : Int} (positive : 0 < n) :
    0 < n.toNat % UInt32.size ∧ ((n.toNat % UInt32.size : Nat) : Int) = n ↔ n < UInt32.size := by
  constructor
  · rintro ⟨-, same⟩
    have inside : n.toNat % UInt32.size < UInt32.size := Nat.mod_lt _ (by decide)
    omega
  · intro below
    rw [Nat.mod_eq_of_lt (by omega)]
    omega

theorem powerAboveMany {n : Nat} (many : 1 < n) : powerAbove n =
    if 2 ^ ((n - 1).log2 + 1) < 2 ^ wordBits then 2 ^ ((n - 1).log2 + 1) else 0 := by
  unfold powerAbove
  dsimp only
  rw [if_neg (Nat.not_le_of_lt many)]
  rfl

theorem powerAboveIs {n : Nat} (few : n ≤ 2 ^ 63) : (∃ k, powerAbove n = 2 ^ k) ∧ n ≤ powerAbove n := by
  by_cases many : 1 < n
  · have less : (n - 1).log2 < 63 := (Nat.log2_lt (by omega)).mpr (by omega)
    have above : n - 1 < 2 ^ ((n - 1).log2 + 1) := Nat.lt_log2_self
    rw [powerAboveMany many, if_pos (Nat.pow_lt_pow_right (by decide) (by unfold wordBits; omega))]
    exact ⟨⟨_, rfl⟩, by omega⟩
  · have one : powerAbove n = 1 := by
      unfold powerAbove
      rw [if_pos (Nat.le_of_not_lt many)]
      rfl
    rw [one]
    exact ⟨⟨0, rfl⟩, Nat.le_of_not_lt many⟩

theorem powerAboveNone {n : Nat} (many : 2 ^ 63 < n) : powerAbove n = 0 := by
  have more : 63 ≤ (n - 1).log2 := (Nat.le_log2 (by omega)).mpr (by omega)
  rw [powerAboveMany (by omega)]
  exact if_neg (Nat.not_lt_of_le (Nat.pow_le_pow_right (by decide) (by unfold wordBits; omega)))

theorem fftSizeIs {length points : Nat} {n : Int} (ok : fftSizeOf length n = .ok points) :
    (∃ k, points = 2 ^ k) ∧ length ≤ points ↔ n ≠ 0 ∨ length ≤ 2 ^ 63 := by
  unfold fftSizeOf at ok
  split at ok
  · next none =>
    cases ok
    by_cases few : length ≤ 2 ^ 63
    · exact iff_of_true (powerAboveIs few) (.inr few)
    · refine iff_of_false ?_ (not_or.mpr ⟨not_not.mpr none, few⟩)
      rw [powerAboveNone (Nat.lt_of_not_le few)]
      rintro ⟨⟨k, power⟩, -⟩
      exact absurd power.symm (Nat.pow_pos (by decide)).ne'
  · next some =>
    split at ok
    · next power =>
      cases ok
      have exact' := (Bool.and_eq_true_iff.mp power.2.1).2
      exact iff_of_true ⟨⟨_, eq_of_beq exact'⟩, power.2.2⟩ (.inl some)
    · cases ok

/-- What settings hold that a configuration with these options is accepted for. -/
structure Settings.Checked (c : Config) (rate frames points : Int) (low high : Float) (s : Settings) : Prop
    extends s.Passed c rate frames points low high where
  rateExact : 0 < s.sampleRate ∧ (s.sampleRate : Int) = rate ↔ rate < UInt32.size
  framesExact : 0 < s.frameRate ∧ (s.frameRate : Int) = frames ↔ frames < UInt32.size
  power : (∃ k, s.fftSize = 2 ^ k) ∧ s.length ≤ s.fftSize ↔ points ≠ 0 ∨ s.length ≤ 2 ^ 63
  lowestNumber : 0 ≤ s.lowest ↔ low.isNaN = false
  highestNumber : s.highest ≤ Binary.ofNatural32 rate.toNat / 2 ↔ high.isNaN = false
  bothNumbers : s.lowest < s.highest ↔ low.isNaN = false ∧ high.isNaN = false

theorem Settings.Passed.checked {c : Config} {rate frames points : Int} {low high : Float} {s : Settings}
    (passed : s.Passed c rate frames points low high) : s.Checked c rate frames points low high := by
  have band := passed.band
  rw [passed.lowest, passed.highest, not_or, not_or] at band
  exact {
    passed with
    rateExact := passed.sampleRate ▸ wordExact passed.ratePositive
    framesExact := passed.frameRate ▸ wordExact passed.framesPositive
    power := fftSizeIs passed.fftSize
    lowestNumber := passed.lowest ▸ Binary.narrowNotNegative band.1
    highestNumber := passed.highest ▸ Binary.narrowHalf band.2.2
    bothNumbers := passed.lowest ▸ passed.highest ▸ Binary.narrowLess band.2.1 }

end Feature

/-- What is known of the natural logarithm of doubles, however it is rounded: it rises, is exact at one, and stays
within a thousand of zero from the least to the greatest positive number. -/
structure Elementary.NaturalLogarithm [Elementary] : Prop where
  rising (x y : Float) : 0 < x → x ≤ y → Elementary.ln x ≤ Elementary.ln y
  one : Elementary.ln 1 = 0
  least : -1000 ≤ Elementary.ln (Float.ofBits 1)
  greatest : Elementary.ln (Float.ofBits 0x7FEFFFFFFFFFFFFF) ≤ 1000

namespace Search
variable [Elementary]

theorem logProbabilityAtMost (laws : Elementary.NaturalLogarithm) {c : Config} {key : String} :
    Ensures (logProbability c key) (· ≤ 0) := by
  refine ensuresBind fun p _ => ?_
  split
  · next inside =>
    have below := laws.rising p 1 inside.1 inside.2
    rw [laws.one] at below
    exact ensuresOk (Binary.narrowAtMost below)
  · exact ensuresError

theorem logPenaltyFinite (laws : Elementary.NaturalLogarithm) {c : Config} {key : String} :
    Ensures (logPenalty c key) (·.isFinite = true) := by
  refine ensuresBind fun p _ => ?_
  split
  · next passed =>
    obtain ⟨above, below⟩ := Binary.positiveRange passed.1 passed.2
    have some : 0 < Float.ofBits 1 := by decide +kernel
    have low := Binary.doubleTrans laws.least (laws.rising _ p some above)
    have high := Binary.doubleTrans (laws.rising p _ passed.1 below) laws.greatest
    exact ensuresOk (Binary.narrowFinite low high)
  · exact ensuresError

/-- What parameters hold that a configuration with these options is accepted for. -/
structure Params.Checked (c : Config) (weight scale : Float) (p : Params Float32) : Prop where
  weightRead : c.getNumber "lw" = .ok weight
  scaleRead : c.getNumber "ascale" = .ok scale
  languageWeight : p.languageWeight = Binary.narrow weight
  acousticScale : p.acousticScale = Binary.narrow scale
  weightNumber : 0 ≤ p.languageWeight ↔ weight.isNaN = false
  scaleNumber : 0 < p.acousticScale ↔ scale.isNaN = false
  beam : p.beam ≤ 0
  phoneBeam : p.phoneBeam ≤ 0
  wordBeam : p.wordBeam ≤ 0
  wordPenalty : p.wordPenalty.isFinite = true
  phonePenalty : p.phonePenalty.isFinite = true

theorem Params.ofConfigChecked (laws : Elementary.NaturalLogarithm) (c : Config) :
    Ensures (ofConfig c) fun p => ∃ weight scale, p.Checked c weight scale := by
  unfold ofConfig
  refine ensuresBind fun weight weightOk => ?_
  refine ensuresCheck fun notNegative => ?_
  refine ensuresBind fun scale scaleOk => ?_
  refine ensuresCheck fun notPositive => ?_
  refine ensuresBind fun alternatives _ => ?_
  refine ensuresCheck fun _ => ?_
  refine ensuresBind fun beam beamOk => ?_
  refine ensuresBind fun phoneBeam phoneBeamOk => ?_
  refine ensuresBind fun wordBeam wordBeamOk => ?_
  refine ensuresBind fun wordPenalty wordPenaltyOk => ?_
  refine ensuresBind fun phonePenalty phonePenaltyOk => ?_
  refine ensuresBind fun silence _ => ?_
  refine ensuresBind fun filler _ => ?_
  refine ensuresBind fun active _ => ?_
  refine ensuresBind fun exits _ => ?_
  refine ensuresBind fun scoreAll _ => ?_
  refine ensuresOk ⟨weight, scale, ?_⟩
  exact {
    weightRead := Config.orFailOk weightOk
    scaleRead := Config.orFailOk scaleOk
    languageWeight := rfl
    acousticScale := rfl
    weightNumber := Binary.narrowNotNegative notNegative
    scaleNumber := Binary.narrowPositive notPositive
    beam := logProbabilityAtMost laws beam beamOk
    phoneBeam := logProbabilityAtMost laws phoneBeam phoneBeamOk
    wordBeam := logProbabilityAtMost laws wordBeam wordBeamOk
    wordPenalty := logPenaltyFinite laws wordPenalty wordPenaltyOk
    phonePenalty := logPenaltyFinite laws phonePenalty phonePenaltyOk }

end Search

namespace Config

/-- The numbers of settings and parameters that are accepted are those of the configuration, and each is within its
bounds exactly where the option is a number, and a rate where it fits a word. -/
theorem acceptedNumbers [Elementary] (laws : Elementary.NaturalLogarithm) (c : Config) :
    (∀ s, Feature.Settings.ofConfig c = .ok s →
      ∃ rate frames points low high, s.Checked c rate frames points low high) ∧
      ∀ p, Search.Params.ofConfig c = .ok p → ∃ weight scale, p.Checked c weight scale := by
  constructor
  · intro s made
    obtain ⟨rate, frames, points, low, high, passed⟩ := Feature.Settings.ofConfigPassed c s made
    exact ⟨rate, frames, points, low, high, passed.checked⟩
  · exact Search.Params.ofConfigChecked laws c

def stairs (low : Float) : List (Float × Float) → Float → Float
  | [], _ => low
  | (place, value) :: rest, x => if x < place then low else stairs value rest x

theorem stairsAbove {low : Float} {steps : List (Float × Float)} (number : low ≤ low)
    (rising : List.IsChain (· ≤ ·) (low :: steps.map Prod.snd)) (x : Float) : low ≤ stairs low steps x := by
  induction steps generalizing low with
  | nil => exact number
  | cons step rest ih =>
    obtain ⟨first, later⟩ := List.isChain_cons_cons.mp rising
    unfold stairs
    split
    · exact number
    · exact Binary.doubleTrans first (ih (Binary.doubleRefl first) later)

theorem stairsRising {low : Float} {steps : List (Float × Float)} (number : low ≤ low)
    (rising : List.IsChain (· ≤ ·) (low :: steps.map Prod.snd)) {x y : Float} (le : x ≤ y) :
    stairs low steps x ≤ stairs low steps y := by
  induction steps generalizing low with
  | nil => exact number
  | cons step rest ih =>
    obtain ⟨first, later⟩ := List.isChain_cons_cons.mp rising
    by_cases before : x < step.1
    · rw [stairs, if_pos before]
      exact stairsAbove number rising y
    · have notBefore : ¬ y < step.1 := fun less => before (Binary.doubleBelow le less)
      rw [stairs, stairs, if_neg before, if_neg notBefore]
      exact ih (Binary.doubleRefl first) later

/-- The logarithm at the probabilities and penalties of the initial configuration, in steps between them. -/
@[reducible] def steppedLogarithm : Elementary :=
  { Elementary.system with
    ln := stairs (-744.4400719213812) [(1e-48, -110.52408446371419), (7e-29, -64.82905754777201),
      (1e-8, -18.420680743952367), (0.005, -5.298317366548036), (0.65, -0.4307829160924542), (1, 0)] }

theorem steppedLaws :
    let _ := steppedLogarithm
    Elementary.NaturalLogarithm := by
  intro _
  exact {
    rising := fun x y _ le => stairsRising (by decide +kernel) (by decide +kernel) le
    one := by decide +kernel
    least := by decide +kernel
    greatest := by decide +kernel }

/-- A rate past the last word, and no number where the checks compare one. -/
def extremes : Config where
  chosen := [("samprate", .integer UInt32.size), ("lowerf", .number (0 / 0)), ("lw", .number (0 / 0))]

theorem extremesAccepted :
    let _ := steppedLogarithm
    (∃ s, Feature.Settings.ofConfig extremes = .ok s ∧ (s.sampleRate = 0 ∧ s.lowest.isNaN = true) ∧
      ∃ rate frames points low high, s.Checked extremes rate frames points low high) ∧
      ∃ p, Search.Params.ofConfig extremes = .ok p ∧ p.languageWeight.isNaN = true ∧
        ∃ weight scale, p.Checked extremes weight scale := by
  intro _
  have settings : ((Feature.Settings.ofConfig extremes).map fun s => (s.sampleRate, s.lowest.isNaN)).toOption =
      some (0, true) := by decide +kernel
  have params : ((Search.Params.ofConfig extremes).map fun p => p.languageWeight.isNaN).toOption = some true := by
    decide +kernel
  obtain ⟨s, made, zero⟩ := Outcome.mapOk settings
  obtain ⟨p, made', none⟩ := Outcome.mapOk params
  exact ⟨⟨s, made, Prod.mk.inj zero, (acceptedNumbers steppedLaws extremes).1 s made⟩,
    ⟨p, made', none, (acceptedNumbers steppedLaws extremes).2 p made'⟩⟩

end Config

end SpeechDecoder
