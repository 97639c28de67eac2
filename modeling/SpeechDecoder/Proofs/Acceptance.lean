import SpeechDecoder.Models
import SpeechDecoder.Proofs.Model.Lexicon
import SpeechDecoder.Proofs.Outcome
import SpeechDecoder.Proofs.Feature.Sizes

/-! What models have that are made of parts or loaded: the checks passed, and a vocabulary that matches the language
model. -/
namespace SpeechDecoder
open Outcome

theorem Config.orFailOk {α : Type} {x : Except Config.Problem α} {a : α} (ok : Config.orFail x = .ok a) : x = .ok a := by
  cases x with
  | error p => cases ok
  | ok b => exact congrArg Except.ok (Except.ok.inj ok)

namespace Feature.Settings

/-- Windows that can be drawn, and a mean for each cepstrum. -/
structure Fit (s : Settings) : Prop where
  long : 0 < s.length
  apart : 0 < s.shift
  initial : s.initialMean.length = s.cepstra

theorem positiveIs {c : Config} {key : String} {v : Nat} (ok : positive c key = .ok v) :
    ∃ n, c.getInteger key = .ok n ∧ 0 < n ∧ v = n.toNat := by
  obtain ⟨n, read, checked⟩ := bindOk ok
  split at checked
  · next some => exact ⟨n, Config.orFailOk read, some, (Except.ok.inj checked).symm⟩
  · cases checked

/-- The checks that settings with these options have passed. -/
structure Passed (c : Config) (rate frames points : Int) (low high : Float) (s : Settings) : Prop where
  rateRead : c.getInteger "samprate" = .ok rate
  framesRead : c.getInteger "frate" = .ok frames
  pointsRead : c.getInteger "nfft" = .ok points
  lowRead : c.getNumber "lowerf" = .ok low
  highRead : c.getNumber "upperf" = .ok high
  ratePositive : 0 < rate
  framesPositive : 0 < frames
  sampleRate : s.sampleRate = rate.toNat % UInt32.size
  frameRate : s.frameRate = frames.toNat % UInt32.size
  shift : 0 < s.shift
  length : 0 < s.length
  fftSize : fftSizeOf s.length points = .ok s.fftSize
  cepstra : 0 < s.cepstra
  filters : s.cepstra ≤ s.filters
  initialMean : s.initialMean.length = s.cepstra
  lowest : s.lowest = Binary.narrow low
  highest : s.highest = Binary.narrow high
  band : ¬ (s.lowest < 0 ∨ s.highest ≤ s.lowest ∨ Binary.ofNatural32 rate.toNat / 2 < s.highest)

theorem ofConfigPassed (c : Config) :
    Ensures (ofConfig c) fun s => ∃ rate frames points low high, s.Passed c rate frames points low high := by
  unfold ofConfig
  refine ensuresBind fun sampleRate rateOk => ?_
  refine ensuresBind fun frameRate framesOk => ?_
  refine ensuresBind fun seconds _ => ?_
  refine ensuresCheck fun long => ?_
  refine ensuresBind fun points pointsOk => ?_
  refine ensuresBind fun fftSize fftOk => ?_
  refine ensuresBind fun filters _ => ?_
  refine ensuresBind fun cepstra cepstraOk => ?_
  refine ensuresCheck fun fewer => ?_
  refine ensuresBind fun given _ => ?_
  refine ensuresCheck fun _ => ?_
  refine ensuresBind fun low lowOk => ?_
  refine ensuresBind fun high highOk => ?_
  refine ensuresCheck fun band => ?_
  refine ensuresBind fun name _ => ?_
  dsimp only
  split
  · refine ensuresBind fun lifter _ => ?_
    refine ensuresCheck fun _ => ?_
    refine ensuresBind fun gain _ => ?_
    refine ensuresCheck fun _ => ?_
    refine ensuresBind fun variance _ => ?_
    refine ensuresCheck fun _ => ?_
    refine ensuresBind fun kind _ => ?_
    split
    · refine ensuresBind fun mode _ => ?_
      split
      · refine ensuresBind fun given _ => ?_
        refine ensuresBind fun mean _ => ?_
        refine ensuresCheck fun few => ?_
        refine ensuresBind fun order _ => ?_
        refine ensuresCheck fun _ => ?_
        refine ensuresBind fun emphasis _ => ?_
        refine ensuresBind fun dither _ => ?_
        refine ensuresBind fun seed _ => ?_
        refine ensuresBind fun removeOffset _ => ?_
        obtain ⟨rate, rateRead, ratePositive, rfl⟩ := positiveIs rateOk
        obtain ⟨frames, framesRead, framesPositive, rfl⟩ := positiveIs framesOk
        obtain ⟨n, -, some, rfl⟩ := positiveIs cepstraOk
        refine ensuresOk ⟨rate, frames, points, low, high, ?_⟩
        exact {
          rateRead, framesRead, ratePositive, framesPositive
          pointsRead := Config.orFailOk pointsOk
          lowRead := Config.orFailOk lowOk
          highRead := Config.orFailOk highOk
          sampleRate := rfl
          frameRate := rfl
          shift := Nat.lt_of_lt_of_le Nat.one_pos (Nat.le_max_left _ _)
          length := Nat.pos_of_ne_zero long
          fftSize := fftOk
          cepstra := Int.pos_iff_toNat_pos.mp some
          filters := Nat.le_of_not_lt fewer
          initialMean := by simp only [List.length_append, List.length_replicate]; omega
          lowest := rfl
          highest := rfl
          band }
      · exact ensuresError
    · exact ensuresError
  · exact ensuresError

theorem ofConfigMade (c : Config) : Ensures (ofConfig c) fun s => s.Fit ∧ 0 < s.cepstra := by
  intro s made
  obtain ⟨_, _, _, _, _, passed⟩ := ofConfigPassed c s made
  exact ⟨⟨passed.length, passed.shift, passed.initialMean⟩, passed.cepstra⟩

theorem ofConfigFit (c : Config) : Ensures (ofConfig c) Fit := fun s made => (ofConfigMade c s made).1

theorem dimensionPositive {c : Config} {s : Settings} (made : ofConfig c = .ok s) : 0 < s.dimension := by
  have streams : 0 < s.streams.count := by cases s.streams <;> decide
  exact Nat.mul_pos (ofConfigMade c s made).2 streams

end Feature.Settings

namespace Models

structure Fit (m : Models) : Prop where
  features : m.features.Fit
  dimension : m.knowledge.scorer.dimension = m.features.dimension

theorem checkFits {features : Feature.Settings} {k : Search.Knowledge Float32} (checked : check features k = .ok ()) :
    k.phones.matrices ≤ k.transitions.values.size / (k.transitions.states * (k.transitions.states + 1)) ∧
      k.transitions.states = k.phones.states ∧ k.phones.senones ≤ k.scorer.senones ∧
      k.scorer.dimension = features.dimension := by
  unfold check at checked
  obtain ⟨held, counted, checked⟩ := bindOk checked
  obtain ⟨enough, checked⟩ := Outcome.checkOk checked
  obtain ⟨states, checked⟩ := Outcome.checkOk checked
  obtain ⟨senones, checked⟩ := Outcome.checkOk checked
  have same : held = k.transitions.values.size / (k.transitions.states * (k.transitions.states + 1)) := by
    unfold Model.Transitions.count checkedDiv at counted
    split at counted <;> cases counted
    rfl
  split at checked
  · cases checked
  · exact ⟨same ▸ Nat.le_of_not_lt enough, Decidable.not_not.mp states, Nat.le_of_not_lt senones,
      Decidable.not_not.mp ‹_›⟩

variable [Elementary]

section
variable {config : Config} {phones : Model.PhoneSet} {transitions : Model.Transitions Float32}
  {scorer : Model.Scorer Float32} {language : Model.Ngram Float32} {lexicon : Model.Lexicon}

theorem ofPartsMade {m : Models} (made : ofParts config phones transitions scorer language lexicon = .ok m) :
    ∃ features params, Feature.Settings.ofConfig config = .ok features ∧
      check features { params, phones, transitions, scorer, language, lexicon } = .ok () ∧
      m = { config, features, knowledge := { params, phones, transitions, scorer, language, lexicon } } := by
  obtain ⟨features, accepted, made⟩ := bindOk made
  obtain ⟨params, _, made⟩ := bindOk made
  obtain ⟨_, checked, made⟩ := bindOk made
  cases made
  exact ⟨features, params, accepted, checked, rfl⟩

end

theorem ofPartsFit (config : Config) (phones : Model.PhoneSet) (transitions : Model.Transitions Float32)
    (scorer : Model.Scorer Float32) (language : Model.Ngram Float32) (lexicon : Model.Lexicon) :
    Ensures (ofParts config phones transitions scorer language lexicon) Fit := by
  intro m made
  obtain ⟨features, params, accepted, checked, rfl⟩ := ofPartsMade made
  exact ⟨Feature.Settings.ofConfigFit config features accepted, (checkFits checked).2.2.2⟩

/-- The mixture of the densities and weights that a configuration names. -/
def readMixture (files : FileTree) (config : Config) : Outcome Model.Mixture := do
  let paths ← Paths.ofConfig files config
  let config ← supplied files config paths.parameters
  let gaussians ← Model.Gaussians.load files paths.means paths.variances (← single config "varfloor")
  let weights ← Model.Weights.load files paths.weights (← single config "mixwfloor")
  (Model.Mixture.ofParts gaussians weights).mapError fun p => .model paths.means p.message

theorem loadMade {files : FileTree} {config : Config} {m : Models} (loaded : load files config = .ok m) :
    ∃ (paths : Paths) (options : Config) (phones : Model.PhoneSet) (transitions : Model.Transitions Float32)
      (mixture : Model.Mixture) (dictionary : Model.Dictionary) (language : Model.Ngram Float32)
      (lexicon : Model.Lexicon),
      Model.PhoneSet.load files paths.phones = .ok phones ∧ readMixture files config = .ok mixture ∧
      Model.Dictionary.load files paths.dictionary paths.fillers phones = .ok dictionary ∧
      Model.Ngram.load files paths.language = .ok language ∧
      Model.Lexicon.build dictionary language = .ok lexicon ∧
      ofParts options phones transitions mixture.scorer language lexicon = .ok m := by
  unfold load at loaded
  obtain ⟨paths, named, loaded⟩ := bindOk loaded
  obtain ⟨options, given, loaded⟩ := bindOk loaded
  obtain ⟨phones, readPhones, loaded⟩ := bindOk loaded
  obtain ⟨_, _, loaded⟩ := bindOk loaded
  obtain ⟨transitions, _, loaded⟩ := bindOk loaded
  obtain ⟨_, floor, loaded⟩ := bindOk loaded
  obtain ⟨gaussians, readGaussians, loaded⟩ := bindOk loaded
  obtain ⟨_, floor', loaded⟩ := bindOk loaded
  obtain ⟨weights, readWeights, loaded⟩ := bindOk loaded
  obtain ⟨_, loaded⟩ := Outcome.checkOk loaded
  obtain ⟨mixture, mixed, loaded⟩ := bindOk loaded
  obtain ⟨dictionary, readDictionary, loaded⟩ := bindOk loaded
  obtain ⟨language, readLanguage, loaded⟩ := bindOk loaded
  obtain ⟨lexicon, built, loaded⟩ := bindOk loaded
  refine ⟨paths, options, phones, transitions, mixture, dictionary, language, lexicon, readPhones, ?_,
    readDictionary, readLanguage, mapErrorOk built, ?_⟩
  · simp only [readMixture, named, given, floor, readGaussians, floor', readWeights, bind, Except.bind]
    exact mixed
  · split at loaded
    · cases loaded
    · exact loaded

theorem loadMatches (files : FileTree) (config : Config) :
    Ensures (load files config) fun m => m.knowledge.lexicon.Matches m.knowledge.language := by
  intro m loaded
  obtain ⟨_, _, phones, _, _, _, _, _, _, _, read, _, built, made⟩ := loadMade loaded
  obtain ⟨_, _, _, _, rfl⟩ := ofPartsMade made
  exact Model.Lexicon.buildMatches (Model.Dictionary.loadParsed _ _ _ phones _ read).spelled built

end Models

end SpeechDecoder
