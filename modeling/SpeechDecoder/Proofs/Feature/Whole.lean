import Mathlib.Logic.Function.Iterate
import SpeechDecoder.Proofs.Feature.Sizes

/-! The front end as a function of the whole utterance: all samples with noise and pre-emphasis, all windows, all
cepstra less their mean, and for each of these a frame that looks at its neighbours. -/
namespace SpeechDecoder.Feature

/-- What is drawn after `t` other draws. -/
def Dither.drawn (d : Dither) (t : Nat) : Float32 := (⟨d.seed, step^[t] d.state⟩ : Dither).next.1

namespace Signal

/-- The samples, each with the draw of its number added to it if there is noise. -/
def noisy (d : Option Dither) (samples : List Int16) : List Float32 :=
  samples.mapIdx fun t sample => match d with
    | none => Binary.ofInteger32 sample.toInt
    | some d => Binary.ofInteger32 sample.toInt + d.drawn t

/-- Each value less a share of the one before it. -/
def emphasized (share before : Float32) (xs : List Float32) : List Float32 :=
  List.zipWith (fun x prior => x - share * prior) xs (before :: xs)

theorem noisyMore (d : Option Dither) (sample : Int16) (rest : List Int16) :
    noisy d (sample :: rest) = (noise d (Binary.ofInteger32 sample.toInt)).1 ::
      noisy (noise d (Binary.ofInteger32 sample.toInt)).2 rest := by
  cases d with
  | none => exact List.mapIdx_cons
  | some d => exact List.mapIdx_cons

theorem extendValues (g : Signal) (samples : List Int16) :
    (g.extend samples).values.toList =
      g.values.toList ++ emphasized g.emphasis g.prior (noisy g.dither samples) := by
  induction samples generalizing g with
  | nil => simp [extend, emphasized, noisy]
  | cons sample rest ih =>
    refine (ih (g.pushSample sample)).trans ?_
    simp [pushSample, emphasized, noisyMore]

end Signal

/-- The number of windows of which all samples are there. -/
def windowCount (length shift samples : Nat) : Nat :=
  if samples < length then 0 else (samples - length) / shift + 1

theorem ltCount {length shift : Nat} (apart : 0 < shift) (k samples : Nat) :
    k < windowCount length shift samples ↔ k * shift + length ≤ samples := by
  unfold windowCount
  split
  · have := Nat.zero_le (k * shift)
    omega
  · rw [Nat.lt_succ_iff, Nat.le_div_iff_mul_le apart]
    omega

/-- The number of samples up to the end of the last one of so many windows. -/
def covered (length shift windows : Nat) : Nat := if windows = 0 then 0 else (windows - 1) * shift + length

/-- The full windows, and what follows the start of the next one if some value is in no window yet. -/
def windowsOf {β : Type} (length shift : Nat) (values : List β) : List (List β) :=
  let count := windowCount length shift values.length
  (List.range count).map (fun k => (values.drop (k * shift)).take length) ++
    if count * shift < values.length ∧ covered length shift count < values.length then
      [values.drop (count * shift)]
    else []

section
variable {β : Type} {length shift : Nat} {values : List β} {k : Nat}

theorem windowFull (full : k < windowCount length shift values.length) :
    (windowsOf length shift values)[k]? = some ((values.drop (k * shift)).take length) := by
  unfold windowsOf
  rw [List.getElem?_append_left (by simpa using full)]
  simp [full]

theorem windowShort (count : k = windowCount length shift values.length) (some : k * shift < values.length)
    (unseen : covered length shift k < values.length) :
    (windowsOf length shift values)[k]? = Option.some (values.drop (k * shift)) ∧
      (windowsOf length shift values).length = k + 1 := by
  unfold windowsOf
  dsimp only
  rw [← count, if_pos ⟨some, unseen⟩]
  simp

theorem windowsDone (count : k = windowCount length shift values.length)
    (seen : ¬ (k * shift < values.length ∧ covered length shift k < values.length)) :
    (windowsOf length shift values).length = k := by
  unfold windowsOf
  dsimp only
  rw [← count, if_neg seen]
  simp

end

/-- The cepstrum numbered `t`, or the nearest that there is. -/
def nearest (cepstra : List (List Float32)) (t : Int) : List Float32 :=
  cepstra.getD (max 0 (min t (cepstra.length - 1))).toNat []

def frameValues (streams : Streams) (cepstra : List (List Float32)) (t : Nat) : List Float32 :=
  let around (d : Int) : List Float32 := nearest cepstra (t + d)
  let first := List.zipWith (· - ·) (around 2) (around (-2))
  let second := List.zipWith (· - ·) (List.zipWith (· - ·) (around 3) (around (-1)))
    (List.zipWith (· - ·) (around 1) (around (-3)))
  match streams with
  | .static => around 0
  | .delta => around 0 ++ first
  | .deltaDelta => around 0 ++ first ++ second

theorem frameValuesSized {c : Nat} {cepstra : List (List Float32)} (all : ∀ x ∈ cepstra, x.length = c)
    (streams : Streams) {t : Nat} (inside : t < cepstra.length) :
    (frameValues streams cepstra t).length = c * streams.count := by
  have size (d : Int) : (nearest cepstra d).length = c := by
    have bound : (max 0 (min d (cepstra.length - 1))).toNat < cepstra.length := by omega
    rw [nearest, List.getD_eq_getElem?_getD, List.getElem?_eq_getElem bound, Option.getD_some]
    exact all _ (List.getElem_mem bound)
  unfold frameValues
  cases streams <;> simp [size, Streams.count] <;> omega

namespace Settings

def sampleValues (s : Settings) (samples : List Int16) : List Float32 :=
  Signal.emphasized s.emphasis 0 (Signal.noisy (if s.dither then some (Dither.make s.seed) else none) samples)

def normalized (s : Settings) (cepstra : List (List Float32)) : List (List Float32) :=
  match s.meanMode with
  | .none => cepstra
  | .live => lessRunning s.initialMean cepstra
  | .batch => lessMean cepstra

theorem normalizedLength (s : Settings) (cepstra : List (List Float32)) :
    (s.normalized cepstra).length = cepstra.length := by
  unfold normalized
  split
  · rfl
  · exact lessRunningLength s.initialMean cepstra
  · exact lessMeanLength cepstra

variable [Elementary]

def cepstraOf (s : Settings) (samples : List Int16) : List (List Float32) :=
  (windowsOf s.length s.shift (s.sampleValues samples)).map (Analysis.ofSettings s).cepstrum

/-- The frames of a whole utterance. -/
def framesOf (s : Settings) (samples : List Int16) : List (Frame Float32) :=
  let cepstra := s.normalized (s.cepstraOf samples)
  (List.range cepstra.length).map fun t => ⟨t, frameValues s.streams cepstra t⟩

theorem framesSized (s : Settings) (samples : List Int16) (place : Nat) (frame : Frame Float32)
    (found : (s.framesOf samples)[place]? = some frame) :
    frame.index = place ∧ frame.values.length = s.dimension := by
  have raw : ∀ x ∈ s.cepstraOf samples, x.length = s.cepstra := by
    intro x mem
    obtain ⟨window, _, rfl⟩ := List.mem_map.mp mem
    exact Analysis.cepstrumSized (Analysis.settingsSized s) window
  have all : ∀ x ∈ s.normalized (s.cepstraOf samples), x.length = s.cepstra := by
    unfold normalized
    split
    · exact raw
    · exact lessRunningSized s.initialMean raw
    · exact lessMeanSized raw
  simp only [framesOf, List.getElem?_map, Option.map_eq_some_iff] at found
  obtain ⟨t, here, rfl⟩ := found
  obtain ⟨inside, rfl⟩ := List.getElem?_eq_some_iff.mp here
  rw [List.length_range] at inside
  rw [List.getElem_range]
  exact ⟨rfl, frameValuesSized all s.streams inside⟩

end Settings

end SpeechDecoder.Feature
