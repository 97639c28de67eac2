import SpeechDecoder.Config.Settings

/-! Settings of the acoustic front end, checked. Sizes are counted in samples: a window of `length`
samples starts every `shift` samples and is transformed at `fftSize` points. -/
namespace SpeechDecoder.Feature

inductive Streams where
  | static
  | delta
  | deltaDelta
  deriving DecidableEq, Repr

namespace Streams

def count : Streams → Nat
  | .static => 1
  | .delta => 2
  | .deltaDelta => 3

def context : Streams → Nat
  | .static => 0
  | .delta => 2
  | .deltaDelta => 3

def read? : String → Option Streams
  | "1s_c" => some .static
  | "1s_c_d" => some .delta
  | "1s_c_d_dd" => some .deltaDelta
  | _ => none

end Streams

inductive Transform where
  | legacy
  | dct
  | htk
  deriving DecidableEq, Repr

def Transform.read? : String → Option Transform
  | "legacy" => some .legacy
  | "dct" => some .dct
  | "htk" => some .htk
  | _ => none

inductive MeanMode where
  | none
  | live
  | batch
  deriving DecidableEq, Repr

def MeanMode.read? : String → Option MeanMode
  | "none" => some .none
  | "live" => some .live
  | "batch" => some .batch
  | "current" => some .batch
  | _ => Option.none

structure Settings where
  sampleRate : Nat
  frameRate : Nat
  shift : Nat
  length : Nat
  fftSize : Nat
  filters : Nat
  lowest : Float32
  highest : Float32
  cepstra : Nat
  emphasis : Float32
  transform : Transform
  lifter : Nat
  dither : Bool
  seed : Int
  removeOffset : Bool
  bigEndian : Bool
  streams : Streams
  meanMode : MeanMode
  initialMean : List Float32

def Settings.dimension (s : Settings) : Nat := s.cepstra * s.streams.count

inductive Problem where
  | notPositive (key : String) (value : Int)
  | windowTooShort (seconds : Float)
  | fftSize (value : Int) (length : Nat)
  | moreCepstraThanFilters (cepstra filters : Nat)
  | cepstraDiffer (given cepstra : Nat)
  | band (lowest highest limit : Float32)
  | transform (name : String)
  | negativeLifter
  | gainControl (name : String)
  | varianceNormalization
  | streams (name : String)
  | meanMode (name : String)
  | initialMean (text : String)
  | initialMeanLength (given cepstra : Nat)
  | byteOrder (name : String)

def Problem.message : Problem → String
  | .notPositive key value => s!"'-{key}' must be positive, got {value}"
  | .windowTooShort seconds =>
    let written := String.ofList (Decimal.plainFloat seconds)
    s!"window length {written} s is too short"
  | .fftSize value length =>
    s!"'-nfft' must be a power of two of at least {length} samples, got {value}"
  | .moreCepstraThanFilters cepstra filters =>
    s!"'-ncep' ({cepstra}) cannot exceed '-nfilt' ({filters})"
  | .cepstraDiffer given cepstra => s!"'-ceplen' ({given}) must equal '-ncep' ({cepstra})"
  | .band lowest highest limit =>
    let low := String.ofList (Decimal.plainFloat32 lowest)
    let high := String.ofList (Decimal.plainFloat32 highest)
    let top := String.ofList (Decimal.plainFloat32 limit)
    s!"filter band {low}..{high} Hz must lie within 0..{top} Hz"
  | .transform name => s!"unknown cepstral transform '{name}'"
  | .negativeLifter => "'-lifter' cannot be negative"
  | .gainControl name => s!"automatic gain control '{name}' is not supported"
  | .varianceNormalization => "cepstral variance normalization is not supported"
  | .streams name => s!"unsupported feature type '{name}'"
  | .meanMode name => s!"unknown CMN mode '{name}'"
  | .initialMean text => s!"bad '-cmninit' value '{text}'"
  | .initialMeanLength given cepstra =>
    s!"'-cmninit' has {given} values but there are only {cepstra} cepstra"
  | .byteOrder name => s!"unknown input byte order '{name}'"

def Problem.failure (p : Problem) : Failure := .configuration p.message

def reject {α : Type} (p : Problem) : Outcome α := .error p.failure

/-- The least power of two that is not below `n`; zero when it is no word. -/
def powerAbove (n : Nat) : Nat :=
  let p := if n ≤ 1 then 1 else Nat.pow 2 (Nat.log2 (n - 1) + 1)
  if p < Nat.pow 2 wordBits then p else 0

def isPowerOfTwo (n : Nat) : Bool := n != 0 && n == Nat.pow 2 (Nat.log2 n)

def positive (c : Config) (key : String) : Outcome Nat := do
  let n ← Config.orFail (c.getInteger key)
  if 0 < n then .ok n.toNat else reject (.notPositive key n)

def textOr (c : Config) (key initial : String) : Outcome String := do
  let s ← Config.orFail (c.getText key)
  .ok (s.getD initial)

/-- The items of a list separated by commas, without blanks around them; empty items do not count. -/
def items (s : List Char) : List (List Char) :=
  ((s.splitOn ',').map Text.trim).filter (!·.isEmpty)

def readMean : List (List Char) → Outcome (List Float32)
  | [] => .ok []
  | s :: rest =>
    match Text.float32? s with
    | none => reject (.initialMean (String.ofList s))
    | some x => do
      let xs ← readMean rest
      .ok (x :: xs)

def fftSizeOf (length : Nat) (n : Int) : Outcome Nat :=
  if n = 0 then .ok (powerAbove length)
  else if 0 < n ∧ isPowerOfTwo n.toNat ∧ length ≤ n.toNat then .ok n.toNat
  else reject (.fftSize n length)

/-- The settings that a configuration asks for; of several faults the first in this order counts. -/
def Settings.ofConfig (c : Config) : Outcome Settings := do
  let sampleRate ← positive c "samprate"
  let frameRate ← positive c "frate"
  let rate := Binary.ofNatural sampleRate
  let shift := max 1 (Binary.roundToWord (rate / Binary.ofNatural frameRate))
  let seconds ← Config.orFail (c.getNumber "wlen")
  let length := Binary.roundToWord (seconds * rate)
  if length = 0 then reject (.windowTooShort seconds)
  let size ← Config.orFail (c.getInteger "nfft")
  let fftSize ← fftSizeOf length size
  let filters ← positive c "nfilt"
  let cepstra ← positive c "ncep"
  if filters < cepstra then reject (.moreCepstraThanFilters cepstra filters)
  let given ← positive c "ceplen"
  if given ≠ cepstra then reject (.cepstraDiffer given cepstra)
  let lowest := Binary.narrow (← Config.orFail (c.getNumber "lowerf"))
  let highest := Binary.narrow (← Config.orFail (c.getNumber "upperf"))
  let limit := Binary.ofNatural32 sampleRate / 2
  if lowest < 0 ∨ highest ≤ lowest ∨ limit < highest then reject (.band lowest highest limit)
  let name ← textOr c "transform" "legacy"
  let some transform := Transform.read? name | reject (.transform name)
  let lifter ← Config.orFail (c.getInteger "lifter")
  if lifter < 0 then reject .negativeLifter
  let gain ← textOr c "agc" "none"
  if gain ≠ "none" then reject (.gainControl gain)
  if ← Config.orFail (c.getFlag "varnorm") then reject .varianceNormalization
  let kind ← textOr c "feat" "1s_c_d_dd"
  let some streams := Streams.read? kind | reject (.streams kind)
  let mode ← textOr c "cmn" "live"
  let some meanMode := MeanMode.read? mode | reject (.meanMode mode)
  let mean ← readMean (items (← textOr c "cmninit" "").toList)
  if cepstra < mean.length then reject (.initialMeanLength mean.length cepstra)
  let order ← textOr c "input_endian" "little"
  if order ≠ "little" ∧ order ≠ "big" then reject (.byteOrder order)
  let emphasis ← Config.orFail (c.getNumber "alpha")
  let dither ← Config.orFail (c.getFlag "dither")
  let seed ← Config.orFail (c.getInteger "seed")
  let removeOffset ← Config.orFail (c.getFlag "remove_dc")
  .ok {
    sampleRate := sampleRate % UInt32.size, frameRate := frameRate % UInt32.size, shift, length, fftSize,
    filters, lowest, highest, cepstra, emphasis := Binary.narrow emphasis, transform,
    lifter := lifter.toNat, dither, seed, removeOffset, bigEndian := order == "big", streams,
    meanMode, initialMean := mean ++ List.replicate (cepstra - mean.length) 0 }

end SpeechDecoder.Feature
