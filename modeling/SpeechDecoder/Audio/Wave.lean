import SpeechDecoder.Audio.Samples
import SpeechDecoder.Failure

/-! Wave files: chunks of a format and of data. Only one channel of 16-bit integers at the rate that
is asked for is read; everything else is a fault with its cause. -/
namespace SpeechDecoder.Audio

namespace Wave

inductive Problem where
  | short
  | noRiff
  | noWave
  | noFormat
  | formatSize
  | noChannels
  | bitsTooMany
  | inconsistent
  | bitsNotBytes
  | noBits
  | formatLength
  | bitsNotKnown
  | extendedSize
  | extensibleSize
  | bitsNot32
  | unsupported
  | dataLength
  | dataChannels
  | channels (found : Nat)
  | depth (bits : Nat) (isFloat : Bool)
  | rate (expected found : Nat)
  | tooWide
  deriving DecidableEq, Repr

def illFormed (reason : String) : Failure := .content s!"Ill-formed WAVE file: {reason}"

def Problem.failure : Problem → Failure
  | .short => .content "Failed to read enough bytes."
  | .noRiff => illFormed "no RIFF tag found"
  | .noWave => illFormed "no WAVE tag found"
  | .noFormat => illFormed "missing fmt chunk"
  | .formatSize => illFormed "invalid fmt chunk size"
  | .noChannels => illFormed "file contains zero channels"
  | .bitsTooMany => illFormed "sample bits exceeds size of sample"
  | .inconsistent => illFormed "inconsistent fmt chunk"
  | .bitsNotBytes => illFormed "bits per sample is not a multiple of 8"
  | .noBits => illFormed "bits per sample is 0"
  | .formatLength => illFormed "unexpected fmt chunk size"
  | .bitsNotKnown => illFormed "bits per sample is not 8 or 16"
  | .extendedSize => illFormed "unexpected WAVEFORMATEX size"
  | .extensibleSize => illFormed "unexpected WAVEFORMATEXTENSIBLE size"
  | .bitsNot32 => illFormed "bits per sample is not 32"
  | .unsupported => .content "The wave format of the file is not supported."
  | .dataLength => illFormed "data chunk length is not a multiple of sample size"
  | .dataChannels => illFormed "invalid data chunk length"
  | .channels found => .mismatch s!"expected mono WAV (1 channel), got {found} channels"
  | .depth bits isFloat =>
    let kind := if isFloat then "Float" else "Int"
    .mismatch s!"expected 16-bit integer PCM, got {bits} bits ({kind})"
  | .rate expected found => .mismatch s!"expected {expected} Hz sample rate, got {found} Hz"
  | .tooWide => .content "The sample has more bits than the destination type."

structure Spec where
  channels : Nat
  rate : Nat
  bits : Nat
  isFloat : Bool
  deriving DecidableEq, Repr

structure Format where
  spec : Spec
  sampleSize : Nat
  deriving DecidableEq, Repr

abbrev Reading := StateT (List UInt8) (Except Problem)

def take (n : Nat) : Reading (List UInt8) := fun bytes =>
  let taken := bytes.take n
  if taken.length < n then .error .short else .ok (taken, bytes.drop n)

def valueOf : List UInt8 → Nat
  | [] => 0
  | b :: rest => b.toNat + 256 * valueOf rest

def natural (n : Nat) : Reading Nat := do
  let bytes ← take n
  return valueOf bytes

def tag (s : String) : List UInt8 := s.toList.map fun c => UInt8.ofNat c.toNat

structure Fields where
  tag : Nat
  channels : Nat
  rate : Nat
  byteRate : Nat
  align : Nat
  bits : Nat
  deriving DecidableEq, Repr

def readFields : Reading Fields := do
  let tag ← natural 2
  let channels ← natural 2
  let rate ← natural 4
  let byteRate ← natural 4
  let align ← natural 2
  let bits ← natural 2
  return { tag, channels, rate, byteRate, align, bits }

def Fields.sampleSize (f : Fields) : Nat := f.align / f.channels

/-- A sample has at most as many bits as its bytes hold, which is a number of 16 bits like its own. -/
def Fields.check (f : Fields) : Except Problem Unit :=
  if f.channels = 0 then .error .noChannels
  else if 8 * f.sampleSize < f.bits ∨ UInt16.size ≤ 8 * f.sampleSize then .error .bitsTooMany
  else if f.byteRate ≠ f.align * f.rate then .error .inconsistent
  else if f.bits % 8 ≠ 0 then .error .bitsNotBytes
  else if f.bits = 0 then .error .noBits
  else .ok ()

def Fields.format (f : Fields) (bits : Nat) (isFloat : Bool) : Format :=
  ⟨⟨f.channels, f.rate, bits, isFloat⟩, f.sampleSize⟩

def integerFormat (f : Fields) (length : Nat) : Reading Format := do
  if length = 16 then return f.format f.bits false
  if length ≠ 18 ∧ length ≠ 40 then throw .formatLength
  let _ ← take 2
  if f.bits ≠ 8 ∧ f.bits ≠ 16 ∧ f.bits ≠ 24 then throw .bitsNotKnown
  let _ ← take (length - 18)
  return f.format f.bits false

def floatFormat (f : Fields) (length : Nat) : Reading Format := do
  if length ≠ 16 ∧ length ≠ 18 then throw .formatLength
  let size ← natural (length - 16)
  if size ≠ 0 then throw .extendedSize
  if f.bits ≠ 32 then throw .bitsNot32
  return f.format f.bits true

def guidTail : List UInt8 :=
  [0, 0, 0, 0, 0x10, 0, 0x80, 0, 0, 0xAA, 0, 0x38, 0x9B, 0x71]

def extensibleFormat (f : Fields) (length : Nat) : Reading Format := do
  if length < 40 then throw .formatLength
  if (← natural 2) ≠ 22 then throw .extensibleSize
  let valid ← natural 2
  let _ ← take 4
  let kind ← take 16
  let bits := if 0 < valid then valid else f.bits
  if kind = 1 :: 0 :: guidTail then return f.format bits false
  else if kind = 3 :: 0 :: guidTail then return f.format bits true
  else throw .unsupported

def readFormat (length : Nat) : Reading Format := do
  if length < 16 then throw .formatSize
  let f ← readFields
  f.check
  if f.tag = 1 then integerFormat f length
  else if f.tag = 3 then floatFormat f length
  else if f.tag = 0xFFFE then extensibleFormat f length
  else throw .unsupported

/-- Reads chunks up to the data, for its format and length. The fuel bounds the number of chunks. -/
def readChunks : Nat → Option Format → Reading (Format × Nat)
  | 0, _ => throw .short
  | fuel + 1, format => do
    let kind ← take 4
    let length ← natural 4
    if kind = tag "fmt " then
      let format ← readFormat length
      readChunks fuel (some format)
    else if kind = tag "fact" then
      let _ ← take 4
      readChunks fuel format
    else if kind = tag "data" then
      match format with
      | none => throw .noFormat
      | some format => return (format, length)
    else
      let _ ← take length
      readChunks fuel format

def readHeader : Reading (Format × Nat) := do
  if (← take 4) ≠ tag "RIFF" then throw .noRiff
  let _ ← take 4
  if (← take 4) ≠ tag "WAVE" then throw .noWave
  -- a chunk takes at least eight bytes
  let (format, length) ← readChunks ((← get).length + 1) none
  if length % format.sampleSize ≠ 0 then throw .dataLength
  if length / format.sampleSize % format.spec.channels ≠ 0 then throw .dataChannels
  return (format, length)

def readSamples : Nat → List UInt8 → Except Problem (List Int16)
  | 0, _ => .ok []
  | n + 1, low :: high :: rest => do
    let xs ← readSamples n rest
    .ok (sampleOf low high :: xs)
  | _ + 1, _ => .error .short

def read (rate : Nat) (bytes : List UInt8) : Except Problem (List Int16 × Spec) := do
  let ((format, length), bytes) ← readHeader.run bytes
  let spec := format.spec
  if spec.channels ≠ 1 then .error (.channels spec.channels)
  if spec.isFloat ∨ spec.bits ≠ 16 then .error (.depth spec.bits spec.isFloat)
  if spec.rate ≠ rate then .error (.rate rate spec.rate)
  let count := length / format.sampleSize
  if format.sampleSize = 2 ∨ count = 0 then
    let samples ← readSamples count bytes
    .ok (samples, spec)
  else if 2 < format.sampleSize then .error .tooWide
  else .error .unsupported

end Wave

end SpeechDecoder.Audio
