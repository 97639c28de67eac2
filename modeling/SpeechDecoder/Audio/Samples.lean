/-! Samples of 16 bits as bytes, in either order. -/
namespace SpeechDecoder.Audio

def sampleBytes (x : Int16) : List UInt8 :=
  let n := x.toUInt16
  [n.toUInt8, (n >>> 8).toUInt8]

def littleEndian (xs : List Int16) : List UInt8 := xs.flatMap sampleBytes

def sampleOf (low high : UInt8) : Int16 :=
  (low.toUInt16 ||| (high.toUInt16 <<< 8)).toInt16

def sampleIn (bigEndian : Bool) (first second : UInt8) : Int16 :=
  if bigEndian then sampleOf second first else sampleOf first second

/-- The samples of bytes, and the byte left over when their number is odd. -/
def samplesIn (bigEndian : Bool) : List UInt8 → List Int16 × Option UInt8
  | [] => ([], none)
  | [b] => ([], some b)
  | a :: b :: rest =>
    let (samples, odd) := samplesIn bigEndian rest
    (sampleIn bigEndian a b :: samples, odd)

end SpeechDecoder.Audio
