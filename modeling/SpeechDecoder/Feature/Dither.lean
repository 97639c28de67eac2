import SpeechDecoder.Decimal.Binary

/-! Noise of less than one step of a sample, which keeps digital silence from being exactly zero. A
shift register makes it, so that the same seed always gives the same noise. -/
namespace SpeechDecoder.Feature

structure Dither where
  seed : UInt64
  state : UInt64
  deriving DecidableEq, Repr

namespace Dither

def usualSeed : UInt64 := 0x2545F4914F6CDD1D

/-- A generator for a seed; negative seeds stand for the usual one. The state must not be zero, which
it would keep for ever. -/
def make (seed : Int) : Dither :=
  let mixed := if seed < 0 then usualSeed else UInt64.ofNat seed.toNat ^^^ usualSeed
  let start := if mixed = 0 then usualSeed else mixed
  ⟨start, start⟩

def reset (d : Dither) : Dither := { d with state := d.seed }

def step (x : UInt64) : UInt64 :=
  let x := x ^^^ (x <<< 13)
  let x := x ^^^ (x >>> 7)
  x ^^^ (x <<< 17)

def level (x : UInt64) : Nat := (x >>> 40).toNat

/-- A number from `-1/2` up to but without `1/2`. -/
def next (d : Dither) : Float32 × Dither :=
  let x := step d.state
  (Binary.ofNatural32 (level x) / Binary.ofNatural32 0x1000000 - 0.5, { d with state := x })

end Dither

end SpeechDecoder.Feature
