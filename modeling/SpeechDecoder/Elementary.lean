import SpeechDecoder.Feature.Fourier

/-! The elementary functions of the machine, and its power spectrum. They are a parameter of everything
that uses them, so that what is proved assumes of them only what it states. -/
namespace SpeechDecoder

class Elementary where
  ln : Float → Float
  log10 : Float → Float
  sin : Float → Float
  cos : Float → Float
  ln32 : Float32 → Float32
  log10of32 : Float32 → Float32
  exp32 : Float32 → Float32
  pow32 : Float32 → Float32 → Float32
  sin32 : Float32 → Float32
  cos32 : Float32 → Float32
  power : Feature.Spectrum.Plan → List Float32 → List Float32

@[reducible] def Elementary.system : Elementary where
  ln := Float.log
  log10 := Float.log10
  sin := Float.sin
  cos := Float.cos
  ln32 := Float32.log
  log10of32 := Float32.log10
  exp32 := Float32.exp
  pow32 := Float32.pow
  sin32 := Float32.sin
  cos32 := Float32.cos
  power := Feature.Spectrum.Plan.power

def Elementary.circle : Float32 := Float32.ofBits 0x40490FDB

end SpeechDecoder
