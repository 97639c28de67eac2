import SpeechDecoder.Elementary

/-! Plans of power spectra for a size. -/
namespace SpeechDecoder.Feature.Spectrum

def pi : Float := 3.141592653589793

/-- The first half of the roots of unity of order `n`, against the clock. -/
def roots [Elementary] (n : Nat) : Points :=
  let angles := (List.range (n / 2)).map fun k => 2 * pi * k.toFloat / n.toFloat
  ⟨⟨(angles.map Elementary.cos).toArray⟩, ⟨(angles.map fun a => -Elementary.sin a).toArray⟩⟩

def Plan.ofSize [Elementary] (size : Nat) : Plan :=
  ⟨size.log2, (places size.log2).toArray, roots size⟩

end SpeechDecoder.Feature.Spectrum
