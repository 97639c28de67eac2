/-! Binary floating-point numbers as exact values. A format has `fraction` stored bits below the
leading one and `exponent` bits for the scale; a number is decoded to a sign, a natural mantissa and
a power of two, and a quotient of naturals is encoded to the nearest number, a tie going to the even
mantissa. -/
namespace SpeechDecoder.Binary

structure Format where
  fraction : Nat
  exponent : Nat
  deriving DecidableEq, Repr

def single : Format := ⟨23, 8⟩

def double : Format := ⟨52, 11⟩

namespace Format

def lowest (f : Format) : Int := 2 - Nat.pow 2 (f.exponent - 1) - f.fraction

def infinity (f : Format) : Nat := (Nat.pow 2 f.exponent - 1) * Nat.pow 2 f.fraction

def signBit (f : Format) : Nat := Nat.pow 2 (f.fraction + f.exponent)

end Format

/-- What a pattern of bits stands for: `finite negative m q` is `m · 2 ^ q`. -/
inductive Number where
  | nan
  | infinite (negative : Bool)
  | finite (negative : Bool) (mantissa : Nat) (scale : Int)
  deriving DecidableEq, Repr

def decode (f : Format) (bits : Nat) : Number :=
  let negative := f.signBit ≤ bits
  let size := bits % f.signBit
  let stored := size % Nat.pow 2 f.fraction
  let biased := size / Nat.pow 2 f.fraction
  if biased = 0 then .finite negative stored f.lowest
  else if biased = Nat.pow 2 f.exponent - 1 then if stored = 0 then .infinite negative else .nan
  else .finite negative (Nat.pow 2 f.fraction + stored) (f.lowest + (biased - 1 : Nat))

/-- The nearest natural to `num / den`; a half goes to the even neighbour. -/
def roundEven (num den : Nat) : Nat :=
  let q := num / den
  let r := num % den
  if 2 * r < den then q else if den < 2 * r then q + 1 else q + q % 2

def inUnits (num den : Nat) : Int → Nat
  | .ofNat q => roundEven num (den * Nat.pow 2 q)
  | .negSucc q => roundEven (num * Nat.pow 2 (q + 1)) den

/-- The bits of the number nearest to `num / den`; infinity when none is that large. -/
def encodeSize (f : Format) (num den : Nat) : Nat :=
  if num = 0 then 0
  else
    let guess : Int := (num.log2 : Int) - den.log2 - f.fraction
    let scale := max f.lowest guess
    let low := max f.lowest (guess - 1)
    -- the quotient lies below `2 ^ (fraction + 1)` units of `2 ^ guess`
    let fine := inUnits num den low
    let (q, m) := if fine < Nat.pow 2 (f.fraction + 1) then (low, fine) else (scale, inUnits num den scale)
    min f.infinity ((q - f.lowest).toNat * Nat.pow 2 f.fraction + m)

def encode (f : Format) (negative : Bool) (num den : Nat) : Nat :=
  (if negative then f.signBit else 0) + encodeSize f num den

def nanBits (f : Format) : Nat := f.infinity + Nat.pow 2 (f.fraction - 1)

def convert (f : Format) : Number → Nat
  | .nan => nanBits f
  | .infinite negative => (if negative then f.signBit else 0) + f.infinity
  | .finite negative m (.ofNat q) => encode f negative (m * Nat.pow 2 q) 1
  | .finite negative m (.negSucc q) => encode f negative m (Nat.pow 2 (q + 1))

def ofFloat (x : Float) : Number := decode double x.toBits.toNat

def ofFloat32 (x : Float32) : Number := decode single x.toBits.toNat

def toFloat (n : Number) : Float := Float.ofBits (UInt64.ofNat (convert double n))

def toFloat32 (n : Number) : Float32 := Float32.ofBits (UInt32.ofNat (convert single n))

def ofNatural (n : Nat) : Float := Float.ofBits (UInt64.ofNat (encode double false n 1))

def ofInteger (n : Int) : Float :=
  Float.ofBits (UInt64.ofNat (encode double (n < 0) n.natAbs 1))

def ofNatural32 (n : Nat) : Float32 := Float32.ofBits (UInt32.ofNat (encode single false n 1))

def ofInteger32 (n : Int) : Float32 :=
  Float32.ofBits (UInt32.ofNat (encode single (n < 0) n.natAbs 1))

/-- The nearest integer, a half going away from zero, as a word of 64 bits: negative numbers and no
number give zero, and what is too large gives the greatest word. -/
def Number.roundToWord : Number → Nat
  | .nan => 0
  | .infinite negative => if negative then 0 else UInt64.size - 1
  | .finite negative m q =>
    if negative then 0
    else match q with
      | .ofNat q => min (UInt64.size - 1) (m * Nat.pow 2 q)
      | .negSucc q => min (UInt64.size - 1) ((2 * m + Nat.pow 2 (q + 1)) / Nat.pow 2 (q + 2))

/-- The integer part, as a word of 64 bits; negative numbers and no number give zero. -/
def Number.truncateToWord : Number → Nat
  | .nan => 0
  | .infinite negative => if negative then 0 else UInt64.size - 1
  | .finite negative m q =>
    if negative then 0
    else match q with
      | .ofNat q => min (UInt64.size - 1) (m * Nat.pow 2 q)
      | .negSucc q => m / Nat.pow 2 (q + 1)

def roundToWord (x : Float) : Nat := (ofFloat x).roundToWord

def truncateToWord (x : Float) : Nat := (ofFloat x).truncateToWord

def narrow (x : Float) : Float32 := toFloat32 (ofFloat x)

def widen (x : Float32) : Float := toFloat (ofFloat32 x)

end SpeechDecoder.Binary
