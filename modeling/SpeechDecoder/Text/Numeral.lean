import SpeechDecoder.Text.Blank
import SpeechDecoder.Decimal.Binary

/-! Reading numbers. An integer is an optional sign and ASCII digits; a decimal is an optional sign
and a word for infinity or for no number, or digits with a point and an exponent. Whatever the
number, what is read is its exact value, rounded once. -/
namespace SpeechDecoder.Text
open Binary (Format)

def digit? (c : Char) : Option Nat :=
  if '0' ≤ c ∧ c ≤ '9' then some (c.toNat - '0'.toNat) else none

def isDigit (c : Char) : Bool := (digit? c).isSome

def digitsValueHalving : Nat → List Char → Nat
  | 0, s => s.foldl (fun n c => 10 * n + (digit? c).getD 0) 0
  | halvings + 1, s =>
    let half := s.length / 2
    digitsValueHalving halvings (s.take half) * Nat.pow 10 (s.length - half)
      + digitsValueHalving halvings (s.drop half)

/-- The number that digits write. Halving keeps the numbers that are multiplied of one size; it does
not change the value. -/
def digitsValue (s : List Char) : Nat := digitsValueHalving (s.length.log2 - 5) s

def digits? (s : List Char) : Option Nat :=
  if s.isEmpty || !s.all isDigit then none else some (digitsValue s)

/-- A natural below `2 ^ bits`; a plus sign may precede it. -/
def natural? (bits : Nat) (s : List Char) : Option Nat :=
  let n := match s with
    | '+' :: rest => digits? rest
    | s => digits? s
  n.filter (· < Nat.pow 2 bits)

def integer? (bits : Nat) (s : List Char) : Option Int :=
  let n := match s with
    | '+' :: rest => (digits? rest).map Int.ofNat
    | '-' :: rest => (digits? rest).map fun n => -(n : Int)
    | s => (digits? s).map Int.ofNat
  n.filter fun n => -(Nat.pow 2 (bits - 1)) ≤ n ∧ n < Nat.pow 2 (bits - 1)

/-- The value of a written decimal: `decimal negative m e` is `m · 10 ^ e`. -/
inductive Numeral where
  | nan (negative : Bool)
  | infinite (negative : Bool)
  | decimal (negative : Bool) (mantissa : Nat) (exponent : Int)
  deriving DecidableEq, Repr

def exponent? : List Char → Option Int
  | [] => some 0
  | c :: rest =>
    if c = 'e' ∨ c = 'E' then
      match rest with
      | '+' :: rest => (digits? rest).map Int.ofNat
      | '-' :: rest => (digits? rest).map fun n => -(n : Int)
      | rest => (digits? rest).map Int.ofNat
    else none

def unsignedNumeral? (negative : Bool) (s : List Char) : Option Numeral :=
  let word := s.map lower
  if word = "inf".toList ∨ word = "infinity".toList then some (.infinite negative)
  else if word = "nan".toList then some (.nan negative)
  else
    let whole := s.takeWhile isDigit
    let rest := s.dropWhile isDigit
    let (places, rest) := match rest with
      | '.' :: rest => (rest.takeWhile isDigit, rest.dropWhile isDigit)
      | rest => ([], rest)
    if whole.isEmpty && places.isEmpty then none
    else
      (exponent? rest).map fun e =>
        .decimal negative (digitsValue (whole ++ places)) (e - places.length)

def numeral? : List Char → Option Numeral
  | '+' :: rest => unsignedNumeral? false rest
  | '-' :: rest => unsignedNumeral? true rest
  | s => unsignedNumeral? false s

/-- A power of ten above which every nonzero decimal is infinite, and below whose inverse every
decimal is zero, in the formats used here. -/
def reach : Int := 400

def Numeral.encode (f : Format) : Numeral → Nat
  | .nan negative => (if negative then f.signBit else 0) + Binary.nanBits f
  | .infinite negative => (if negative then f.signBit else 0) + f.infinity
  | .decimal negative m e =>
    let sign := if negative then f.signBit else 0
    -- `2 ^ m.log2 ≤ m < 2 * 2 ^ m.log2`, and ten is between `2 ^ 3` and `2 ^ 4`
    if m = 0 ∨ (m.log2 / 3 + 1 : Nat) + e < -reach then sign
    else if reach < (m.log2 / 4 : Nat) + e then sign + f.infinity
    else match e with
      | .ofNat e => Binary.encode f negative (m * Nat.pow 10 e) 1
      | .negSucc e => Binary.encode f negative m (Nat.pow 10 (e + 1))

def Numeral.toFloat (n : Numeral) : Float := Float.ofBits (UInt64.ofNat (n.encode Binary.double))

def Numeral.toFloat32 (n : Numeral) : Float32 :=
  Float32.ofBits (UInt32.ofNat (n.encode Binary.single))

def float? (s : List Char) : Option Float := (numeral? s).map Numeral.toFloat

def float32? (s : List Char) : Option Float32 := (numeral? s).map Numeral.toFloat32

example : numeral? "-.5e+3".toList = some (.decimal true 5 2) := by decide
example : numeral? ".".toList = none ∧ numeral? "e5".toList = none := by decide

end SpeechDecoder.Text
