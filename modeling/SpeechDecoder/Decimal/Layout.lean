import SpeechDecoder.Decimal.Shortest

/-! How digits are laid out as text: in positional notation without an exponent, in the notation of
JSON numbers, and with a fixed number of places. -/
namespace SpeechDecoder.Decimal
open Binary (Number Format)

def natural (n : Nat) : List Char := Nat.toDigits 10 n

def integer : Int → List Char
  | .ofNat n => natural n
  | .negSucc n => '-' :: natural (n + 1)

def signed (negative : Bool) (s : List Char) : List Char := if negative then '-' :: s else s

def pointed (s : List Char) (places : Nat) : List Char :=
  let s := List.replicate (places + 1 - s.length) '0' ++ s
  let whole := s.length - places
  if places = 0 then s else s.take whole ++ '.' :: s.drop whole

def positional (d : Digits) : List Char :=
  match d.scale with
  | .ofNat e => if d.digits = 0 then ['0'] else natural d.digits ++ List.replicate e '0'
  | .negSucc e => pointed (natural d.digits) (e + 1)

def special (negative : Bool) : List Char := signed negative ['i', 'n', 'f']

def notANumber : List Char := ['N', 'a', 'N']

/-- Shortest digits in positional notation; a half goes up. -/
def plain (f : Format) : Number → List Char
  | .nan => notANumber
  | .infinite negative => special negative
  | .finite negative m q => signed negative (positional (shortest f .up m q))

def plainFloat (x : Float) : List Char := plain Binary.double (Binary.ofFloat x)

def plainFloat32 (x : Float32) : List Char := plain Binary.single (Binary.ofFloat32 x)

/-- The exponents, in scientific notation, of the numbers that JSON output writes positionally. -/
structure JsonLayout where
  least : Int
  greatest : Int

def jsonLayout : JsonLayout := ⟨-6, 12⟩

def scientific (d : Digits) (exponent : Int) : List Char :=
  (match natural d.digits with
    | [] => []
    | [c] => [c]
    | c :: rest => c :: '.' :: rest) ++
    'e' :: (if 0 ≤ exponent then ['+'] else []) ++ integer exponent

def jsonDigits (d : Digits) : List Char :=
  let exponent := (width d.digits : Int) - 1 + d.scale
  if d.digits = 0 then ['0', '.', '0']
  else if jsonLayout.least ≤ exponent ∧ exponent ≤ jsonLayout.greatest then
    positional d ++ if 0 ≤ d.scale then ['.', '0'] else []
  else scientific d exponent

/-- A JSON number, or `null` for a value that JSON cannot write; a half goes to the even digit. -/
def json (f : Format) : Number → List Char
  | .finite negative m q => signed negative (jsonDigits (shortest f .even m q))
  | _ => ['n', 'u', 'l', 'l']

def jsonFloat32 (x : Float32) : List Char := json Binary.single (Binary.ofFloat32 x)

/-- `places` decimal places of the exact value, a half going to the even digit. -/
def fixed (places : Nat) : Number → List Char
  | .nan => notANumber
  | .infinite negative => special negative
  | .finite negative m (.ofNat q) =>
    signed negative (pointed (natural (m * Nat.pow 2 q * Nat.pow 10 places)) places)
  | .finite negative m (.negSucc q) =>
    signed negative (pointed (natural (Binary.roundEven (m * Nat.pow 10 places) (Nat.pow 2 (q + 1)))) places)

def fixedFloat (places : Nat) (x : Float) : List Char := fixed places (Binary.ofFloat x)

def fixedFloat32 (places : Nat) (x : Float32) : List Char := fixed places (Binary.ofFloat32 x)

end SpeechDecoder.Decimal
