/-! UTF-8 read byte by byte. A sequence that breaks off or goes on wrongly ends there, stands for no
character, and the byte at fault is read afresh. -/
namespace SpeechDecoder.Text.Utf8

/-- A sequence being read: bytes still to come, the code so far, and the range of the next byte. -/
structure Pending where
  left : Nat
  code : Nat
  low : Nat
  high : Nat
  deriving DecidableEq, Repr

inductive First where
  | char (c : Char)
  | opens (p : Pending)
  | wrong

def first (b : Nat) : First :=
  if b < 0x80 then .char (Char.ofNat b)
  else if 0xC2 ≤ b ∧ b ≤ 0xDF then .opens ⟨1, b - 0xC0, 0x80, 0xBF⟩
  else if b = 0xE0 then .opens ⟨2, 0, 0xA0, 0xBF⟩
  else if b = 0xED then .opens ⟨2, 0xD, 0x80, 0x9F⟩
  else if 0xE1 ≤ b ∧ b ≤ 0xEF then .opens ⟨2, b - 0xE0, 0x80, 0xBF⟩
  else if b = 0xF0 then .opens ⟨3, 0, 0x90, 0xBF⟩
  else if 0xF1 ≤ b ∧ b ≤ 0xF3 then .opens ⟨3, b - 0xF0, 0x80, 0xBF⟩
  else if b = 0xF4 then .opens ⟨3, 4, 0x80, 0x8F⟩
  else .wrong

/-- The characters that the bytes stand for; `none` marks a wrong sequence. -/
def scan : Option Pending → List UInt8 → List (Option Char)
  | none, [] => []
  | some _, [] => [none]
  | none, b :: rest =>
    match first b.toNat with
    | .char c => some c :: scan none rest
    | .opens p => scan (some p) rest
    | .wrong => none :: scan none rest
  | some p, b :: rest =>
    if p.low ≤ b.toNat ∧ b.toNat ≤ p.high then
      let code := p.code * 64 + (b.toNat - 0x80)
      if p.left ≤ 1 then some (Char.ofNat code) :: scan none rest
      else scan (some ⟨p.left - 1, code, 0x80, 0xBF⟩) rest
    else
      none :: match first b.toNat with
        | .char c => some c :: scan none rest
        | .opens p => scan (some p) rest
        | .wrong => none :: scan none rest

def decode? (bytes : List UInt8) : Option (List Char) := (scan none bytes).mapM id

/-- The text of any bytes, with the replacement character for each wrong sequence. -/
def decodeLossy (bytes : List UInt8) : List Char :=
  (scan none bytes).map fun c => c.getD (Char.ofNat 0xFFFD)

def encode (s : List Char) : List UInt8 := s.flatMap String.utf8EncodeChar

end SpeechDecoder.Text.Utf8
