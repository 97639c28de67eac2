import SpeechDecoder.Elementary

/-! Arithmetic of log scores. Everything that searches is written over this class, so that a law can
be proved of any arithmetic that has what it needs; the program uses single precision. -/
namespace SpeechDecoder

class Score (α : Type) extends Add α, Sub α, Mul α, Div α where
  zero : α
  one : α
  impossible : α
  below : α → α → Bool
  atMost : α → α → Bool
  larger : α → α → α
  /-- A total order, also of what is no number. -/
  order : α → α → Ordering
  isFinite : α → Bool
  exp : α → α
  ln : α → α

namespace Score
variable {α : Type} [Score α]

def isLive (x : α) : Bool := below impossible x

def isImpossible (x : α) : Bool := atMost x impossible

def largest (xs : List α) : α := xs.foldl larger impossible

def sum (xs : List α) : α := xs.foldl (· + ·) zero

def clampUnit (x : α) : α :=
  let x := if below x zero then zero else x
  if below one x then one else x

/-- The logarithm of the sum of what `xs` are the logarithms of, with `top` the largest of them. -/
def logSumExpFrom (top : α) (xs : List α) : α :=
  if isFinite top then top + ln (sum (xs.map fun x => exp (x - top))) else top

def logSumExp (xs : List α) : α := logSumExpFrom (largest xs) xs

end Score

namespace Single

def impossible : Float32 := Float32.ofBits 0xFF800000

def larger (x y : Float32) : Float32 := if x.isNaN then y else if x < y then y else x

/-- The bits of a single as an integer whose order is the total order of singles. -/
def orderKey (x : Float32) : Int :=
  let bits := x.toBits.toNat
  if bits < 0x80000000 then bits else -((bits - 0x80000000 : Nat) : Int) - 1

def order (x y : Float32) : Ordering := compare (orderKey x) (orderKey y)

end Single

instance [Elementary] : Score Float32 where
  zero := 0
  one := 1
  impossible := Single.impossible
  below x y := x < y
  atMost x y := x ≤ y
  larger := Single.larger
  order := Single.order
  isFinite x := x.isFinite
  exp := Elementary.exp32
  ln := Elementary.ln32

end SpeechDecoder
