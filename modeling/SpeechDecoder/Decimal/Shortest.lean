import SpeechDecoder.Decimal.Binary

/-! The fewest decimal digits that read back. The numbers that round to `m · 2 ^ q` fill an interval
whose ends belong to it when `m` is even; on the grids of `1, 2, …` digits the two neighbours of the
number are tried, and the first grid with one inside wins. -/
namespace SpeechDecoder.Decimal
open Binary (Format)

inductive Tie where
  | up
  | even
  deriving DecidableEq, Repr

/-- `digits · 10 ^ scale`, with `digits` not a multiple of ten unless zero. -/
structure Digits where
  digits : Nat
  scale : Int
  deriving DecidableEq, Repr

structure Interval where
  low : Nat
  value : Nat
  high : Nat
  den : Nat
  closed : Bool
  deriving DecidableEq, Repr

def interval (f : Format) (m : Nat) (q : Int) : Interval :=
  -- below a power of two the spacing is half as wide
  let below := if m = Nat.pow 2 f.fraction ∧ q ≠ f.lowest then 1 else 2
  let closed := m % 2 == 0
  match q - 2 with
  | .ofNat k => ⟨(4 * m - below) * Nat.pow 2 k, 4 * m * Nat.pow 2 k, (4 * m + 2) * Nat.pow 2 k, 1, closed⟩
  | .negSucc k => ⟨4 * m - below, 4 * m, 4 * m + 2, Nat.pow 2 (k + 1), closed⟩

def Interval.inUnits (i : Interval) : Int → Interval
  | .ofNat e => { i with den := i.den * Nat.pow 10 e }
  | .negSucc e =>
    let p := Nat.pow 10 (e + 1)
    { i with low := i.low * p, value := i.value * p, high := i.high * p }

def Interval.contains (i : Interval) (n : Nat) : Bool :=
  let x := n * i.den
  if i.closed then i.low ≤ x && x ≤ i.high else i.low < x && x < i.high

/-- The nearest of the two neighbours on the grid that lie in the interval. -/
def Interval.onGrid (i : Interval) (tie : Tie) : Option Nat :=
  let down := i.value / i.den
  let up := down + 1
  match decide (0 < down) && i.contains down, i.contains up with
  | false, false => none
  | true, false => some down
  | false, true => some up
  | true, true =>
    let twice := 2 * (i.value % i.den)
    if twice < i.den then some down
    else if i.den < twice then some up
    else match tie with
      | .up => some up
      | .even => some (if down % 2 = 0 then down else up)

/-- Tries the grids `10 ^ e, 10 ^ (e - 1), …`. -/
def search (i : Interval) (tie : Tie) : Nat → Int → Digits
  | 0, e => ⟨(i.inUnits e).value / (i.inUnits e).den, e⟩
  | fuel + 1, e =>
    match (i.inUnits e).onGrid tie with
    | some d => ⟨d, e⟩
    | none => search i tie fuel (e - 1)

def width (n : Nat) : Nat := (Nat.toDigits 10 n).length

/-- A power of ten above `num / den`. -/
def topExponent (num den : Nat) : Int := (width num : Int) - width den + 1

def stripZeros : Nat → Digits → Digits
  | 0, d => d
  | fuel + 1, d =>
    if d.digits ≠ 0 ∧ d.digits % 10 = 0 then stripZeros fuel ⟨d.digits / 10, d.scale + 1⟩ else d

def shortest (f : Format) (tie : Tie) (m : Nat) (q : Int) : Digits :=
  if m = 0 then ⟨0, 0⟩
  else
    let i := interval f m q
    let d := search i tie 25 (topExponent i.value i.den)
    stripZeros (width d.digits) d

end SpeechDecoder.Decimal
