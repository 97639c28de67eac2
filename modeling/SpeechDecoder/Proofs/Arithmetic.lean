import SpeechDecoder.Score

/-! Laws of scores, each class with what one kind of argument needs. Single precision is ordered also where
scores are no numbers: a best score is kept against whatever is not live. Sums are monotone where all scores are
numbers, and exact where nothing is rounded, as whole numbers are. -/
namespace SpeechDecoder

namespace Score

/-- A score that can be the best so far. -/
def Held {α : Type} [Score α] (x : α) : Prop := larger x impossible = x

class Ordered (α : Type) [Score α] : Prop where
  impossibleNotLive : isLive (impossible : α) = false
  impossibleHeld : Held (impossible : α)
  largerHeld (x y : α) : Held x → Held (larger x y)
  largerNotLive (x y : α) : Held x → isLive y = false → larger x y = x
  largerLive (x y : α) : Held x → isLive (larger x y) = (isLive x || isLive y)

section
variable {α : Type} [Score α] [Ordered α]

theorem foldLive (xs : List α) {x : α} (held : Held x) :
    isLive (xs.foldl larger x) = (isLive x || xs.any isLive) := by
  induction xs generalizing x with
  | nil => simp
  | cons y rest ih =>
    rw [List.foldl_cons, ih (Ordered.largerHeld x y held), Ordered.largerLive x y held, List.any_cons,
      Bool.or_assoc]

theorem largestLive (xs : List α) : isLive (largest xs) = xs.any isLive := by
  rw [largest, foldLive xs Ordered.impossibleHeld, Ordered.impossibleNotLive, Bool.false_or]

theorem foldFilter (xs : List α) {x : α} (held : Held x) :
    (xs.filter isLive).foldl larger x = xs.foldl larger x := by
  induction xs generalizing x with
  | nil => rfl
  | cons y rest ih =>
    have next := ih (Ordered.largerHeld x y held)
    cases live : isLive y with
    | true => simpa [live] using next
    | false => simpa [live, Ordered.largerNotLive x y held live] using ih held

theorem largestFilter (xs : List α) : largest (xs.filter isLive) = largest xs :=
  foldFilter xs Ordered.impossibleHeld

end

/-- What is not impossible can be told from what is. -/
class Possible (α : Type) [Score α] : Prop where
  zeroPossible : isImpossible (zero : α) = false
  belowPossible (x y : α) : below x y = true → isImpossible y = false
  impossibleBelow (x y : α) : isImpossible x = true → isLive y = true → below x y = true

/-- Scores in a total preorder, with sums that keep it and that nothing revives. -/
class Monotone (α : Type) [Score α] : Prop where
  atMostTrans (x y z : α) : atMost x y = true → atMost y z = true → atMost x z = true
  atMostTotal (x y : α) : atMost x y = true ∨ atMost y x = true
  belowIs (x y : α) : below x y = !atMost y x
  largerIs (x y : α) : larger x y = if below x y then y else x
  impossibleLeast (x : α) : atMost impossible x = true
  addMonotone (x y z : α) : atMost x y = true → atMost (x + z) (y + z) = true
  deadAdd (x y : α) : isLive x = false → isLive (x + y) = false
  addDead (x y : α) : isLive y = false → isLive (x + y) = false

/-- Sums without rounding, of which only the impossible is impossible. -/
class Exact (α : Type) [Score α] : Prop extends Monotone α where
  addComm (x y : α) : x + y = y + x
  addAssoc (x y z : α) : x + y + z = x + (y + z)
  zeroAdd (x : α) : zero + x = x
  zeroLive : isLive (zero : α) = true
  addLive (x y : α) : isLive x = true → isLive y = true → isLive (x + y) = true
  subLive (x y : α) : isLive x = true → isLive y = true → isLive (x - y) = true
  orderIs (x y : α) : order x y = if below x y then .lt else if below y x then .gt else .eq

/-- Exact sums that a difference undoes, of scores that their order tells apart. -/
class Cancelling (α : Type) [Score α] : Prop extends Exact α where
  addSub (x y : α) : isLive x = true → x + (y - x) = y
  atMostSame (x y : α) : atMost x y = true → atMost y x = true → x = y

section
variable {α : Type} [Score α] [Monotone α]

open SpeechDecoder.Score.Monotone

theorem atMostRefl (x : α) : atMost x x = true := (atMostTotal x x).elim id id

theorem notBelow {x y : α} : below x y = false ↔ atMost y x = true := by
  rw [belowIs, Bool.not_eq_false']

theorem belowAtMost {x y : α} (less : below x y = true) : atMost x y = true := by
  rw [belowIs, Bool.not_eq_true'] at less
  exact (atMostTotal x y).resolve_right (by simp [less])

theorem notLive {x : α} : isLive x = false ↔ atMost x impossible = true := notBelow

theorem impossibleDead (x : α) : isImpossible x = !isLive x := by
  unfold isLive
  rw [belowIs, Bool.not_not]
  rfl

theorem deadLeast {x : α} (dead : isLive x = false) (y : α) : atMost x y = true :=
  atMostTrans x impossible y (notLive.mp dead) (impossibleLeast y)

theorem liveAtMost {x y : α} (live : isLive x = true) (le : atMost x y = true) : isLive y = true := by
  cases dead : isLive y with
  | true => rfl
  | false =>
    rw [notLive.mpr (atMostTrans x y impossible le (notLive.mp dead))] at live
    cases live

theorem liveOfAdd {x y : α} (live : isLive (x + y) = true) : isLive x = true ∧ isLive y = true := by
  constructor
  · cases dead : isLive x with
    | true => rfl
    | false => rw [deadAdd x y dead] at live; cases live
  · cases dead : isLive y with
    | true => rfl
    | false => rw [addDead x y dead] at live; cases live

instance : Ordered α where
  impossibleNotLive := notLive.mpr (atMostRefl impossible)
  impossibleHeld := by
    unfold Held
    rw [largerIs, ite_self]
  largerHeld x y _ := by
    unfold Held
    rw [largerIs _ impossible, notBelow.mpr (impossibleLeast _)]
    rfl
  largerNotLive x y _ dead := by
    rw [largerIs, notBelow.mpr (deadLeast dead x)]
    rfl
  largerLive x y _ := by
    rw [largerIs]
    cases less : below x y with
    | true =>
      cases live : isLive x with
      | true => exact liveAtMost live (belowAtMost less)
      | false => rfl
    | false =>
      cases live : isLive y with
      | true =>
        rw [Bool.or_true]
        exact liveAtMost live (notBelow.mp less)
      | false => rw [Bool.or_false]; rfl

end

section
variable {α : Type} [Score α] [Exact α]

instance : Possible α where
  zeroPossible := by rw [impossibleDead, Exact.zeroLive]; rfl
  belowPossible x y less := by
    rw [Monotone.belowIs, Bool.not_eq_true'] at less
    refine Bool.eq_false_iff.mpr fun dead => ?_
    have le := Monotone.atMostTrans y impossible x dead (Monotone.impossibleLeast x)
    rw [le] at less
    cases less
  impossibleBelow x y dead live := by
    rw [Monotone.belowIs, Bool.not_eq_true']
    refine Bool.eq_false_iff.mpr fun le => ?_
    rw [notLive.mpr (Monotone.atMostTrans y x impossible le dead)] at live
    cases live

theorem orderAtMost (x y : α) : (order x y).isLE = atMost x y := by
  rw [Exact.orderIs, Monotone.belowIs, Monotone.belowIs]
  have total := Monotone.atMostTotal x y
  cases left : atMost x y <;> cases right : atMost y x <;> simp_all

instance : Std.TransCmp (order : α → α → Ordering) where
  eq_swap {x y} := by
    rw [Exact.orderIs, Exact.orderIs y x, Monotone.belowIs, Monotone.belowIs]
    have total := Monotone.atMostTotal x y
    cases left : atMost x y <;> cases right : atMost y x <;> simp_all
  isLE_trans {x y z} first second := by
    rw [orderAtMost] at first second ⊢
    exact Monotone.atMostTrans x y z first second

theorem addAtMost {x y : α} (z : α) (le : atMost x y = true) : atMost (z + x) (z + y) = true := by
  rw [Exact.addComm z x, Exact.addComm z y]
  exact Monotone.addMonotone x y z le

theorem addFalling {x : α} (y : α) (falling : atMost x zero = true) : atMost (y + x) y = true := by
  have less := addAtMost y falling
  rwa [Exact.addComm y zero, Exact.zeroAdd] at less

end

end Score

namespace Single
open Float.Model (UnpackedFloat)

def unpacked (x : Float32) : UnpackedFloat := x.toModel.unpack

theorem unpackedBits {x : Float32} {bits : UInt32} (made : x.toModel.toBits = bits) :
    unpacked x = UnpackedFloat.unpack .binary32 bits.toBitVec := by
  rw [← made]
  rfl

theorem unpackedImpossible : unpacked impossible = .infinity .negative :=
  unpackedBits (show _ = (0xFF800000 : UInt32) by decide +kernel)

theorem compareNan (u : UnpackedFloat) : u.compare .notANumber = none := by
  cases u with
  | infinity s => cases s <;> rfl
  | finite s m e pos => cases s <;> rfl
  | _ => rfl

theorem compareLeast (u : UnpackedFloat) : u.compare (.infinity .negative) ≠ some .lt := by
  cases u with
  | infinity s => cases s <;> decide
  | finite s m e pos =>
    intro less
    cases s <;> cases Option.some.inj less
  | zero s => cases s <;> decide
  | notANumber => decide

theorem leastCompare (u : UnpackedFloat) :
    UnpackedFloat.compare (.infinity .negative) u = some .lt ↔ u ≠ .notANumber ∧ u ≠ .infinity .negative := by
  constructor
  · intro less
    refine ⟨fun nan => ?_, fun least => compareLeast _ (least ▸ less)⟩
    rw [nan, compareNan] at less
    cases less
  · rintro ⟨number, more⟩
    cases u with
    | notANumber => exact absurd rfl number
    | infinity s =>
      cases s with
      | negative => exact absurd rfl more
      | positive => rfl
    | _ => rfl

theorem ltUnpacked (x y : Float32) : x < y ↔ (unpacked x).compare (unpacked y) = some .lt := by
  change decide (x.toModel < y.toModel) = true ↔ _
  rw [decide_eq_true_iff]
  change ((unpacked x).compare (unpacked y) == some .lt) = true ↔ _
  exact beq_iff_eq

theorem impossibleLt (x : Float32) :
    impossible < x ↔ unpacked x ≠ .notANumber ∧ unpacked x ≠ .infinity .negative := by
  rw [ltUnpacked, unpackedImpossible]
  exact leastCompare (unpacked x)

theorem leImpossible (x : Float32) : x ≤ impossible ↔ unpacked x = .infinity .negative := by
  change decide (x.toModel ≤ impossible.toModel) = true ↔ _
  rw [decide_eq_true_iff]
  change ((unpacked x).compare (unpacked impossible)).any (·.isLE) = true ↔ _
  rw [unpackedImpossible]
  cases unpacked x with
  | infinity s =>
    cases s with
    | negative => exact ⟨fun _ => rfl, fun _ => rfl⟩
    | positive => exact ⟨fun le => (by cases le), fun same => (by cases same)⟩
  | finite s m e pos => cases s <;> exact ⟨fun le => (by cases le), fun same => (by cases same)⟩
  | zero s => cases s <;> exact ⟨fun le => (by cases le), fun same => (by cases same)⟩
  | notANumber => exact ⟨fun le => (by cases le), fun same => (by cases same)⟩

theorem ltLive {x y : Float32} (less : x < y) : impossible < y := by
  rw [impossibleLt]
  rw [ltUnpacked] at less
  constructor
  · intro nan
    rw [nan, compareNan] at less
    cases less
  · intro least
    rw [least] at less
    exact compareLeast _ less

theorem deadLt {x y : Float32} (number : x.isNaN = false) (dead : ¬ impossible < x)
    (live : impossible < y) : x < y := by
  have least : unpacked x = .infinity .negative := by
    refine Classical.byContradiction fun other => dead ((impossibleLt x).mpr ⟨?_, other⟩)
    intro nan
    have known : (unpacked x).isNaN = false := number
    rw [nan] at known
    cases known
  rw [ltUnpacked] at live ⊢
  rw [least, ← unpackedImpossible]
  exact live

theorem largerNumber {x : Float32} (number : x.isNaN = false) (y : Float32) :
    larger x y = if x < y then y else x := by
  simp only [larger, number, Bool.false_eq_true, if_false]

theorem ltNumber {x y : Float32} (less : x < y) : y.isNaN = false := by
  have live := (impossibleLt y).mp (ltLive less)
  change (unpacked y).isNaN = false
  cases h : unpacked y with
  | notANumber => exact absurd h live.1
  | _ => rfl

theorem addUnpacked (x y : Float32) : unpacked (x + y) =
    UnpackedFloat.unpack .binary32 (UnpackedFloat.pack .binary32 (.add .binary32 (unpacked x) (unpacked y))) := rfl

theorem addLeast (u : UnpackedFloat) {v : UnpackedFloat} (least : v = .notANumber ∨ v = .infinity .negative) :
    u.add .binary32 v = .notANumber ∨ u.add .binary32 v = .infinity .negative := by
  rcases least with rfl | rfl
  · cases u <;> exact .inl rfl
  · cases u with
    | notANumber => exact .inl rfl
    | infinity s =>
      cases s with
      | negative => exact .inr rfl
      | positive => exact .inl rfl
    | _ => exact .inr rfl

theorem liveAdded {x y : Float32} (live : impossible < x + y) : impossible < y := by
  obtain ⟨number, more⟩ := (impossibleLt _).mp live
  refine (impossibleLt y).mpr (not_or.mp fun least => ?_)
  rw [addUnpacked] at number more
  rcases addLeast (unpacked x) least with nan | least
  · rw [nan] at number
    exact number rfl
  · rw [least] at more
    exact more rfl

theorem impossibleNumber : impossible.isNaN = false := by
  change (unpacked impossible).isNaN = false
  rw [unpackedImpossible]
  rfl

end Single

section
variable [Elementary]

theorem isLiveSingle (x : Float32) : Score.isLive x = decide (Single.impossible < x) := rfl

theorem heldNumber {x : Float32} (held : Score.Held x) : x.isNaN = false := by
  cases nan : x.isNaN with
  | false => rfl
  | true =>
    have same : Single.larger x Single.impossible = x := held
    simp only [Single.larger, nan, if_true] at same
    rw [← same, Single.impossibleNumber] at nan
    cases nan

theorem numberHeld {x : Float32} (number : x.isNaN = false) : Score.Held x := by
  change Single.larger x Single.impossible = x
  rw [Single.largerNumber number]
  exact if_neg fun less => ((Single.impossibleLt _).mp (Single.ltLive less)).2 Single.unpackedImpossible

instance : Score.Ordered Float32 where
  impossibleNotLive := by
    rw [isLiveSingle]
    exact decide_eq_false fun less => ((Single.impossibleLt _).mp less).2 Single.unpackedImpossible
  impossibleHeld := numberHeld Single.impossibleNumber
  largerHeld x y held := by
    have number := heldNumber held
    refine numberHeld ?_
    change (Single.larger x y).isNaN = false
    rw [Single.largerNumber number]
    split
    · exact Single.ltNumber ‹_›
    · exact number
  largerNotLive x y held dead := by
    change Single.larger x y = x
    rw [Single.largerNumber (heldNumber held)]
    refine if_neg ?_
    intro less
    rw [isLiveSingle] at dead
    exact of_decide_eq_false dead (Single.ltLive less)
  largerLive x y held := by
    have number := heldNumber held
    change Score.isLive (Single.larger x y) = _
    simp only [isLiveSingle, Single.largerNumber number]
    by_cases less : x < y
    · simp [less, Single.ltLive less]
    · by_cases live : Single.impossible < x
      · simp [less, live]
      · have dead : ¬ Single.impossible < y := fun other => less (Single.deadLt number live other)
        simp [less, live, dead]

instance : Score.Possible Float32 where
  zeroPossible := by
    have above : ¬ (0 : Float32) ≤ Single.impossible := by decide +kernel
    exact decide_eq_false above
  belowPossible x y less := by
    refine decide_eq_false fun le => ?_
    have live := (Single.impossibleLt y).mp (Single.ltLive (of_decide_eq_true less))
    exact live.2 ((Single.leImpossible y).mp le)
  impossibleBelow x y dead live := by
    have least := (Single.leImpossible x).mp (of_decide_eq_true dead)
    have more := of_decide_eq_true ((isLiveSingle y).symm.trans live)
    rw [Single.ltUnpacked, Single.unpackedImpossible, ← least, ← Single.ltUnpacked] at more
    exact decide_eq_true more

instance : Std.TransCmp (Score.order : Float32 → Float32 → Ordering) :=
  inferInstanceAs (Std.TransCmp (compareOn Single.orderKey))

end

/-- Whole numbers, and an impossible score below them. -/
inductive Whole where
  | impossible
  | number (n : Int)
  deriving DecidableEq, Repr

namespace Whole

def both (f : Int → Int → Int) : Whole → Whole → Whole
  | number a, number b => number (f a b)
  | _, _ => impossible

def below : Whole → Whole → Bool
  | number a, number b => a < b
  | impossible, number _ => true
  | _, impossible => false

instance : Score Whole where
  add := both (· + ·)
  sub := both (· - ·)
  mul := both (· * ·)
  div := both (· / ·)
  zero := number 0
  one := number 1
  impossible := impossible
  below := below
  atMost x y := !below y x
  larger x y := if below x y then y else x
  order x y := if below x y then .lt else if below y x then .gt else .eq
  isFinite x := x != impossible
  exp := id
  ln := id

instance : Score.Monotone Whole where
  atMostTrans x y z first second := by
    change (!below y x) = true at first
    change (!below z y) = true at second
    change (!below z x) = true
    cases x <;> cases y <;> cases z <;> simp [below] at first second ⊢
    omega
  atMostTotal x y := by
    change (!below y x) = true ∨ (!below x y) = true
    cases x <;> cases y <;> simp [below]
    omega
  belowIs x y := (Bool.not_not _).symm
  largerIs x y := rfl
  impossibleLeast x := by cases x <;> rfl
  addMonotone x y z le := by
    change (!below y x) = true at le
    change (!below (both (· + ·) y z) (both (· + ·) x z)) = true
    cases x <;> cases y <;> cases z <;> simp [below, both] at le ⊢
    omega
  deadAdd x y dead := by
    cases x with
    | impossible => rfl
    | number a => cases dead
  addDead x y dead := by
    cases y with
    | impossible => cases x <;> rfl
    | number a => cases dead

theorem bothNumber {f : Int → Int → Int} {x y : Whole} (left : Score.isLive x = true)
    (right : Score.isLive y = true) : Score.isLive (both f x y) = true := by
  cases x with
  | impossible => cases left
  | number a =>
    cases y with
    | impossible => cases right
    | number b => rfl

instance : Score.Exact Whole where
  addComm x y := by
    change both (· + ·) x y = both (· + ·) y x
    cases x <;> cases y <;> simp [both, Int.add_comm]
  addAssoc x y z := by
    change both (· + ·) (both (· + ·) x y) z = both (· + ·) x (both (· + ·) y z)
    cases x <;> cases y <;> cases z <;> simp [both, Int.add_assoc]
  zeroAdd x := by
    change both (· + ·) (number 0) x = x
    cases x <;> simp [both]
  zeroLive := rfl
  addLive _ _ := bothNumber
  subLive _ _ := bothNumber
  orderIs _ _ := rfl

instance : Score.Cancelling Whole where
  addSub x y live := by
    change both (· + ·) x (both (· - ·) y x) = y
    cases x with
    | impossible => cases live
    | number a =>
      cases y with
      | impossible => rfl
      | number b =>
        simp only [both, number.injEq]
        omega
  atMostSame x y first second := by
    change (!below y x) = true at first
    change (!below x y) = true at second
    cases x <;> cases y <;> simp [below] at first second ⊢
    omega

end Whole

end SpeechDecoder
