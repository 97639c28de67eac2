import Mathlib
import SpeechDecoder.Decimal.Binary
import SpeechDecoder.Proofs.Arithmetic

/-! The order of binary numbers is that of integers: of the bits without the sign, negative below zero. What is told
apart by it is a number, finite, or larger; both zeros are one. -/
namespace SpeechDecoder.Binary

open Float.Model (UnpackedFloat)
open Float.Model.UnpackedFloat (Sign)

theorem shiftedLeast {m : Nat} (some : 0 < m) (j : Nat) : 2 ^ (m.log2 + j) ≤ m * 2 ^ j := by
  rw [Nat.pow_add]
  exact Nat.mul_le_mul_right _ (Nat.log2_self_le some.ne')

theorem shiftedMost (m j : Nat) : m * 2 ^ j < 2 ^ (m.log2 + 1 + j) := by
  rw [Nat.pow_add]
  exact Nat.mul_lt_mul_of_pos_right Nat.lt_log2_self (Nat.two_pow_pos j)

/-- What bits without their sign are unpacked to: a mantissa and a scale above the lowest. -/
inductive Reads (f : Format) (s : Sign) (size : Nat) : UnpackedFloat → Prop where
  | nan (above : f.infinity < size) : Reads f s size .notANumber
  | infinite (top : size = f.infinity) : Reads f s size (.infinity s)
  | zero (none : size = 0) : Reads f s size (.zero s)
  | finite {m e : Nat} {scale : Int} (some : 0 < m) (scaled : scale = f.lowest + e)
      (made : size = e * Nat.pow 2 f.fraction + m) (short : m < 2 * Nat.pow 2 f.fraction)
      (full : e = 0 ∨ Nat.pow 2 f.fraction ≤ m) (below : size < f.infinity) : Reads f s size (.finite s m scale some)

def ofModel (spec : Float.Model.Format) : Format := ⟨spec.mantissaBitsWithoutImplicit, spec.exponentBits⟩

theorem unpackSize (spec : Float.Model.Format) (b : BitVec spec.numBits) : b.toNat % (ofModel spec).signBit =
    (UnpackedFloat.unpackExponent b).toNat * 2 ^ spec.mantissaBitsWithoutImplicit +
      (UnpackedFloat.unpackMantissa b).toNat := by
  rw [UnpackedFloat.unpackMantissa_def, BitVec.extractLsb'_toNat, Nat.shiftRight_zero,
    UnpackedFloat.unpackExponent_def, BitVec.extractLsb'_toNat, Nat.shiftRight_eq_div_pow]
  change b.toNat % 2 ^ (spec.mantissaBitsWithoutImplicit + spec.exponentBits) = _
  rw [Nat.pow_add, Nat.mod_mul, Nat.add_comm, Nat.mul_comm]

theorem unpackReads (spec : Float.Model.Format) (b : BitVec spec.numBits) :
    Reads (ofModel spec) (Sign.ofBitVec (UnpackedFloat.unpackSign b)) (b.toNat % (ofModel spec).signBit)
      (UnpackedFloat.unpack spec b) := by
  have top : (ofModel spec).infinity =
      (2 ^ spec.exponentBits - 1) * 2 ^ spec.mantissaBitsWithoutImplicit := rfl
  have lowest : (ofModel spec).lowest =
      2 - 2 ^ (spec.exponentBits - 1) - spec.mantissaBitsWithoutImplicit := by
    simp [ofModel, Format.lowest]
  have few : 1 ≤ 2 ^ (spec.exponentBits - 1) := Nat.one_le_two_pow
  have inside := (UnpackedFloat.unpackExponent b).isLt
  have inside' := (UnpackedFloat.unpackMantissa b).isLt
  have full : (UnpackedFloat.unpackExponent b = -1#_) ↔
      (UnpackedFloat.unpackExponent b).toNat = 2 ^ spec.exponentBits - 1 := by
    rw [← BitVec.toNat_inj, BitVec.neg_one_eq_allOnes, BitVec.toNat_allOnes]
  have none (w : Nat) (v : BitVec w) : v = 0#w ↔ v.toNat = 0 := by
    rw [← BitVec.toNat_inj, BitVec.toNat_ofNat, Nat.zero_mod]
  rw [unpackSize]
  fun_cases UnpackedFloat.unpack spec b with
  | case1 m e sv s all empty =>
    refine .infinite ?_
    rw [full.mp all, (none _ _).mp empty, top, Nat.add_zero]
  | case2 m e all some =>
    refine .nan ?_
    rw [full.mp all, top]
    exact Nat.lt_add_of_pos_right (Nat.pos_of_ne_zero fun zero => some ((none _ _).mpr zero))
  | case3 m e sv s _ zero empty =>
    refine .zero ?_
    rw [(none _ _).mp zero, (none _ _).mp empty, Nat.zero_mul]
  | case4 m e scale sv s _ zero some =>
    have low : (UnpackedFloat.unpackExponent b).toNat = 0 := (none _ _).mp zero
    have more : 2 ^ 1 ≤ 2 ^ spec.exponentBits := Nat.pow_le_pow_right (by decide) spec.he
    refine .finite (e := 0) _ ?_ ?_ ?_ (.inl rfl) ?_
    · rw [lowest]
      simp only [scale, e, low, Float.Model.Format.exponentBias]
      push_cast [few]
      omega
    · rw [low, Nat.zero_mul, Nat.zero_mul]
    · exact inside'.trans_le (Nat.le_mul_of_pos_left _ (by decide))
    · rw [low, top, Nat.zero_mul, Nat.zero_add]
      exact inside'.trans_le (Nat.le_mul_of_pos_left _ (by omega))
  | case5 m e scale sv s below some =>
    have high : (UnpackedFloat.unpackExponent b).toNat ≠ 0 := fun zero => some ((none _ _).mpr zero)
    have more : (UnpackedFloat.unpackExponent b).toNat ≠ 2 ^ spec.exponentBits - 1 := fun all => below (full.mpr all)
    have whole : (1#1 ++ m).toNat = 2 ^ spec.mantissaBitsWithoutImplicit + (UnpackedFloat.unpackMantissa b).toNat := by
      rw [BitVec.toNat_append, ← Nat.shiftLeft_add_eq_or_of_lt m.isLt]
      simp [m, Nat.one_shiftLeft]
    obtain ⟨e', same⟩ := Nat.exists_eq_add_one_of_ne_zero high
    refine .finite (e := e') _ ?_ ?_ ?_ (.inr ?_) ?_
    · rw [lowest]
      simp only [scale, e, same, Float.Model.Format.exponentBias]
      push_cast [few]
      omega
    · rw [whole, same]
      change _ = e' * 2 ^ spec.mantissaBitsWithoutImplicit + _
      ring
    · rw [whole]
      change _ < 2 * 2 ^ spec.mantissaBitsWithoutImplicit
      omega
    · rw [whole]
      exact Nat.le_add_right _ _
    · rw [top]
      calc (UnpackedFloat.unpackExponent b).toNat * 2 ^ spec.mantissaBitsWithoutImplicit +
            (UnpackedFloat.unpackMantissa b).toNat
          < (UnpackedFloat.unpackExponent b).toNat * 2 ^ spec.mantissaBitsWithoutImplicit +
            2 ^ spec.mantissaBitsWithoutImplicit := by omega
        _ = ((UnpackedFloat.unpackExponent b).toNat + 1) * 2 ^ spec.mantissaBitsWithoutImplicit := (Nat.succ_mul _ _).symm
        _ ≤ (2 ^ spec.exponentBits - 1) * 2 ^ spec.mantissaBitsWithoutImplicit := Nat.mul_le_mul_right _ (by omega)

theorem scaleLess {unit e m e' m' : Nat} (short : m < 2 * unit) (full : unit ≤ m') (lower : e < e') :
    e * unit + m < e' * unit + m' := by
  have next : (e + 1) * unit ≤ e' * unit := Nat.mul_le_mul_right unit lower
  rw [Nat.succ_mul] at next
  omega

theorem scaleOrder {unit e m e' m' : Nat} (lowest : Int) (short : m < 2 * unit) (short' : m' < 2 * unit)
    (full : e = 0 ∨ unit ≤ m) (full' : e' = 0 ∨ unit ≤ m') :
    (compare (lowest + e) (lowest + e')).then (compare m m') = compare (e * unit + m) (e' * unit + m') := by
  rcases Nat.lt_trichotomy e e' with lower | rfl | higher
  · have less := scaleLess short (full'.resolve_left (by omega)) lower
    rw [compare_lt_iff_lt.mpr (show lowest + (e : Int) < lowest + e' by omega), compare_lt_iff_lt.mpr less]
    rfl
  · rw [compare_eq_iff_eq.mpr rfl]
    rcases Nat.lt_trichotomy m m' with less | rfl | more
    · rw [compare_lt_iff_lt.mpr less, compare_lt_iff_lt.mpr (by omega)]
      rfl
    · rw [compare_eq_iff_eq.mpr rfl, compare_eq_iff_eq.mpr rfl]
      rfl
    · rw [compare_gt_iff_gt.mpr more, compare_gt_iff_gt.mpr (by omega)]
      rfl
  · have more := scaleLess short' (full.resolve_left (by omega)) higher
    rw [compare_gt_iff_gt.mpr (show lowest + (e : Int) > lowest + e' by omega), compare_gt_iff_gt.mpr more]
    rfl

theorem signedOrder {s s' : Sign} {m m' : Nat} {e e' : Int} {some : 0 < m} {some' : 0 < m'} {size size' : Nat}
    (positive : 0 < size) (positive' : 0 < size')
    (order : (compare e e').then (compare m m') = compare size size') :
    (UnpackedFloat.finite s m e some).compare (.finite s' m' e' some') =
      .some (compare (s.apply size) (s'.apply size')) := by
  have natural : compare (size : Int) size' = compare size size' := by
    simp [compare, compareOfLessAndEq]
  cases s with
  | positive =>
    cases s' with
    | positive => exact congrArg Option.some (order.trans natural.symm)
    | negative => exact congrArg Option.some (compare_gt_iff_gt.mpr (by simp only [Sign.apply]; omega)).symm
  | negative =>
    cases s' with
    | positive => exact congrArg Option.some (compare_lt_iff_lt.mpr (by simp only [Sign.apply]; omega)).symm
    | negative =>
      have turned : compare (-(size : Int)) (-(size' : Int)) = (compare size size').swap := by
        rw [← natural]
        rcases Int.lt_trichotomy size size' with less | same | more
        · rw [compare_lt_iff_lt.mpr less, compare_gt_iff_gt.mpr (Int.neg_lt_neg less)]
          rfl
        · rw [same, compare_eq_iff_eq.mpr rfl, compare_eq_iff_eq.mpr rfl]
          rfl
        · rw [compare_gt_iff_gt.mpr more, compare_lt_iff_lt.mpr (Int.neg_lt_neg more)]
          rfl
      exact congrArg Option.some ((congrArg Ordering.swap order).trans turned.symm)

theorem applyAbove (s s' : Sign) {size size' : Nat} (more : size' < size) :
    compare (s.apply (size : Int)) (s'.apply size') = match s with | .positive => .gt | .negative => .lt := by
  cases s with
  | positive => exact compare_gt_iff_gt.mpr (by cases s' <;> simp only [Sign.apply] <;> omega)
  | negative => exact compare_lt_iff_lt.mpr (by cases s' <;> simp only [Sign.apply] <;> omega)

theorem applyBelow (s s' : Sign) {size size' : Nat} (less : size < size') :
    compare (s.apply (size : Int)) (s'.apply size') = match s' with | .positive => .lt | .negative => .gt := by
  cases s' with
  | positive => exact compare_lt_iff_lt.mpr (by cases s <;> simp only [Sign.apply] <;> omega)
  | negative => exact compare_gt_iff_gt.mpr (by cases s <;> simp only [Sign.apply] <;> omega)

theorem applySame (s s' : Sign) {size : Nat} (some : 0 < size) :
    compare (s.apply (size : Int)) (s'.apply size) = compare s s' := by
  cases s with
  | positive =>
    cases s' with
    | positive => exact compare_eq_iff_eq.mpr rfl
    | negative => exact compare_gt_iff_gt.mpr (by simp only [Sign.apply]; omega)
  | negative =>
    cases s' with
    | positive => exact compare_lt_iff_lt.mpr (by simp only [Sign.apply]; omega)
    | negative => exact compare_eq_iff_eq.mpr rfl

theorem Reads.order {f : Format} {s s' : Sign} {size size' : Nat} {u v : UnpackedFloat} (x : Reads f s size u)
    (y : Reads f s' size' v) (number : size ≤ f.infinity) (number' : size' ≤ f.infinity) (more : 0 < f.infinity) :
    u.compare v = some (compare (s.apply size) (s'.apply size')) := by
  cases x with
  | nan above => omega
  | infinite top =>
    cases y with
    | nan above => omega
    | infinite top' =>
      rw [top, top', applySame s s' more]
      rfl
    | zero none =>
      rw [applyAbove s s' (by omega)]
      cases s <;> rfl
    | finite some' scaled' made' short' full' below' =>
      rw [applyAbove s s' (by omega)]
      cases s <;> rfl
  | zero none =>
    cases y with
    | nan above => omega
    | infinite top' =>
      rw [applyBelow s s' (by omega)]
      cases s' <;> rfl
    | zero none' =>
      rw [none, none', compare_eq_iff_eq.mpr (by cases s <;> cases s' <;> rfl)]
      rfl
    | finite some' scaled' made' short' full' below' =>
      rw [applyBelow s s' (by omega)]
      cases s' <;> rfl
  | finite some scaled made short full below =>
    cases y with
    | nan above => omega
    | infinite top' =>
      rw [applyBelow s s' (by omega)]
      cases s' <;> rfl
    | zero none' =>
      rw [applyAbove s s' (by omega)]
      cases s <;> rfl
    | finite some' scaled' made' short' full' below' =>
      refine signedOrder (by omega) (by omega) ?_
      rw [scaled, scaled', made, made']
      exact scaleOrder f.lowest short short' full full'

theorem Reads.number {f : Format} {s : Sign} {size : Nat} {u : UnpackedFloat} (x : Reads f s size u) :
    u.isNaN = false ↔ size ≤ f.infinity := by
  cases x with
  | nan above => exact ⟨fun number => (by cases number), fun number => absurd above (Nat.not_lt_of_le number)⟩
  | infinite top => exact ⟨fun _ => Nat.le_of_eq top, fun _ => rfl⟩
  | zero none => exact ⟨fun _ => none ▸ Nat.zero_le _, fun _ => rfl⟩
  | finite _ _ _ _ _ below => exact ⟨fun _ => Nat.le_of_lt below, fun _ => rfl⟩

theorem Reads.isFinite {f : Format} {s : Sign} {size : Nat} {u : UnpackedFloat} (x : Reads f s size u)
    (more : 0 < f.infinity) : u.isFinite = true ↔ size < f.infinity := by
  cases x with
  | nan above => exact ⟨fun finite => (by cases finite), fun below => absurd above (Nat.not_lt_of_lt below)⟩
  | infinite top => exact ⟨fun finite => (by cases finite), fun below => absurd top (Nat.ne_of_lt below)⟩
  | zero none => exact ⟨fun _ => none ▸ more, fun _ => rfl⟩
  | finite _ _ _ _ _ below => exact ⟨fun _ => below, fun _ => rfl⟩

/-! ### Bits -/

namespace Format

/-- The bits of a number as an integer in the order of numbers; both zeros have rank zero. -/
def rank (f : Format) (bits : Nat) : Int :=
  if bits < f.signBit then (bits % f.signBit : Nat) else -(bits % f.signBit : Nat)

def IsNumber (f : Format) (bits : Nat) : Prop := bits % f.signBit ≤ f.infinity

end Format

section
variable {spec : Float.Model.Format} {b b' : BitVec spec.numBits}

theorem infinityPositive (spec : Float.Model.Format) : 0 < (ofModel spec).infinity := by
  have more : 2 ^ 1 ≤ 2 ^ spec.exponentBits := Nat.pow_le_pow_right (by decide) spec.he
  exact Nat.mul_pos (Nat.sub_pos_of_lt more) (Nat.two_pow_pos _)

theorem rankSigned (b : BitVec spec.numBits) :
    (Sign.ofBitVec (UnpackedFloat.unpackSign b)).apply (b.toNat % (ofModel spec).signBit : Nat) =
      (ofModel spec).rank b.toNat := by
  have bound : b.toNat < 2 * 2 ^ (spec.mantissaBitsWithoutImplicit + spec.exponentBits) := by
    have inside : b.toNat < 2 ^ (1 + spec.exponentBits + spec.mantissaBitsWithoutImplicit) := b.isLt
    rwa [Nat.add_assoc, Nat.add_comm 1, Nat.pow_succ, Nat.mul_comm, Nat.add_comm spec.exponentBits] at inside
  have sign : (UnpackedFloat.unpackSign b).toNat =
      b.toNat / 2 ^ (spec.mantissaBitsWithoutImplicit + spec.exponentBits) % 2 := by
    rw [UnpackedFloat.unpackSign_def, BitVec.extractLsb'_toNat, Nat.shiftRight_eq_div_pow]
  have unit : (ofModel spec).signBit = 2 ^ (spec.mantissaBitsWithoutImplicit + spec.exponentBits) := rfl
  unfold Format.rank Sign.ofBitVec
  by_cases less : b.toNat < (ofModel spec).signBit
  · have zero : UnpackedFloat.unpackSign b = 0#1 := by
      apply BitVec.eq_of_toNat_eq
      rw [sign, Nat.div_eq_of_lt (unit ▸ less)]
      rfl
    rw [if_pos less, if_pos zero]
    rfl
  · have one : UnpackedFloat.unpackSign b ≠ 0#1 := by
      intro zero
      have once : b.toNat / 2 ^ (spec.mantissaBitsWithoutImplicit + spec.exponentBits) = 1 :=
        Nat.div_eq_of_lt_le (by omega) (by omega)
      rw [zero, once] at sign
      cases sign
    rw [if_neg less, if_neg one]
    rfl

theorem unpackOrder (number : (ofModel spec).IsNumber b.toNat) (number' : (ofModel spec).IsNumber b'.toNat) :
    (UnpackedFloat.unpack spec b).compare (UnpackedFloat.unpack spec b') =
      some (compare ((ofModel spec).rank b.toNat) ((ofModel spec).rank b'.toNat)) := by
  rw [← rankSigned b, ← rankSigned b']
  exact (unpackReads spec b).order (unpackReads spec b') number number' (infinityPositive spec)

theorem unpackNumber : (UnpackedFloat.unpack spec b).isNaN = false ↔ (ofModel spec).IsNumber b.toNat :=
  (unpackReads spec b).number

theorem unpackFinite :
    (UnpackedFloat.unpack spec b).isFinite = true ↔ b.toNat % (ofModel spec).signBit < (ofModel spec).infinity :=
  (unpackReads spec b).isFinite (infinityPositive spec)

theorem unpackUnordered (none : ¬ ((ofModel spec).IsNumber b.toNat ∧ (ofModel spec).IsNumber b'.toNat)) :
    (UnpackedFloat.unpack spec b).compare (UnpackedFloat.unpack spec b') = .none := by
  have nan {c : BitVec spec.numBits} (none : ¬ (ofModel spec).IsNumber c.toNat) :
      UnpackedFloat.unpack spec c = .notANumber :=
    UnpackedFloat.isNaN_iff.mp (Bool.not_eq_false _ ▸ mt unpackNumber.mp none)
  rcases not_and_or.mp none with left | right
  · rw [nan left]
    rfl
  · rw [nan right]
    exact Single.compareNan _

theorem unpackLess : (UnpackedFloat.unpack spec b).lt (UnpackedFloat.unpack spec b') = true ↔
    (ofModel spec).IsNumber b.toNat ∧ (ofModel spec).IsNumber b'.toNat ∧
      (ofModel spec).rank b.toNat < (ofModel spec).rank b'.toNat := by
  rw [UnpackedFloat.lt, beq_iff_eq, ← and_assoc]
  by_cases both : (ofModel spec).IsNumber b.toNat ∧ (ofModel spec).IsNumber b'.toNat
  · rw [unpackOrder both.1 both.2, Option.some.injEq, compare_lt_iff_lt]
    exact (and_iff_right both).symm
  · rw [unpackUnordered both]
    exact ⟨fun none => (by cases none), fun less => absurd less.1 both⟩

theorem unpackAtMost : (UnpackedFloat.unpack spec b).le (UnpackedFloat.unpack spec b') = true ↔
    (ofModel spec).IsNumber b.toNat ∧ (ofModel spec).IsNumber b'.toNat ∧
      (ofModel spec).rank b.toNat ≤ (ofModel spec).rank b'.toNat := by
  rw [UnpackedFloat.le, ← and_assoc]
  by_cases both : (ofModel spec).IsNumber b.toNat ∧ (ofModel spec).IsNumber b'.toNat
  · rw [unpackOrder both.1 both.2, Option.any_some, Std.isLE_compare]
    exact (and_iff_right both).symm
  · rw [unpackUnordered both]
    exact ⟨fun none => (by cases none), fun less => absurd less.1 both⟩

end

/-! ### Doubles and singles -/

def rank (x : Float) : Int := double.rank x.toBits.toNat

def rank32 (x : Float32) : Int := single.rank x.toBits.toNat

section
variable {x y : Float}

theorem doubleNumber : x.isNaN = false ↔ double.IsNumber x.toBits.toNat :=
  @unpackNumber .binary64 x.toBits.toBitVec

theorem doubleFinite : x.isFinite = true ↔ x.toBits.toNat % double.signBit < double.infinity :=
  @unpackFinite .binary64 x.toBits.toBitVec

theorem doubleLess : x < y ↔ x.isNaN = false ∧ y.isNaN = false ∧ rank x < rank y := by
  rw [doubleNumber, doubleNumber]
  change decide (x.toModel < y.toModel) = true ↔ _
  rw [decide_eq_true_iff]
  exact @unpackLess .binary64 x.toBits.toBitVec y.toBits.toBitVec

theorem doubleAtMost : x ≤ y ↔ x.isNaN = false ∧ y.isNaN = false ∧ rank x ≤ rank y := by
  rw [doubleNumber, doubleNumber]
  change decide (x.toModel ≤ y.toModel) = true ↔ _
  rw [decide_eq_true_iff]
  exact @unpackAtMost .binary64 x.toBits.toBitVec y.toBits.toBitVec

theorem doubleTrans {z : Float} (first : x ≤ y) (second : y ≤ z) : x ≤ z := by
  rw [doubleAtMost] at first second ⊢
  exact ⟨first.1, second.2.1, first.2.2.trans second.2.2⟩

theorem doubleBelow {z : Float} (first : x ≤ y) (second : y < z) : x < z := by
  rw [doubleAtMost] at first
  rw [doubleLess] at second ⊢
  exact ⟨first.1, second.2.1, first.2.2.trans_lt second.2.2⟩

theorem doubleRefl (le : x ≤ y) : y ≤ y :=
  doubleAtMost.mpr ⟨(doubleAtMost.mp le).2.1, (doubleAtMost.mp le).2.1, Int.le_refl _⟩

theorem positiveRange (positive : 0 < x) (finite : x.isFinite = true) :
    Float.ofBits 1 ≤ x ∧ x ≤ Float.ofBits 0x7FEFFFFFFFFFFFFF := by
  obtain ⟨-, number, above⟩ := doubleLess.mp positive
  have below := doubleFinite.mp finite
  have zero : rank 0 = 0 := by decide +kernel
  have least : (Float.ofBits 1).isNaN = false ∧ rank (Float.ofBits 1) = 1 := by decide +kernel
  have greatest : (Float.ofBits 0x7FEFFFFFFFFFFFFF).isNaN = false ∧
      rank (Float.ofBits 0x7FEFFFFFFFFFFFFF) = 0x7FEFFFFFFFFFFFFF := by decide +kernel
  have infinity : double.infinity = 0x7FF0000000000000 := rfl
  refine ⟨doubleAtMost.mpr ⟨least.1, number, ?_⟩, doubleAtMost.mpr ⟨number, greatest.1, ?_⟩⟩
  · omega
  · rw [greatest.2, rank, Format.rank]
    split <;> omega

end

section
variable {x y : Float32}

theorem singleNumber : x.isNaN = false ↔ single.IsNumber x.toBits.toNat :=
  @unpackNumber .binary32 x.toBits.toBitVec

theorem singleFinite : x.isFinite = true ↔ x.toBits.toNat % single.signBit < single.infinity :=
  @unpackFinite .binary32 x.toBits.toBitVec

theorem singleLess : x < y ↔ x.isNaN = false ∧ y.isNaN = false ∧ rank32 x < rank32 y := by
  rw [singleNumber, singleNumber]
  change decide (x.toModel < y.toModel) = true ↔ _
  rw [decide_eq_true_iff]
  exact @unpackLess .binary32 x.toBits.toBitVec y.toBits.toBitVec

theorem singleAtMost : x ≤ y ↔ x.isNaN = false ∧ y.isNaN = false ∧ rank32 x ≤ rank32 y := by
  rw [singleNumber, singleNumber]
  change decide (x.toModel ≤ y.toModel) = true ↔ _
  rw [decide_eq_true_iff]
  exact @unpackAtMost .binary32 x.toBits.toBitVec y.toBits.toBitVec

theorem singleBelow {z : Float32} (le : x ≤ y) (less : y < z) : x < z := by
  rw [singleAtMost] at le
  rw [singleLess] at less ⊢
  exact ⟨le.1, less.2.1, le.2.2.trans_lt less.2.2⟩

theorem singleBefore {z : Float32} (less : x < y) (le : y ≤ z) : x < z := by
  rw [singleAtMost] at le
  rw [singleLess] at less ⊢
  exact ⟨less.1, le.2.1, less.2.2.trans_le le.2.2⟩

theorem singleTrans {z : Float32} (first : x ≤ y) (second : y ≤ z) : x ≤ z := by
  rw [singleAtMost] at first second ⊢
  exact ⟨first.1, second.2.1, first.2.2.trans second.2.2⟩

theorem singleWeaken (less : x < y) : x ≤ y := by
  rw [singleLess] at less
  exact singleAtMost.mpr ⟨less.1, less.2.1, less.2.2.le⟩

theorem singleIrrefl (x : Float32) : ¬ x < x := fun less => Int.lt_irrefl _ (singleLess.mp less).2.2

theorem singleNotLess (passed : ¬ x < y) : y ≤ x ↔ x.isNaN = false ∧ y.isNaN = false := by
  rw [singleLess] at passed
  rw [singleAtMost]
  constructor
  · rintro ⟨right, left, -⟩
    exact ⟨left, right⟩
  · rintro ⟨left, right⟩
    exact ⟨right, left, Int.not_lt.mp fun less => passed ⟨left, right, less⟩⟩

theorem singleNotAtMost (passed : ¬ x ≤ y) : y < x ↔ x.isNaN = false ∧ y.isNaN = false := by
  rw [singleAtMost] at passed
  rw [singleLess]
  constructor
  · rintro ⟨right, left, -⟩
    exact ⟨left, right⟩
  · rintro ⟨left, right⟩
    exact ⟨right, left, Int.not_le.mp fun le => passed ⟨left, right, le⟩⟩

theorem zeroNumber : (0 : Float32).isNaN = false := by decide +kernel

theorem singleBits {bits : Nat} (inside : bits < UInt32.size) (number : single.IsNumber bits) :
    (Float32.ofBits (UInt32.ofNat bits)).toBits.toNat = bits := by
  have word : (UInt32.ofNat bits).toBitVec.toNat = bits := UInt32.toNat_ofNat_of_lt inside
  have known : (UnpackedFloat.unpack .binary32 (UInt32.ofNat bits).toBitVec).isNaN = false :=
    unpackNumber.mpr (word.symm ▸ number)
  have kept : UnpackedFloat.pack .binary32 (UnpackedFloat.unpack .binary32 (UInt32.ofNat bits).toBitVec) =
      (UInt32.ofNat bits).toBitVec := by
    rw [UnpackedFloat.pack_unpack]
    refine if_neg fun nan => ?_
    rw [UnpackedFloat.unpack, if_pos (of_decide_eq_true nan).1, if_neg (of_decide_eq_true nan).2] at known
    cases known
  exact (congrArg BitVec.toNat kept).trans word

end

end SpeechDecoder.Binary
