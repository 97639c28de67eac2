import SpeechDecoder.Proofs.Decimal.Order

/-! Doubles rounded to singles: the sign and what is no number stay, and whatever is not too large stays finite. -/
namespace SpeechDecoder.Binary

open Float.Model (UnpackedFloat)

theorem roundEvenAtMost (num den : Nat) : roundEven num den ≤ num / den + 1 := by
  unfold roundEven
  dsimp only
  split
  · omega
  · split
    · omega
    · omega

theorem inUnitsAtMost {m k d : Nat} {scale : Int} (below : scale < 0) (fits : (m.log2 : Int) + 1 ≤ d + k + scale) :
    inUnits m (Nat.pow 2 k) scale ≤ 2 ^ d := by
  obtain ⟨j, rfl⟩ := Int.eq_negSucc_of_lt_zero below
  have less : m * 2 ^ (j + 1) < 2 ^ d * 2 ^ k := by
    calc m * 2 ^ (j + 1) < 2 ^ (m.log2 + 1 + (j + 1)) := shiftedMost m (j + 1)
      _ ≤ 2 ^ (d + k) := Nat.pow_le_pow_right (by decide) (by omega)
      _ = 2 ^ d * 2 ^ k := Nat.pow_add _ _ _
  rw [Nat.mul_comm (2 ^ d)] at less
  exact (roundEvenAtMost _ _).trans (Nat.div_lt_of_lt_mul less)

theorem encodeSizeAtMost (f : Format) (num den : Nat) : encodeSize f num den ≤ f.infinity := by
  unfold encodeSize
  split
  · exact Nat.zero_le _
  · exact Nat.min_le_left _ _

theorem encodeSizeBelow {m k : Nat} (short : m < 2 ^ 53) (scaled : 43 ≤ k) :
    encodeSize single m (Nat.pow 2 k) < single.infinity := by
  by_cases none : m = 0
  · rw [encodeSize, if_pos none]
    decide
  have few : m.log2 < 53 := (Nat.log2_lt none).mpr short
  have width : (Nat.pow 2 k).log2 = k := Nat.log2_two_pow
  have lowest : single.lowest = -149 := rfl
  have fraction : (single.fraction : Int) = 23 := rfl
  -- both scales that are tried are at most -14, and 135 above the lowest is far below the top
  have above {q : Int} {n : Nat} (scale : q ≤ -14) (size : n ≤ 2 ^ 24) :
      (q - -149).toNat * Nat.pow 2 single.fraction + n < single.infinity := by
    have units : (q - -149).toNat ≤ 135 := by omega
    change (q - -149).toNat * 8388608 + n < 2139095040
    omega
  rw [encodeSize, if_neg none, width, lowest]
  dsimp only
  by_cases fine : inUnits m (Nat.pow 2 k) (max (-149) ((m.log2 : Int) - k - single.fraction - 1)) <
      Nat.pow 2 (single.fraction + 1)
  · rw [if_pos fine]
    exact (Nat.min_le_right _ _).trans_lt (above (by omega) (Nat.le_of_lt fine))
  · rw [if_neg fine]
    exact (Nat.min_le_right _ _).trans_lt (above (by omega) (inUnitsAtMost (by omega) (by omega)))

/-- What bits of a double without their sign stand for. -/
inductive Denotes (negative : Bool) (size : Nat) : Number → Prop where
  | nan (above : double.infinity < size) : Denotes negative size .nan
  | infinite (top : size = double.infinity) : Denotes negative size (.infinite negative)
  | finite {m e : Nat} (short : m < 2 ^ 53) (none : size = 0 → m = 0) (scaled : e = size / 2 ^ 52 - 1)
      (below : size < double.infinity) : Denotes negative size (.finite negative m (double.lowest + e))

theorem decodeDenotes (bits : Nat) :
    Denotes (double.signBit ≤ bits) (bits % double.signBit) (decode double bits) := by
  have inside : bits % double.signBit < 2048 * 2 ^ 52 := Nat.mod_lt _ (by decide)
  have infinity : double.infinity = 2047 * 2 ^ 52 := rfl
  unfold decode
  dsimp only
  generalize bits % double.signBit = size at inside ⊢
  change Denotes _ _ (if size / 2 ^ 52 = 0 then .finite _ (size % 2 ^ 52) _ else if size / 2 ^ 52 = 2047 then
    if size % 2 ^ 52 = 0 then _ else _ else .finite _ (2 ^ 52 + size % 2 ^ 52) _)
  split
  · next subnormal => exact .finite (e := 0) (by omega) (by omega) (by omega) (by omega)
  · split
    · split
      · exact .infinite (by omega)
      · exact .nan (by omega)
    · exact .finite (by omega) (by omega) rfl (by omega)

/-- The bits of a single, without the sign, that the number in the bits of a double becomes. The last bound is one
thousand, and far from what is too large. -/
structure Becomes (bits size : Nat) : Prop where
  made : convert single (decode double bits) = (if double.signBit ≤ bits then single.signBit else 0) + size
  number : size ≤ single.infinity
  zero : bits % double.signBit = 0 → size = 0
  finite : bits % double.signBit ≤ 0x408F400000000000 → size < single.infinity

theorem numberBecomes {bits : Nat} (number : double.IsNumber bits) : ∃ size, Becomes bits size := by
  have denoted := decodeDenotes bits
  generalize same : decode double bits = n at denoted
  cases denoted with
  | nan above => exact absurd above (Nat.not_lt_of_le number)
  | infinite top =>
    refine ⟨single.infinity, by simp only [same, convert, decide_eq_true_eq], Nat.le_refl _, fun zero => ?_,
      fun few => ?_⟩
    · rw [zero] at top
      cases top
    · rw [top] at few
      exact absurd few (by decide)
  | @finite m e short none scaled below =>
    have lowest : double.lowest = -1074 := rfl
    cases scale : double.lowest + (e : Int) with
    | ofNat q =>
      refine ⟨encodeSize single (m * Nat.pow 2 q) 1,
        by simp only [same, scale, convert, encode, decide_eq_true_eq], encodeSizeAtMost _ _ _,
        fun zero => ?_, fun few => ?_⟩
      · rw [none zero, Nat.zero_mul]
        rfl
      · -- a scale that is not negative makes more than a thousand
        have high : e ≤ 1031 := by omega
        have whole : 0 ≤ double.lowest + (e : Int) := scale ▸ Int.natCast_nonneg q
        omega
    | negSucc q =>
      refine ⟨encodeSize single m (Nat.pow 2 (q + 1)),
        by simp only [same, scale, convert, encode, decide_eq_true_eq], encodeSizeAtMost _ _ _,
        fun zero => ?_, fun few => ?_⟩
      · rw [none zero]
        rfl
      · have high : e ≤ 1031 := by omega
        exact encodeSizeBelow short (by omega)

structure Narrows (x : Float) (size : Nat) : Prop extends Becomes x.toBits.toNat size where
  bits : (narrow x).toBits.toNat % single.signBit = size
  rank : rank32 (narrow x) = if x.toBits.toNat < double.signBit then (size : Int) else -size

theorem numberNarrows {x : Float} (number : x.isNaN = false) : ∃ size, Narrows x size := by
  obtain ⟨size, becomes⟩ := numberBecomes (doubleNumber.mp number)
  have few : single.infinity < single.signBit := by decide
  have below := becomes.number.trans_lt few
  have words : UInt32.size = 2 * single.signBit := rfl
  have pattern : convert single (decode double x.toBits.toNat) % single.signBit = size := by
    rw [becomes.made]
    split
    · rw [Nat.add_mod_left, Nat.mod_eq_of_lt below]
    · rw [Nat.zero_add, Nat.mod_eq_of_lt below]
  have made : (narrow x).toBits.toNat = convert single (decode double x.toBits.toNat) := by
    have inside : convert single (decode double x.toBits.toNat) < UInt32.size := by
      rw [becomes.made, words]
      split <;> omega
    exact singleBits inside (pattern.trans_le becomes.number)
  have bits := (congrArg (· % single.signBit) made).trans pattern
  refine ⟨size, becomes, bits, ?_⟩
  rw [rank32, Format.rank, bits, made, becomes.made]
  by_cases positive : x.toBits.toNat < double.signBit
  · rw [if_pos positive, if_neg (Nat.not_le_of_lt positive), if_pos (by omega)]
  · rw [if_neg positive, if_pos (Nat.le_of_not_lt positive), if_neg (by omega)]

theorem narrowNumber (x : Float) : (narrow x).isNaN = x.isNaN := by
  cases nan : x.isNaN with
  | false =>
    obtain ⟨size, narrows⟩ := numberNarrows nan
    exact singleNumber.mpr (narrows.bits.trans_le narrows.number)
  | true =>
    have denoted := decodeDenotes x.toBits.toNat
    have none : ¬ double.IsNumber x.toBits.toNat := fun number => by
      rw [doubleNumber.mpr number] at nan
      cases nan
    unfold narrow ofFloat
    generalize decode double x.toBits.toNat = n at denoted
    cases denoted with
    | nan above => decide +kernel
    | infinite top => exact absurd (Nat.le_of_eq top) none
    | finite _ _ _ below => exact absurd (Nat.le_of_lt below) none

theorem narrowAtMost {x : Float} (le : x ≤ 0) : narrow x ≤ 0 := by
  obtain ⟨number, -, below⟩ := doubleAtMost.mp le
  obtain ⟨size, narrows⟩ := numberNarrows number
  have zero : rank 0 = 0 := by decide +kernel
  have zero32 : rank32 0 = 0 := by decide +kernel
  refine singleAtMost.mpr ⟨(narrowNumber x).trans number, zeroNumber, ?_⟩
  rw [narrows.rank, zero32]
  rw [zero, rank, Format.rank] at below
  split
  · rw [if_pos ‹_›] at below
    have none := narrows.zero (by omega)
    omega
  · omega

theorem narrowFinite {x : Float} (low : -1000 ≤ x) (high : x ≤ 1000) : (narrow x).isFinite = true := by
  obtain ⟨-, number, above⟩ := doubleAtMost.mp low
  obtain ⟨-, -, below⟩ := doubleAtMost.mp high
  obtain ⟨size, narrows⟩ := numberNarrows number
  have least : rank (-1000) = -0x408F400000000000 := by decide +kernel
  have most : rank 1000 = 0x408F400000000000 := by decide +kernel
  rw [least, rank, Format.rank] at above
  rw [most, rank, Format.rank] at below
  refine singleFinite.mpr (narrows.bits ▸ narrows.finite ?_)
  split at below <;> omega

theorem narrowNotNegative {x : Float} (passed : ¬ narrow x < 0) : 0 ≤ narrow x ↔ x.isNaN = false := by
  rw [singleNotLess passed, narrowNumber]
  exact and_iff_left zeroNumber

theorem narrowPositive {x : Float} (passed : ¬ narrow x ≤ 0) : 0 < narrow x ↔ x.isNaN = false := by
  rw [singleNotAtMost passed, narrowNumber]
  exact and_iff_left zeroNumber

theorem narrowLess {x y : Float} (passed : ¬ narrow y ≤ narrow x) :
    narrow x < narrow y ↔ x.isNaN = false ∧ y.isNaN = false := by
  rw [singleNotAtMost passed, narrowNumber, narrowNumber]
  exact and_comm

/-! ### Halves -/

theorem componentsNumber {spec : Float.Model.Format} (s : UnpackedFloat.Sign) {e : BitVec spec.exponentBits}
    (m : BitVec spec.mantissaBitsWithoutImplicit) (finite : e ≠ -1#_ ∨ m = 0#_) :
    (UnpackedFloat.unpack spec (UnpackedFloat.packComponents spec s e m)).isNaN = false := by
  refine Bool.eq_false_iff.mpr fun nan => ?_
  rw [UnpackedFloat.isNaN_iff, UnpackedFloat.unpack] at nan
  split at nan
  · next full =>
    split at nan
    · cases nan
    · next some =>
      rw [UnpackedFloat.unpackExponent_packComponents] at full
      rw [UnpackedFloat.unpackMantissa_packComponents] at some
      exact finite.elim (absurd full) some
  · split at nan
    · split at nan <;> cases nan
    · cases nan

theorem packNumber {spec : Float.Model.Format} {u : UnpackedFloat} (number : u.isNaN = false) :
    (UnpackedFloat.unpack spec (u.pack spec)).isNaN = false := by
  have more : 2 ^ 1 ≤ 2 ^ spec.exponentBits := Nat.pow_le_pow_right (by decide) spec.he
  have notFull {n : Nat} (below : n + 1 < 2 ^ spec.exponentBits) : BitVec.ofNat spec.exponentBits n ≠ -1#_ := by
    intro full
    rw [← BitVec.toNat_inj, BitVec.neg_one_eq_allOnes, BitVec.toNat_allOnes, BitVec.toNat_ofNat,
      Nat.mod_eq_of_lt (by omega)] at full
    omega
  cases u with
  | notANumber => cases number
  | infinity s => exact componentsNumber s _ (.inr rfl)
  | zero s => exact componentsNumber s _ (.inr rfl)
  | finite s m e some =>
    rw [UnpackedFloat.pack]
    split
    · exact componentsNumber s _ (.inr rfl)
    · split
      · exact componentsNumber s _ (.inl (notFull (by omega)))
      · exact componentsNumber s _ (.inl (notFull (by omega)))

theorem quotientNumber (spec : Float.Model.Format) {u : UnpackedFloat} (number : u.isNaN = false)
    (s : UnpackedFloat.Sign) (m : Nat) (e : Int) (some : 0 < m) :
    (u.div spec (.finite s m e some)).isNaN = false := by
  cases u with
  | notANumber => cases number
  | infinity s' => rfl
  | zero s' => rfl
  | finite s' m' e' some' =>
    change (UnpackedFloat.roundWithAccuracy _ _ _ _ _).isNaN = false
    rw [UnpackedFloat.roundWithAccuracy]
    dsimp only
    split <;> rfl

theorem ofNatural32Number (n : Nat) : (ofNatural32 n).isNaN = false := by
  have size : encode single false n 1 ≤ single.infinity := (Nat.zero_add _).trans_le (encodeSizeAtMost _ _ _)
  have inside : encode single false n 1 < UInt32.size := size.trans_lt (by decide)
  have number : single.IsNumber (encode single false n 1) := (Nat.mod_le _ _).trans size
  refine singleNumber.mpr ?_
  rwa [ofNatural32, singleBits inside number]

theorem halfNumber {x : Float32} (number : x.isNaN = false) : (x / 2).isNaN = false := by
  have two : Single.unpacked 2 = .finite .positive 8388608 (-22) (by decide) :=
    Single.unpackedBits (show _ = (0x40000000 : UInt32) by decide +kernel)
  change (UnpackedFloat.unpack .binary32 (UnpackedFloat.pack .binary32 (UnpackedFloat.div .binary32 _
    (Single.unpacked 2)))).isNaN = false
  rw [two]
  exact packNumber (quotientNumber _ number _ _ _ _)

theorem narrowHalf {x : Float} {n : Nat} (passed : ¬ ofNatural32 n / 2 < narrow x) :
    narrow x ≤ ofNatural32 n / 2 ↔ x.isNaN = false := by
  rw [singleNotLess passed, narrowNumber]
  exact and_iff_right (halfNumber (ofNatural32Number n))

end SpeechDecoder.Binary
