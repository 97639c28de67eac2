import SpeechDecoder.Proofs.Decimal.Narrow
import SpeechDecoder.Proofs.Decimal.Rounding

/-! Products and quotients of singles are the nearest single too, and keep to the rule of signs. What is a single
already is not rounded. -/
namespace SpeechDecoder.Binary

open Float.Model (UnpackedFloat)
open Float.Model.UnpackedFloat (Sign ExtendedMantissa)
open Single (unpacked)

theorem signedTimes (s : Sign) {x : ℚ} (above : 0 < x) {size : ℕ} (fits : Fits x size) :
    Signed (s.apply 1 * x) s size := by
  have signed := applied s above fits
  cases s with
  | negative => simpa [Sign.apply] using signed
  | positive => simpa [Sign.apply] using signed

theorem worthParts (s : Sign) {m : ℕ} (e : ℤ) (some : 0 < m) :
    worth (.finite s m e some) = s.apply 1 * (m * 2 ^ e) := by
  cases s with
  | negative => simp [worth, Sign.apply]
  | positive => simp [worth, Sign.apply]

theorem signProduct (s s' : Sign) : ((s * s').apply 1 : ℚ) = s.apply 1 * s'.apply 1 := by
  have signs : (s * s').apply 1 = s.apply 1 * s'.apply 1 := by cases s <;> cases s' <;> rfl
  rw [signs, Int.cast_mul]

theorem signQuotient (s s' : Sign) : ((s / s').apply 1 : ℚ) = s.apply 1 / s'.apply 1 := by
  have unit : (s'.apply 1 : ℚ) * s'.apply 1 = 1 := by cases s' <;> norm_num [Sign.apply]
  have signs : (s / s').apply 1 = s.apply 1 * s'.apply 1 := by cases s <;> cases s' <;> rfl
  rw [signs, Int.cast_mul, eq_div_iff (left_ne_zero_of_mul_eq_one unit), mul_assoc, unit, mul_one]

theorem mulSigned {s s' : Sign} {size size' : ℕ} {u v : UnpackedFloat} (rounded : Rounded s size u)
    (rounded' : Rounded s' size' v) : ∃ total, Rounded (s * s') total (u.mul .binary32 v) ∧
      Signed (worth u * worth v) (s * s') total := by
  cases rounded with
  | zero none =>
    have empty : Signed (worth (.zero s) * worth v) (s * s') 0 := by simpa [worth] using Signed.zero (s * s')
    cases rounded' <;> exact ⟨0, .zero rfl, empty⟩
  | @finite m e scale some scaled made short full =>
    cases rounded' with
    | zero none' => exact ⟨0, .zero rfl, by simpa [worth] using Signed.zero (s * s')⟩
    | @finite m' e' scale' some' scaled' made' short' full' =>
      have deep : scale + scale' ≤ single.lowest ∨ 2 ^ 23 ≤ m * m' := by
        rcases full with low | full
        · rcases full' with low' | full'
          · left
            have lowest : single.lowest = -149 := rfl
            omega
          · exact .inr (full'.trans (Nat.le_mul_of_pos_left _ some))
        · exact .inr (full.trans (Nat.le_mul_of_pos_right _ some'))
      have whole : Stands ((m * m' : ℕ) * 2 ^ (scale + scale') / 2 ^ (scale + scale'))
          (.ofMantissaAndAccuracy (m * m') .exact) := .exact (mul_div_cancel_right₀ _ (scalePositive _).ne')
      obtain ⟨total, rounded, fits⟩ := accurateFits (s * s') whole deep
      have above : (0 : ℚ) < (m * m' : ℕ) * 2 ^ (scale + scale') :=
        mul_pos (by exact_mod_cast Nat.mul_pos some some') (scalePositive _)
      have product : worth (.finite s m scale some) * worth (.finite s' m' scale' some') =
          (s * s').apply 1 * ((m * m' : ℕ) * 2 ^ (scale + scale')) := by
        rw [worthParts, worthParts, signProduct, zpow_add₀ (by norm_num)]
        push_cast
        ring
      exact ⟨total, rounded, product ▸ signedTimes _ above fits⟩

theorem quotientStands (n : ℕ) {d : ℕ} (some : 0 < d) :
    Stands (n / d) (.ofMantissaAndAccuracy (n / d) (UnpackedFloat.accuracyOfFraction (n % d) d)) := by
  have denominator : (0 : ℚ) < d := by exact_mod_cast some
  have parts : (n : ℚ) / d = (n / d : ℕ) + (n % d : ℕ) / d := by
    rw [eq_comm, add_div' _ _ _ denominator.ne', mul_comm]
    congr 1
    exact_mod_cast Nat.div_add_mod n d
  have proper : ((n % d : ℕ) : ℚ) / d < 1 := (div_lt_one denominator).mpr (by exact_mod_cast Nat.mod_lt n some)
  rw [parts]
  generalize n / d = q
  generalize n % d = r at proper
  unfold UnpackedFloat.accuracyOfFraction
  split
  next none => exact .exact (by rw [none]; simp)
  next more =>
    have above : (0 : ℚ) < r / d := div_pos (by exact_mod_cast Nat.pos_of_ne_zero more) denominator
    rcases Nat.lt_trichotomy (2 * r) d with less | same | greater
    · rw [compare_lt_iff_lt.mpr less]
      have half : (r : ℚ) / d < 1 / 2 := by
        rw [div_lt_div_iff₀ denominator (by norm_num)]
        exact_mod_cast (by omega : r * 2 < 1 * d)
      exact .low (by linarith) (by linarith)
    · rw [compare_eq_iff_eq.mpr same]
      have half : (r : ℚ) / d = 1 / 2 := by
        rw [div_eq_div_iff denominator.ne' (by norm_num)]
        exact_mod_cast (by omega : r * 2 = 1 * d)
      exact .half (by rw [half])
    · rw [compare_gt_iff_gt.mpr greater]
      have half : 1 / 2 < (r : ℚ) / d := by
        rw [div_lt_div_iff₀ (by norm_num) denominator]
        exact_mod_cast (by omega : 1 * d < r * 2)
      exact .high (by linarith) (by linarith)

theorem divSigned {s s' : Sign} {size size' : ℕ} {u v : UnpackedFloat} (rounded : Rounded s size u)
    (rounded' : Rounded s' size' v) (nonzero : worth v ≠ 0) :
    ∃ total, Rounded (s / s') total (u.div .binary32 v) ∧ Signed (worth u / worth v) (s / s') total := by
  cases rounded' with
  | zero none' => exact absurd rfl nonzero
  | @finite m' e' scale' some' scaled' made' short' full' =>
    cases rounded with
    | zero none => exact ⟨0, .zero rfl, by simpa [worth] using Signed.zero (s / s')⟩
    | @finite m e scale some scaled made short full =>
      let target := min (scale - scale') (max (m.log2 + 1 + scale - (m'.log2 + 1 + scale') - 24) single.lowest)
      let k := (scale - scale' - target).toNat
      have divided : UnpackedFloat.div .binary32 (.finite s m scale some) (.finite s' m' scale' some') =
          .roundWithAccuracy .binary32 (s / s') (m * 2 ^ k / m') target
            (UnpackedFloat.accuracyOfFraction (m * 2 ^ k % m') m') := by
        rw [← Nat.shiftLeft_eq]
        rfl
      have deep : target ≤ single.lowest ∨ 2 ^ 23 ≤ m * 2 ^ k / m' := by
        by_cases low : target ≤ single.lowest
        · exact .inl low
        · right
          rw [Nat.le_div_iff_mul_le some']
          calc 2 ^ 23 * m' ≤ 2 ^ 23 * 2 ^ (m'.log2 + 1) := Nat.mul_le_mul_left _ Nat.lt_log2_self.le
            _ = 2 ^ (23 + (m'.log2 + 1)) := (Nat.pow_add _ _ _).symm
            _ ≤ 2 ^ (m.log2 + k) := Nat.pow_le_pow_right (by decide) (by omega)
            _ ≤ m * 2 ^ k := shiftedLeast some k
      have denominator : (0 : ℚ) < m' * 2 ^ scale' := mul_pos (by exact_mod_cast some') (scalePositive _)
      have above : (0 : ℚ) < m * 2 ^ scale / (m' * 2 ^ scale') :=
        div_pos (mul_pos (by exact_mod_cast some) (scalePositive _)) denominator
      have units : (m * 2 ^ scale / (m' * 2 ^ scale') / 2 ^ target : ℚ) = (m * 2 ^ k : ℕ) / m' := by
        have same : (2 : ℚ) ^ scale = 2 ^ k * 2 ^ scale' * 2 ^ target := by
          rw [← zpow_natCast, ← zpow_add₀ (by norm_num), ← zpow_add₀ (by norm_num)]
          congr 1
          omega
        have some'' : (m' : ℚ) ≠ 0 := by exact_mod_cast some'.ne'
        rw [same]
        push_cast
        field_simp
      obtain ⟨total, rounded, fits⟩ := accurateFits (s / s') (units ▸ quotientStands (m * 2 ^ k) some') deep
      refine ⟨total, divided ▸ rounded, ?_⟩
      have quotient : worth (.finite s m scale some) / worth (.finite s' m' scale' some') =
          (s / s').apply 1 * (m * 2 ^ scale / (m' * 2 ^ scale')) := by
        rw [worthParts, worthParts, signQuotient, mul_div_mul_comm]
      exact quotient ▸ signedTimes _ above fits

/-! ### What needs no rounding -/

theorem representable (s : Sign) {n : ℕ} {e : ℤ} (short : n < 2 ^ 24) (above : single.lowest ≤ e) :
    ∃ size u, Rounded s size u ∧ worth u = s.apply 1 * (n * 2 ^ e) := by
  rcases Nat.eq_zero_or_pos n with rfl | some
  · exact ⟨0, .zero s, .zero rfl, by simp [worth]⟩
  · have few : n.log2 < 24 := (Nat.log2_lt some.ne').mpr short
    let j := min (23 - n.log2) (e - single.lowest).toNat
    obtain ⟨k, scale⟩ : ∃ k : ℕ, e - j = single.lowest + k := ⟨(e - j - single.lowest).toNat, by omega⟩
    have longer : n * 2 ^ j < 2 * 2 ^ 23 := by
      have room : 2 ^ (n.log2 + 1 + j) ≤ 2 ^ 24 := Nat.pow_le_pow_right (by decide) (by omega)
      exact (shiftedMost n j).trans_le room
    have full : k = 0 ∨ 2 ^ 23 ≤ n * 2 ^ j := by
      by_cases lowest : k = 0
      · exact .inl lowest
      · have room : 2 ^ 23 ≤ 2 ^ (n.log2 + j) := Nat.pow_le_pow_right (by decide) (by omega)
        exact .inr (room.trans (shiftedLeast some j))
    have more : 0 < n * 2 ^ j := by positivity
    refine ⟨_, .finite s (n * 2 ^ j) (e - j) more, .finite more scale rfl longer full, ?_⟩
    rw [worthParts, Nat.cast_mul, Nat.cast_pow, mul_assoc (n : ℚ), Nat.cast_ofNat, ← zpow_natCast,
      ← zpow_add₀ (by norm_num), add_sub_cancel]

theorem Rounded.sameWorth {s s' : Sign} {size size' : ℕ} {u v : UnpackedFloat} (rounded : Rounded s size u)
    (rounded' : Rounded s' size' v) (same : s.apply (size : ℤ) = s'.apply size') : worth u = worth v :=
  le_antisymm (rounded.worthAtMost rounded' same.le) (rounded'.worthAtMost rounded same.ge)

theorem Signed.unique {x : ℚ} {s s' : Sign} {size size' : ℕ} (signed : Signed x s size)
    (signed' : Signed x s' size') : s.apply (size : ℤ) = s'.apply size' :=
  Int.le_antisymm (signed.mono signed' le_rfl) (signed'.mono signed le_rfl)

/-- A finite single that is worth so much. -/
structure Exactly (z : Float32) (x : ℚ) : Prop where
  finite : z.isFinite = true
  worth : worth (unpacked z) = x

theorem oneRounded : Rounded .positive (127 * 2 ^ 23) (.finite .positive (2 ^ 23) (-23) (by decide)) :=
  .finite (e := 126) _ rfl rfl (by decide) (.inr (by decide))

theorem oneWorth : worth (.finite .positive (2 ^ 23) (-23) (by decide)) = 1 := by
  rw [worthParts]
  norm_num [Sign.apply]

/-- A short number of at most one is not rounded at all. -/
theorem packExactly {z : Float32} {s : Sign} {size : ℕ} {u : UnpackedFloat} {x : ℚ}
    (made : unpacked z = UnpackedFloat.unpack .binary32 (u.pack .binary32)) (rounded : Rounded s size u)
    (signed : Signed x s size) {n : ℤ} {e : ℤ} (same : x = n * 2 ^ e) (short : n.natAbs < 2 ^ 24)
    (above : single.lowest ≤ e) (small : |x| ≤ 1) : Exactly z x := by
  have one := oneRounded.signed
  rw [oneWorth] at one
  have below : size < single.infinity :=
    (signed.fits.mono one.fits (by rwa [abs_one])).trans_lt (by decide)
  have reads := packReads rounded
  rw [Nat.min_eq_left below.le, ← made] at reads
  have finite := (reads.isFinite (by decide)).mpr below
  refine ⟨finite, ?_⟩
  obtain ⟨t, k, turned, few⟩ : ∃ (t : Sign) (k : ℕ), n = t.apply 1 * k ∧ k < 2 ^ 24 := by
    rcases Int.natAbs_eq n with up | down
    · exact ⟨.positive, n.natAbs, by rw [Sign.apply]; omega, short⟩
    · exact ⟨.negative, n.natAbs, by rw [Sign.apply]; omega, short⟩
  have parts : x = t.apply 1 * (k * 2 ^ e) := by
    rw [same, turned, Int.cast_mul, Int.cast_natCast, mul_assoc]
  obtain ⟨size', v, rounded', known⟩ := representable t few above
  rw [← parts] at known
  have signed' := rounded'.signed
  rw [known] at signed'
  rw [(reads.rounded finite).sameWorth rounded' (signed.unique signed'), known]

/-! ### Naturals -/

/-- The mantissa of a short number. -/
theorem mantissaBetween {n : ℕ} (some : 0 < n) (short : n < 2 ^ 24) :
    2 ^ 23 ≤ n * 2 ^ (23 - n.log2) ∧ n * 2 ^ (23 - n.log2) < 2 * 2 ^ 23 := by
  have few : n.log2 < 24 := (Nat.log2_lt some.ne').mpr short
  have least := shiftedLeast some (23 - n.log2)
  have most := shiftedMost n (23 - n.log2)
  rw [show n.log2 + (23 - n.log2) = 23 by omega] at least
  rw [show n.log2 + 1 + (23 - n.log2) = 24 by omega] at most
  exact ⟨least, most⟩

theorem roundWhole (n : ℕ) : roundEven n 1 = n := by
  simp [roundEven, Nat.mod_one]

theorem unitsBelow (n k : ℕ) : inUnits n 1 (-(k : ℤ)) = n * 2 ^ k := by
  cases k with
  | zero => simpa [inUnits] using roundWhole n
  | succ k => exact roundWhole _

theorem encodeShort {n : ℕ} (some : 0 < n) (short : n < 2 ^ 24) :
    encodeSize single n 1 = (n.log2 + 126) * 2 ^ 23 + n * 2 ^ (23 - n.log2) := by
  have few : n.log2 < 24 := (Nat.log2_lt some.ne').mpr short
  have lowest : single.lowest = -149 := rfl
  have infinity : single.infinity = 255 * 2 ^ 23 := rfl
  have low : max single.lowest ((n.log2 : ℤ) - (1 : ℕ).log2 - single.fraction - 1) = -((24 - n.log2 : ℕ) : ℤ) := by
    rw [show (1 : ℕ).log2 = 0 from rfl, show single.fraction = 23 from rfl]
    omega
  have scale : max single.lowest ((n.log2 : ℤ) - (1 : ℕ).log2 - single.fraction) = -((23 - n.log2 : ℕ) : ℤ) := by
    rw [show (1 : ℕ).log2 = 0 from rfl, show single.fraction = 23 from rfl]
    omega
  have long : ¬ n * 2 ^ (24 - n.log2) < Nat.pow 2 (single.fraction + 1) := by
    have whole := shiftedLeast some (24 - n.log2)
    rw [show n.log2 + (24 - n.log2) = 24 by omega] at whole
    exact Nat.not_lt_of_le whole
  have full := (mantissaBetween some short).2
  rw [encodeSize, if_neg some.ne']
  dsimp only
  rw [low, scale, unitsBelow, unitsBelow, if_neg long]
  have unit : Nat.pow 2 single.fraction = 2 ^ 23 := rfl
  have place : (-((23 - n.log2 : ℕ) : ℤ) - single.lowest).toNat = n.log2 + 126 := by omega
  rw [unit, infinity, place]
  clear low scale long
  omega

/-- Naturals other than zero are encoded as at least one. -/
theorem encodeAbove {n : ℕ} (some : 0 < n) : 127 * 2 ^ 23 ≤ encodeSize single n 1 := by
  by_cases short : n < 2 ^ 24
  · have full := (mantissaBetween some short).1
    rw [encodeShort some short]
    omega
  · have many : 24 ≤ n.log2 := (Nat.le_log2 some.ne').mpr (Nat.le_of_not_lt short)
    have above {q : ℤ} {m : ℕ} (scale : 0 ≤ q) :
        127 * 2 ^ 23 ≤ min single.infinity ((q - single.lowest).toNat * Nat.pow 2 single.fraction + m) := by
      have lowest : single.lowest = -149 := rfl
      have infinity : single.infinity = 255 * 2 ^ 23 := rfl
      have unit : Nat.pow 2 single.fraction = 2 ^ 23 := rfl
      rw [unit, infinity]
      omega
    rw [encodeSize, if_neg some.ne']
    dsimp only
    rw [show (1 : ℕ).log2 = 0 from rfl, show single.fraction = 23 from rfl]
    split
    · exact above (by omega)
    · exact above (by omega)

theorem ofNaturalReads {n : ℕ} (some : 0 < n) :
    Reads single .positive (encodeSize single n 1) (unpacked (ofNatural32 n)) := by
  have size : encode single false n 1 = encodeSize single n 1 := Nat.zero_add _
  have most := encodeSizeAtMost single n 1
  have few : single.infinity < single.signBit := by decide
  have bits : (ofNatural32 n).toBits.toNat = encodeSize single n 1 := by
    rw [ofNatural32, size]
    exact singleBits (most.trans_lt (by decide)) ((Nat.mod_le _ _).trans most)
  have above := encodeAbove some
  obtain ⟨sign, reads, signed⟩ : ∃ sign : Sign,
      Reads single sign ((ofNatural32 n).toBits.toNat % single.signBit) (unpacked (ofNatural32 n)) ∧
      sign.apply (((ofNatural32 n).toBits.toNat % single.signBit : ℕ) : ℤ) =
        single.rank (ofNatural32 n).toBits.toNat :=
    ⟨_, unpackReads .binary32 (ofNatural32 n).toBits.toBitVec, @rankSigned .binary32 (ofNatural32 n).toBits.toBitVec⟩
  rw [bits, Nat.mod_eq_of_lt (most.trans_lt few)] at reads signed
  rw [Format.rank, if_pos (most.trans_lt few), Nat.mod_eq_of_lt (most.trans_lt few)] at signed
  cases sign with
  | positive => exact reads
  | negative =>
    rw [Sign.apply] at signed
    omega

theorem unpackedNone : unpacked (ofNatural32 0) = .zero .positive :=
  Single.unpackedBits (show _ = (0 : UInt32) by decide +kernel)

theorem ofNaturalExactly {n : ℕ} (short : n < 2 ^ 24) : Exactly (ofNatural32 n) n := by
  rcases Nat.eq_zero_or_pos n with rfl | some
  · exact ⟨by decide +kernel, by rw [unpackedNone]; rfl⟩
  · have few : n.log2 < 24 := (Nat.log2_lt some.ne').mpr short
    have lowest : single.lowest = -149 := rfl
    have infinity : single.infinity = 255 * 2 ^ 23 := rfl
    have full := mantissaBetween some short
    have reads := ofNaturalReads some
    have whole : Rounded .positive (encodeSize single n 1)
        (.finite .positive (n * 2 ^ (23 - n.log2)) (n.log2 - 23) (by positivity)) :=
      .finite (e := n.log2 + 126) _ (by omega) (encodeShort some short) full.2 (.inr full.1)
    have below : encodeSize single n 1 < single.infinity := by
      rw [encodeShort some short, infinity]
      omega
    have finite := (reads.isFinite (by decide)).mpr below
    refine ⟨finite, ?_⟩
    rw [(reads.rounded finite).sameWorth whole rfl, worthParts]
    have unit : (2 : ℚ) ^ (23 - n.log2) * 2 ^ ((n.log2 : ℤ) - 23) = 1 := by
      rw [← zpow_natCast, ← zpow_add₀ (by norm_num), ← zpow_zero (2 : ℚ)]
      congr 1
      omega
    push_cast [Sign.apply]
    rw [one_mul, mul_assoc, unit, mul_one]

/-- Powers of two are told by their bits. -/
theorem powerExactly {z : Float32} {bits : UInt32} {e : ℤ} (made : z.toModel.toBits = bits)
    (power : UnpackedFloat.unpack .binary32 bits.toBitVec = .finite .positive (2 ^ 23) e (by decide)) :
    Exactly z (2 ^ (e + 23)) := by
  have known : unpacked z = .finite .positive (2 ^ 23) e (by decide) := (Single.unpackedBits made).trans power
  refine ⟨?_, ?_⟩
  · change (unpacked z).isFinite = true
    rw [known]
    rfl
  · rw [known, worthParts, zpow_add₀ (by norm_num)]
    push_cast [Sign.apply]
    rw [one_mul, mul_comm]

theorem Exactly.rounded {z : Float32} {x : ℚ} (known : Exactly z x) :
    ∃ s size, Rounded s size (unpacked z) := by
  obtain ⟨s, size, reads⟩ := singleReads z
  exact ⟨s, size, reads.rounded known.finite⟩

theorem quotientExactly {y z : Float32} {p q : ℚ} (first : Exactly y p) (second : Exactly z q) (nonzero : q ≠ 0)
    (n e : ℤ) (same : p / q = n * 2 ^ e) (short : n.natAbs < 2 ^ 24) (above : single.lowest ≤ e)
    (small : |p / q| ≤ 1) : Exactly (y / z) (p / q) := by
  obtain ⟨_, _, rounded⟩ := first.rounded
  obtain ⟨_, _, rounded'⟩ := second.rounded
  obtain ⟨total, quotient, signed⟩ := divSigned rounded rounded' (by rwa [second.worth])
  rw [first.worth, second.worth] at signed
  exact packExactly rfl quotient signed same short above small

theorem subIsAdd (u v : UnpackedFloat) : u.sub .binary32 v = u.add .binary32 v.neg := by
  have twice (s : Sign) : - -s = s := by cases s <;> rfl
  cases u with
  | notANumber => rfl
  | infinity s => cases v <;> rfl
  | zero s => cases v <;> rfl
  | finite s m e some =>
    cases v with
    | finite s' m' e' some' =>
      have turned (k : ℤ) : (-s').apply k = -s'.apply k := by
        cases s'
        · exact (Int.neg_neg k).symm
        · rfl
      simp only [UnpackedFloat.sub, UnpackedFloat.neg, UnpackedFloat.add, turned, Int.sub_eq_add_neg]
    | _ => rfl

theorem Rounded.neg {s : Sign} {size : ℕ} {u : UnpackedFloat} (rounded : Rounded s size u) :
    Rounded (-s) size u.neg ∧ worth u.neg = -worth u := by
  cases rounded with
  | zero none => exact ⟨.zero none, by simp [UnpackedFloat.neg, worth]⟩
  | finite some scaled made short full =>
    refine ⟨.finite some scaled made short full, ?_⟩
    rw [UnpackedFloat.neg, worthParts, worthParts]
    cases s
    · change ((1 : ℤ) : ℚ) * _ = -(((-1 : ℤ) : ℚ) * _)
      push_cast
      ring
    · change ((-1 : ℤ) : ℚ) * _ = -(((1 : ℤ) : ℚ) * _)
      push_cast
      ring

theorem differenceExactly {y z : Float32} {p q : ℚ} (first : Exactly y p) (second : Exactly z q)
    (n e : ℤ) (same : p - q = n * 2 ^ e) (short : n.natAbs < 2 ^ 24) (above : single.lowest ≤ e)
    (small : |p - q| ≤ 1) : Exactly (y - z) (p - q) := by
  obtain ⟨_, _, rounded⟩ := first.rounded
  obtain ⟨_, _, rounded'⟩ := second.rounded
  obtain ⟨turned, negated⟩ := rounded'.neg
  obtain ⟨s, total, sum, signed⟩ := addSigned rounded turned
  rw [negated, first.worth, second.worth, ← sub_eq_add_neg] at signed
  rw [← subIsAdd] at sum
  exact packExactly rfl sum signed same short above small

/-! ### Signs -/

/-- No number, or one without a sign. -/
inductive Unsigned : UnpackedFloat → Prop where
  | nan : Unsigned .notANumber
  | infinite : Unsigned (.infinity .positive)
  | zero : Unsigned (.zero .positive)
  | finite {m : ℕ} {e : ℤ} (some : 0 < m) : Unsigned (.finite .positive m e some)

section
variable {u v : UnpackedFloat}

theorem roundUnsigned (m : ℕ) (e : ℤ) (accuracy : UnpackedFloat.Accuracy) :
    Unsigned (UnpackedFloat.roundWithAccuracy .binary32 .positive m e accuracy) := by
  rw [UnpackedFloat.roundWithAccuracy]
  dsimp only
  split
  · exact .zero
  · exact .finite _

theorem Unsigned.mul (first : Unsigned u) (second : Unsigned v) : Unsigned (u.mul .binary32 v) := by
  cases first with
  | nan => exact .nan
  | infinite =>
    cases second with
    | nan => exact .nan
    | infinite => exact .infinite
    | zero => exact .nan
    | finite => exact .infinite
  | zero =>
    cases second with
    | nan => exact .nan
    | infinite => exact .nan
    | zero => exact .zero
    | finite => exact .zero
  | finite =>
    cases second with
    | nan => exact .nan
    | infinite => exact .infinite
    | zero => exact .zero
    | finite => exact roundUnsigned _ _ _

theorem Unsigned.div (first : Unsigned u) (second : Unsigned v) : Unsigned (u.div .binary32 v) := by
  cases first with
  | nan => exact .nan
  | infinite =>
    cases second with
    | nan => exact .nan
    | infinite => exact .nan
    | zero => exact .infinite
    | finite => exact .infinite
  | zero =>
    cases second with
    | nan => exact .nan
    | infinite => exact .zero
    | zero => exact .nan
    | finite => exact .zero
  | finite =>
    cases second with
    | nan => exact .nan
    | infinite => exact .zero
    | zero => exact .infinite
    | finite => exact roundUnsigned _ _ _

theorem Reads.unsigned {size : ℕ} (reads : Reads single .positive size u) : Unsigned u := by
  cases reads with
  | nan above => exact .nan
  | infinite top => exact .infinite
  | zero none => exact .zero
  | finite some => exact .finite some

theorem Unsigned.pack (unsigned : Unsigned u) : Unsigned (UnpackedFloat.unpack .binary32 (u.pack .binary32)) := by
  obtain ⟨e, m, made⟩ : ∃ e m, u.pack .binary32 = UnpackedFloat.packComponents .binary32 .positive e m := by
    cases unsigned with
    | nan => exact ⟨_, _, rfl⟩
    | infinite => exact ⟨_, _, rfl⟩
    | zero => exact ⟨_, _, rfl⟩
    | finite some =>
      rw [UnpackedFloat.pack]
      dsimp only
      split
      · exact ⟨_, _, rfl⟩
      · split <;> exact ⟨_, _, rfl⟩
  rw [made]
  exact (componentsRead e m rfl).unsigned

end

section
variable {x y : Float32}

theorem unpackedZero : unpacked 0 = .zero .positive :=
  Single.unpackedBits (show _ = (0 : UInt32) by decide +kernel)

theorem notNegative (unsigned : Unsigned (unpacked x)) : ¬ x < 0 := by
  rw [Single.ltUnpacked, unpackedZero]
  intro less
  generalize unpacked x = u at unsigned less
  cases unsigned with
  | _ => cases less

theorem naturalUnsigned (n : ℕ) : Unsigned (unpacked (ofNatural32 n)) := by
  rcases Nat.eq_zero_or_pos n with rfl | some
  · rw [unpackedNone]
    exact .zero
  · exact (ofNaturalReads some).unsigned

/-! ### Above zero -/

/-- What bits that are neither zero nor past infinity are unpacked to, without a sign. -/
def Above (u : UnpackedFloat) : Prop := ∃ size, 0 < size ∧ size ≤ single.infinity ∧ Reads single .positive size u

theorem aboveZero : 0 < x ↔ Above (unpacked x) := by
  rw [Single.ltUnpacked, unpackedZero]
  constructor
  · intro less
    obtain ⟨s, size, reads⟩ := singleReads x
    generalize unpacked x = u at less reads
    cases reads with
    | nan above => cases less
    | infinite top =>
      cases s with
      | negative => cases less
      | positive => exact ⟨size, top ▸ by decide, top.le, .infinite top⟩
    | zero none => cases less
    | finite some scaled made short full below =>
      cases s with
      | negative => cases less
      | positive => exact ⟨size, by omega, below.le, .finite some scaled made short full below⟩
  · rintro ⟨size, some, number, reads⟩
    generalize unpacked x = u at reads
    cases reads with
    | nan above => omega
    | infinite top => rfl
    | zero none => omega
    | finite => rfl

theorem notZero (positive : 0 < x) : (x == 0) = false := by
  obtain ⟨size, above, number, reads⟩ := aboveZero.mp positive
  change ((unpacked x).compare (unpacked 0) == some .eq) = false
  rw [unpackedZero]
  generalize unpacked x = u at reads
  cases reads with
  | nan => rfl
  | infinite top => rfl
  | zero none => omega
  | finite => rfl

theorem naturalAbove {n : ℕ} (some : 0 < n) : 0 < ofNatural32 n := by
  have above := encodeAbove some
  exact aboveZero.mpr ⟨_, by omega, encodeSizeAtMost _ _ _, ofNaturalReads some⟩

theorem timesAbove {u v : UnpackedFloat} {size : ℕ} (reads : Reads single .positive size u)
    (large : 127 * 2 ^ 23 ≤ size) (number : size ≤ single.infinity) (positive : Above v) :
    Above (UnpackedFloat.unpack .binary32 ((u.mul .binary32 v).pack .binary32)) := by
  have endless : Above (UnpackedFloat.unpack .binary32 ((UnpackedFloat.infinity .positive).pack .binary32)) :=
    ⟨single.infinity, by decide, le_rfl, componentsRead (-1#8) 0#23 rfl⟩
  obtain ⟨size', some', number', reads'⟩ := positive
  cases reads with
  | nan above => omega
  | zero none => omega
  | infinite top =>
    cases reads' with
    | nan above => omega
    | zero none => omega
    | infinite top' => exact endless
    | finite => exact endless
  | finite some scaled made short full =>
    cases reads' with
    | nan above => omega
    | zero none => omega
    | infinite top' => exact endless
    | finite more scaled' made' short' full' =>
      have first : Rounded .positive size _ := .finite some scaled made short full
      have second : Rounded .positive size' _ := .finite more scaled' made' short' full'
      have one := oneRounded.worthAtMost first (Int.ofNat_le.mpr large)
      have none := second.sided.2 rfl
      obtain ⟨total, product, signed⟩ := mulSigned first second
      -- the product is no smaller than what is multiplied, and neither is what it is rounded to
      have grown : size' ≤ total := by
        have least := second.signed.mono signed (le_mul_of_one_le_left none (oneWorth ▸ one))
        exact Int.ofNat_le.mp least
      exact ⟨min total single.infinity, by omega, Nat.min_le_right _ _, packReads product⟩

/-- A width times a natural is above zero, however small the width. -/
theorem scaledAbove {n : ℕ} (some : 0 < n) (positive : 0 < x) : 0 < ofNatural32 n * x :=
  aboveZero.mpr (timesAbove (ofNaturalReads some) (encodeAbove some) (encodeSizeAtMost _ _ _) (aboveZero.mp positive))

end

end SpeechDecoder.Binary
