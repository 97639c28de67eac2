import SpeechDecoder.Proofs.Decimal.Order

/-! A sum of singles is the nearest single, the even one of two, and too large a sum is infinite. So a sum grows with
what is added. -/
namespace SpeechDecoder.Binary

open Float.Model (UnpackedFloat)
open Float.Model.UnpackedFloat (Sign ExtendedMantissa Accuracy)

/-- The natural next to a number, of two such the even one. -/
structure Nearest (k : ℕ) (x : ℚ) : Prop where
  above : (k : ℚ) - 1 / 2 ≤ x
  below : x ≤ k + 1 / 2
  even : x = k - 1 / 2 ∨ x = k + 1 / 2 → k % 2 = 0

theorem Nearest.inside {k : ℕ} {x : ℚ} (above : (k : ℚ) - 1 / 2 < x) (below : x < k + 1 / 2) : Nearest k x := by
  refine ⟨above.le, below.le, ?_⟩
  rintro (low | high) <;> linarith

theorem Nearest.self (k : ℕ) : Nearest k k := .inside (by linarith) (by linarith)

theorem Nearest.tie (m : ℕ) : Nearest (m + m % 2) (m + 1 / 2) := by
  rcases Nat.mod_two_eq_zero_or_one m with even | odd
  · rw [even]
    exact ⟨by push_cast; linarith, by push_cast; linarith, fun _ => by omega⟩
  · rw [odd]
    exact ⟨by push_cast; linarith, by push_cast; linarith, fun _ => by omega⟩

theorem Nearest.mono {k k' : ℕ} {x x' : ℚ} (nearest : Nearest k x) (nearest' : Nearest k' x') (le : x ≤ x') :
    k ≤ k' := by
  by_contra more
  have next : (k' : ℚ) + 1 ≤ k := by exact_mod_cast Nat.lt_of_not_le more
  have above := nearest.above
  have below := nearest'.below
  -- only one number is between them, and both would have to be even
  have low := nearest.even (.inl (by linarith))
  have high := nearest'.even (.inr (by linarith))
  have same : k = k' + 1 := by exact_mod_cast (show (k : ℚ) = k' + 1 by linarith)
  omega

/-- What a mantissa with its two further bits stands for. -/
inductive Stands (x : ℚ) : ExtendedMantissa → Prop where
  | exact {m : ℕ} (same : x = m) : Stands x ⟨m, false, false⟩
  | low {m : ℕ} (above : (m : ℚ) < x) (below : x < m + 1 / 2) : Stands x ⟨m, false, true⟩
  | half {m : ℕ} (same : x = m + 1 / 2) : Stands x ⟨m, true, false⟩
  | high {m : ℕ} (above : m + 1 / 2 < x) (below : x < m + 1) : Stands x ⟨m, true, true⟩

theorem Stands.halved {x : ℚ} {em : ExtendedMantissa} (stands : Stands x em) : Stands (x / 2) em.shiftRightOne := by
  have shifted (m : ℕ) (r s : Bool) : (m % 2 = 0 ∧ (m : ℚ) = 2 * (m / 2 : ℕ) ∧
        ExtendedMantissa.shiftRightOne ⟨m, r, s⟩ = ⟨m / 2, false, r || s⟩) ∨
      (m % 2 = 1 ∧ (m : ℚ) = 2 * (m / 2 : ℕ) + 1 ∧
        ExtendedMantissa.shiftRightOne ⟨m, r, s⟩ = ⟨m / 2, true, r || s⟩) := by
    rcases Nat.mod_two_eq_zero_or_one m with even | odd
    · refine .inl ⟨even, by exact_mod_cast (by omega : m = 2 * (m / 2)), ?_⟩
      simp [ExtendedMantissa.shiftRightOne, even]
    · refine .inr ⟨odd, by exact_mod_cast (by omega : m = 2 * (m / 2) + 1), ?_⟩
      simp [ExtendedMantissa.shiftRightOne, odd]
  cases stands with
  | @exact m same =>
    rcases shifted m false false with ⟨_, whole, is⟩ | ⟨_, whole, is⟩
    · exact is ▸ .exact (by linarith)
    · exact is ▸ .half (by linarith)
  | @low m above below =>
    rcases shifted m false true with ⟨_, whole, is⟩ | ⟨_, whole, is⟩
    · exact is ▸ .low (by linarith) (by linarith)
    · exact is ▸ .high (by linarith) (by linarith)
  | @half m same =>
    rcases shifted m true false with ⟨_, whole, is⟩ | ⟨_, whole, is⟩
    · exact is ▸ .low (by linarith) (by linarith)
    · exact is ▸ .high (by linarith) (by linarith)
  | @high m above below =>
    rcases shifted m true true with ⟨_, whole, is⟩ | ⟨_, whole, is⟩
    · exact is ▸ .low (by linarith) (by linarith)
    · exact is ▸ .high (by linarith) (by linarith)

theorem Stands.shift {x : ℚ} {em : ExtendedMantissa} (stands : Stands x em) (b : ℕ) :
    Stands (x / 2 ^ b) (em >>> b) := by
  change Stands _ (b.repeat ExtendedMantissa.shiftRightOne em)
  induction b with
  | zero => simpa [Nat.repeat] using stands
  | succ b ih =>
    have further := ih.halved
    rwa [div_div, ← pow_succ] at further

theorem Stands.nearest {x : ℚ} {em : ExtendedMantissa} (stands : Stands x em) : Nearest em.roundedMantissa x := by
  cases stands with
  | exact same => exact same ▸ .self _
  | @low m above below => exact .inside (show (m : ℚ) - 1 / 2 < x by linarith) below
  | @half m same => exact same ▸ .tie m
  | @high m above below =>
    have next : ((m + 1 : ℕ) : ℚ) = m + 1 := by push_cast; rfl
    exact .inside (k := m + 1) (by linarith) (by linarith)

theorem Stands.bounds {x : ℚ} {em : ExtendedMantissa} (stands : Stands x em) :
    (em.mantissa : ℚ) ≤ x ∧ x < em.mantissa + 1 := by
  cases stands with
  | @exact m same => exact ⟨same.ge, by rw [same]; exact lt_add_one _⟩
  | @low m above below => exact ⟨above.le, show x < (m : ℚ) + 1 by linarith⟩
  | @half m same => exact ⟨show (m : ℚ) ≤ x by linarith, show x < (m : ℚ) + 1 by linarith⟩
  | @high m above below => exact ⟨show (m : ℚ) ≤ x by linarith, below⟩

/-- A number in units of a scale that leaves the mantissa full or is the lowest. -/
structure Fitted (x : ℚ) (e k : ℕ) : Prop where
  nearest : Nearest k (x / 2 ^ (single.lowest + e))
  below : x < 2 ^ (single.lowest + e + 24)
  full : e = 0 ∨ 2 ^ (single.lowest + e + 23) ≤ x

def Fits (x : ℚ) (size : ℕ) : Prop := ∃ e k : ℕ, Fitted x e k ∧ size = e * 2 ^ 23 + k

theorem scalePositive (e : ℤ) : (0 : ℚ) < 2 ^ e := zpow_pos (by norm_num) e

theorem Fitted.bounds {x : ℚ} {e k : ℕ} (fitted : Fitted x e k) :
    k ≤ 2 ^ 24 ∧ (e = 0 ∨ 2 ^ 23 ≤ k) := by
  have unit := scalePositive (single.lowest + e)
  refine ⟨fitted.nearest.mono (.self (2 ^ 24)) ?_, fitted.full.imp_right fun full => ?_⟩
  · rw [div_le_iff₀ unit]
    have below := fitted.below
    rw [zpow_add₀ (by norm_num)] at below
    push_cast
    linarith
  · refine (Nearest.self (2 ^ 23)).mono fitted.nearest ?_
    rw [le_div_iff₀ unit]
    rw [zpow_add₀ (by norm_num)] at full
    push_cast
    linarith

theorem Fits.mono {x x' : ℚ} {size size' : ℕ} (fits : Fits x size) (fits' : Fits x' size') (le : x ≤ x') :
    size ≤ size' := by
  obtain ⟨e, k, fitted, rfl⟩ := fits
  obtain ⟨e', k', fitted', rfl⟩ := fits'
  obtain ⟨most, _⟩ := fitted.bounds
  obtain ⟨_, least⟩ := fitted'.bounds
  rcases Nat.lt_trichotomy e e' with lower | rfl | higher
  · have full := least.resolve_left (by omega)
    have next : (e + 1) * 2 ^ 23 ≤ e' * 2 ^ 23 := Nat.mul_le_mul_right _ lower
    omega
  · have nearer := fitted.nearest.mono fitted'.nearest (by gcongr)
    omega
  · have above := fitted.full.resolve_left (by omega)
    have below := fitted'.below
    have scales : (2 : ℚ) ^ (single.lowest + e' + 24) ≤ 2 ^ (single.lowest + e + 23) :=
      zpow_le_zpow_right₀ (by norm_num) (by omega)
    linarith

/-- A sign and a size that a single is rounded to; the size may be too large for it. -/
inductive Rounded (s : Sign) (size : ℕ) : UnpackedFloat → Prop where
  | zero (none : size = 0) : Rounded s size (.zero s)
  | finite {m e : ℕ} {scale : ℤ} (some : 0 < m) (scaled : scale = single.lowest + e)
      (made : size = e * 2 ^ 23 + m) (short : m < 2 * 2 ^ 23) (full : e = 0 ∨ 2 ^ 23 ≤ m) :
      Rounded s size (.finite s m scale some)

def shifted (m b : ℕ) : ExtendedMantissa := (⟨m, false, false⟩ : ExtendedMantissa) >>> b

def shiftOf (m : ℕ) (x : ℤ) : ℕ := (max (m.log2 + 1 + x - 24) single.lowest - x).toNat

theorem shiftIs (m : ℕ) (x : ℤ) : UnpackedFloat.shiftToTargetExponent .binary32 m x .exact =
    (shifted m (shiftOf m x), x + shiftOf m x) := rfl

/-- Where rounding has carried, one more shift makes the mantissa short again. -/
theorem carried (s : Sign) {e k : ℕ} (most : k ≤ 2 ^ 24) (full : e = 0 ∨ 2 ^ 23 ≤ k) :
    let last := UnpackedFloat.shiftToTargetExponent .binary32 k (single.lowest + e) .exact
    Rounded s (e * 2 ^ 23 + k) (if none : last.1.mantissa = 0 then .zero s
      else .finite s last.1.mantissa last.2 (Nat.pos_of_ne_zero none)) := by
  rw [shiftIs]
  dsimp only
  by_cases carry : k = 2 ^ 24
  · have once : shiftOf k (single.lowest + e) = 1 := by
      rw [shiftOf, carry, Nat.log2_two_pow]
      omega
    have half : (shifted k 1).mantissa = 2 ^ 23 := by
      rw [carry]
      rfl
    rw [once, dif_neg (by rw [half]; decide)]
    exact .finite (e := e + 1) _ (by push_cast; ring) (by omega) (by omega) (.inr (by omega))
  · have none : shiftOf k (single.lowest + e) = 0 := by
      have few : k.log2 < 24 := by
        by_cases zero : k = 0
        · rw [zero]
          decide
        · exact (Nat.log2_lt zero).mpr (by omega)
      rw [shiftOf]
      omega
    have still : (shifted k 0).mantissa = k := rfl
    rw [none]
    split
    · exact .zero (by omega)
    · exact .finite _ (Int.add_zero _) rfl (by omega) full

theorem accuracyMantissa (m : ℕ) (accuracy : Accuracy) :
    (ExtendedMantissa.ofMantissaAndAccuracy m accuracy).mantissa = m := by
  cases accuracy with
  | exact => rfl
  | inexact order => cases order <;> rfl

theorem accurateFits (s : Sign) {m : ℕ} {e : ℤ} {accuracy : Accuracy} {x : ℚ}
    (stands : Stands (x / 2 ^ e) (.ofMantissaAndAccuracy m accuracy)) (deep : e ≤ single.lowest ∨ 2 ^ 23 ≤ m) :
    ∃ size, Rounded s size (UnpackedFloat.roundWithAccuracy .binary32 s m e accuracy) ∧ Fits x size := by
  let t : ℤ := max (m.log2 + 1 + e - 24) single.lowest
  obtain ⟨e', scale⟩ : ∃ e' : ℕ, t = single.lowest + e' := ⟨(t - single.lowest).toNat, by omega⟩
  have enough : 2 ^ 23 ≤ m → 23 ≤ m.log2 := fun full => (Nat.le_log2 (by omega)).mpr full
  obtain ⟨b, exponent⟩ : ∃ b : ℕ, e + b = t := ⟨(t - e).toNat, by omega⟩
  have shift : shiftOf m e = b := by
    rw [shiftOf]
    omega
  obtain ⟨low, high⟩ := stands.bounds
  rw [accuracyMantissa] at low high
  have unit := scalePositive e
  rw [le_div_iff₀ unit] at low
  rw [div_lt_iff₀ unit] at high
  have further : Stands (x / 2 ^ t) (ExtendedMantissa.ofMantissaAndAccuracy m accuracy >>> b) := by
    have shifted := stands.shift b
    rwa [div_div, ← zpow_natCast, ← zpow_add₀ (by norm_num), exponent] at shifted
  have fitted : Fitted x e' (ExtendedMantissa.ofMantissaAndAccuracy m accuracy >>> b).roundedMantissa := by
    refine ⟨scale ▸ further.nearest, ?_, ?_⟩
    · have short : ((m : ℚ) + 1) ≤ 2 ^ (m.log2 + 1) := by exact_mod_cast Nat.lt_log2_self
      calc x < (m + 1) * 2 ^ e := high
        _ ≤ 2 ^ (m.log2 + 1) * 2 ^ e := by gcongr
        _ = 2 ^ ((m.log2 : ℤ) + 1 + e) := by rw [zpow_add₀ (by norm_num), ← Nat.cast_succ, zpow_natCast]
        _ ≤ 2 ^ (single.lowest + e' + 24) := zpow_le_zpow_right₀ (by norm_num) (by omega)
    · by_cases lowest : e' = 0
      · exact .inl lowest
      · have some : m ≠ 0 := by
          rintro rfl
          have none : (0 : ℕ).log2 = 0 := by decide
          omega
        have whole : (2 : ℚ) ^ m.log2 ≤ m := by exact_mod_cast Nat.log2_self_le some
        right
        calc (2 : ℚ) ^ (single.lowest + e' + 23) ≤ 2 ^ ((m.log2 : ℤ) + e) :=
              zpow_le_zpow_right₀ (by norm_num) (by omega)
          _ = 2 ^ m.log2 * 2 ^ e := by rw [zpow_add₀ (by norm_num), zpow_natCast]
          _ ≤ m * 2 ^ e := by gcongr
          _ ≤ x := low
  obtain ⟨most, full⟩ := fitted.bounds
  have first : UnpackedFloat.shiftToTargetExponent .binary32 m e accuracy =
      (ExtendedMantissa.ofMantissaAndAccuracy m accuracy >>> b, single.lowest + e') := by
    rw [← shift, ← scale, ← exponent, ← shift]
    rfl
  refine ⟨_, ?_, e', _, fitted, rfl⟩
  rw [UnpackedFloat.roundWithAccuracy, first]
  exact carried s most full

theorem roundFits (s : Sign) {m : ℕ} (some : 0 < m) (e : ℤ) : ∃ size,
    Rounded s size (UnpackedFloat.round .binary32 s m e) ∧ Fits (m * 2 ^ e) size := by
  let t : ℤ := max (m.log2 + 1 + e - 24) single.lowest
  -- the mantissa is made longer first, if it is too short
  let a := (e - t).toNat
  have rounds : UnpackedFloat.round .binary32 s m e =
      UnpackedFloat.roundWithAccuracy .binary32 s (m * 2 ^ a) (e - a) .exact := by
    rw [← Nat.shiftLeft_eq]
    rfl
  rw [rounds]
  refine accurateFits s (.exact ?_) ?_
  · have same : (2 : ℚ) ^ e = 2 ^ a * 2 ^ (e - a) := by
      rw [← zpow_natCast, ← zpow_add₀ (by norm_num)]
      congr 1
      omega
    rw [same, ← mul_assoc, mul_div_cancel_right₀ _ (scalePositive _).ne']
    push_cast
    rfl
  · by_cases deep : e - a ≤ single.lowest
    · exact .inl deep
    · right
      exact (Nat.pow_le_pow_right (by decide) (by omega)).trans (shiftedLeast some a)

/-! ### Packing -/

theorem componentsRead {s : Sign} {size : ℕ} (e : BitVec 8) (m : BitVec 23) (made : size = e.toNat * 2 ^ 23 + m.toNat) :
    Reads single s size (UnpackedFloat.unpack .binary32 (UnpackedFloat.packComponents .binary32 s e m)) := by
  have reads := unpackReads .binary32 (UnpackedFloat.packComponents .binary32 s e m)
  rw [unpackSize, UnpackedFloat.unpackSign_packComponents, Sign.ofBitVec_toBitVec,
    UnpackedFloat.unpackExponent_packComponents, UnpackedFloat.unpackMantissa_packComponents] at reads
  exact made ▸ reads

theorem packReads {s : Sign} {size : ℕ} {u : UnpackedFloat} (rounded : Rounded s size u) :
    Reads single s (min size single.infinity) (UnpackedFloat.unpack .binary32 (u.pack .binary32)) := by
  have top : single.infinity = 255 * 2 ^ 23 := rfl
  cases rounded with
  | zero none =>
    rw [none]
    exact componentsRead 0 0 rfl
  | @finite m e scale some scaled made short full =>
    have biased : (scale + Float.Model.Format.binary32.exponentBias + (23 : ℕ)).toNat = e + 1 := by
      rw [scaled]
      change (-149 + (e : ℤ) + 127 + 23).toNat = e + 1
      omega
    rw [UnpackedFloat.pack]
    dsimp only
    rw [biased]
    by_cases large : 2 ^ 8 ≤ e + 1 + 1
    · rw [if_pos large]
      refine componentsRead (-1#8) 0#23 ?_
      simp [top]
      omega
    rw [if_neg large]
    by_cases whole : 2 ^ 23 ≤ m
    · have log : m.log2 + 1 = Float.Model.Format.binary32.mantissaBits :=
        congrArg (· + 1) ((Nat.log2_eq_iff some.ne').mpr ⟨whole, short⟩)
      rw [if_pos log]
      refine componentsRead (.ofNat 8 (e + 1)) (.ofNat 23 m) ?_
      rw [BitVec.toNat_ofNat, BitVec.toNat_ofNat, top]
      omega
    · have log : m.log2 + 1 ≠ Float.Model.Format.binary32.mantissaBits :=
        Nat.ne_of_lt (Nat.succ_lt_succ ((Nat.log2_lt some.ne').mpr (by omega)))
      rw [if_neg log]
      refine componentsRead 0#8 (.ofNat 23 m) ?_
      rw [BitVec.toNat_ofNat, BitVec.toNat_ofNat, top]
      omega

/-! ### Sums -/

def worth : UnpackedFloat → ℚ
  | .finite s m e _ => s.apply m * 2 ^ e
  | _ => 0

/-- A sign and a size that a number is rounded to; zero has either sign. -/
structure Signed (x : ℚ) (s : Sign) (size : ℕ) : Prop where
  fits : Fits |x| size
  negative : x < 0 → s = .negative
  positive : 0 < x → s = .positive

theorem Signed.zero (s : Sign) : Signed 0 s 0 := by
  have none : Fitted |0| 0 0 := by
    refine ⟨by simpa using Nearest.self 0, ?_, .inl rfl⟩
    simpa using scalePositive (single.lowest + 24)
  exact ⟨⟨0, 0, none, rfl⟩, fun less => absurd less (lt_irrefl 0), fun less => absurd less (lt_irrefl 0)⟩

theorem Signed.mono {x x' : ℚ} {s s' : Sign} {size size' : ℕ} (signed : Signed x s size)
    (signed' : Signed x' s' size') (le : x ≤ x') : s.apply (size : ℤ) ≤ s'.apply size' := by
  have none {y : ℚ} {t : Sign} {n : ℕ} (other : Signed y t n) (zero : y = 0) : n = 0 := by
    subst zero
    exact Nat.le_zero.mp (other.fits.mono (Signed.zero t).fits (le_refl _))
  rcases lt_trichotomy x 0 with below | zero | above
  · rw [signed.negative below]
    rcases lt_trichotomy x' 0 with below' | zero' | above'
    · rw [signed'.negative below']
      have less := signed'.fits.mono signed.fits (by rw [abs_of_neg below, abs_of_neg below']; linarith)
      simp only [Sign.apply]
      omega
    · rw [none signed' zero']
      cases s' <;> simp [Sign.apply]
    · rw [signed'.positive above']
      simp only [Sign.apply]
      omega
  · rw [none signed zero]
    rcases lt_or_eq_of_le (zero ▸ le) with above' | zero'
    · rw [signed'.positive above']
      cases s <;> simp [Sign.apply]
    · rw [none signed' zero'.symm]
      cases s <;> cases s' <;> simp [Sign.apply]
  · have above' := above.trans_le le
    rw [signed.positive above, signed'.positive above']
    have less := signed.fits.mono signed'.fits (by rw [abs_of_pos above, abs_of_pos above']; exact le)
    simp only [Sign.apply]
    omega

theorem applied (s : Sign) {x : ℚ} (above : 0 < x) {size : ℕ} (fits : Fits x size) :
    Signed (match s with | .negative => -x | .positive => x) s size := by
  cases s with
  | negative => exact ⟨by rwa [abs_neg, abs_of_pos above], fun _ => rfl, fun less => by linarith⟩
  | positive => exact ⟨by rwa [abs_of_pos above], fun less => by linarith, fun _ => rfl⟩

theorem Rounded.signed {s : Sign} {size : ℕ} {u : UnpackedFloat} (rounded : Rounded s size u) :
    Signed (worth u) s size := by
  cases rounded with
  | zero none => exact none ▸ .zero s
  | @finite m e scale some scaled made short full =>
    have unit := scalePositive scale
    have above : (0 : ℚ) < m * 2 ^ scale := by positivity
    have fits : Fits (m * 2 ^ scale) size := by
      refine ⟨e, m, ⟨?_, ?_, full.imp_right fun full => ?_⟩, made⟩
      · rw [← scaled, mul_div_cancel_right₀ _ unit.ne']
        exact .self m
      · rw [← scaled, zpow_add₀ (by norm_num), mul_comm]
        have short : (m : ℚ) < 2 ^ (24 : ℤ) := by exact_mod_cast short
        gcongr
      · rw [← scaled, zpow_add₀ (by norm_num), mul_comm]
        have full : (2 : ℚ) ^ (23 : ℤ) ≤ m := by exact_mod_cast full
        gcongr
    have signed := applied s above fits
    cases s with
    | negative => simpa [worth, Sign.apply] using signed
    | positive => simpa [worth, Sign.apply] using signed

theorem normalizeSigned (n e : ℤ) : ∃ s size, Rounded s size (UnpackedFloat.normalize .binary32 n e .positive) ∧
    Signed (n * 2 ^ e) s size := by
  unfold UnpackedFloat.normalize
  rcases lt_trichotomy n 0 with below | rfl | above
  · obtain ⟨m, rfl⟩ : ∃ m : ℕ, n = -m := ⟨(-n).toNat, by omega⟩
    have some : 0 < m := by omega
    obtain ⟨size, rounded, fits⟩ := roundFits .negative some e
    rw [show compare (-(m : ℤ)) 0 = .lt from Int.compare_eq_lt.mpr below, Int.neg_neg, Int.toNat_natCast]
    refine ⟨_, size, rounded, ?_⟩
    have signed := applied .negative (mul_pos (by positivity) (scalePositive e)) fits
    simpa using signed
  · exact ⟨.positive, 0, .zero rfl, by simpa using Signed.zero .positive⟩
  · obtain ⟨m, rfl⟩ : ∃ m : ℕ, n = m := ⟨n.toNat, by omega⟩
    have some : 0 < m := by omega
    obtain ⟨size, rounded, fits⟩ := roundFits .positive some e
    rw [show compare (m : ℤ) 0 = .gt from Int.compare_eq_gt.mpr above, Int.toNat_natCast]
    refine ⟨_, size, rounded, ?_⟩
    have signed := applied .positive (mul_pos (by positivity) (scalePositive e)) fits
    simpa using signed

theorem alignedWorth (s : Sign) (m : ℕ) {lower scale : ℤ} (le : lower ≤ scale) :
    (s.apply (m <<< (scale - lower).toNat : ℕ) : ℚ) * 2 ^ lower = s.apply m * 2 ^ scale := by
  have unit : (2 : ℚ) ^ (scale - lower).toNat * 2 ^ lower = 2 ^ scale := by
    rw [← zpow_natCast, ← zpow_add₀ (by norm_num)]
    congr 1
    omega
  rw [Nat.shiftLeft_eq, ← unit]
  cases s with
  | negative => push_cast [Sign.apply]; ring
  | positive => push_cast [Sign.apply]; ring

theorem addSigned {s s' : Sign} {size size' : ℕ} {u v : UnpackedFloat} (rounded : Rounded s size u)
    (rounded' : Rounded s' size' v) : ∃ t total, Rounded t total (u.add .binary32 v) ∧
      Signed (worth u + worth v) t total := by
  cases rounded with
  | zero none =>
    cases rounded' with
    | zero none' =>
      have known : ∃ t, (UnpackedFloat.zero s).add .binary32 (.zero s') = .zero t := by
        cases s <;> cases s' <;> exact ⟨_, rfl⟩
      obtain ⟨t, known⟩ := known
      exact ⟨t, 0, known ▸ .zero rfl, by simpa [worth] using Signed.zero t⟩
    | finite some scaled made short full =>
      have whole : Rounded s' size' _ := .finite some scaled made short full
      exact ⟨s', size', whole, by simpa [worth] using whole.signed⟩
  | @finite m e scale some scaled made short full =>
    cases rounded' with
    | zero none' =>
      have whole : Rounded s size _ := .finite some scaled made short full
      exact ⟨s, size, whole, by simpa [worth] using whole.signed⟩
    | @finite m' e' scale' some' scaled' made' short' full' =>
      obtain ⟨t, total, rounded, signed⟩ := normalizeSigned
        (s.apply (m <<< (scale - min scale scale').toNat : ℕ) + s'.apply (m' <<< (scale' - min scale scale').toNat : ℕ))
        (min scale scale')
      refine ⟨t, total, rounded, ?_⟩
      rwa [Int.cast_add, add_mul, alignedWorth s m (min_le_left _ _), alignedWorth s' m' (min_le_right _ _)] at signed

theorem Reads.rounded {s : Sign} {size : ℕ} {u : UnpackedFloat} (reads : Reads single s size u)
    (finite : u.isFinite = true) : Rounded s size u := by
  cases reads with
  | nan above => cases finite
  | infinite top => cases finite
  | zero none => exact .zero none
  | finite some scaled made short full below => exact .finite some scaled made short full

open Single (unpacked addUnpacked)

theorem singleReads (x : Float32) : ∃ s size, Reads single s size (unpacked x) :=
  ⟨_, _, unpackReads .binary32 x.toBits.toBitVec⟩

theorem readsAtMost {x y : Float32} {s s' : Sign} {size size' : ℕ} (reads : Reads single s size (unpacked x))
    (reads' : Reads single s' size' (unpacked y)) (number : size ≤ single.infinity)
    (number' : size' ≤ single.infinity) : x ≤ y ↔ s.apply (size : ℤ) ≤ s'.apply size' := by
  change decide (x.toModel ≤ y.toModel) = true ↔ _
  rw [decide_eq_true_iff]
  change ((unpacked x).compare (unpacked y)).any (·.isLE) = true ↔ _
  rw [reads.order reads' number number' (by decide), Option.any_some, Std.isLE_compare]

theorem Rounded.magnitude {s s' : Sign} {size size' : ℕ} {u v : UnpackedFloat} (rounded : Rounded s size u)
    (rounded' : Rounded s' size' v) (le : size ≤ size') : |worth u| ≤ |worth v| := by
  have unsigned (s : Sign) (m : ℕ) (scale : ℤ) : |(s.apply m * 2 ^ scale : ℚ)| = m * 2 ^ scale := by
    have above : (0 : ℚ) ≤ m * 2 ^ scale := mul_nonneg (by positivity) (scalePositive scale).le
    cases s with
    | negative => rw [Sign.apply, Int.cast_neg, Int.cast_natCast, neg_mul, abs_neg, abs_of_nonneg above]
    | positive => rw [Sign.apply, Int.cast_natCast, abs_of_nonneg above]
  cases rounded with
  | zero none => simp [worth]
  | @finite m e scale some scaled made short full =>
    cases rounded' with
    | zero none' => omega
    | @finite m' e' scale' some' scaled' made' short' full' =>
      rw [worth, worth, unsigned, unsigned, scaled, scaled']
      rcases Nat.lt_trichotomy e e' with lower | rfl | higher
      · have few : (m : ℚ) ≤ 2 * 2 ^ 23 := by exact_mod_cast short.le
        have many : (2 ^ 23 : ℚ) ≤ m' := by exact_mod_cast full'.resolve_left (by omega)
        have scales : (2 : ℚ) ^ (single.lowest + e + 1) ≤ 2 ^ (single.lowest + e') :=
          zpow_le_zpow_right₀ (by norm_num) (by omega)
        calc (m * 2 ^ (single.lowest + e) : ℚ) ≤ 2 * 2 ^ 23 * 2 ^ (single.lowest + e) := by gcongr
          _ = 2 ^ 23 * 2 ^ (single.lowest + e + 1) := by rw [zpow_add_one₀ (by norm_num)]; ring
          _ ≤ m' * 2 ^ (single.lowest + e') := mul_le_mul many scales (by positivity) (by positivity)
      · have less : (m : ℚ) ≤ m' := by exact_mod_cast (by omega : m ≤ m')
        gcongr
      · have more := scaleLess short' (full.resolve_left (by omega)) higher
        omega

theorem Rounded.sided {s : Sign} {size : ℕ} {u : UnpackedFloat} (rounded : Rounded s size u) :
    (s = .negative → worth u ≤ 0) ∧ (s = .positive → 0 ≤ worth u) := by
  have signed := rounded.signed
  constructor
  · rintro rfl
    exact not_lt.mp fun above => by cases signed.positive above
  · rintro rfl
    exact not_lt.mp fun below => by cases signed.negative below

theorem Rounded.worthAtMost {s s' : Sign} {size size' : ℕ} {u v : UnpackedFloat} (rounded : Rounded s size u)
    (rounded' : Rounded s' size' v) (le : s.apply (size : ℤ) ≤ s'.apply size') : worth u ≤ worth v := by
  obtain ⟨low, high⟩ := rounded.sided
  obtain ⟨low', high'⟩ := rounded'.sided
  cases s with
  | negative =>
    cases s' with
    | negative =>
      have less := rounded'.magnitude rounded (by simp only [Sign.apply] at le; omega)
      rw [abs_of_nonpos (low rfl), abs_of_nonpos (low' rfl)] at less
      linarith
    | positive => exact (low rfl).trans (high' rfl)
  | positive =>
    cases s' with
    | negative =>
      -- only zero is both at least and at most zero
      have none : size' = 0 := by simp only [Sign.apply] at le; omega
      have least := rounded'.magnitude (.zero (s := .positive) rfl) none.le
      have most := rounded.magnitude rounded' (by simp only [Sign.apply] at le; omega)
      have zero : |worth (.zero .positive)| = 0 := abs_zero
      rw [zero] at least
      rw [abs_nonpos_iff.mp (most.trans least), abs_nonpos_iff.mp least]
    | positive =>
      have less := rounded.magnitude rounded' (by simp only [Sign.apply] at le; omega)
      rwa [abs_of_nonneg (high rfl), abs_of_nonneg (high' rfl)] at less

theorem sumReads {x y : Float32} {s : Sign} {size : ℕ} (rounded : Rounded s size
    ((unpacked x).add .binary32 (unpacked y))) : Reads single s (min size single.infinity) (unpacked (x + y)) := by
  rw [addUnpacked]
  exact packReads rounded

theorem Reads.endless {s : Sign} {size : ℕ} {u : UnpackedFloat} (reads : Reads single s size u)
    (number : u.isNaN = false) (infinite : u.isFinite = false) : u = .infinity s := by
  cases reads with
  | nan above => cases number
  | infinite top => rfl
  | zero none => cases infinite
  | finite some scaled made short full below => cases infinite

theorem infiniteSum {x y : Float32} {s : Sign} (endless : unpacked x = .infinity s) (finite : y.isFinite = true) :
    Reads single s single.infinity (unpacked (x + y)) := by
  have same : (unpacked x).add .binary32 (unpacked y) = .infinity s := by
    rw [endless]
    change (unpacked y).isFinite = true at finite
    cases known : unpacked y with
    | notANumber => rw [known] at finite; cases finite
    | infinity s' => rw [known] at finite; cases finite
    | zero s' => rfl
    | finite s' m e some => rfl
  rw [addUnpacked, same]
  exact componentsRead (-1#8) 0#23 rfl

/-- Addition keeps the order of finite numbers, whatever number they are added to. -/
theorem addAtMost {x y z : Float32} (number : x.isNaN = false) (finite : y.isFinite = true)
    (finite' : z.isFinite = true) (le : y ≤ z) : x + y ≤ x + z := by
  obtain ⟨s, size, reads⟩ := singleReads x
  obtain ⟨_, _, readsY⟩ := singleReads y
  obtain ⟨_, _, readsZ⟩ := singleReads z
  have first := readsY.rounded finite
  have second := readsZ.rounded finite'
  have bounded {t : Sign} {n : ℕ} {u : UnpackedFloat} (known : Reads single t n u) (finite : u.isFinite = true) :
      n ≤ single.infinity := Nat.le_of_lt ((known.isFinite (by decide)).mp finite)
  have order := first.worthAtMost second ((readsAtMost readsY readsZ (bounded readsY finite)
    (bounded readsZ finite')).mp le)
  by_cases known : (unpacked x).isFinite = true
  · obtain ⟨s, n, sum, signed⟩ := addSigned (reads.rounded known) first
    obtain ⟨s', n', sum', signed'⟩ := addSigned (reads.rounded known) second
    refine (readsAtMost (sumReads sum) (sumReads sum') (Nat.min_le_right _ _) (Nat.min_le_right _ _)).mpr ?_
    have grown := signed.mono signed' (by linarith)
    cases s <;> cases s' <;> simp only [Sign.apply] at grown ⊢ <;> omega
  · have endless := reads.endless number (Bool.eq_false_iff.mpr known)
    have sum := infiniteSum endless finite
    exact (readsAtMost sum (infiniteSum endless finite') (Nat.le_refl _) (Nat.le_refl _)).mpr (le_refl _)

theorem sumNumber {x y : Float32} (number : (x + y).isNaN = false) : x.isNaN = false := by
  change (unpacked (x + y)).isNaN = false at number
  change (unpacked x).isNaN = false
  cases known : unpacked x with
  | notANumber =>
    have nan : (unpacked x).add .binary32 (unpacked y) = .notANumber := by rw [known]; rfl
    rw [addUnpacked, nan] at number
    exact absurd number (by decide +kernel)
  | _ => rfl

end SpeechDecoder.Binary
