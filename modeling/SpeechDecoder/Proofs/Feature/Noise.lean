import SpeechDecoder.Feature.Dither
import SpeechDecoder.Proofs.Decimal.Products

/-! The noise never stops. A step of the generator keeps different words different, so that the state does not become
zero; and as it is linear in the bits, what three draws show is all there is to know of a state. -/
namespace SpeechDecoder.Feature.Dither

/-! ### Steps -/

section
variable {n : Nat}

def up (k : Nat) (x : BitVec n) : BitVec n := x ^^^ (x <<< k)

def down (k : Nat) (x : BitVec n) : BitVec n := x ^^^ (x >>> k)

theorem upXor (k : Nat) (x y : BitVec n) : up k (x ^^^ y) = up k x ^^^ up k y := by
  simp only [up, BitVec.shiftLeft_xor_distrib]
  ac_rfl

theorem downXor (k : Nat) (x y : BitVec n) : down k (x ^^^ y) = down k x ^^^ down k y := by
  simp only [down, BitVec.ushiftRight_xor_distrib]
  ac_rfl

theorem upInjective {k : Nat} (some : 0 < k) : Function.Injective (up (n := n) k) := by
  intro x y same
  -- from the lowest bit on, each bit is told by those before it
  have bits (i : Nat) : x.getLsbD i = y.getLsbD i := by
    induction i using Nat.strong_induction_on with
    | _ i ih =>
      have here := congrArg (BitVec.getLsbD · i) same
      simp only [up, BitVec.getLsbD_xor, BitVec.getLsbD_shiftLeft] at here
      by_cases low : i < k
      · simpa [low] using here
      · rw [ih (i - k) (by omega)] at here
        exact Bool.xor_left_inj.mp here
  exact BitVec.eq_of_getLsbD_eq fun i _ => bits i

theorem downInjective {k : Nat} (some : 0 < k) : Function.Injective (down (n := n) k) := by
  intro x y same
  have bits (j : Nat) : ∀ i, n ≤ i + j → x.getLsbD i = y.getLsbD i := by
    induction j with
    | zero =>
      intro i above
      rw [BitVec.getLsbD_of_ge x i above, BitVec.getLsbD_of_ge y i above]
    | succ j ih =>
      intro i above
      have here := congrArg (BitVec.getLsbD · i) same
      simp only [down, BitVec.getLsbD_xor, BitVec.getLsbD_ushiftRight] at here
      rw [ih (k + i) (by omega)] at here
      exact Bool.xor_left_inj.mp here
  exact BitVec.eq_of_getLsbD_eq fun i _ => bits n i (by omega)

end

theorem stepBits (x : UInt64) : (step x).toBitVec = up 17 (down 7 (up 13 x.toBitVec)) := rfl

theorem stepXor (x y : UInt64) : step (x ^^^ y) = step x ^^^ step y := by
  apply UInt64.toBitVec_inj.mp
  rw [stepBits, UInt64.toBitVec_xor, upXor, downXor, upXor, UInt64.toBitVec_xor, stepBits, stepBits]

theorem stepInjective : Function.Injective step := by
  intro x y same
  have bits := congrArg UInt64.toBitVec same
  rw [stepBits, stepBits] at bits
  exact UInt64.toBitVec_inj.mp
    (upInjective (by decide) (downInjective (by decide) (upInjective (by decide) bits)))

theorem stepNonzero {x : UInt64} (some : x ≠ 0) : step x ≠ 0 := fun none =>
  some (stepInjective (none.trans (show (0 : UInt64) = step 0 by decide)))

/-! ### Calls -/

inductive Call where
  | draw
  | reset
  deriving DecidableEq

def perform (d : Dither) : Call → Dither
  | .draw => d.next.2
  | .reset => d.reset

def after (d : Dither) (calls : List Call) : Dither := calls.foldl perform d

structure Running (d : Dither) : Prop where
  seed : d.seed ≠ 0
  state : d.state ≠ 0

theorem makeRunning (seed : Int) : (make seed).Running := by
  have start : (make seed).seed ≠ 0 := by
    unfold make
    dsimp only
    generalize (if seed < 0 then usualSeed else UInt64.ofNat seed.toNat ^^^ usualSeed) = mixed
    split
    next => decide
    next some => exact some
  exact ⟨start, start⟩

theorem afterRunning {d : Dither} (running : d.Running) (calls : List Call) : (d.after calls).Running := by
  induction calls generalizing d with
  | nil => exact running
  | cons call rest ih =>
    cases call with
    | draw => exact ih ⟨running.seed, stepNonzero running.state⟩
    | reset => exact ih ⟨running.seed, running.seed⟩

/-! ### Draws -/

section
open Binary (Exactly)

theorem levelBelow (x : UInt64) : level x < 2 ^ 24 := by
  have shifted : level x = x.toNat / 2 ^ 40 := by
    rw [level, UInt64.toNat_shiftRight, Nat.shiftRight_eq_div_pow]
    rfl
  rw [shifted, Nat.div_lt_iff_lt_mul (by decide)]
  exact x.toNat_lt

theorem levelShare (x : UInt64) : 0 ≤ (level x : ℚ) / 2 ^ 24 ∧ (level x : ℚ) / 2 ^ 24 < 1 := by
  have less : (level x : ℚ) < 2 ^ 24 := by exact_mod_cast levelBelow x
  exact ⟨by positivity, (div_lt_one (by norm_num)).mpr less⟩

theorem stepsExactly : Exactly (Binary.ofNatural32 0x1000000) (2 ^ 24) := by
  have known : Exactly (Binary.ofNatural32 0x1000000) (2 ^ (1 + 23 : ℤ)) :=
    Binary.powerExactly (show _ = (0x4B800000 : UInt32) by decide +kernel) rfl
  exact known

theorem halfExactly : Exactly 0.5 (1 / 2) := by
  have known : Exactly 0.5 (2 ^ (-24 + 23 : ℤ)) :=
    Binary.powerExactly (show _ = (0x3F000000 : UInt32) by decide +kernel) rfl
  rwa [show (2 : ℚ) ^ (-24 + 23 : ℤ) = 1 / 2 by norm_num] at known

/-- Nothing is rounded in a draw. -/
theorem nextExactly (d : Dither) : Exactly d.next.1 (level d.next.2.state / 2 ^ 24 - 1 / 2) := by
  have below := levelBelow d.next.2.state
  obtain ⟨least, most⟩ := levelShare d.next.2.state
  have share := Binary.quotientExactly (Binary.ofNaturalExactly below) stepsExactly (by norm_num)
    (level d.next.2.state) (-24) (by norm_num; ring) (by omega) (by decide) (abs_le.mpr ⟨by linarith, most.le⟩)
  refine Binary.differenceExactly share halfExactly (level d.next.2.state - 2 ^ 23) (-24) ?_ ?_ (by decide)
    (abs_le.mpr ⟨by linarith, by linarith⟩)
  · push_cast
    norm_num
    ring
  · omega

end

/-! ### What is seen of a state -/

def Linear (g : UInt64 → Nat) : Prop := ∀ x y, g (x ^^^ y) = g x ^^^ g y

def bit (i : Nat) : UInt64 := 1 <<< UInt64.ofNat i

/-- Adds each row whose place is set, one after another. -/
def reduce (rows : List (Nat × Nat)) (x : Nat) : Nat :=
  rows.foldl (fun x row => if x.testBit row.1 then x ^^^ row.2 else x) x

/-- The rows by elimination: in the first 72 bits stands what is seen of a word, and behind them the word. -/
def rowsOf (g : UInt64 → Nat) : List (Nat × Nat) :=
  (List.range 64).foldl (fun rows i =>
    let row := reduce rows (g (bit i) ^^^ (bit i).toNat <<< 72)
    let shown := row % 2 ^ 72
    if shown = 0 then rows else rows ++ [(shown.log2, row)]) []

/-- The rows tell each single bit from what is seen of it. -/
def Told (g : UInt64 → Nat) : Prop := ∀ i < 64, reduce (rowsOf g) (g (bit i)) = (bit i).toNat <<< 72

instance (g : UInt64 → Nat) : Decidable (Told g) :=
  inferInstanceAs (Decidable (∀ i < 64, reduce (rowsOf g) (g (bit i)) = (bit i).toNat <<< 72))

theorem Linear.zero {g : UInt64 → Nat} (linear : Linear g) : g 0 = 0 := by
  have twice := linear 0 0
  rwa [UInt64.xor_self, Nat.xor_self] at twice

theorem Linear.word : Linear UInt64.toNat := UInt64.toNat_xor

theorem Linear.xor {f g : UInt64 → Nat} (first : Linear f) (second : Linear g) : Linear fun x => f x ^^^ g x :=
  fun x y => by
    dsimp only
    rw [first, second]
    generalize f x = a, f y = b, g x = c, g y = d
    ac_rfl

theorem Linear.moved {g : UInt64 → Nat} (linear : Linear g) (n : Nat) : Linear fun x => g x <<< n := fun x y => by
  dsimp only
  rw [linear, Nat.shiftLeft_xor_distrib]

theorem reduceXor (rows : List (Nat × Nat)) (x y : Nat) :
    reduce rows (x ^^^ y) = reduce rows x ^^^ reduce rows y := by
  induction rows generalizing x y with
  | nil => rfl
  | cons row rest ih =>
    simp only [reduce, List.foldl_cons] at ih ⊢
    rw [← ih, Nat.testBit_xor]
    congr 1
    cases x.testBit row.1 with
    | false =>
      cases y.testBit row.1 with
      | false => rfl
      | true => exact Nat.xor_assoc x y row.2
    | true =>
      cases y.testBit row.1 with
      | false =>
        change x ^^^ y ^^^ row.2 = x ^^^ row.2 ^^^ y
        rw [Nat.xor_assoc, Nat.xor_comm y, ← Nat.xor_assoc]
      | true =>
        change x ^^^ y = x ^^^ row.2 ^^^ (y ^^^ row.2)
        rw [Nat.xor_comm y, Nat.xor_assoc, ← Nat.xor_assoc row.2, Nat.xor_self, Nat.zero_xor]

theorem bitIs {i : Nat} (inside : i < 64) : (bit i).toNat = 2 ^ i := by
  have below : 2 ^ i < 2 ^ 64 := Nat.pow_lt_pow_right (by decide) inside
  rw [bit, UInt64.toNat_shiftLeft, UInt64.toNat_ofNat_of_lt' (inside.trans (by decide)), Nat.mod_eq_of_lt inside,
    Nat.shiftLeft_eq]
  change 1 * 2 ^ i % 2 ^ 64 = 2 ^ i
  rw [Nat.one_mul, Nat.mod_eq_of_lt below]

theorem bitOff {a n : Nat} (high : 2 ^ n ≤ a) (below : a < 2 ^ (n + 1)) : a ^^^ 2 ^ n < 2 ^ n := by
  refine Nat.lt_pow_two_of_testBit _ fun i above => ?_
  rw [Nat.testBit_xor, Nat.testBit_two_pow]
  rcases Nat.lt_or_eq_of_le above with more | rfl
  · rw [Nat.testBit_lt_two_pow (below.trans_le (Nat.pow_le_pow_right (by decide) more))]
    simp [Nat.ne_of_lt more]
  · rw [Nat.testBit_of_two_pow_le_and_two_pow_add_one_gt high below]
    simp

/-- What is linear is known by its values on single bits. -/
theorem Linear.same {f g : UInt64 → Nat} (first : Linear f) (second : Linear g)
    (bits : ∀ i < 64, f (bit i) = g (bit i)) (x : UInt64) : f x = g x := by
  have below (n : Nat) (few : n ≤ 64) : ∀ x : UInt64, x.toNat < 2 ^ n → f x = g x := by
    induction n with
    | zero =>
      intro x none
      have zero : x = 0 := UInt64.toNat_inj.mp (Nat.lt_one_iff.mp none)
      rw [zero, first.zero, second.zero]
    | succ n ih =>
      intro x less
      by_cases low : x.toNat < 2 ^ n
      · exact ih (by omega) x low
      · have off : (x ^^^ bit n).toNat < 2 ^ n := by
          rw [UInt64.toNat_xor, bitIs (by omega)]
          exact bitOff (Nat.le_of_not_lt low) less
        have back : x = (x ^^^ bit n) ^^^ bit n := by
          rw [UInt64.xor_assoc, UInt64.xor_self, UInt64.xor_zero]
        rw [back, first, second, ih (by omega) _ off, bits n (by omega)]
  exact below 64 (le_refl _) x x.toNat_lt

theorem Told.none {g : UInt64 → Nat} (told : Told g) (linear : Linear g) {x : UInt64} (unseen : g x = 0) : x = 0 := by
  have first : Linear fun y => reduce (rowsOf g) (g y) := fun y z => by
    dsimp only
    rw [linear, reduceXor]
  have known := first.same (Linear.word.moved 72) told x
  have empty := first.zero
  simp only [linear.zero] at empty
  simp only [unseen, empty, Nat.shiftLeft_eq] at known
  exact UInt64.toNat_inj.mp ((Nat.mul_eq_zero.mp known.symm).resolve_right (by decide))

theorem levelLinear : Linear level := fun x y => by
  simp only [level, UInt64.toNat_shiftRight, UInt64.toNat_xor, Nat.shiftRight_xor_distrib]

theorem Linear.stepped {g : UInt64 → Nat} (linear : Linear g) : Linear fun x => g (step x) := fun x y => by
  dsimp only
  rw [stepXor, linear]

/-- What three steps in a row show of a state. -/
def seen (x : UInt64) : Nat := level x ^^^ level (step x) <<< 24 ^^^ level (step (step x)) <<< 48

theorem seenLinear : Linear seen :=
  (levelLinear.xor (levelLinear.stepped.moved 24)).xor (levelLinear.stepped.stepped.moved 48)

theorem seenTold : Told seen := by decide +kernel

/-- What a step changes. -/
def change (x : UInt64) : Nat := x.toNat ^^^ (step x).toNat

theorem changeLinear : Linear change := Linear.word.xor Linear.word.stepped

theorem changeTold : Told change := by decide +kernel

/-! ### Draws in a row -/

/-- The generator after so many draws. -/
def ahead (d : Dither) (n : Nat) : Dither := d.after (List.replicate n .draw)

theorem aheadState (d : Dither) (n : Nat) : (d.ahead n).state = step^[n] d.state := by
  induction n generalizing d with
  | zero => rfl
  | succ n ih => exact ih d.next.2

theorem aheadInjective (seed : UInt64) (n : Nat) : Function.Injective fun state => (ahead ⟨seed, state⟩ n).state := by
  have same : (fun state => (ahead ⟨seed, state⟩ n).state) = step^[n] :=
    funext fun state => aheadState ⟨seed, state⟩ n
  rw [same]
  exact stepInjective.iterate n

section
open Single (unpacked)
open Binary (worth)

theorem levelOfWorth {d e : Dither} (same : worth (unpacked d.next.1) = worth (unpacked e.next.1)) :
    level d.next.2.state = level e.next.2.state := by
  rw [(nextExactly d).worth, (nextExactly e).worth] at same
  have levels : (level d.next.2.state : ℚ) = level e.next.2.state := by linarith
  exact_mod_cast levels

/-- Of four draws in a row, one differs from the first. -/
theorem someDiffers {d : Dither} (some : d.state ≠ 0) :
    ∃ n < 4, worth (unpacked (d.ahead n).next.1) ≠ worth (unpacked d.next.1) := by
  by_contra! all
  have levels (n : Nat) (few : n < 4) : level (d.ahead n).next.2.state = level (step d.state) :=
    levelOfWorth (all n few)
  have second : level (step (step d.state)) = level (step d.state) := levels 1 (by decide)
  have third : level (step (step (step d.state))) = level (step d.state) := levels 2 (by decide)
  have fourth : level (step (step (step (step d.state)))) = level (step d.state) := levels 3 (by decide)
  -- the first two states look alike for three steps, and so they are one
  have unseen : seen (step d.state ^^^ step (step d.state)) = 0 := by
    rw [seenLinear, seen, seen, second, third, fourth, Nat.xor_self]
  have alike := UInt64.xor_eq_zero_iff.mp (seenTold.none seenLinear unseen)
  have fixed : change d.state = 0 := by
    rw [change, ← stepInjective alike, Nat.xor_self]
  exact some (changeTold.none changeLinear fixed)

/-- Noise of any seed, whatever was drawn before: a state that is never zero, and draws of at least minus a half and
below a half that do not stay the same. No two states have the same next. -/
theorem noiseNeverStops :
    (∀ (seed : Int) (calls : List Call),
      let d := (make seed).after calls
      d.state ≠ 0 ∧
      d.next.1.isFinite = true ∧
      worth (unpacked d.next.1) = level d.next.2.state / 2 ^ 24 - 1 / 2 ∧
      level d.next.2.state < 2 ^ 24 ∧
      -1 / 2 ≤ worth (unpacked d.next.1) ∧
      worth (unpacked d.next.1) < 1 / 2 ∧
      ∃ n < 4, worth (unpacked (d.ahead n).next.1) ≠ worth (unpacked d.next.1)) ∧
    Function.Injective step ∧
    ∀ (seed : UInt64) (n : Nat), Function.Injective fun state => (ahead ⟨seed, state⟩ n).state := by
  refine ⟨fun seed calls => ?_, stepInjective, aheadInjective⟩
  intro d
  have some : d.state ≠ 0 := (afterRunning (makeRunning seed) calls).state
  have drawn := nextExactly d
  obtain ⟨least, most⟩ := levelShare d.next.2.state
  refine ⟨some, drawn.finite, drawn.worth, levelBelow _, ?_, ?_, someDiffers some⟩
  · rw [drawn.worth]
    linarith
  · rw [drawn.worth]
    linarith

end

end SpeechDecoder.Feature.Dither
