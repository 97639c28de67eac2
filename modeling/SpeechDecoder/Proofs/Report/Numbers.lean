import SpeechDecoder.Report.Json

/-! Numbers of JSON, as a machine that reads them character by character, and what is written as a number: naturals
without leading zeros, and the digits of a finite value in both notations. -/
namespace SpeechDecoder.Report.Json

/-- How far a number has been read. -/
inductive Numeral where
  | start
  | minus
  | zero
  | whole
  | point
  | places
  | mark
  | signed
  | power
  deriving DecidableEq, Repr

namespace Numeral

def begin (c : Char) : Option Numeral :=
  if c = '0' then some .zero else if c.isDigit then some .whole else none

def goOn (c : Char) : Option Numeral :=
  if c = '.' then some .point else if c = 'e' ∨ c = 'E' then some .mark else none

def step : Numeral → Char → Option Numeral
  | .start, c => if c = '-' then some .minus else begin c
  | .minus, c => begin c
  | .zero, c => goOn c
  | .whole, c => if c.isDigit then some .whole else goOn c
  | .point, c => if c.isDigit then some .places else none
  | .places, c => if c.isDigit then some .places else if c = 'e' ∨ c = 'E' then some .mark else none
  | .mark, c => if c = '+' ∨ c = '-' then some .signed else if c.isDigit then some .power else none
  | .signed, c => if c.isDigit then some .power else none
  | .power, c => if c.isDigit then some .power else none

def complete : Numeral → Bool
  | .zero | .whole | .places | .power => true
  | _ => false

/-- A character that stands in some number. -/
def isPart (c : Char) : Bool := c.isDigit || c == '-' || c == '+' || c == '.' || c == 'e' || c == 'E'

theorem stepPart {s t : Numeral} {c : Char} (stepped : s.step c = some t) : isPart c = true := by
  have zero : c = '0' → c.isDigit = true := by
    rintro rfl
    decide
  unfold isPart
  cases s <;> simp only [step, begin, goOn] at stepped <;> grind

theorem readParts {s t : Numeral} {w : List Char} (read : w.foldlM step s = some t) : ∀ c ∈ w, isPart c = true := by
  induction w generalizing s with
  | nil => simp
  | cons c w ih =>
    rw [List.foldlM_cons, Option.bind_eq_bind, Option.bind_eq_some_iff] at read
    obtain ⟨next, stepped, later⟩ := read
    simpa using ⟨stepPart stepped, ih later⟩

/-- A run of digits where digits go on. -/
theorem readDigits {s : Numeral} (stays : ∀ c, c.isDigit = true → s.step c = some s) {w : List Char}
    (digits : ∀ c ∈ w, c.isDigit = true) : w.foldlM step s = some s := by
  induction w with
  | nil => rfl
  | cons c w ih =>
    rw [List.foldlM_cons, stays c (digits c List.mem_cons_self)]
    exact ih fun d mem => digits d (List.mem_cons_of_mem c mem)

theorem readSome {s t : Numeral} (enters : ∀ c, c.isDigit = true → s.step c = some t)
    (stays : ∀ c, c.isDigit = true → t.step c = some t) {w : List Char} (more : w ≠ [])
    (digits : ∀ c ∈ w, c.isDigit = true) : w.foldlM step s = some t := by
  obtain ⟨c, rest, rfl⟩ := List.exists_cons_of_ne_nil more
  rw [List.foldlM_cons, enters c (digits c List.mem_cons_self)]
  exact readDigits stays fun d mem => digits d (List.mem_cons_of_mem c mem)

end Numeral

def isNumber (w : List Char) : Bool := (w.foldlM Numeral.step .start).any Numeral.complete

theorem numberRead {w : List Char} : isNumber w = true ↔ ∃ s, w.foldlM Numeral.step .start = some s ∧ s.complete := by
  simp [isNumber, Option.any_eq_true]

theorem numberParts {w : List Char} (number : isNumber w = true) : w ≠ [] ∧ ∀ c ∈ w, Numeral.isPart c = true := by
  obtain ⟨s, read, complete⟩ := numberRead.mp number
  refine ⟨?_, Numeral.readParts read⟩
  rintro rfl
  cases read
  cases complete

/-! ### Naturals -/

theorem naturalDigits (n : Nat) : ∀ c ∈ Decimal.natural n, c.isDigit = true :=
  fun _ mem => Nat.isDigit_of_mem_toDigits (by decide) (by decide) mem

theorem naturalSome (n : Nat) : Decimal.natural n ≠ [] := Nat.toDigits_ne_nil

/-- A natural begins with another digit than zero, unless it is zero. -/
theorem naturalBegins {n : Nat} (positive : n ≠ 0) : ∃ c rest, Decimal.natural n = c :: rest ∧ c ≠ '0' := by
  induction n using Nat.strongRecOn with
  | ind n ih =>
    rw [Decimal.natural, Nat.toDigits_eq_if (by decide)]
    split
    · rename_i small
      have nonzero : ∀ d < 10, d ≠ 0 → Nat.digitChar d ≠ '0' := by decide
      exact ⟨_, [], rfl, nonzero n small positive⟩
    · obtain ⟨c, rest, begins, other⟩ := ih (n / 10) (by omega) (by omega)
      rw [Decimal.natural] at begins
      exact ⟨c, rest ++ [Nat.digitChar (n % 10)], by rw [begins]; rfl, other⟩

namespace Numeral

/-- Where the digits of a number begin. -/
def Opens (s : Numeral) : Prop := ∀ c, c.isDigit = true → s.step c = begin c

theorem startOpens : Opens .start := by
  intro c digit
  have other : c ≠ '-' := by
    rintro rfl
    cases digit
  simp [step, other]

theorem minusOpens : Opens .minus := fun _ _ => rfl

theorem wholeStays (c : Char) (digit : c.isDigit = true) : step .whole c = some .whole := by simp [step, digit]

theorem placesStays (c : Char) (digit : c.isDigit = true) : step .places c = some .places := by simp [step, digit]

theorem powerStays (c : Char) (digit : c.isDigit = true) : step .power c = some .power := by simp [step, digit]

/-- Digits of which the first is not zero. -/
theorem Opens.wholeRead {s : Numeral} (opens : s.Opens) {c : Char} {rest : List Char} (other : c ≠ '0')
    (digits : ∀ d ∈ c :: rest, d.isDigit = true) : (c :: rest).foldlM step s = some .whole := by
  have first := digits c List.mem_cons_self
  rw [List.foldlM_cons, opens c first, begin, if_neg other, if_pos first]
  exact readDigits wholeStays fun d mem => digits d (List.mem_cons_of_mem c mem)

theorem Opens.zeroRead {s : Numeral} (opens : s.Opens) : s.step '0' = some .zero := opens '0' (by decide)

theorem Opens.naturalRead {s : Numeral} (opens : s.Opens) (n : Nat) :
    ∃ t, (Decimal.natural n).foldlM step s = some t ∧ t.complete = true := by
  by_cases zero : n = 0
  · refine ⟨.zero, ?_, rfl⟩
    rw [zero, show Decimal.natural 0 = ['0'] by decide, List.foldlM_cons, opens.zeroRead]
    rfl
  · obtain ⟨c, rest, begins, other⟩ := naturalBegins zero
    have digits := naturalDigits n
    rw [begins] at digits ⊢
    exact ⟨.whole, opens.wholeRead other digits, rfl⟩

end Numeral

theorem naturalNumber (n : Nat) : isNumber (Decimal.natural n) = true :=
  numberRead.mpr (Numeral.startOpens.naturalRead n)

/-! ### Floats -/

namespace Numeral
open Decimal (Digits)

theorem pointRead {s : Numeral} (before : s = .zero ∨ s = .whole) {places : List Char} (more : places ≠ [])
    (digits : ∀ c ∈ places, c.isDigit = true) : ('.' :: places).foldlM step s = some .places := by
  have pointed : s.step '.' = some .point := by
    rcases before with rfl | rfl
    · decide
    · decide
  rw [List.foldlM_cons, pointed]
  exact readSome (s := .point) (fun c digit => by simp [step, digit]) placesStays more digits

theorem Opens.pointedRead {s : Numeral} (opens : s.Opens) {n : Nat} (positive : n ≠ 0) (places : Nat) :
    (Decimal.pointed (Decimal.natural n) (places + 1)).foldlM step s = some .places := by
  obtain ⟨c, rest, begins, other⟩ := naturalBegins positive
  have digits := naturalDigits n
  simp only [Decimal.pointed, Nat.add_one_ne_zero, if_false]
  generalize Decimal.natural n = w at begins digits
  by_cases short : w.length ≤ places + 1
  · -- the whole part is one zero
    obtain ⟨k, many⟩ : ∃ k, places + 1 + 1 - w.length = k + 1 := ⟨places + 1 - w.length, by omega⟩
    have whole : (List.replicate (k + 1) '0' ++ w).length - (places + 1) = 1 := by
      simp only [List.length_append, List.length_replicate]
      omega
    rw [many, whole, List.replicate_succ, List.cons_append, List.take_succ_cons, List.take_zero, List.drop_succ_cons,
      List.drop_zero, List.singleton_append, List.foldlM_cons, opens.zeroRead]
    refine pointRead (.inl rfl) (by simp [begins]) fun d mem => ?_
    rcases List.mem_append.mp mem with zeros | inside
    · rw [List.eq_of_mem_replicate zeros]
      decide
    · exact digits d inside
  · have none : places + 1 + 1 - w.length = 0 := by omega
    obtain ⟨k, many⟩ : ∃ k, w.length - (places + 1) = k + 1 := ⟨w.length - (places + 1) - 1, by omega⟩
    have first : w.take (k + 1) = c :: rest.take k := by rw [begins, List.take_succ_cons]
    have left : (w.take (k + 1)).foldlM step s = some .whole := by
      rw [first]
      refine opens.wholeRead other fun d mem => digits d ?_
      rw [← first] at mem
      exact List.mem_of_mem_take mem
    rw [none, List.replicate_zero, List.nil_append, many, List.foldlM_append, left]
    refine pointRead (.inr rfl) ?_ fun d mem => digits d (List.mem_of_mem_drop mem)
    rw [Ne, List.drop_eq_nil_iff]
    omega

theorem exponentRead {s : Numeral} (before : s = .whole ∨ s = .places) (exponent : Int) :
    ('e' :: (if 0 ≤ exponent then ['+'] else []) ++ Decimal.integer exponent).foldlM step s = some .power := by
  have marked : s.step 'e' = some .mark := by
    rcases before with rfl | rfl
    · decide
    · decide
  have digits (n : Nat) : (Decimal.natural n).foldlM step .signed = some .power :=
    readSome (s := .signed) (fun c digit => by simp [step, digit]) powerStays (naturalSome n) (naturalDigits n)
  rw [List.cons_append, List.foldlM_cons, marked]
  cases exponent with
  | ofNat n =>
    have positive : 0 ≤ Int.ofNat n := Int.natCast_nonneg n
    rw [if_pos positive]
    exact digits n
  | negSucc n =>
    rw [if_neg (by omega)]
    exact digits (n + 1)

theorem Opens.scientificRead {s : Numeral} (opens : s.Opens) {d : Digits} (positive : d.digits ≠ 0) (exponent : Int) :
    (Decimal.scientific d exponent).foldlM step s = some .power := by
  obtain ⟨c, rest, begins, other⟩ := naturalBegins positive
  have digits := naturalDigits d.digits
  rw [begins] at digits
  have first : [c].foldlM step s = some .whole :=
    opens.wholeRead other fun d mem => digits d (List.mem_cons.mpr (.inl (List.mem_singleton.mp mem)))
  rw [Decimal.scientific, begins, List.append_assoc]
  cases rest with
  | nil =>
    dsimp only
    rw [List.foldlM_append, first]
    exact exponentRead (.inl rfl) exponent
  | cons next rest =>
    have places := pointRead (.inr rfl) (List.cons_ne_nil next rest) fun d mem => digits d (List.mem_cons_of_mem c mem)
    dsimp only
    rw [List.foldlM_append, ← List.singleton_append, List.foldlM_append, first]
    change (('.' :: next :: rest).foldlM step .whole) >>= _ = _
    rw [places]
    exact exponentRead (.inr rfl) exponent

theorem Opens.positionalRead {s : Numeral} (opens : s.Opens) {d : Digits} (positive : d.digits ≠ 0) :
    (Decimal.positional d ++ if 0 ≤ d.scale then ['.', '0'] else []).foldlM step s = some .places := by
  cases scale : d.scale with
  | ofNat e =>
    obtain ⟨c, rest, begins, other⟩ := naturalBegins positive
    have digits := naturalDigits d.digits
    rw [begins] at digits
    have whole : (c :: (rest ++ List.replicate e '0')).foldlM step s = some .whole := by
      refine opens.wholeRead other fun d mem => ?_
      rw [← List.cons_append] at mem
      rcases List.mem_append.mp mem with inside | zeros
      · exact digits d inside
      · rw [List.eq_of_mem_replicate zeros]
        decide
    have above : 0 ≤ Int.ofNat e := Int.natCast_nonneg e
    rw [Decimal.positional, scale, if_pos above]
    dsimp only
    rw [if_neg positive, begins, List.cons_append, List.foldlM_append, whole]
    rfl
  | negSucc e =>
    rw [Decimal.positional, scale, if_neg (by omega), List.append_nil]
    exact opens.pointedRead positive e

theorem Opens.digitsRead {s : Numeral} (opens : s.Opens) (d : Digits) :
    ∃ t, (Decimal.jsonDigits d).foldlM step s = some t ∧ t.complete = true := by
  unfold Decimal.jsonDigits
  dsimp only
  split
  · refine ⟨.places, ?_, rfl⟩
    rw [List.foldlM_cons, opens.zeroRead]
    rfl
  · rename_i positive
    split
    · exact ⟨.places, opens.positionalRead positive, rfl⟩
    · exact ⟨.power, opens.scientificRead positive _, rfl⟩

end Numeral

open Float.Model in
/-- Where the exponent has all its bits there is no finite number. -/
theorem finiteBelow {x : Float32} (finite : x.isFinite = true) :
    x.toBits.toNat % Binary.single.signBit / Nat.pow 2 Binary.single.fraction ≠
      Nat.pow 2 Binary.single.exponent - 1 := by
  intro top
  have exponent : @UnpackedFloat.unpackExponent .binary32 x.toBits.toBitVec = -1#8 := by
    apply BitVec.eq_of_toNat_eq
    simp [UnpackedFloat.unpackExponent, Nat.shiftRight_eq_div_pow]
    simp [Binary.single, Binary.Format.signBit] at top
    omega
  change (UnpackedFloat.unpack .binary32 x.toBits.toBitVec).isFinite = true at finite
  delta UnpackedFloat.unpack at finite
  dsimp only at finite
  rw [if_pos exponent] at finite
  split at finite
  · cases finite
  · cases finite

theorem finiteIs {x : Float32} (finite : x.isFinite = true) :
    ∃ negative m q, Binary.ofFloat32 x = .finite negative m q := by
  unfold Binary.ofFloat32 Binary.decode
  dsimp only
  rw [if_neg (finiteBelow finite)]
  split
  · exact ⟨_, _, _, rfl⟩
  · exact ⟨_, _, _, rfl⟩

theorem jsonNumber {x : Float32} (finite : x.isFinite = true) : isNumber (Decimal.jsonFloat32 x) = true := by
  obtain ⟨negative, m, q, value⟩ := finiteIs finite
  rw [Decimal.jsonFloat32, value, Decimal.json]
  cases negative with
  | false => exact numberRead.mpr (Numeral.startOpens.digitsRead _)
  | true =>
    refine numberRead.mpr ?_
    rw [Decimal.signed, if_pos rfl, List.foldlM_cons]
    exact Numeral.minusOpens.digitsRead _

end SpeechDecoder.Report.Json
