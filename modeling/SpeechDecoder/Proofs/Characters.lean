import SpeechDecoder.Text.Utf8

/-! What is written in UTF-8 is read back. A code has the bytes of its sixes of bits, below the mark of their number;
the codes that a number of bytes leaves out are no characters, or have fewer. -/
namespace SpeechDecoder.Text.Utf8

theorem byteIs {n : Nat} (small : n < 256) : (UInt8.ofNat n).toNat = n := UInt8.toNat_ofNat_of_lt' small

theorem scanLead {b : Nat} (small : b < 256) {p : Pending} (lead : first b = .opens p) (rest : List UInt8) :
    scan none (UInt8.ofNat b :: rest) = scan (some p) rest := by
  rw [scan, byteIs small, lead]

theorem scanMore {t low high : Nat} (small : t < 64) (least : low ≤ t + 128) (most : t + 128 ≤ high) (n code : Nat)
    (rest : List UInt8) :
    scan (some ⟨n + 2, code, low, high⟩) (UInt8.ofNat (t + 128) :: rest) =
      scan (some ⟨n + 1, code * 64 + t, 0x80, 0xBF⟩) rest := by
  rw [scan, byteIs (by omega), if_pos ⟨least, most⟩]
  simp

theorem scanLast {t : Nat} (small : t < 64) (code : Nat) (rest : List UInt8) :
    scan (some ⟨1, code, 0x80, 0xBF⟩) (UInt8.ofNat (t + 128) :: rest) =
      some (Char.ofNat (code * 64 + t)) :: scan none rest := by
  rw [scan, byteIs (by omega), if_pos (by dsimp only; omega)]
  simp

theorem scanOne {v : Nat} (small : v ≤ 127) (rest : List UInt8) :
    scan none (UInt8.ofNat v :: rest) = some (Char.ofNat v) :: scan none rest := by
  have lead : first v = .char (Char.ofNat v) := by rw [first, if_pos (by omega)]
  rw [scan, byteIs (by omega), lead]

theorem scanTwo {h : Nat} (least : 2 ≤ h) (small : h < 32) (rest : List UInt8) :
    scan none (UInt8.ofNat (h + 192) :: rest) = scan (some ⟨1, h, 0x80, 0xBF⟩) rest := by
  have lead : first (h + 192) = .opens ⟨1, h, 0x80, 0xBF⟩ := by
    rw [first, if_neg (by omega), if_pos (by omega), Nat.add_sub_cancel]
  exact scanLead (by omega) lead rest

theorem scanThree {h t : Nat} (small : h < 16) (next : t < 64) (least : h = 0 → 32 ≤ t) (most : h = 13 → t < 32)
    (rest : List UInt8) :
    scan none (UInt8.ofNat (h + 224) :: UInt8.ofNat (t + 128) :: rest) =
      scan (some ⟨1, h * 64 + t, 0x80, 0xBF⟩) rest := by
  have lead : ∃ low high, first (h + 224) = .opens ⟨2, h, low, high⟩ ∧ low ≤ t + 128 ∧ t + 128 ≤ high := by
    rw [first, if_neg (by omega), if_neg (by omega)]
    by_cases lowest : h = 0
    · exact ⟨0xA0, 0xBF, by simp [lowest], by have := least lowest; omega, by omega⟩
    · by_cases surrogate : h = 13
      · exact ⟨0x80, 0x9F, by simp [surrogate], by omega, by have := most surrogate; omega⟩
      · rw [if_neg (by omega), if_neg (by omega), if_pos (by omega), Nat.add_sub_cancel]
        exact ⟨0x80, 0xBF, rfl, by omega, by omega⟩
  obtain ⟨low, high, lead, above, below⟩ := lead
  rw [scanLead (by omega) lead, scanMore next above below]

theorem scanFour {h t : Nat} (small : h < 5) (next : t < 64) (least : h = 0 → 16 ≤ t) (most : h = 4 → t < 16)
    (rest : List UInt8) :
    scan none (UInt8.ofNat (h + 240) :: UInt8.ofNat (t + 128) :: rest) =
      scan (some ⟨2, h * 64 + t, 0x80, 0xBF⟩) rest := by
  have lead : ∃ low high, first (h + 240) = .opens ⟨3, h, low, high⟩ ∧ low ≤ t + 128 ∧ t + 128 ≤ high := by
    rw [first, if_neg (by omega), if_neg (by omega), if_neg (by omega), if_neg (by omega), if_neg (by omega)]
    by_cases lowest : h = 0
    · exact ⟨0x90, 0xBF, by simp [lowest], by have := least lowest; omega, by omega⟩
    · by_cases last : h = 4
      · exact ⟨0x80, 0x8F, by simp [last], by omega, by have := most last; omega⟩
      · rw [if_neg (by omega), if_pos (by omega), Nat.add_sub_cancel]
        exact ⟨0x80, 0xBF, rfl, by omega, by omega⟩
  obtain ⟨low, high, lead, above, below⟩ := lead
  rw [scanLead (by omega) lead, scanMore next above below]

theorem scanChar (c : Char) (rest : List UInt8) :
    scan none (String.utf8EncodeChar c ++ rest) = some c :: scan none rest := by
  have valid : c.val.toNat < 0xD800 ∨ 0xDFFF < c.val.toNat ∧ c.val.toNat < 0x110000 := c.valid
  have same : Char.ofNat c.val.toNat = c := Char.ofNat_toNat c
  unfold String.utf8EncodeChar
  generalize c.val.toNat = v at valid same
  dsimp only
  split
  · rw [List.singleton_append, scanOne (by omega), same]
  · split
    · have whole : v / 64 % 32 * 64 + v % 64 = v := by omega
      rw [List.cons_append, scanTwo (by omega) (by omega), List.singleton_append, scanLast (by omega), whole, same]
    · split
      · have whole : (v / 4096 % 16 * 64 + v / 64 % 64) * 64 + v % 64 = v := by omega
        rw [List.cons_append, List.cons_append, scanThree (by omega) (by omega) (by omega) (by omega),
          List.singleton_append, scanLast (by omega), whole, same]
      · have whole : ((v / 262144 % 8 * 64 + v / 4096 % 64) * 64 + v / 64 % 64) * 64 + v % 64 = v := by omega
        rw [List.cons_append, List.cons_append, List.cons_append,
          scanFour (by omega) (by omega) (by omega) (by omega), scanMore (by omega) (by omega) (by omega),
          List.singleton_append, scanLast (by omega), whole, same]

theorem scanEncoded (s : List Char) : scan none (encode s) = s.map some := by
  induction s with
  | nil => rfl
  | cons c s ih =>
    rw [encode, List.flatMap_cons, scanChar]
    exact congrArg (some c :: ·) ih

theorem decodedEncoded (s : List Char) : decode? (encode s) = some s := by
  have each : (s.map some).mapM id = some s := by
    induction s with
    | nil => rfl
    | cons c s ih => simp [ih]
  rw [decode?, scanEncoded, each]

theorem decodedLossyEncoded (s : List Char) : decodeLossy (encode s) = s := by
  simp [decodeLossy, scanEncoded, Function.comp_def]

theorem encodedByte {c : Char} {b : UInt8} (mem : b ∈ String.utf8EncodeChar c) :
    b.toNat = c.val.toNat ∨ 128 ≤ b.toNat := by
  unfold String.utf8EncodeChar at mem
  generalize c.val.toNat = v at mem ⊢
  dsimp only at mem
  have same {n : Nat} (small : n < 256) (is : b = UInt8.ofNat n) : b.toNat = n := by rw [is, byteIs small]
  split at mem
  · exact .inl (same (by omega) (List.mem_singleton.mp mem))
  -- all bytes of a longer sequence are above the others
  have above {n : Nat} (small : n < 256) (large : 128 ≤ n) (is : b = UInt8.ofNat n) : 128 ≤ b.toNat := by
    rw [same small is]
    exact large
  right
  split at mem
  · simp only [List.mem_cons, List.not_mem_nil, or_false] at mem
    rcases mem with is | is
    all_goals exact above (by omega) (by omega) is
  · split at mem
    · simp only [List.mem_cons, List.not_mem_nil, or_false] at mem
      rcases mem with is | is | is
      all_goals exact above (by omega) (by omega) is
    · simp only [List.mem_cons, List.not_mem_nil, or_false] at mem
      rcases mem with is | is | is | is
      all_goals exact above (by omega) (by omega) is

/-- A line feed is the only character with its byte. -/
theorem encodedLine {s : List Char} (one : '\n' ∉ s) : (10 : UInt8) ∉ encode s := by
  intro mem
  obtain ⟨c, inside, byte⟩ := List.mem_flatMap.mp mem
  have same : Char.ofNat c.val.toNat = c := Char.ofNat_toNat c
  rcases encodedByte byte with value | above
  · rw [← value] at same
    exact one (same ▸ inside)
  · exact absurd above (by decide)

end SpeechDecoder.Text.Utf8
