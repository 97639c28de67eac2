import Mathlib
import SpeechDecoder.Proofs.ParameterFile

/-! Damage to a parameter file is found out by who reads all of it and closes it: a word that was replaced, bytes that
are missing at the end, bytes behind the end. Each step of the checksum can be undone, so two files of one size that
differ in one word cannot both end with their sums. -/
namespace SpeechDecoder

namespace Word32

theorem splitJoined (a b c d : UInt8) : bytes (join a b c d) = [a, b, c, d] := by
  have each : (join a b c d).toUInt8 = a ∧ (join a b c d >>> 8).toUInt8 = b ∧ (join a b c d >>> 16).toUInt8 = c ∧
      (join a b c d >>> 24).toUInt8 = d := by
    refine ⟨?_, ?_, ?_, ?_⟩ <;>
    · apply UInt8.toBitVec_inj.mp
      ext i small
      simp [join] <;> grind
  simp [bytes, each]

theorem orderedRead (swapped : Bool) (a b c d : UInt8) : ordered swapped (read swapped a b c d) = [a, b, c, d] := by
  cases swapped <;> simp [ordered, read, splitJoined]

theorem orderedInjective {swapped : Bool} {v w : UInt32} (same : ordered swapped v = ordered swapped w) : v = w := by
  obtain ⟨a, b, c, d, bytes, rfl⟩ := readOrdered swapped v
  obtain ⟨a', b', c', d', bytes', rfl⟩ := readOrdered swapped w
  rw [bytes, bytes'] at same
  cases same
  rfl

theorem orderedFirst {swapped : Bool} {v w : UInt32} {rest rest' : List UInt8}
    (same : ordered swapped v ++ rest = ordered swapped w ++ rest') : v = w ∧ rest = rest' := by
  obtain ⟨first, later⟩ := List.append_inj same (by rw [orderedLength, orderedLength])
  exact ⟨orderedInjective first, later⟩

end Word32

namespace ParameterFile

/-! ### The checksum -/

theorem rotationUndone (sum : UInt32) :
    (((sum <<< 20) ||| (sum >>> 12)) <<< 12) ||| (((sum <<< 20) ||| (sum >>> 12)) >>> 20) = sum := by
  apply UInt32.toBitVec_inj.mp
  ext i small
  simp
  grind

theorem checksumStepSum {sum sum' word : UInt32} (same : checksumStep sum word = checksumStep sum' word) :
    sum = sum' := by
  have turned := (UInt32.add_left_inj word).mp same
  rw [← rotationUndone sum, turned, rotationUndone]

theorem checksumStepWord {sum word word' : UInt32} (same : checksumStep sum word = checksumStep sum word') :
    word = word' :=
  (UInt32.add_right_inj _).mp same

/-- Words as bytes with the checksum behind them, which goes on from `sum`. -/
def sealed (swapped : Bool) (sum : UInt32) (words : List UInt32) : List UInt8 :=
  words.flatMap (Word32.ordered swapped) ++ Word32.ordered swapped (words.foldl checksumStep sum)

theorem sealedCons (swapped : Bool) (sum w : UInt32) (words : List UInt32) :
    sealed swapped sum (w :: words) = Word32.ordered swapped w ++ sealed swapped (checksumStep sum w) words := by
  simp [sealed]

theorem sealedLength (swapped : Bool) (sum : UInt32) (words : List UInt32) :
    (sealed swapped sum words).length = 4 * words.length + 4 := by
  induction words generalizing sum with
  | nil => simp [sealed, Word32.orderedLength]
  | cons w words ih =>
    rw [sealedCons, List.length_append, ih, Word32.orderedLength, List.length_cons]
    omega

/-- The checksum tells also what sum the words went on from. -/
theorem sealedSame {swapped : Bool} {sum sum' : UInt32} {words words' : List UInt32}
    (size : words.length = words'.length) (same : sealed swapped sum words = sealed swapped sum' words') :
    words = words' ∧ sum = sum' := by
  induction words generalizing sum sum' words' with
  | nil =>
    cases List.length_eq_zero_iff.mp size.symm
    exact ⟨rfl, Word32.orderedInjective (by simpa [sealed] using same)⟩
  | cons w words ih =>
    cases words' with
    | nil => cases size
    | cons w' words' =>
      rw [sealedCons, sealedCons] at same
      obtain ⟨rfl, later⟩ := Word32.orderedFirst same
      obtain ⟨rfl, sums⟩ := ih (Nat.succ.inj size) later
      exact ⟨rfl, checksumStepSum sums⟩

/-- One word cannot be replaced, be it one of the words or the checksum. -/
theorem sealedWord {swapped : Bool} {sum : UInt32} {words words' : List UInt32}
    {before word other after : List UInt8} (size : words.length = words'.length) (aligned : 4 ∣ before.length)
    (whole : word.length = 4) (whole' : other.length = 4)
    (first : sealed swapped sum words = before ++ (word ++ after))
    (second : sealed swapped sum words' = before ++ (other ++ after)) : word = other := by
  induction words generalizing sum words' before with
  | nil =>
    cases List.length_eq_zero_iff.mp size.symm
    have same := List.append_cancel_left (first.symm.trans second)
    exact (List.append_inj' same rfl).1
  | cons w words ih =>
    cases words' with
    | nil => cases size
    | cons w' words' =>
      have fewer := Nat.succ.inj size
      rw [sealedCons] at first second
      by_cases here : before = []
      · -- the first word is the one that was replaced, and it is told by the sum that the others go on from
        subst here
        rw [List.nil_append] at first second
        obtain ⟨rfl, later⟩ := List.append_inj first (by rw [Word32.orderedLength, whole])
        obtain ⟨rfl, later'⟩ := List.append_inj second (by rw [Word32.orderedLength, whole'])
        obtain ⟨_, sums⟩ := sealedSame fewer (later.trans later'.symm)
        rw [checksumStepWord sums]
      · have long : 4 ≤ before.length := Nat.le_of_dvd (List.length_pos_iff.mpr here) aligned
        rw [← List.take_append_drop 4 before, List.append_assoc] at first second
        have four (w : UInt32) : (Word32.ordered swapped w).length = (before.take 4).length := by
          rw [Word32.orderedLength, List.length_take, Nat.min_eq_left long]
        obtain ⟨start, later⟩ := List.append_inj first (four w)
        obtain ⟨start', later'⟩ := List.append_inj second (four w')
        obtain rfl := Word32.orderedInjective (start.trans start'.symm)
        refine ih fewer ?_ later later'
        rw [List.length_drop]
        exact Nat.dvd_sub aligned (Nat.dvd_refl 4)

/-! ### Reading to the end -/

namespace Reader

/-- What is read at once. -/
inductive Ask where
  | integer
  | count (what : String)
  | words (n : Nat)
  deriving DecidableEq, Repr

namespace Ask

def size : Ask → Nat
  | integer => 1
  | count _ => 1
  | words n => n

def read (r : Reader) : Ask → Except Problem Unit × Reader
  | integer => ((r.integer).1.map fun _ => (), (r.integer).2)
  | count what => ((r.count what).1.map fun _ => (), (r.count what).2)
  | words n => ((r.words n).1.map fun _ => (), (r.words n).2)

end Ask

/-- Reads all that is asked for, and closes the file. -/
def readAll (r : Reader) : List Ask → Except Problem Unit
  | [] => r.finish
  | ask :: rest =>
    match ask.read r with
    | (.ok _, next) => next.readAll rest
    | (.error p, _) => .error p

/-- What was left has given these words. -/
structure Took (r : Reader) (words : List UInt32) (next : Reader) : Prop where
  order : next.swapped = r.swapped
  summed : next.sum = r.sum.map fun sum => words.foldl checksumStep sum
  rest : r.rest = words.flatMap (Word32.ordered r.swapped) ++ next.rest

theorem Took.none (r : Reader) : r.Took [] r := ⟨rfl, by simp, rfl⟩

theorem Took.trans {r between next : Reader} {words words' : List UInt32} (first : r.Took words between)
    (later : between.Took words' next) : r.Took (words ++ words') next := by
  refine ⟨later.order.trans first.order, ?_, ?_⟩
  · rw [later.summed, first.summed, Option.map_map]
    simp only [Function.comp_def, List.foldl_append]
  · rw [first.rest, later.rest, first.order, List.flatMap_append, List.append_assoc]

theorem wordTook {r next : Reader} {w : UInt32} (read : r.word = (.ok w, next)) : r.Took [w] next := by
  unfold word at read
  split at read
  · rename_i a b c d rest bytes
    cases read
    exact ⟨rfl, rfl, by simp [bytes, Word32.orderedRead]⟩
  · cases read

theorem integerTook {r next : Reader} {n : Int} (read : r.integer = (.ok n, next)) :
    ∃ w, r.Took [w] next := by
  unfold integer at read
  split at read
  · rename_i w between found
    cases read
    exact ⟨w, wordTook found⟩
  · cases read

theorem countTook {r next : Reader} {what : String} {n : Nat} (read : r.count what = (.ok n, next)) :
    ∃ w, r.Took [w] next := by
  unfold count at read
  split at read
  · rename_i m between found
    split at read
    · cases read
    · cases read
      exact integerTook found
  · cases read

theorem wordsFromTook {n : Nat} {r next : Reader} {words : List UInt32}
    (read : r.wordsFrom n = (.ok words, next)) : words.length = n ∧ r.Took words next := by
  induction n generalizing r words with
  | zero =>
    cases read
    exact ⟨rfl, .none _⟩
  | succ n ih =>
    unfold wordsFrom at read
    split at read
    · cases read
    · rename_i w between first
      split at read
      · rename_i later
        cases read
        obtain ⟨size, took⟩ := ih later
        exact ⟨congrArg (· + 1) size, (wordTook first).trans took⟩
      · cases read

theorem Ask.took {ask : Ask} {r next : Reader} {u : Unit} (read : ask.read r = (.ok u, next)) :
    ∃ words, words.length = ask.size ∧ r.Took words next := by
  have given {α : Type} {x : Except Problem α} (ok : (x.map fun _ => ()) = .ok u) : ∃ a, x = .ok a := by
    cases x with
    | error p => cases ok
    | ok a => exact ⟨a, rfl⟩
  cases ask <;> obtain ⟨ok, rfl⟩ := Prod.mk.inj read <;> obtain ⟨a, found⟩ := given ok
  case integer =>
    obtain ⟨w, took⟩ := integerTook (Prod.ext found rfl)
    exact ⟨[w], rfl, took⟩
  case count what =>
    obtain ⟨w, took⟩ := countTook (Prod.ext found rfl)
    exact ⟨[w], rfl, took⟩
  case words n =>
    have reached : r.wordsFrom n = (.ok a, (r.words n).2) := by
      unfold Reader.words at found ⊢
      split at found
      · cases found
      · rw [if_neg ‹_›]
        exact Prod.ext found rfl
    exact ⟨a, wordsFromTook reached⟩

theorem finishSealed {r : Reader} {sum : UInt32} (summed : r.sum = some sum) (closed : r.finish = .ok ()) :
    r.rest = Word32.ordered r.swapped sum := by
  unfold finish at closed
  simp only [summed] at closed
  split at closed
  · cases closed
  · rename_i stored last read
    have took := (wordTook read).rest
    split at closed
    · rename_i same
      split at closed
      · rename_i empty
        rw [List.isEmpty_iff.mp empty, same] at took
        simpa using took
      · cases closed
    · cases closed

/-- A file that is read to its end held so many words and their checksum. -/
theorem readAllSealed {asked : List Ask} {r : Reader} {sum : UInt32} (summed : r.sum = some sum)
    (read : r.readAll asked = .ok ()) :
    ∃ words, words.length = (asked.map Ask.size).sum ∧ r.rest = sealed r.swapped sum words := by
  induction asked generalizing r sum with
  | nil => exact ⟨[], rfl, by simpa [sealed] using finishSealed summed read⟩
  | cons ask asked ih =>
    unfold readAll at read
    split at read
    · rename_i next first
      obtain ⟨words, size, took⟩ := Ask.took first
      have summed' : next.sum = some (words.foldl checksumStep sum) := by rw [took.summed, summed, Option.map_some]
      obtain ⟨words', size', rest⟩ := ih summed' read
      refine ⟨words ++ words', by simp [size, size'], ?_⟩
      rw [took.rest, rest, took.order]
      simp [sealed]
    · cases read

theorem Before.readAll {asked : List Ask} {r : Reader} {words : List UInt32} (before : r.Before words)
    (size : (asked.map Ask.size).sum = words.length) (plain : ∀ what, Ask.count what ∉ asked) :
    r.readAll asked = .ok () := by
  induction asked generalizing r words with
  | nil =>
    cases List.length_eq_zero_iff.mp size.symm
    exact before.finish
  | cons ask asked ih =>
    have plain' (what : String) : Ask.count what ∉ asked := fun mem => plain what (List.mem_cons_of_mem ask mem)
    rw [List.map_cons, List.sum_cons] at size
    have long : ask.size ≤ words.length := by omega
    have rest : (asked.map Ask.size).sum = (words.drop ask.size).length := by
      rw [List.length_drop]
      omega
    rw [← List.take_append_drop ask.size words] at before
    have given : (words.take ask.size).length = ask.size := by rw [List.length_take, Nat.min_eq_left long]
    cases ask with
    | integer =>
      obtain ⟨w, first⟩ := List.length_eq_one_iff.mp given
      rw [first] at before
      obtain ⟨next, read, later⟩ := Before.word before
      have whole := ih later rest plain'
      unfold Reader.readAll
      simp only [Ask.read, Reader.integer, read, Except.map]
      exact whole
    | count what => exact absurd List.mem_cons_self (plain what)
    | words n =>
      obtain ⟨next, read, later⟩ := Before.words before
      rw [given] at read
      have whole := ih later rest plain'
      have portion : r.words n = (.ok (words.take n), next) := read
      unfold Reader.readAll
      simp only [Ask.read, portion, Except.map]
      exact whole

end Reader

/-! ### Damage -/

/-- What can become of bytes: one word of them is replaced, the last are lost, or there are more. -/
inductive Damaged : List UInt8 → List UInt8 → Prop where
  | replaced {before word other after : List UInt8} (aligned : 4 ∣ before.length) (whole : word.length = 4)
      (whole' : other.length = 4) (differs : word ≠ other) :
      Damaged (before ++ (word ++ after)) (before ++ (other ++ after))
  | cut {kept lost : List UInt8} (some : lost ≠ []) : Damaged (kept ++ lost) kept
  | extended {bytes more : List UInt8} (some : more ≠ []) : Damaged bytes (bytes ++ more)

theorem Damaged.unsealed {swapped : Bool} {sum : UInt32} {words words' : List UInt32} {damaged : List UInt8}
    (damage : Damaged (sealed swapped sum words) damaged) (size : words.length = words'.length) :
    damaged ≠ sealed swapped sum words' := by
  intro same
  have length : damaged.length = (sealed swapped sum words).length := by rw [same, sealedLength, sealedLength, size]
  generalize first : sealed swapped sum words = bytes at damage length
  cases damage with
  | replaced aligned whole whole' differs => exact differs (sealedWord size aligned whole whole' first same.symm)
  | cut some =>
    rw [List.length_append] at length
    exact some (List.length_eq_zero_iff.mp (by omega))
  | extended some =>
    rw [List.length_append] at length
    exact some (List.length_eq_zero_iff.mp (by omega))

theorem openedRead (path : String) {header : List (String × String)} (lines : ∀ line ∈ header, IsLine line.1 line.2)
    (free : ∀ line ∈ header, line.1 ≠ checksumName) (swapped : Bool) (bytes : List UInt8) :
    Reader.ofBytes path (opening header ++ (Word32.ordered swapped magic ++ bytes)) =
      .ok ⟨path, bytes, swapped, header ++ [(checksumName, "yes")], some 0⟩ := by
  have order : Reader.byteOrder (Word32.ordered swapped magic ++ bytes) = .ok (swapped, bytes) := by
    cases swapped <;> rfl
  have unnamed : header.lookup checksumName = none := List.lookup_eq_none_iff.mpr fun line mem => by
    simpa using (free line mem).symm
  have summed : (header ++ [(checksumName, "yes")]).lookup checksumName = some "yes" := by
    rw [List.lookup_append, unnamed]
    rfl
  simp only [Reader.ofBytes, Reader.openingRead lines, order, summed, bind, Except.bind, if_true]

/-- A file that is written, in either byte order, is read to its end in any portions. After damage behind the mark of
its byte order it is still opened, but then reading it to its end in any portions meets a problem. -/
theorem damageDetected (path : String) {header : List (String × String)}
    (lines : ∀ line ∈ header, IsLine line.1 line.2) (free : ∀ line ∈ header, line.1 ≠ checksumName)
    (parts : List Part) (asked : List Reader.Ask)
    (size : (asked.map Reader.Ask.size).sum = (parts.flatMap Part.words).length) :
    let start := (opening header).length + 4
    ∀ file ∈ [written header parts, writtenTurned header parts],
      ((∀ what, .count what ∉ asked) → ∃ r, Reader.ofBytes path file = .ok r ∧ r.readAll asked = .ok ()) ∧
      ∀ damaged, Damaged (file.drop start) damaged →
        ∃ r, Reader.ofBytes path (file.take start ++ damaged) = .ok r ∧ ∃ p, r.readAll asked = .error p := by
  intro start
  let words := parts.flatMap Part.words
  have each (swapped : Bool) :
      let file := if swapped then writtenTurned header parts else written header parts
      ((∀ what, .count what ∉ asked) → ∃ r, Reader.ofBytes path file = .ok r ∧ r.readAll asked = .ok ()) ∧
      ∀ damaged, Damaged (file.drop start) damaged →
        ∃ r, Reader.ofBytes path (file.take start ++ damaged) = .ok r ∧ ∃ p, r.readAll asked = .error p := by
    intro file
    let front := opening header ++ Word32.ordered swapped magic
    have whole : file = front ++ sealed swapped 0 words := by
      simp only [file, writtenIs, front, List.append_assoc]
      rfl
    have long : front.length = start := by rw [List.length_append, Word32.orderedLength]
    have opens (bytes : List UInt8) := openedRead path lines free swapped bytes
    rw [whole, List.drop_left' long, List.take_left' long]
    simp only [front, List.append_assoc, opens]
    refine ⟨fun plain => ⟨_, rfl, ?_⟩, fun damaged damage => ⟨_, rfl, ?_⟩⟩
    · exact Reader.Before.readAll ⟨0, rfl, rfl⟩ size plain
    · -- what is read to its end without a problem would be sealed like the file
      cases read : Reader.readAll ⟨path, damaged, swapped, header ++ [(checksumName, "yes")], some 0⟩ asked with
      | error p => exact ⟨p, rfl⟩
      | ok _ =>
        obtain ⟨words', size', rest⟩ := Reader.readAllSealed rfl read
        exact absurd rest (damage.unsealed (size.symm.trans size'.symm))
  intro file mem
  rcases List.mem_cons.mp mem with rfl | mem
  · exact each false
  · cases List.mem_singleton.mp mem
    exact each true

/-- A number changed into another, the checksum changed, its last byte lost, and a byte too many. -/
theorem damageOfFourKinds :
    let header := [("version", "1.0")]
    let parts : List Part := [.integer 2, .floats [0x3F000000, 0x7FC00001]]
    let asked : List Reader.Ask := [.count "matrices", .words 2]
    let file := written header parts
    let start := (opening header).length + 4
    let number : List UInt8 := [2, 0, 0, 0]
    let values : List UInt8 := [0, 0, 0, 0x3F, 1, 0, 0xC0, 0x7F]
    let sum : List UInt8 := [1, 0xF2, 0xC3, 0x7F]
    file.drop start = number ++ (values ++ sum) ∧
    ∀ damaged ∈ [[3, 0, 0, 0] ++ (values ++ sum), number ++ (values ++ [0, 0, 0, 0]),
        number ++ (values ++ [1, 0xF2, 0xC3]), number ++ (values ++ (sum ++ [0]))],
      Damaged (file.drop start) damaged ∧
        ∃ r, Reader.ofBytes "means" (file.take start ++ damaged) = .ok r ∧ ∃ p, r.readAll asked = .error p := by
  intro header parts asked file start number values sum
  have lines : ∀ line ∈ header, IsLine line.1 line.2 := by
    intro line mem
    cases List.mem_singleton.mp mem
    exact ⟨by decide, by decide, by decide⟩
  obtain ⟨_, found⟩ := damageDetected "means" lines (by decide) parts asked (by decide) file List.mem_cons_self
  have bytes : file.drop start = number ++ (values ++ sum) := by decide +kernel
  refine ⟨bytes, fun damaged mem => ?_⟩
  have damage : Damaged (file.drop start) damaged := by
    rw [bytes]
    simp only [List.mem_cons, List.not_mem_nil, or_false] at mem
    rcases mem with rfl | rfl | rfl | rfl
    · exact @Damaged.replaced [] number [3, 0, 0, 0] (values ++ sum) (by decide) rfl rfl (by decide)
    · exact @Damaged.replaced (number ++ values) sum [0, 0, 0, 0] [] (by decide) rfl rfl (by decide)
    · exact @Damaged.cut (number ++ (values ++ [1, 0xF2, 0xC3])) [0x7F] (by decide)
    · exact @Damaged.extended (number ++ (values ++ sum)) [0] (by decide)
  exact ⟨damage, found damaged damage⟩

end ParameterFile
end SpeechDecoder
