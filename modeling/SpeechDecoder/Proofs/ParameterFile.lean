import SpeechDecoder.ParameterFile
import SpeechDecoder.Proofs.Characters
import SpeechDecoder.Proofs.Fields

/-! A parameter file that is written is read back, in the byte order of either kind of machine: the values of its
header by their names, its words bit for bit however they are grouped, and its checksum. -/
namespace SpeechDecoder

namespace Word32

theorem joined (w : UInt32) : join w.toUInt8 (w >>> 8).toUInt8 (w >>> 16).toUInt8 (w >>> 24).toUInt8 = w := by
  apply UInt32.toBitVec_inj.mp
  ext i small
  simp [join, -UInt32.toUInt32_toUInt8]
  grind

theorem integerRead (n : Int32) : toInteger n.toUInt32 = n.toInt := by
  have value : n.toInt = n.toBitVec.toInt := rfl
  have bits : n.toUInt32.toNat = n.toBitVec.toNat := rfl
  rw [value, BitVec.toInt_eq_toNat_cond, toInteger, bits]
  split <;> split <;> first | rfl | omega

/-- The bytes of a word, its highest first where `swapped`. -/
def ordered (swapped : Bool) (w : UInt32) : List UInt8 := if swapped then (bytes w).reverse else bytes w

theorem orderedLength (swapped : Bool) (w : UInt32) : (ordered swapped w).length = 4 := by
  cases swapped <;> rfl

theorem readOrdered (swapped : Bool) (w : UInt32) :
    ∃ a b c d, ordered swapped w = [a, b, c, d] ∧ read swapped a b c d = w := by
  cases swapped with
  | false => exact ⟨_, _, _, _, rfl, joined w⟩
  | true => exact ⟨_, _, _, _, rfl, joined w⟩

end Word32

namespace ParameterFile

/-! ### Writing -/

/-- What is written at once. -/
inductive Part where
  | integer (n : Int32)
  | floats (bits : List UInt32)
  deriving DecidableEq, Repr

def Part.words : Part → List UInt32
  | .integer n => [n.toUInt32]
  | .floats bits => bits

def Writer.put (w : Writer) : Part → Writer
  | .integer n => w.integer n
  | .floats bits => w.floats bits

def written (header : List (String × String)) (parts : List Part) : List UInt8 :=
  (parts.foldl Writer.put (.make header)).close

namespace Writer

theorem floatsIs (w : Writer) (bits : List UInt32) :
    w.floats bits = ⟨w.bytes ++ bits.flatMap Word32.bytes, bits.foldl checksumStep w.sum⟩ := by
  induction bits generalizing w with
  | nil => simp [floats]
  | cons v bits ih =>
    rw [floats, List.foldl_cons, ← floats, ih]
    simp [word]

theorem putIs (w : Writer) (part : Part) : w.put part = w.floats part.words := by
  cases part with
  | integer n => rfl
  | floats bits => rfl

theorem putAll (w : Writer) (parts : List Part) : parts.foldl put w = w.floats (parts.flatMap Part.words) := by
  induction parts generalizing w with
  | nil => rfl
  | cons part parts ih => rw [List.foldl_cons, ih, putIs, List.flatMap_cons, floats, floats, floats, List.foldl_append]

end Writer

theorem writtenAtOnce (header : List (String × String)) (parts : List Part) :
    written header parts = write header (parts.flatMap Part.words) := by
  simp [written, Writer.putAll, Writer.floatsIs, Writer.make, Writer.close, write, checksum]

/-! ### The header -/

/-- A line of a header that its reader gives back: a name that is one field, and a value with one blank between its
fields. -/
structure IsLine (name value : String) : Prop where
  field : Text.IsField name.toList
  inside : name ≠ endOfHeader
  normal : value = " ".intercalate ((Text.fields value.toList).map String.ofList)

/-- A blank in a value is one between its fields, so a value is within its line. -/
theorem IsLine.oneLine {name value : String} (line : IsLine name value) :
    '\n' ∉ name.toList ++ ' ' :: value.toList := by
  have solid {f : List Char} (field : Text.IsField f) : '\n' ∉ f := fun mem => absurd (field.solid _ mem) (by decide)
  have joined {all : List (List Char)} (each : ∀ f ∈ all, Text.IsField f) : '\n' ∉ [' '].intercalate all := by
    induction all with
    | nil => simp
    | cons f rest ih =>
      have later := ih fun g mem => each g (List.mem_cons_of_mem f mem)
      have first := solid (each f List.mem_cons_self)
      cases rest with
      | nil => simpa using first
      | cons g rest => simp [List.intercalate_cons_cons, first, later]
  have value' : '\n' ∉ value.toList := by
    rw [line.normal]
    simpa [Function.comp_def] using joined (Text.fieldsAre value.toList)
  simp [solid line.field, value']

namespace Reader

theorem lineFound {l : List UInt8} (one : 10 ∉ l) (rest : List UInt8) : line? (l ++ 10 :: rest) = some (l, rest) := by
  induction l with
  | nil => simp [line?]
  | cons b l ih =>
    simp only [List.mem_cons, not_or] at one
    simp [line?, ih one.2, Ne.symm one.1]

theorem headerLineFound {bytes l rest : List UInt8} (found : line? bytes = some (l, rest)) {name : String}
    {values : List String} (fields : (Text.fields (Text.Utf8.decodeLossy l)).map String.ofList = name :: values) :
    headerLines bytes = if name = endOfHeader then .ok ([], rest) else
      match headerLines rest with
      | .error p => .error p
      | .ok (more, rest) => .ok ((name, " ".intercalate values) :: more, rest) := by
  rw [headerLines]
  split
  · simp_all
  · rename_i l' rest' found'
    rw [found] at found'
    cases found'
    split
    · simp_all
    · rename_i name' values' fields'
      rw [fields] at fields'
      cases fields'
      rfl

/-- The bytes of a line. -/
def lineOf (name value : String) : List UInt8 := Text.Utf8.encode (name.toList ++ ' ' :: value.toList) ++ [10]

theorem headerLineRead {name value : String} (line : IsLine name value) {rest : List UInt8}
    {more : List (String × String)} {left : List UInt8} (later : headerLines rest = .ok (more, left)) :
    headerLines (lineOf name value ++ rest) = .ok ((name, value) :: more, left) := by
  have found := lineFound (Text.Utf8.encodedLine line.oneLine) rest
  have fields : Text.fields (name.toList ++ ' ' :: value.toList) = name.toList :: Text.fields value.toList := by
    rw [Text.fields, Text.fieldsFromSolid line.field.solid, Text.fieldsFrom, if_pos (by decide),
      if_neg (by simpa using line.field.some)]
    simp [Text.fields]
  have named : (Text.fields (Text.Utf8.decodeLossy (Text.Utf8.encode (name.toList ++ ' ' :: value.toList)))).map
      String.ofList = name :: (Text.fields value.toList).map String.ofList := by
    simp [Text.Utf8.decodedLossyEncoded, fields]
  rw [lineOf, List.append_assoc, List.singleton_append, headerLineFound found named, if_neg line.inside, later,
    ← line.normal]

theorem headerLinesRead {header : List (String × String)} (lines : ∀ line ∈ header, IsLine line.1 line.2)
    {rest : List UInt8} {more : List (String × String)} {left : List UInt8}
    (later : headerLines rest = .ok (more, left)) :
    headerLines (header.flatMap (fun (name, value) => lineOf name value) ++ rest) = .ok (header ++ more, left) := by
  induction header with
  | nil => simpa using later
  | cons line header ih =>
    have behind := ih fun l mem => lines l (List.mem_cons_of_mem line mem)
    rw [List.flatMap_cons, List.append_assoc]
    exact headerLineRead (lines line List.mem_cons_self) behind

theorem checksumLine : IsLine checksumName "yes" where
  field := by decide
  inside := by decide
  normal := by decide

theorem openingRead {header : List (String × String)} (lines : ∀ line ∈ header, IsLine line.1 line.2)
    (rest : List UInt8) : headerOf (opening header ++ rest) = .ok (header ++ [(checksumName, "yes")], rest) := by
  have first : line? (Text.Utf8.encode ['s', '3'] ++ 10 :: _) = some (_, _) :=
    lineFound (Text.Utf8.encodedLine (by decide)) (header.flatMap (fun (name, value) => lineOf name value) ++
      (lineOf checksumName "yes" ++ (Text.Utf8.encode endOfHeader.toList ++ 10 :: rest)))
  have last : headerLines (Text.Utf8.encode endOfHeader.toList ++ 10 :: rest) = .ok ([], rest) := by
    have found := lineFound (l := Text.Utf8.encode endOfHeader.toList) (Text.Utf8.encodedLine (by decide)) rest
    have fields : (Text.fields (Text.Utf8.decodeLossy (Text.Utf8.encode endOfHeader.toList))).map String.ofList =
        [endOfHeader] := by
      rw [Text.Utf8.decodedLossyEncoded]
      decide
    rw [headerLineFound found fields, if_pos rfl]
  have all := headerLinesRead lines (headerLineRead checksumLine last)
  have bytes : opening header ++ rest = Text.Utf8.encode ['s', '3'] ++ 10 ::
      (header.flatMap (fun (name, value) => lineOf name value) ++
        (lineOf checksumName "yes" ++ (Text.Utf8.encode endOfHeader.toList ++ 10 :: rest))) := by
    simp [opening, lineOf]
  rw [bytes, headerOf, first]
  dsimp only
  rw [Text.Utf8.decodedLossyEncoded, if_pos (by decide), all]

/-! ### Words -/

/-- Before words that are still to be read, and the checksum that ends them. -/
def Before (r : Reader) (words : List UInt32) : Prop :=
  ∃ sum, r.sum = some sum ∧ r.rest = words.flatMap (Word32.ordered r.swapped) ++
    Word32.ordered r.swapped (words.foldl checksumStep sum)

theorem Before.word {r : Reader} {w : UInt32} {words : List UInt32} (before : r.Before (w :: words)) :
    ∃ next : Reader, r.word = (.ok w, next) ∧ next.Before words := by
  obtain ⟨sum, summed, rest⟩ := before
  obtain ⟨a, b, c, d, bytes, value⟩ := Word32.readOrdered r.swapped w
  rw [List.flatMap_cons, bytes] at rest
  let left : List UInt8 := words.flatMap (Word32.ordered r.swapped) ++
    Word32.ordered r.swapped (words.foldl checksumStep (checksumStep sum w))
  let next : Reader := { r with rest := left, sum := some (checksumStep sum w) }
  have read : r.word = (.ok w, next) := by simp [Reader.word, rest, value, summed, next, left]
  exact ⟨next, read, checksumStep sum w, rfl, rfl⟩

theorem Before.wordsFrom {r : Reader} {first words : List UInt32} (before : r.Before (first ++ words)) :
    ∃ next : Reader, r.wordsFrom first.length = (.ok first, next) ∧ next.Before words := by
  induction first generalizing r with
  | nil => exact ⟨r, rfl, before⟩
  | cons w first ih =>
    obtain ⟨next, read, later⟩ := Before.word before
    obtain ⟨last, more, left⟩ := ih later
    exact ⟨last, by simp [Reader.wordsFrom, read, more], left⟩

theorem Before.length {r : Reader} {words : List UInt32} (before : r.Before words) :
    r.rest.length = 4 * words.length + 4 := by
  obtain ⟨sum, _, rest⟩ := before
  have each (all : List UInt32) : (all.flatMap (Word32.ordered r.swapped)).length = 4 * all.length := by
    induction all with
    | nil => rfl
    | cons w all ih => simp [Word32.orderedLength, ih]; omega
  rw [rest, List.length_append, each, Word32.orderedLength]

theorem Before.words {r : Reader} {first words : List UInt32} (before : r.Before (first ++ words)) :
    ∃ next : Reader, r.words first.length = (.ok first, next) ∧ next.Before words := by
  have room : ¬ r.rest.length < 4 * first.length := by
    rw [before.length, List.length_append]
    omega
  rw [Reader.words, if_neg room]
  exact before.wordsFrom

theorem Before.integer {r : Reader} {n : Int32} {words : List UInt32} (before : r.Before (n.toUInt32 :: words)) :
    ∃ next : Reader, r.integer = (.ok n.toInt, next) ∧ next.Before words := by
  obtain ⟨next, read, later⟩ := Before.word before
  exact ⟨next, by simp [Reader.integer, read, Word32.integerRead], later⟩

theorem Before.finish {r : Reader} (before : r.Before []) : r.finish = .ok () := by
  obtain ⟨sum, summed, rest⟩ := before
  obtain ⟨a, b, c, d, bytes, value⟩ := Word32.readOrdered r.swapped sum
  simp only [List.flatMap_nil, List.nil_append, List.foldl_nil, bytes] at rest
  simp [Reader.finish, summed, Reader.word, rest, value]

/-- Reading part by part gives the parts, and then nothing is left and the checksum is right. -/
def Yields : Reader → List Part → Prop
  | r, [] => r.finish = .ok ()
  | r, .integer n :: parts => ∃ next : Reader, r.integer = (.ok n.toInt, next) ∧ next.Yields parts
  | r, .floats bits :: parts => ∃ next : Reader, r.words bits.length = (.ok bits, next) ∧ next.Yields parts

theorem Before.yields {r : Reader} {parts : List Part} (before : r.Before (parts.flatMap Part.words)) :
    r.Yields parts := by
  induction parts generalizing r with
  | nil => exact before.finish
  | cons part parts ih =>
    cases part with
    | integer n =>
      obtain ⟨next, read, later⟩ := Before.integer before
      exact ⟨next, read, ih later⟩
    | floats bits =>
      obtain ⟨next, read, later⟩ := Before.words before
      exact ⟨next, read, ih later⟩

end Reader

/-! ### Whole files -/

/-- Words of four bytes, each with its bytes the other way round. -/
def turned : List UInt8 → List UInt8
  | a :: b :: c :: d :: rest => d :: c :: b :: a :: turned rest
  | short => short

theorem turnedWords (words : List UInt32) :
    turned (words.flatMap Word32.bytes) = words.flatMap (Word32.ordered true) := by
  induction words with
  | nil => rfl
  | cons w words ih =>
    have step (rest : List UInt8) : turned (Word32.bytes w ++ rest) = Word32.ordered true w ++ turned rest := rfl
    rw [List.flatMap_cons, step, ih, List.flatMap_cons]

/-- What is written for a machine of the other byte order, from the mark of that order on. -/
def writtenTurned (header : List (String × String)) (parts : List Part) : List UInt8 :=
  let whole := written header parts
  let start := (opening header).length
  whole.take start ++ turned (whole.drop start)

theorem writtenIs (header : List (String × String)) (parts : List Part) (swapped : Bool) :
    (if swapped then writtenTurned header parts else written header parts) =
      opening header ++ (Word32.ordered swapped magic ++
        ((parts.flatMap Part.words).flatMap (Word32.ordered swapped) ++
          Word32.ordered swapped (checksum (parts.flatMap Part.words)))) := by
  have whole : written header parts =
      opening header ++ (magic :: (parts.flatMap Part.words ++ [checksum (parts.flatMap Part.words)])).flatMap
        Word32.bytes := by
    simp [writtenAtOnce, write]
  cases swapped with
  | false =>
    have same : Word32.ordered false = Word32.bytes := by
      funext w
      rfl
    simp [whole, same]
  | true =>
    rw [if_pos rfl, writtenTurned, whole, List.take_left, List.drop_left, turnedWords]
    simp

/-- A file that is written is accepted in either byte order, its header gives for each name the first value that was
written for it, and reading the same words, however grouped, gives each of them. -/
theorem writtenIsRead (path : String) {header : List (String × String)}
    (lines : ∀ line ∈ header, IsLine line.1 line.2) (free : ∀ line ∈ header, line.1 ≠ checksumName)
    (parts : List Part) :
    ∀ bytes ∈ [written header parts, writtenTurned header parts],
      ∃ r, Reader.ofBytes path bytes = .ok r ∧
        (∀ name, r.headerValue? name = if name = checksumName then some "yes" else header.lookup name) ∧
        ∀ asked, asked.flatMap Part.words = parts.flatMap Part.words → r.Yields asked := by
  have looked (name : String) : (header ++ [(checksumName, "yes")]).lookup name =
      if name = checksumName then some "yes" else header.lookup name := by
    rw [List.lookup_append]
    split
    · rename_i same
      have unnamed : header.lookup name = none := List.lookup_eq_none_iff.mpr fun line mem => by
        simpa [same] using (free line mem).symm
      rw [unnamed, same]
      rfl
    · rename_i other
      have unnamed : [(checksumName, "yes")].lookup name = none := by simpa [List.lookup_eq_none_iff] using other
      rw [unnamed, Option.or_none]
  have each (swapped : Bool) : ∃ r, Reader.ofBytes path
      (if swapped then writtenTurned header parts else written header parts) = .ok r ∧
        (∀ name, r.headerValue? name = if name = checksumName then some "yes" else header.lookup name) ∧
        ∀ asked, asked.flatMap Part.words = parts.flatMap Part.words → r.Yields asked := by
    let r : Reader := ⟨path, (parts.flatMap Part.words).flatMap (Word32.ordered swapped) ++
      Word32.ordered swapped (checksum (parts.flatMap Part.words)), swapped, header ++ [(checksumName, "yes")], some 0⟩
    have before : r.Before (parts.flatMap Part.words) := ⟨0, rfl, rfl⟩
    have order (rest : List UInt8) : Reader.byteOrder (Word32.ordered swapped magic ++ rest) = .ok (swapped, rest) := by
      cases swapped <;> rfl
    refine ⟨r, ?_, looked, fun asked same => ?_⟩
    · simp [Reader.ofBytes, writtenIs, Reader.openingRead lines, order, looked, bind, Except.bind, r]
    · rw [← same] at before
      exact before.yields
  intro bytes mem
  rcases List.mem_cons.mp mem with rfl | mem
  · exact each false
  · cases List.mem_singleton.mp mem
    exact each true

/-- A name that is written twice, and floats of which one is no number. -/
theorem writtenIsReadTwice :
    let header := [("version", "1.0"), ("made", "by hand"), ("version", "2")]
    let parts : List Part := [.integer 2, .floats [0x3F000000, 0x7FC00001], .integer (-7)]
    ∀ bytes ∈ [written header parts, writtenTurned header parts],
      ∃ r, Reader.ofBytes "means" bytes = .ok r ∧ r.headerValue? "version" = some "1.0" ∧
        r.headerValue? "chksum0" = some "yes" ∧ r.headerValue? "by" = none ∧ r.Yields parts ∧
        r.Yields [.floats [2], .integer 0x3F000000, .floats [0x7FC00001, 0xFFFFFFF9]] := by
  intro header parts bytes mem
  have lines : ∀ line ∈ header, IsLine line.1 line.2 := by
    have version (value : String) (normal : value = " ".intercalate ((Text.fields value.toList).map String.ofList)) :
        IsLine "version" value := ⟨by decide, by decide, normal⟩
    intro line mem
    simp only [header, List.mem_cons, List.not_mem_nil, or_false] at mem
    rcases mem with rfl | rfl | rfl
    · exact version "1.0" (by decide)
    · exact ⟨by decide, by decide, by decide⟩
    · exact version "2" (by decide)
  obtain ⟨r, ok, values, reads⟩ := writtenIsRead "means" lines (by decide) parts bytes mem
  have version : header.lookup "version" = some "1.0" := by decide
  have unnamed : header.lookup "by" = none := by decide
  refine ⟨r, ok, ?_, ?_, ?_, reads _ rfl, reads _ (by decide)⟩
  · rw [values, if_neg (by decide), version]
  · rw [values, if_pos (by decide)]
  · rw [values, if_neg (by decide), unnamed]

end ParameterFile
end SpeechDecoder
