import SpeechDecoder.Text.Blank
import SpeechDecoder.Text.Utf8
import SpeechDecoder.Word32
import SpeechDecoder.Failure

/-! Binary parameter files: a text header of named values, a mark of the byte order, words of 32
bits, and, where the header says so, a checksum over them. A reader keeps its place when a word
cannot be read. -/
namespace SpeechDecoder.ParameterFile

def magic : UInt32 := 0x11223344

def endOfHeader : String := "endhdr"

def checksumName : String := "chksum0"

def checksumStep (sum word : UInt32) : UInt32 := ((sum <<< 20) ||| (sum >>> 12)) + word

def checksum (words : List UInt32) : UInt32 := words.foldl checksumStep 0

inductive Problem where
  | openHeader
  | notParameters
  | magic
  | endOfFile
  | negative (what : String) (value : Int)
  | promised (values bytes : Nat)
  | checksum (computed stored : UInt32)
  | trailing (bytes : Nat)
  | destinations (expected found : Nat)
  | size (total : Nat) (dimensions : List Nat)
  | streams (found : Nat)
  deriving DecidableEq, Repr

def Problem.message : Problem → String
  | .openHeader => "unterminated header"
  | .notParameters => "not a Sphinx-3 parameter file (missing 's3' header)"
  | .magic => "bad byte-order magic"
  | .endOfFile => "unexpected end of file"
  | .negative what value => s!"negative {what}: {value}"
  | .promised values bytes => s!"header promises {values} values but only {bytes} bytes remain"
  | .checksum computed stored =>
    let sum := Word32.hex computed
    let found := Word32.hex stored
    s!"checksum mismatch: computed {sum}, stored {found}"
  | .trailing bytes => s!"{bytes} trailing bytes after data"
  | .destinations expected found => s!"expected {expected} destination states, found {found}"
  | .size total dimensions =>
    let product := "x".intercalate (dimensions.map toString)
    s!"value count {total} does not match {product}"
  | .streams found => s!"only single-stream models are supported, found {found}"

structure Reader where
  path : String
  rest : List UInt8
  swapped : Bool
  header : List (String × String)
  sum : Option UInt32
  deriving DecidableEq, Repr

namespace Reader

/-- A step of reading. The reader it leaves counts also when it fails. -/
abbrev Step (α : Type) := Reader → Except Problem α × Reader

def line? : List UInt8 → Option (List UInt8 × List UInt8)
  | [] => none
  | b :: rest =>
    if b = 10 then some ([], rest) else (line? rest).map fun (l, r) => (b :: l, r)

theorem lineLength {bytes l r : List UInt8} (h : line? bytes = some (l, r)) :
    r.length < bytes.length := by
  induction bytes generalizing l r with
  | nil => simp [line?] at h
  | cons b rest ih =>
    simp only [line?] at h
    split at h
    · cases h; simp
    · obtain ⟨⟨l', r'⟩, h', same⟩ := Option.map_eq_some_iff.1 h
      cases same
      have := ih h'
      simp; omega

/-- The lines of a header up to its end; a line is a name and the rest of its fields. -/
def headerLines (bytes : List UInt8) :
    Except Problem (List (String × String) × List UInt8) :=
  match _found : line? bytes with
  | none => .error .openHeader
  | some (line, rest) =>
    match (Text.fields (Text.Utf8.decodeLossy line)).map String.ofList with
    | [] => headerLines rest
    | name :: values =>
      if name = endOfHeader then .ok ([], rest)
      else
        match headerLines rest with
        | .error p => .error p
        | .ok (more, rest) => .ok ((name, " ".intercalate values) :: more, rest)
termination_by bytes.length
decreasing_by all_goals exact lineLength (by assumption)

def headerOf (bytes : List UInt8) : Except Problem (List (String × String) × List UInt8) :=
  match line? bytes with
  | none => .error .openHeader
  | some (line, rest) =>
    if Text.trim (Text.Utf8.decodeLossy line) = ['s', '3'] then headerLines rest
    else .error .notParameters

def byteOrder : List UInt8 → Except Problem (Bool × List UInt8)
  | a :: b :: c :: d :: rest =>
    if Word32.read false a b c d = magic then .ok (false, rest)
    else if Word32.read true a b c d = magic then .ok (true, rest)
    else .error .magic
  | _ => .error .endOfFile

def ofBytes (path : String) (bytes : List UInt8) : Except Problem Reader := do
  let (header, rest) ← headerOf bytes
  let (swapped, rest) ← byteOrder rest
  let summed := header.lookup checksumName = some "yes"
  .ok ⟨path, rest, swapped, header, if summed then some 0 else none⟩

def headerValue? (r : Reader) (name : String) : Option String := r.header.lookup name

def word : Step UInt32 := fun r =>
  match r.rest with
  | a :: b :: c :: d :: rest =>
    let w := Word32.read r.swapped a b c d
    (.ok w, { r with rest, sum := r.sum.map (checksumStep · w) })
  | _ => (.error .endOfFile, r)

def integer : Step Int := fun r =>
  match word r with
  | (.ok w, r) => (.ok (Word32.toInteger w), r)
  | (.error p, r) => (.error p, r)

def count (what : String) : Step Nat := fun r =>
  match integer r with
  | (.ok n, r) => if n < 0 then (.error (.negative what n), r) else (.ok n.toNat, r)
  | (.error p, r) => (.error p, r)

def wordsFrom : Nat → Step (List UInt32)
  | 0, r => (.ok [], r)
  | n + 1, r =>
    match word r with
    | (.error p, r) => (.error p, r)
    | (.ok w, r) =>
      match wordsFrom n r with
      | (.ok ws, r) => (.ok (w :: ws), r)
      | (.error p, r) => (.error p, r)

def words (n : Nat) : Step (List UInt32) := fun r =>
  if r.rest.length < 4 * n then (.error (.promised n r.rest.length), r) else wordsFrom n r

def finish (r : Reader) : Except Problem Unit :=
  let last (rest : List UInt8) : Except Problem Unit :=
    if rest.isEmpty then .ok () else .error (.trailing rest.length)
  match r.sum with
  | none => last r.rest
  | some sum =>
    match word { r with sum := none } with
    | (.error p, _) => .error p
    | (.ok stored, r) => if stored = sum then last r.rest else .error (.checksum sum stored)

end Reader

def Problem.failure (path : String) (p : Problem) : Failure := .model path p.message

/-- The header of a file that is written: it announces a checksum. -/
def opening (header : List (String × String)) : List UInt8 :=
  let line (s : List Char) : List UInt8 := Text.Utf8.encode s ++ [10]
  line ['s', '3'] ++
    header.flatMap (fun (name, value) => line (name.toList ++ ' ' :: value.toList)) ++
    line (checksumName.toList ++ ' ' :: "yes".toList) ++ line endOfHeader.toList

def write (header : List (String × String)) (words : List UInt32) : List UInt8 :=
  opening header ++
    Word32.bytes magic ++ words.flatMap Word32.bytes ++ Word32.bytes (checksum words)

/-- A file being written, with the checksum of its words so far. -/
structure Writer where
  bytes : List UInt8
  sum : UInt32
  deriving DecidableEq, Repr

namespace Writer

def make (header : List (String × String)) : Writer := ⟨opening header ++ Word32.bytes magic, 0⟩

def word (w : Writer) (v : UInt32) : Writer := ⟨w.bytes ++ Word32.bytes v, checksumStep w.sum v⟩

def integer (w : Writer) (n : Int32) : Writer := w.word n.toUInt32

/-- Floats, each by its bits. -/
def floats (w : Writer) (bits : List UInt32) : Writer := bits.foldl word w

def close (w : Writer) : List UInt8 := w.bytes ++ Word32.bytes w.sum

end Writer

end SpeechDecoder.ParameterFile
