import SpeechDecoder.Model.PhoneSet

/-! Pronunciation dictionaries: a word and its phones on each line. Of two entries with one spelling
the first counts; lines with unknown phones, or with none, are passed over. A filler dictionary holds
silence, noises and the marks of a sentence's ends. -/
namespace SpeechDecoder.Model

def sentenceStart : String := "<s>"

def sentenceEnd : String := "</s>"

def silenceWord : String := "<sil>"

def silencePhone : String := "SIL"

inductive WordClass where
  | normal
  | silence
  | filler
  | sentenceMark
  deriving DecidableEq, Repr

structure DictionaryWord where
  spelling : String
  base : String
  phones : List Nat
  kind : WordClass
  deriving DecidableEq, Repr

def DictionaryWord.isFiller (w : DictionaryWord) : Bool := w.kind != .normal

/-- Drops a mark such as `(2)` from the end of a spelling that has something before it. -/
def baseOf (spelling : List Char) : List Char :=
  if spelling.getLast? = some ')' then
    match Text.cut? '(' spelling.reverse with
    | some (_, before) => if before.isEmpty then spelling else before.reverse
    | none => spelling
  else spelling

def classOf (filler : Bool) (spelling : String) : WordClass :=
  if !filler then .normal
  else if spelling = sentenceStart ∨ spelling = sentenceEnd then .sentenceMark
  else if spelling = silenceWord then .silence
  else .filler

structure Dictionary where
  words : Array DictionaryWord := #[]
  /-- The places of the words by their spellings, the latest first. -/
  places : List (String × Nat) := []
  deriving Repr

namespace Dictionary

def id? (d : Dictionary) (spelling : String) : Option Nat := d.places.lookup spelling

def push (d : Dictionary) (w : DictionaryWord) : Dictionary :=
  ⟨d.words.push w, (w.spelling, d.words.size) :: d.places⟩

def isRemark (line : List Char) : Bool :=
  (Text.after? [';', ';'] line).isSome || (Text.after? ['#', '#'] line).isSome

def readLine (d : Dictionary) (filler : Bool) (phones : PhoneSet) (line : List Char) :
    Option DictionaryWord := do
  if isRemark (Text.trim line) then none
  match (Text.fields line).map String.ofList with
  | spelling :: first :: more =>
    let ids ← (first :: more).mapM phones.id?
    if (d.id? spelling).isSome then none
    some ⟨spelling, String.ofList (baseOf spelling.toList), ids, classOf filler spelling⟩
  | _ => none

def addLine (filler : Bool) (phones : PhoneSet) (d : Dictionary) (line : List Char) : Dictionary :=
  match d.readLine filler phones line with
  | some w => d.push w
  | none => d

/-- Adds the entries of a text. A dictionary other than a filler dictionary must not stay empty;
`source` names it in the failure. -/
def addText (d : Dictionary) (filler : Bool) (phones : PhoneSet) (source text : String) :
    Outcome Dictionary :=
  let d := (Text.lines text.toList).foldl (addLine filler phones) d
  if d.words.isEmpty && !filler then
    .error (.model source "dictionary contains no usable words")
  else .ok d

def ensureSilence (d : Dictionary) (phones : PhoneSet) : Dictionary :=
  if (d.id? silenceWord).isSome then d
  else
    match phones.id? silencePhone with
    | some id => d.push ⟨silenceWord, silenceWord, [id], .silence⟩
    | none => d

end Dictionary

end SpeechDecoder.Model
