import SpeechDecoder.Score
import SpeechDecoder.Text.Numeral
import SpeechDecoder.Failure

/-! Language models that back off: scores of words after at most two others. What a model does not
list is scored by the weight of the longer history and the score after the shorter one. -/
namespace SpeechDecoder.Model

/-- The words before one, as far as they are known, latest first. -/
structure History where
  last : Option Nat := none
  before : Option Nat := none
  deriving DecidableEq, Repr

def History.push (h : History) (word : Nat) : History := ⟨some word, h.last⟩

structure Ngram (α : Type) where
  order : Nat
  words : Array String := #[]
  unigrams : Array (α × α) := #[]
  /-- Latest listed first. -/
  bigrams : List ((Nat × Nat) × (α × α)) := []
  trigrams : List ((Nat × Nat × Nat) × α) := []

namespace Ngram
variable {α : Type} [Score α]

def id? (m : Ngram α) (word : String) : Option Nat := m.words.findIdx? (· == word)

def unigram (m : Ngram α) (word : Nat) : α :=
  match m.unigrams[word]? with
  | some (score, _) => score
  | none => Score.impossible

def backoff (m : Ngram α) (word : Nat) : α :=
  match m.unigrams[word]? with
  | some (_, weight) => weight
  | none => Score.impossible

def bigram (m : Ngram α) (last word : Nat) : α :=
  match m.bigrams.lookup (last, word) with
  | some (score, _) => score
  | none => m.backoff last + m.unigram word

def trigram (m : Ngram α) (before last word : Nat) : α :=
  match m.trigrams.lookup (before, last, word) with
  | some score => score
  | none =>
    let weight := match m.bigrams.lookup (before, last) with
      | some (_, weight) => weight
      | none => Score.zero
    weight + m.bigram last word

def score (m : Ngram α) (word : Nat) (h : History) : α :=
  match h.last, h.before with
  | some last, some before =>
    if 3 ≤ m.order then m.trigram before last word
    else if 2 ≤ m.order then m.bigram last word
    else m.unigram word
  | some last, none => if 2 ≤ m.order then m.bigram last word else m.unigram word
  | none, _ => m.unigram word

inductive Problem where
  | noData
  | countLine (line : String)
  | countOrder (line : String)
  | noCounts
  | order (found : Nat)
  | strayLine (line : String)
  | wrongSection (line : String)
  | entry (order : Nat) (line : String)
  | number (field line : String)
  | duplicate (word : String)
  | unknown (word line : String)
  | count (order declared found : Nat)
  deriving DecidableEq, Repr

def Problem.message : Problem → String
  | .noData => "missing \\data\\ section; binary language models are not supported"
  | .countLine line => s!"bad count line '{line}'"
  | .countOrder line => s!"n-gram counts out of order at '{line}'"
  | .noCounts => "no n-gram counts in header"
  | .order found => s!"order {found} language models are not supported (maximum 3)"
  | .strayLine line => s!"unexpected line '{line}'"
  | .wrongSection line => s!"unexpected section '{line}'"
  | .entry n line => s!"malformed {n}-gram line '{line}'"
  | .number field line => s!"bad number '{field}' in '{line}'"
  | .duplicate word => s!"duplicate unigram '{word}'"
  | .unknown word line => s!"word '{word}' in '{line}' has no unigram"
  | .count n declared found =>
    s!"header declares {declared} {n}-grams but file has {found}"

def dataMark : List Char := "\\data\\".toList

def endMark : List Char := "\\end\\".toList

def dataLines? : List (List Char) → Option (List (List Char))
  | [] => none
  | line :: rest => if line = dataMark then some rest else dataLines? rest

def countOf? (spec : List Char) : Option (Nat × Nat) := do
  let (order, count) ← Text.cut? '=' spec
  let order ← Text.natural? wordBits (Text.trim order)
  let count ← Text.natural? wordBits (Text.trim count)
  some (order, count)

def readCounts (counts : List Nat) :
    List (List Char) → Except Problem (List Nat × List (List Char))
  | [] => .ok (counts, [])
  | line :: rest =>
    match Text.after? "ngram ".toList line with
    | none => .ok (counts, line :: rest)
    | some spec =>
      match countOf? spec with
      | none => .error (.countLine (String.ofList line))
      | some (order, count) =>
        if order = counts.length + 1 then readCounts (counts ++ [count]) rest
        else .error (.countOrder (String.ofList line))

def sectionOrder? (line : List Char) : Option Nat := do
  let rest ← Text.after? ['\\'] line
  let n ← Text.before? "-grams:".toList rest
  Text.natural? wordBits n

def readNumber (number : List Char → Option α) (line field : List Char) : Except Problem α :=
  match number field with
  | some x => .ok x
  | none => .error (.number (String.ofList field) (String.ofList line))

def lookupWords (m : Ngram α) (line : List Char) : List String → Except Problem (List Nat)
  | [] => .ok []
  | w :: rest =>
    match m.id? w with
    | none => .error (.unknown w (String.ofList line))
    | some id => do
      let ids ← lookupWords m line rest
      .ok (id :: ids)

/-- An entry of the section of order `n`: a number, `n` words, and a weight that may be left out. -/
def addEntry (number : List Char → Option α) (m : Ngram α) (n : Nat) (line : List Char) :
    Except Problem (Ngram α) := do
  let fields := Text.fields line
  if fields.length < n + 1 ∨ n + 2 < fields.length then
    .error (.entry n (String.ofList line))
  let score ← readNumber number line (fields.headD [])
  let weight ← match fields[n + 1]? with
    | some field => readNumber number line field
    | none => .ok Score.zero
  let words := ((fields.drop 1).take n).map String.ofList
  match words with
  | [w] =>
    if (m.id? w).isSome then .error (.duplicate w)
    else .ok { m with words := m.words.push w, unigrams := m.unigrams.push (score, weight) }
  | words =>
    match ← m.lookupWords line words with
    | [a, b] => .ok { m with bigrams := ((a, b), (score, weight)) :: m.bigrams }
    | [a, b, c] => .ok { m with trigrams := ((a, b, c), score) :: m.trigrams }
    | _ => .error (.entry n (String.ofList line))

/-- Reads sections up to the mark of the end. `current` is the order of the section being read. -/
def readSections (number : List Char → Option α) (m : Ngram α) (current : Option Nat) :
    List (List Char) → Except Problem (Ngram α)
  | [] => .ok m
  | line :: rest =>
    match current, line.head? == some '\\' with
    | some n, false =>
      match addEntry number m n line with
      | .ok m => readSections number m current rest
      | .error p => .error p
    | _, _ =>
      if line = endMark then .ok m
      else
        match sectionOrder? line with
        | none => .error (.strayLine (String.ofList line))
        | some n =>
          if n = 0 ∨ m.order < n then .error (.wrongSection (String.ofList line))
          else readSections number m (some n) rest

def distinct {κ β : Type} [BEq κ] (table : List (κ × β)) : Nat :=
  (table.map Prod.fst).eraseDups.length

def sizeOf (m : Ngram α) : Nat → Nat
  | 1 => m.unigrams.size
  | 2 => distinct m.bigrams
  | _ => distinct m.trigrams

def checkCounts (m : Ngram α) (order : Nat) : List Nat → Except Problem Unit
  | [] => .ok ()
  | declared :: rest =>
    if m.sizeOf order = declared then checkCounts m (order + 1) rest
    else .error (.count order declared (m.sizeOf order))

/-- A model from its text; `number` reads a written logarithm. -/
def ofText (number : List Char → Option α) (text : String) : Except Problem (Ngram α) := do
  let lines := ((Text.lines text.toList).map Text.trim).filter (!·.isEmpty)
  let some lines := dataLines? lines | .error .noData
  let (counts, lines) ← readCounts [] lines
  if counts.isEmpty then .error .noCounts
  if 3 < counts.length then .error (.order counts.length)
  let m ← readSections number { order := counts.length } none lines
  m.checkCounts 1 counts
  .ok m

def ln10 : Float32 := Float32.ofBits 0x40135D8E

def decimalLog (s : List Char) : Option Float32 := (Text.float32? s).map (· * ln10)

end Ngram

end SpeechDecoder.Model
