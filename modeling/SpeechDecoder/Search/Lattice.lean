import SpeechDecoder.Search.Knowledge
import SpeechDecoder.Hypothesis

/-! Word lattices: the table of all word exits of an utterance, each linked to the exit that its word
was entered from. The first entry is the root, which ends before the first frame. An exit in the last
frame is final and ends a complete path. -/
namespace SpeechDecoder.Search

open Model (History)

structure Exit (α : Type) where
  /-- The word that ends; the root has none. -/
  word : Option Nat
  previous : Option Nat
  startFrame : Nat
  /-- The frame behind the last one of the word. -/
  endFrame : Nat
  score : α
  acousticScore : α
  languageScore : α
  history : History
  deriving DecidableEq, Repr

namespace Exit
variable {α : Type} [Score α]

def root (k : Knowledge α) : Exit α :=
  ⟨none, none, 0, 0, Score.zero, Score.zero, Score.zero, k.startHistory⟩

/-- The exit of a word at the end of a frame, entered from the exit `before` at place `origin`. -/
def after (k : Knowledge α) (before : Exit α) (origin word endFrame : Nat) (score : α) : Exit α :=
  let (languageScore, history) := k.enter word before.history
  {
    word := some word, previous := some origin, startFrame := before.endFrame, endFrame, score,
    acousticScore := score - before.score - languageScore, languageScore, history }

end Exit

structure Lattice (α : Type) where
  exits : Array (Exit α)
  frames : Nat
  /-- Final exits in the order of the table, with the score of their complete paths. -/
  finals : List (Nat × α)
  deriving Repr

namespace Lattice
variable {α : Type} [Score α]

def isFinal (frames : Nat) (e : Exit α) : Bool :=
  frames ≠ 0 && e.word.isSome && e.endFrame == frames

def ofExits (k : Knowledge α) (exits : Array (Exit α)) (frames : Nat) : Lattice α :=
  let finals := (exits.toList.zipIdx.filter fun (e, _) => isFinal frames e).map
    fun (e, i) => (i, e.score + k.leave e.history)
  ⟨exits, frames, finals⟩

def size (l : Lattice α) : Nat := l.exits.size - 1

def exit? (l : Lattice α) (place : Nat) : Option (Exit α) := l.exits[place]?

/-- The best final exit; the earlier wins a tie. -/
def bestFinal? (l : Lattice α) : Option (Nat × α) :=
  l.finals.foldl (fun best new =>
    match best with
    | none => some new
    | some old => if Score.below old.2 new.2 then some new else best) none

/-- The logarithm of the summed scaled probability of all complete paths that exits stand for. -/
def normalizer (l : Lattice α) (scale : α) : α :=
  Score.logSumExp (l.finals.map fun (_, score) => score / scale)

def confidence (l : Lattice α) (scale score : α) : α :=
  Score.clampUnit (Score.exp (score / scale - l.normalizer scale))

def traceBack (l : Lattice α) : (count : Nat) → Option Nat → List Nat
  | 0, _ | _, none => []
  | count + 1, some place =>
    match l.exit? place with
    | none => []
    | some e => if e.word.isSome then place :: l.traceBack count e.previous else []

def path (l : Lattice α) (place : Nat) : List Nat :=
  (l.traceBack l.exits.size (some place)).reverse

def segment? (k : Knowledge α) (l : Lattice α) (place : Nat) (languageScore : α) :
    Option (Segment α) := do
  let e ← l.exit? place
  let word ← k.lexicon.words[← e.word]?
  if word.isFiller then none
  some ⟨word.base, e.startFrame, e.endFrame - 1, e.acousticScore, languageScore⟩

def segments (k : Knowledge α) (l : Lattice α) (path : List (Nat × α)) : List (Segment α) :=
  path.filterMap fun (place, languageScore) => l.segment? k place languageScore

def textOf (segments : List (Segment α)) : String :=
  " ".intercalate (segments.map Segment.word)

def best (k : Knowledge α) (l : Lattice α) : Hypothesis α × List (Segment α) :=
  match l.bestFinal? with
  | none => (⟨"", Score.zero, Score.zero⟩, [])
  | some (place, score) =>
    let path := (l.path place).map fun i =>
      (i, (l.exit? i).elim Score.zero Exit.languageScore)
    let segments := l.segments k path
    (⟨textOf segments, score, l.confidence k.params.acousticScale score⟩, segments)

end Lattice

end SpeechDecoder.Search
