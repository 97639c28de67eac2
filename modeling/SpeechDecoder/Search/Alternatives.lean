import SpeechDecoder.Search.Lattice
import SpeechDecoder.Search.Queue

/-! Alternatives from a lattice, by best-first search over its complete paths: chains of exits in which
each word starts where the one before it ended, also where the search did not link them. Acoustic scores
come from the lattice and language scores from the words of the path itself. What a path can still gain
is bounded by the best acoustic scores and penalties to a final exit. -/
namespace SpeechDecoder.Search

open Model (History)

structure Walk (α : Type) where
  /-- Exits with their scores of entry, latest first. -/
  steps : List (Nat × α)
  history : History
  score : α
  deriving DecidableEq, Repr

namespace Walk
variable {α : Type}

def last (w : Walk α) : Nat :=
  match w.steps with
  | [] => 0
  | (place, _) :: _ => place

def extend [Score α] (k : Knowledge α) (w : Walk α) (place word : Nat) (acousticScore : α) : Walk α :=
  let (languageScore, history) := k.enter word w.history
  ⟨(place, languageScore) :: w.steps, history, w.score + languageScore + acousticScore⟩

end Walk

/-- A way in the queue. Among equal bounds the one that was queued first goes first. -/
structure Candidate (α : Type) where
  bound : α
  serial : Nat
  walk : Walk α
  /-- Whether the score includes the end of the utterance. -/
  complete : Bool
  deriving DecidableEq, Repr

def Candidate.before {α : Type} [Score α] (a b : Candidate α) : Bool :=
  match Score.order a.bound b.bound with
  | .gt => true
  | .lt => false
  | .eq => a.serial < b.serial

namespace Lattice
variable {α : Type} [Score α]

/-- For each frame the exits whose word starts there, in the order of the table. -/
def successors (l : Lattice α) : Array (List Nat) :=
  ((List.range l.exits.size).drop 1).foldr (fun place starting =>
    match l.exit? place with
    | none => starting
    | some e => starting.modify e.startFrame (place :: ·)) (Array.replicate (l.frames + 1) [])

def ahead (outlook : Array α) (place : Nat) : α := outlook.getD place Score.impossible

def improve (k : Knowledge α) (l : Lattice α) (place : Nat) (outlook : Array α) (next : Nat) : Array α :=
  match l.exit? next with
  | none => outlook
  | some e =>
    match e.word with
    | none => outlook
    | some word =>
      if Score.isImpossible (ahead outlook next) then outlook
      else
        let gain := e.acousticScore + k.enterBound word + ahead outlook next
        if Score.below (ahead outlook place) gain then outlook.set! place gain else outlook

def endOf (l : Lattice α) (place : Nat) : Nat := (l.exit? place).elim 0 Exit.endFrame

def latestFirst (l : Lattice α) : List Nat :=
  (List.range l.exits.size).mergeSort fun a b => l.endOf b ≤ l.endOf a

def look (k : Knowledge α) (l : Lattice α) (next : Array (List Nat)) (outlook : Array α) (place : Nat) :
    Array α :=
  if l.frames ≤ l.endOf place then outlook
  else (next.getD (l.endOf place) []).foldl (l.improve k place) outlook

def markEnds (outlook : Array α) (finals : List (Nat × α)) : Array α :=
  finals.foldl (fun a (place, _) => a.set! place Score.zero) outlook

def atEnd (l : Lattice α) : Array α :=
  markEnds (Array.replicate l.exits.size Score.impossible) l.finals

/-- For each exit the most that a path can gain from there to a final exit. -/
def outlook (k : Knowledge α) (l : Lattice α) : Array α :=
  let next := l.successors
  l.latestFirst.foldl (l.look k next) l.atEnd

end Lattice

namespace Alternatives
variable {α : Type} [Score α]

def expansionLimit : Nat := 50000

structure State (α : Type) where
  queue : Queue (Candidate α)
  serial : Nat
  expansions : Nat
  found : List (Alternative α)

def State.enqueue (s : State α) (walk : Walk α) (bound : α) (complete : Bool) : State α :=
  { s with
    queue := s.queue.push Candidate.before ⟨bound, s.serial, walk, complete⟩
    serial := s.serial + 1 }

structure Setting (α : Type) where
  knowledge : Knowledge α
  lattice : Lattice α
  successors : Array (List Nat)
  outlook : Array α
  normalizer : α

def Setting.ofLattice (k : Knowledge α) (l : Lattice α) : Setting α :=
  ⟨k, l, l.successors, l.outlook k, l.normalizer k.params.acousticScale⟩

def record (c : Setting α) (s : State α) (walk : Walk α) : State α :=
  let segments := c.lattice.segments c.knowledge walk.steps.reverse
  let text := Lattice.textOf segments
  if s.found.any fun a => a.hypothesis.text == text then s
  else
    let scaled := walk.score / c.knowledge.params.acousticScale
    let confidence := Score.clampUnit (Score.exp (scaled - c.normalizer))
    { s with found := s.found ++ [⟨s.found.length, ⟨text, walk.score, confidence⟩, segments⟩] }

def follow (c : Setting α) (walk : Walk α) (s : State α) (place : Nat) : State α :=
  match c.lattice.exit? place with
  | none => s
  | some e =>
    match e.word with
    | none => s
    | some word =>
      if Score.isImpossible (Lattice.ahead c.outlook place) then s
      else
        let walk := walk.extend c.knowledge place word e.acousticScore
        s.enqueue walk (walk.score + Lattice.ahead c.outlook place) false

/-- Queues the complete path that ends with an exit, if one does. -/
def conclude (c : Setting α) (s : State α) (walk : Walk α) (e : Exit α) : State α :=
  if Lattice.isFinal c.lattice.frames e then
    let score := walk.score + c.knowledge.leave walk.history
    s.enqueue { walk with score } score true
  else s

/-- Queues the complete path that ends here, if one does, and every way that goes on. -/
def expand (c : Setting α) (s : State α) (walk : Walk α) : State α :=
  let s := { s with expansions := s.expansions + 1 }
  match c.lattice.exit? walk.last with
  | none => s
  | some e =>
    let s := conclude c s walk e
    if c.lattice.frames ≤ e.endFrame then s
    else (c.successors.getD e.endFrame []).foldl (follow c walk) s

def serve (c : Setting α) (s : State α) (next : Candidate α) : State α :=
  if next.complete then record c s next.walk else expand c s next.walk

/-- The state in which the search stops. -/
def run (c : Setting α) (wanted : Nat) : (count : Nat) → State α → State α
  | 0, s => s
  | count + 1, s =>
    match s.queue.pop? Candidate.before with
    | none => s
    | some (next, queue) =>
      if wanted ≤ s.found.length ∨ expansionLimit ≤ s.expansions then s
      else run c wanted count (serve c { s with queue } next)

/-- Alternatives by falling score, which positive backoff weights can have put out of order. -/
def ranked (found : List (Alternative α)) : List (Alternative α) :=
  (found.mergeSort fun a b => (Score.order b.hypothesis.score a.hypothesis.score).isLE).mapIdx
    fun rank a => { a with rank }

def start (c : Setting α) : State α :=
  let walk : Walk α := ⟨[], c.knowledge.startHistory, Score.zero⟩
  State.enqueue ⟨.empty, 0, 0, []⟩ walk (Lattice.ahead c.outlook 0) false

end Alternatives

/-- The search for `wanted` different texts. Each way that is followed up queues at most one complete path, so
twice the limit and one candidate more are enough. -/
def Lattice.explore {α : Type} [Score α] (k : Knowledge α) (l : Lattice α) (wanted : Nat) :
    Alternatives.State α :=
  let c := Alternatives.Setting.ofLattice k l
  Alternatives.run c wanted (2 * Alternatives.expansionLimit + 1) (Alternatives.start c)

/-- At most `wanted` different texts of complete paths, best first. -/
def Lattice.alternatives {α : Type} [Score α] (k : Knowledge α) (l : Lattice α) (wanted : Nat) :
    List (Alternative α) :=
  let wanted := min wanted k.params.maxAlternatives
  if wanted = 0 ∨ l.finals.isEmpty then [] else Alternatives.ranked (l.explore k wanted).found

end SpeechDecoder.Search
