import SpeechDecoder.Search.WordModel
import SpeechDecoder.Search.Alternatives

/-! Frame-synchronous beam search over the words of a lexicon. In each frame live tokens move through
their words; those too far below the best are dropped; what leaves a word is recorded as an exit, and
every exit may enter every word in the next frame. Only words with a live token are looked at, and an
acoustic score is computed when it is first asked for. Ties go to the lower word and the earlier exit. -/
namespace SpeechDecoder.Search

inductive Phase where
  | idle
  | active
  | finalized
  deriving DecidableEq, Repr

def Phase.name : Phase → String
  | .idle => "Idle"
  | .active => "Active"
  | .finalized => "Finalized"

/-- Acoustic scores that were computed, each with the frame that it belongs to; frames count from one. -/
structure AcousticCache (α : Type) where
  held : Array (Nat × α)
  deriving Repr

namespace AcousticCache
variable {α : Type} [Score α]

def make (senones : Nat) : AcousticCache α := ⟨Array.replicate senones (0, Score.zero)⟩

def clear (c : AcousticCache α) : AcousticCache α := ⟨c.held.map fun (_, x) => (0, x)⟩

def get (compute : Nat → α) (stamp senone : Nat) (c : AcousticCache α) : α × AcousticCache α :=
  match c.held[senone]? with
  | none => (compute senone, c)
  | some (frame, x) =>
    if frame = stamp then (x, c)
    else
      let x := compute senone
      (x, ⟨c.held.set! senone (stamp, x)⟩)

end AcousticCache

structure Slot (α : Type) where
  word : WordModel α
  queued : Bool
  deriving Repr

def Slot.clear {α : Type} [Score α] (s : Slot α) : Slot α := ⟨s.word.clear, false⟩

structure Result (α : Type) where
  hypothesis : Hypothesis α
  segments : List (Segment α)
  lattice : Lattice α
  deriving Repr

structure Engine (α : Type) where
  knowledge : Knowledge α
  phase : Phase
  slots : Array (Slot α)
  /-- The words with a live token, in order. -/
  active : List Nat
  exits : Array (Exit α)
  frames : Nat
  cache : AcousticCache α
  result : Option (Result α)

namespace Engine
variable {α : Type} [Score α]

inductive Problem where
  | phase (attempt : String) (found : Phase)
  | dimension (found expected : Nat)
  deriving DecidableEq, Repr

def Problem.message : Problem → String
  | .phase attempt found =>
    let name := found.name
    s!"cannot {attempt} a search while it is {name}"
  | .dimension found expected => s!"feature frame has {found} values, expected {expected}"

def Problem.failure : Problem → Failure
  | .phase attempt found => .outOfOrder (Problem.phase attempt found).message
  | .dimension found expected => .mismatch (Problem.dimension found expected).message

def make (k : Knowledge α) : Engine α where
  knowledge := k
  phase := .idle
  slots := k.lexicon.words.map fun w => ⟨.make k.phones w.phones, false⟩
  active := []
  exits := #[]
  frames := 0
  cache := .make k.scorer.senones
  result := none

def onSlots (f : Slot α → Slot α) (words : List Nat) (slots : Array (Slot α)) : Array (Slot α) :=
  words.foldl (fun slots w => slots.modify w f) slots

def clearActive (e : Engine α) : Engine α :=
  { e with slots := onSlots Slot.clear e.active e.slots, active := [] }

structure Queued (α : Type) where
  slots : Array (Slot α)
  words : List Nat

def offer (k : Knowledge α) (threshold : α) (exit : Exit α) (origin : Nat) (q : Queued α) (word : Nat) :
    Queued α :=
  match q.slots[word]? with
  | none => q
  | some slot =>
    let token : Token α := ⟨exit.score + (k.enter word exit.history).1, origin⟩
    if Score.below token.score threshold || !slot.word.accepts token then q
    else
      let slots := q.slots.set! word ⟨slot.word.offer token, true⟩
      ⟨slots, if slot.queued then q.words else word :: q.words⟩

def offerAll (k : Knowledge α) (threshold : α) (exits : Array (Exit α)) (q : Queued α) (origin : Nat) :
    Queued α :=
  match exits[origin]? with
  | none => q
  | some exit => (List.range q.slots.size).foldl (offer k threshold exit origin) q

def queueLive (q : Queued α) (word : Nat) : Queued α :=
  match q.slots[word]? with
  | none => q
  | some slot =>
    if slot.word.isLive then ⟨q.slots.set! word { slot with queued := true }, word :: q.words⟩
    else q

def Queued.finish (q : Queued α) : Array (Slot α) × List Nat :=
  (onSlots (fun s => { s with queued := false }) q.words q.slots, q.words.mergeSort (· ≤ ·))

def start (e : Engine α) : Except Problem (Engine α) :=
  if e.phase ≠ .idle then .error (.phase "start" e.phase)
  else
    let e := e.clearActive
    let exits := #[Exit.root e.knowledge]
    let queued := offerAll e.knowledge Score.impossible exits ⟨e.slots, []⟩ 0
    let (slots, active) := queued.finish
    .ok { e with
      phase := .active, slots, active, exits, frames := 0, cache := e.cache.clear, result := none }

/-- Moves the tokens of a word by a frame; also the best score of all words so far. -/
def advanceWord (k : Knowledge α) (compute : Nat → α) (stamp : Nat)
    (state : Array (Slot α) × α × AcousticCache α) (word : Nat) :
    Array (Slot α) × α × AcousticCache α :=
  let (slots, best, cache) := state
  match slots[word]? with
  | none => state
  | some slot =>
    let (moved, reached, cache) :=
      slot.word.advance k.transitions (AcousticCache.get compute stamp) cache
    (slots.set! word { slot with word := moved }, Score.larger best reached, cache)

def bestScore (slots : Array (Slot α)) (word : Nat) : α :=
  (slots[word]?).elim Score.impossible fun s => s.word.bestScore

/-- Splits a list into the `limit` items that score best, of which the first wins a tie, and the
others. A list within the limit is left in its order, any other is ordered by score. -/
def cap {β : Type} (score : β → α) (limit : Option Nat) (items : List β) : List β × List β :=
  match limit with
  | none => (items, [])
  | some n =>
    if items.length ≤ n then (items, [])
    else (items.mergeSort fun a b => (Score.order (score b) (score a)).isLE).splitAt n

def leavingTokens (k : Knowledge α) (threshold : α) (slots : Array (Slot α)) (words : List Nat) :
    List (Nat × Token α) :=
  words.filterMap fun w => do
    let slot ← slots[w]?
    let token ← slot.word.leaving? k.transitions threshold
    some (w, token)

def recordExit (k : Knowledge α) (endFrame : Nat) (exits : Array (Exit α)) (leaving : Nat × Token α) :
    Array (Exit α) :=
  let (word, token) := leaving
  match exits[token.origin]? with
  | none => exits
  | some before => exits.push (before.after k token.origin word endFrame token.score)

/-- Moves the tokens of the active words by a frame. -/
def move (e : Engine α) (frame : Frame α) : Array (Slot α) × α × AcousticCache α :=
  let k := e.knowledge
  let stamp := e.frames + 1
  let compute := k.scorer.score frame
  let cache :=
    if k.params.scoreAll then
      (List.range k.scorer.senones).foldl (fun c s => (c.get compute stamp s).2) e.cache
    else e.cache
  e.active.foldl (advanceWord k compute stamp) (e.slots, Score.impossible, cache)

/-- The words that stay after a frame, with the tokens that cross to their next phones. -/
def survive (k : Knowledge α) (best : α) (active : List Nat) (slots : Array (Slot α)) :
    Array (Slot α) × List Nat :=
  let slots := onSlots (fun s => { s with word := s.word.prune (best + k.params.beam) }) active slots
  let live := active.filter fun w => Score.isLive (bestScore slots w)
  let (kept, dropped) := cap (bestScore slots) k.params.maxActive live
  let slots := onSlots Slot.clear dropped slots
  let kept := kept.mergeSort (· ≤ ·)
  let slots := onSlots (fun s =>
    { s with word := s.word.cross k.transitions k.params.phonePenalty (best + k.params.phoneBeam) }) kept slots
  (slots, kept)

def recordAll (k : Knowledge α) (endFrame : Nat) (exits : Array (Exit α)) (leaving : List (Nat × Token α)) :
    Array (Exit α) :=
  (cap (fun x => x.2.score) k.params.maxExits leaving).1.foldl (recordExit k endFrame) exits

/-- A frame of an utterance: tokens move, weak ones are dropped, and what leaves a word may enter others. -/
def step (e : Engine α) (frame : Frame α) : Engine α :=
  let k := e.knowledge
  let stamp := e.frames + 1
  let (slots, best, cache) := e.move frame
  let (slots, kept) := survive k best e.active slots
  let exits := recordAll k stamp e.exits (leavingTokens k (best + k.params.wordBeam) slots kept)
  let queued := kept.foldl queueLive ⟨slots, []⟩
  let added := (List.range (exits.size - e.exits.size)).map (e.exits.size + ·)
  let (slots, active) := (added.foldl (offerAll k (best + k.params.beam) exits) queued).finish
  { e with slots, active, exits, frames := stamp, cache }

def advance (e : Engine α) (frame : Frame α) : Except Problem (Engine α) :=
  if e.phase ≠ .active then .error (.phase "advance" e.phase)
  else if frame.values.length ≠ e.knowledge.scorer.dimension then
    .error (.dimension frame.values.length e.knowledge.scorer.dimension)
  else .ok (e.step frame)

def finish (e : Engine α) : Except Problem (Engine α) :=
  if e.phase ≠ .active then .error (.phase "finish" e.phase)
  else
    let lattice := Lattice.ofExits e.knowledge e.exits e.frames
    let (hypothesis, segments) := lattice.best e.knowledge
    .ok { e.clearActive with
      phase := .finalized, exits := #[], result := some ⟨hypothesis, segments, lattice⟩ }

def reset (e : Engine α) : Engine α :=
  { e.clearActive with phase := .idle, exits := #[], frames := 0, result := none }

def alternatives (e : Engine α) (wanted : Nat) : List (Alternative α) :=
  match e.result with
  | none => []
  | some r => r.lattice.alternatives e.knowledge wanted

end Engine

end SpeechDecoder.Search
