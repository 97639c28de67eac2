import SpeechDecoder.Proofs.Search.Settled
import SpeechDecoder.Search.Engine

/-! The plain search: in each frame every word of the lexicon moves, in order, every acoustic score is computed
when it is needed, and every word is looked at for pruning, exits and entries. An utterance starts with all
words cleared. -/
namespace SpeechDecoder.Search

inductive Op (α : Type) where
  | start
  | advance (frame : Frame α)
  | finish
  | reset

structure Seen (α : Type) where
  phase : Phase
  exits : Array (Exit α)
  frames : Nat
  result : Option (Result α)
  alternatives : Nat → List (Alternative α)

/-- The same knowledge, with or without the wish that every acoustic score is computed in each frame. -/
def Knowledge.scoring {α : Type} (k : Knowledge α) (scoreAll : Bool) : Knowledge α :=
  { k with params := { k.params with scoreAll } }

structure Plain (α : Type) where
  knowledge : Knowledge α
  phase : Phase
  words : List (WordModel α)
  exits : Array (Exit α)
  frames : Nat
  result : Option (Result α)

namespace Engine
variable {α : Type} [Score α]

def perform (e : Engine α) : Op α → Except Problem (Engine α)
  | .start => e.start
  | .advance frame => e.advance frame
  | .finish => e.finish
  | .reset => .ok e.reset

/-- What cannot be done leaves the search as it was. -/
def after (e : Engine α) (ops : List (Op α)) : Engine α :=
  ops.foldl (fun e op => (e.perform op).toOption.getD e) e

def problem? (e : Engine α) (op : Op α) : Option Problem :=
  match e.perform op with
  | .error p => some p
  | .ok _ => none

def seen (e : Engine α) : Seen α := ⟨e.phase, e.exits, e.frames, e.result, e.alternatives⟩

theorem capPerm {β : Type} (score : β → α) (limit : Option Nat) (items : List β) :
    ((cap score limit items).1 ++ (cap score limit items).2).Perm items := by
  unfold cap
  cases limit with
  | none => simp
  | some n =>
    dsimp only
    split
    · simp
    · rw [List.splitAt_eq, List.take_append_drop]
      exact List.mergeSort_perm _ _

theorem capMem {β : Type} {score : β → α} {limit : Option Nat} {items : List β} {x : β}
    (mem : x ∈ (cap score limit items).1) : x ∈ items :=
  (capPerm score limit items).mem_iff.mp (List.mem_append_left _ mem)

end Engine

namespace Plain
variable {α : Type} [Score α]

def make (k : Knowledge α) : Plain α :=
  ⟨k, .idle, k.lexicon.words.toList.map fun w => .make k.phones w.phones, #[], 0, none⟩

def offer (k : Knowledge α) (threshold : α) (exit : Exit α) (origin word : Nat) (w : WordModel α) :
    WordModel α :=
  let token : Token α := ⟨exit.score + (k.enter word exit.history).1, origin⟩
  if Score.below token.score threshold || !w.accepts token then w else w.offer token

def offerAll (k : Knowledge α) (threshold : α) (exits : Array (Exit α)) (words : List (WordModel α))
    (origin : Nat) : List (WordModel α) :=
  match exits[origin]? with
  | none => words
  | some exit => words.mapIdx (offer k threshold exit origin)

def start (p : Plain α) : Except Engine.Problem (Plain α) :=
  if p.phase ≠ .idle then .error (.phase "start" p.phase)
  else
    let exits := #[Exit.root p.knowledge]
    let words := offerAll p.knowledge Score.impossible exits (p.words.map WordModel.clear) 0
    .ok { p with phase := .active, words, exits, frames := 0, result := none }

def move (k : Knowledge α) (frame : Frame α) (words : List (WordModel α)) : List (WordModel α) × α :=
  let moved := words.map fun w => w.advance k.transitions (PhoneModel.direct (k.scorer.score frame)) ()
  (moved.map Prod.fst, Score.largest (moved.map fun m => m.2.1))

def bestScore (words : List (WordModel α)) (word : Nat) : α :=
  (words[word]?).elim Score.impossible WordModel.bestScore

def leavingTokens (k : Knowledge α) (threshold : α) (words : List (WordModel α)) : List (Nat × Token α) :=
  (List.range words.length).filterMap fun w => do
    let word ← words[w]?
    let token ← word.leaving? k.transitions threshold
    some (w, token)

def limited (k : Knowledge α) (words : List (WordModel α)) : List (WordModel α) :=
  let live := (List.range words.length).filter fun w => Score.isLive (bestScore words w)
  let (_, dropped) := Engine.cap (bestScore words) k.params.maxActive live
  words.mapIdx fun w word => if w ∈ dropped then word.clear else word

def survive (k : Knowledge α) (best : α) (words : List (WordModel α)) : List (WordModel α) :=
  (limited k (words.map (WordModel.prune (best + k.params.beam)))).map
    (WordModel.cross k.transitions k.params.phonePenalty (best + k.params.phoneBeam))

def step (p : Plain α) (frame : Frame α) : Plain α :=
  let k := p.knowledge
  let stamp := p.frames + 1
  let (words, best) := move k frame p.words
  let words := survive k best words
  let exits := Engine.recordAll k stamp p.exits (leavingTokens k (best + k.params.wordBeam) words)
  let added := (List.range (exits.size - p.exits.size)).map (p.exits.size + ·)
  { p with words := added.foldl (offerAll k (best + k.params.beam) exits) words, exits, frames := stamp }

def advance (p : Plain α) (frame : Frame α) : Except Engine.Problem (Plain α) :=
  if p.phase ≠ .active then .error (.phase "advance" p.phase)
  else if frame.values.length ≠ p.knowledge.scorer.dimension then
    .error (.dimension frame.values.length p.knowledge.scorer.dimension)
  else .ok (p.step frame)

def finish (p : Plain α) : Except Engine.Problem (Plain α) :=
  if p.phase ≠ .active then .error (.phase "finish" p.phase)
  else
    let lattice := Lattice.ofExits p.knowledge p.exits p.frames
    let (hypothesis, segments) := lattice.best p.knowledge
    .ok { p with phase := .finalized, exits := #[], result := some ⟨hypothesis, segments, lattice⟩ }

def reset (p : Plain α) : Plain α := { p with phase := .idle, exits := #[], frames := 0, result := none }

def perform (p : Plain α) : Op α → Except Engine.Problem (Plain α)
  | .start => p.start
  | .advance frame => p.advance frame
  | .finish => p.finish
  | .reset => .ok p.reset

def after (p : Plain α) (ops : List (Op α)) : Plain α :=
  ops.foldl (fun p op => (p.perform op).toOption.getD p) p

def problem? (p : Plain α) (op : Op α) : Option Engine.Problem :=
  match p.perform op with
  | .error problem => some problem
  | .ok _ => none

def alternatives (p : Plain α) (wanted : Nat) : List (Alternative α) :=
  match p.result with
  | none => []
  | some r => r.lattice.alternatives p.knowledge wanted

def seen (p : Plain α) : Seen α := ⟨p.phase, p.exits, p.frames, p.result, p.alternatives⟩

end Plain

end SpeechDecoder.Search
