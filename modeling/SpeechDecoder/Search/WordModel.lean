import SpeechDecoder.Search.Token
import SpeechDecoder.Model.Transitions
import SpeechDecoder.Model.PhoneSet

/-! Words as chains of phone models. In a frame each state takes the best token from itself and the
states before it, and the first state of a phone also the token that waits at its entry. The states of
a phone are updated where they are, from the last to the first, so that no update is seen by another;
acoustic scores are asked for one after another, which lets whoever answers remember them. -/
namespace SpeechDecoder.Search

open Model (Transitions PhoneSet)

structure PhoneModel (α : Type) where
  matrix : Nat
  senones : List Nat
  states : List (Token α)
  entry : Token α
  deriving DecidableEq, Repr

namespace PhoneModel
variable {α : Type} [Score α]

def clear (p : PhoneModel α) : PhoneModel α :=
  { p with states := p.states.map fun _ => Token.dead, entry := Token.dead }

def make (phones : PhoneSet) (id : Nat) : PhoneModel α :=
  let states := List.replicate phones.states Token.dead
  match phones.phone? id with
  | some p => ⟨p.matrix, p.senones, states, Token.dead⟩
  | none => ⟨0, [], states, Token.dead⟩

def isLive (p : PhoneModel α) : Bool := p.states.any Token.isLive || p.entry.isLive

/-- The best of `best` and the live tokens that go from `states` to a target. -/
def arrival (t : Transitions α) (matrix target : Nat) (best : Token α) (sources : List Nat)
    (states : List (Token α)) : Token α :=
  sources.foldl (fun best source =>
    let held := states.getD source Token.dead
    if held.isLive then best.better (held.add (t.get matrix source target)) else best) best

def incoming (t : Transitions α) (p : PhoneModel α) (states : List (Token α)) (target : Nat) :
    Token α :=
  arrival t p.matrix target (if target = 0 then p.entry else Token.dead)
    (List.range (target + 1)) states

variable {σ : Type}

/-- Adds the acoustic score of a state to a live token. `best` is the best score so far. -/
def emit (ask : Nat → σ → α × σ) (p : PhoneModel α) (state : Nat) (token : Token α) (best : α)
    (memory : σ) : Token α × α × σ :=
  if token.isLive then
    let (x, memory) := ask (p.senones.getD state 0) memory
    let token := token.add x
    (token, Score.larger best token.score, memory)
  else (token, best, memory)

/-- Updates the first `count` states, the last of them first. -/
def sweep (t : Transitions α) (ask : Nat → σ → α × σ) (p : PhoneModel α) :
    (count : Nat) → List (Token α) → α → σ → List (Token α) × α × σ
  | 0, states, best, memory => (states, best, memory)
  | state + 1, states, best, memory =>
    let (token, best, memory) := emit ask p state (incoming t p states state) best memory
    sweep t ask p state (states.set state token) best memory

def advance (t : Transitions α) (ask : Nat → σ → α × σ) (p : PhoneModel α) (best : α)
    (memory : σ) : PhoneModel α × α × σ :=
  let (states, best, memory) := sweep t ask p p.states.length p.states best memory
  ({ p with states, entry := Token.dead }, best, memory)

def prune (threshold : α) (p : PhoneModel α) : PhoneModel α :=
  { p with states := p.states.map fun s => if Score.below s.score threshold then Token.dead else s }

def offer (token : Token α) (p : PhoneModel α) : PhoneModel α :=
  { p with entry := p.entry.better token }

def leaving (t : Transitions α) (p : PhoneModel α) : Token α :=
  arrival t p.matrix p.states.length Token.dead (List.range p.states.length) p.states

end PhoneModel

structure WordModel (α : Type) where
  phones : List (PhoneModel α)
  deriving DecidableEq, Repr

namespace WordModel
variable {α : Type} [Score α]

def make (phones : PhoneSet) (ids : List Nat) : WordModel α := ⟨ids.map (PhoneModel.make phones)⟩

def clear (w : WordModel α) : WordModel α := ⟨w.phones.map PhoneModel.clear⟩

def isLive (w : WordModel α) : Bool := w.phones.any PhoneModel.isLive

def bestScore (w : WordModel α) : α :=
  Score.largest ((w.phones.flatMap PhoneModel.states).map Token.score)

def entry (w : WordModel α) : Token α :=
  match w.phones with
  | [] => Token.dead
  | p :: _ => p.entry

def accepts (w : WordModel α) (token : Token α) : Bool := Score.below w.entry.score token.score

def offer (w : WordModel α) (token : Token α) : WordModel α :=
  match w.phones with
  | [] => w
  | p :: rest => ⟨p.offer token :: rest⟩

variable {σ : Type}

def advancePhones (t : Transitions α) (ask : Nat → σ → α × σ) :
    List (PhoneModel α) → α → σ → List (PhoneModel α) × α × σ
  | [], best, memory => ([], best, memory)
  | p :: rest, best, memory =>
    let (p, best, memory) := p.advance t ask best memory
    let (rest, best, memory) := advancePhones t ask rest best memory
    (p :: rest, best, memory)

def advance (t : Transitions α) (ask : Nat → σ → α × σ) (w : WordModel α) (memory : σ) :
    WordModel α × α × σ :=
  let (phones, best, memory) := advancePhones t ask w.phones Score.impossible memory
  (⟨phones⟩, best, memory)

def prune (threshold : α) (w : WordModel α) : WordModel α := ⟨w.phones.map (.prune threshold)⟩

def crossing? (t : Transitions α) (penalty threshold : α) (p : PhoneModel α) : Option (Token α) :=
  let token := p.leaving t
  let crossed := token.add penalty
  if token.isLive && Score.atMost threshold crossed.score then some crossed else none

def crossPhones (t : Transitions α) (penalty threshold : α) :
    Option (Token α) → List (PhoneModel α) → List (PhoneModel α)
  | _, [] => []
  | offered, p :: rest =>
    let entered := match offered with
      | some token => p.offer token
      | none => p
    entered :: crossPhones t penalty threshold (crossing? t penalty threshold p) rest

def cross (t : Transitions α) (penalty threshold : α) (w : WordModel α) : WordModel α :=
  ⟨crossPhones t penalty threshold none w.phones⟩

def leaving? (t : Transitions α) (threshold : α) (w : WordModel α) : Option (Token α) :=
  match w.phones.getLast? with
  | none => none
  | some p =>
    let token := p.leaving t
    if token.isLive && Score.atMost threshold token.score then some token else none

end WordModel

end SpeechDecoder.Search
