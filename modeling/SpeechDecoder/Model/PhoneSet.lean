import SpeechDecoder.Text.Numeral
import SpeechDecoder.Failure

/-! Model definitions: the phones with their transition matrix and a senone for each state. A file
lists the phones first and then phones in context, which are checked and counted but not kept. -/
namespace SpeechDecoder.Model

structure Phone where
  name : String
  filler : Bool
  matrix : Nat
  senones : List Nat
  deriving DecidableEq, Repr

structure PhoneSet where
  phones : List Phone
  triphones : Nat
  states : Nat
  senones : Nat
  matrices : Nat
  deriving DecidableEq, Repr

namespace PhoneSet

inductive Problem where
  | empty
  | version (found : String)
  | incompleteHeader
  | headerLine (line : String)
  | unknownHeader (line : String)
  | counts
  | stateMap
  | missingRows (expected found : Nat)
  | row (line : String)
  | fillerMark (mark line : String)
  | matrix (line : String)
  | matrixRange (id : Nat) (line : String)
  | senone (line : String)
  | senoneRange (id : Nat) (line : String)
  | exitMark (line : String)
  | context (line : String)
  | duplicate (name : String)
  | unknown (name line : String)
  | position (line : String)
  | fillerDiffers (line : String)
  | fault (cause : Fault)
  deriving DecidableEq, Repr

def formatVersion : String := "0.3"

def Problem.message : Problem → String
  | .empty => "empty model definition"
  | .version found => s!"expected version {formatVersion}, got '{found}'"
  | .incompleteHeader => "incomplete header"
  | .headerLine line => s!"bad header line '{line}'"
  | .unknownHeader line => s!"unknown header line '{line}'"
  | .counts => "inconsistent header counts"
  | .stateMap => "n_state_map is not a multiple of the phone count"
  | .missingRows expected found => s!"expected {expected} phone rows, found {found}"
  | .row line => s!"malformed phone row '{line}'"
  | .fillerMark mark line => s!"bad filler attribute '{mark}' in '{line}'"
  | .matrix line => s!"bad tmat id in '{line}'"
  | .matrixRange id line => s!"tmat id {id} out of range in '{line}'"
  | .senone line => s!"bad senone id in '{line}'"
  | .senoneRange id line => s!"senone id {id} out of range in '{line}'"
  | .exitMark line => s!"missing non-emitting state in '{line}'"
  | .context line => s!"bad context for base phone '{line}'"
  | .duplicate name => s!"duplicate base phone '{name}'"
  | .unknown name line => s!"unknown phone '{name}' in '{line}'"
  | .position line => s!"bad word position in '{line}'"
  | .fillerDiffers line => s!"filler attribute disagrees with base in '{line}'"
  | .fault cause => (Failure.fault cause).message

def Problem.failure (path : String) : Problem → Failure
  | .fault cause => .fault cause
  | p => .model path p.message

def orFault {α : Type} : Except Fault α → Except Problem α
  | .ok a => .ok a
  | .error cause => .error (.fault cause)

def id? (s : PhoneSet) (name : String) : Option Nat :=
  s.phones.findIdx? fun p => p.name == name

def phone? (s : PhoneSet) (id : Nat) : Option Phone := s.phones[id]?

structure Counts where
  phones : Option Nat := none
  triphones : Option Nat := none
  stateMap : Option Nat := none
  senones : Option Nat := none
  phoneSenones : Option Nat := none
  matrices : Option Nat := none

structure Header where
  phones : Nat
  triphones : Nat
  stateMap : Nat
  senones : Nat
  phoneSenones : Nat
  matrices : Nat
  deriving DecidableEq, Repr

def Counts.complete? (c : Counts) : Option Header := do
  let phones ← c.phones
  let triphones ← c.triphones
  let stateMap ← c.stateMap
  let senones ← c.senones
  let phoneSenones ← c.phoneSenones
  let matrices ← c.matrices
  some { phones, triphones, stateMap, senones, phoneSenones, matrices }

def Counts.set? (c : Counts) (n : Nat) : String → Option Counts
  | "n_base" => some { c with phones := some n }
  | "n_tri" => some { c with triphones := some n }
  | "n_state_map" => some { c with stateMap := some n }
  | "n_tied_state" => some { c with senones := some n }
  | "n_tied_ci_state" => some { c with phoneSenones := some n }
  | "n_tied_tmat" => some { c with matrices := some n }
  | _ => none

def Counts.read (c : Counts) (line : List Char) : Except Problem Counts :=
  match Text.fields line with
  | n :: tag :: _ =>
    match Text.natural? wordBits n with
    | none => .error (.headerLine (String.ofList line))
    | some n =>
      match c.set? n (String.ofList tag) with
      | none => .error (.unknownHeader (String.ofList line))
      | some c => .ok c
  | _ => .error (.headerLine (String.ofList line))

/-- Reads lines until every count is known; a count given again replaces the one before. -/
def readHeader (c : Counts) : List (List Char) → Except Problem (Header × List (List Char))
  | [] =>
    match c.complete? with
    | some h => .ok (h, [])
    | none => .error .incompleteHeader
  | line :: rest =>
    match c.complete? with
    | some h => .ok (h, line :: rest)
    | none =>
      match c.read line with
      | .ok c => readHeader c rest
      | .error p => .error p

/-- The number of states of a phone: a phone maps each of them, and the exit, to a senone. -/
def Header.states (h : Header) : Except Problem Nat := do
  if h.phones = 0 ∨ h.phoneSenones = 0 ∨ h.matrices = 0 ∨ h.senones < h.phoneSenones then
    .error .counts
  let rows ← orFault (checkedWord (h.phones + h.triphones))
  let rest ← orFault (checkedMod h.stateMap rows)
  let mapped ← orFault (checkedDiv h.stateMap rows)
  if rest ≠ 0 ∨ mapped < 2 then .error .stateMap
  .ok (mapped - 1)

structure Row where
  name : String
  left : String
  right : String
  position : String
  filler : Bool
  matrix : Nat
  senones : List Nat
  deriving DecidableEq, Repr

def readSenones (line : String) (limit : Nat) : List (List Char) → Except Problem (List Nat)
  | [] => .ok []
  | s :: rest =>
    match Text.natural? wordBits s with
    | none => .error (.senone line)
    | some id =>
      if limit ≤ id then .error (.senoneRange id line)
      else do
        let ids ← readSenones line limit rest
        .ok (id :: ids)

def readFiller (line mark : String) : Except Problem Bool :=
  match mark with
  | "filler" => .ok true
  | "n/a" => .ok false
  | mark => .error (.fillerMark mark line)

def readMatrix (line : String) (matrices : Nat) (s : List Char) : Except Problem Nat :=
  match Text.natural? wordBits s with
  | none => .error (.matrix line)
  | some id => if matrices ≤ id then .error (.matrixRange id line) else .ok id

def readRow (states matrices limit : Nat) (line : List Char) : Except Problem Row := do
  let text := String.ofList line
  let width ← orFault (checkedWord (6 + states + 1))
  let fields := Text.fields line
  if fields.length ≠ width then .error (.row text)
  match fields with
  | name :: left :: right :: position :: mark :: matrix :: rest => do
    let filler ← readFiller text (String.ofList mark)
    let matrix ← readMatrix text matrices matrix
    let senones ← readSenones text limit (rest.take states)
    if rest.drop states ≠ [['N']] then .error (.exitMark text)
    .ok {
      name := String.ofList name, left := String.ofList left, right := String.ofList right,
      position := String.ofList position, filler, matrix, senones }
  | _ => .error (.row text)

/-- Adds a phone, which stands in no context and has a name of its own. -/
def addPhone (s : PhoneSet) (line : String) (r : Row) : Except Problem PhoneSet :=
  if r.left ≠ "-" ∨ r.right ≠ "-" ∨ r.position ≠ "-" then .error (.context line)
  else if (s.id? r.name).isSome then .error (.duplicate r.name)
  else .ok { s with phones := s.phones ++ [⟨r.name, r.filler, r.matrix, r.senones⟩] }

def lookup (s : PhoneSet) (line name : String) : Except Problem Phone :=
  match s.phones.find? fun p => p.name == name with
  | some p => .ok p
  | none => .error (.unknown name line)

def addTriphone (s : PhoneSet) (line : String) (r : Row) : Except Problem PhoneSet := do
  let base ← s.lookup line r.name
  let _ ← s.lookup line r.left
  let _ ← s.lookup line r.right
  if r.position ∉ ["b", "e", "s", "i"] then .error (.position line)
  if base.filler ≠ r.filler then .error (.fillerDiffers line)
  .ok { s with triphones := s.triphones + 1 }

/-- Reads `left` more rows, of which `done` were read. -/
def readRows (h : Header) (s : PhoneSet) :
    (done left : Nat) → List (List Char) → Except Problem PhoneSet
  | _, 0, _ => .ok s
  | done, _ + 1, [] => .error (.missingRows (h.phones + h.triphones) done)
  | done, left + 1, line :: rest => do
    let isPhone := done < h.phones
    let limit := if isPhone then h.phoneSenones else h.senones
    let r ← readRow s.states h.matrices limit line
    let text := String.ofList line
    let s ← if isPhone then s.addPhone text r else s.addTriphone text r
    readRows h s (done + 1) left rest

/-- The room of a phone, which is reserved for all phones before the first is read. -/
def phoneBytes : Nat := 64

def contentLines (text : List Char) : List (List Char) :=
  ((Text.lines text).map Text.trim).filter fun l => !l.isEmpty && l.head? != some '#'

def ofLines : List (List Char) → Except Problem PhoneSet
  | [] => .error .empty
  | first :: rest => do
    if (Text.after? formatVersion.toList first).isNone then .error (.version (String.ofList first))
    let (h, rest) ← readHeader {} rest
    let states ← h.states
    orFault (checkedRoom h.phones phoneBytes)
    let s : PhoneSet :=
      { phones := [], triphones := 0, states, senones := h.senones, matrices := h.matrices }
    readRows h s 0 (h.phones + h.triphones) rest

def ofText (text : String) : Except Problem PhoneSet := ofLines (contentLines text.toList)

end PhoneSet

end SpeechDecoder.Model
