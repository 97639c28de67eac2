import SpeechDecoder.Config.Schema
import SpeechDecoder.Failure

/-! A configuration. What the caller set stands above what a model's parameter file gave, and that
above the defaults; in each layer the last word counts. An option that the caller set keeps its value
whatever a parameter file says. -/
namespace SpeechDecoder
open Config (Kind Value Entry)

/-- The layers of a configuration, latest first: what the caller set and what a model's parameter
file gave. -/
structure Config where
  chosen : List (String × Value) := []
  supplied : List (String × Value) := []

namespace Config

inductive Problem where
  | unknown (key : String)
  | noValue (key : String)
  | unreadable (name : String) (kind : Kind) (text : String)
  | unreadableParameter (name : String) (kind : Kind) (text : String)
  | cannotSet (name : String) (holds given : Kind)
  | cannotRead (key : String) (holds wanted : Kind)
  | unset (key : String)
  deriving DecidableEq, Repr

def Problem.failure : Problem → Failure
  | .unknown key => .unknownOption key
  | .noValue key => .configuration s!"option '{key}' is missing a value"
  | .unreadable name kind text =>
    let expected := kind.describe
    .configuration s!"option '-{name}' expects {expected}, got '{text}'"
  | .unreadableParameter name kind text =>
    let expected := kind.describe
    .configuration s!"feat.params option '-{name}' expects {expected}, got '{text}'"
  | .cannotSet name holds given =>
    let held := holds.describe
    let offered := given.describe
    .configuration s!"option '-{name}' holds {held}, cannot set it to {offered}"
  | .cannotRead key holds wanted =>
    let held := holds.describe
    let asked := wanted.describe
    .configuration s!"option '{key}' holds {held}, not {asked}"
  | .unset key => .configuration s!"option '{key}' has no value"

def initial : Config := {}

def entry (key : String) : Except Problem Entry :=
  match lookup? key with
  | some e => .ok e
  | none => .error (.unknown key)

def valueOf? (c : Config) (e : Entry) : Option Value :=
  (c.chosen.lookup e.name).or ((c.supplied.lookup e.name).or e.initial?)

def isChosen (c : Config) (name : String) : Bool := (c.chosen.lookup name).isSome

def isExplicit (c : Config) (key : String) : Bool :=
  match lookup? key with
  | some e => c.isChosen e.name
  | none => false

def choose (c : Config) (e : Entry) (v : Value) : Config :=
  { c with chosen := (e.name, v) :: c.chosen }

def setText (c : Config) (key text : String) : Except Problem Config := do
  let e ← entry key
  match Value.read? e.kind text with
  | some v => .ok (c.choose e v)
  | none => .error (.unreadable e.name e.kind text)

/-- Sets an integer; an option that holds a number takes it as one. -/
def setInteger (c : Config) (key : String) (n : Int) : Except Problem Config := do
  let e ← entry key
  match e.kind with
  | .integer => .ok (c.choose e (.integer n))
  | .number => .ok (c.choose e (.number (Binary.ofInteger n)))
  | holds => .error (.cannotSet e.name holds .integer)

def setNumber (c : Config) (key : String) (x : Float) : Except Problem Config := do
  let e ← entry key
  if e.kind = .number then .ok (c.choose e (.number x))
  else .error (.cannotSet e.name e.kind .number)

def setFlag (c : Config) (key : String) (b : Bool) : Except Problem Config := do
  let e ← entry key
  if e.kind = .flag then .ok (c.choose e (.flag b))
  else .error (.cannotSet e.name e.kind .flag)

def setAll (c : Config) : List String → Except Problem Config
  | [] => .ok c
  | [key] => .error (.noValue key)
  | key :: text :: rest => do
    let c ← c.setText key text
    c.setAll rest

def ofArguments (arguments : List String) : Except Problem Config := initial.setAll arguments

def get (c : Config) (key : String) : Except Problem (Option Value) :=
  (entry key).map c.valueOf?

def getText (c : Config) (key : String) : Except Problem (Option String) := do
  match ← c.get key with
  | none => .ok none
  | some (.text s) => .ok (some s)
  | some v => .error (.cannotRead key v.kind .text)

def getInteger (c : Config) (key : String) : Except Problem Int := do
  match ← c.get key with
  | some (.integer n) => .ok n
  | some v => .error (.cannotRead key v.kind .integer)
  | none => .error (.unset key)

def getNumber (c : Config) (key : String) : Except Problem Float := do
  match ← c.get key with
  | some (.number x) => .ok x
  | some (.integer n) => .ok (Binary.ofInteger n)
  | some v => .error (.cannotRead key v.kind .number)
  | none => .error (.unset key)

def getFlag (c : Config) (key : String) : Except Problem Bool := do
  match ← c.get key with
  | some (.flag b) => .ok b
  | some v => .error (.cannotRead key v.kind .flag)
  | none => .error (.unset key)

/-- The options that have a value, by name. -/
def listing (c : Config) : List (String × Value) :=
  (schema.mergeSort fun a b => a.name ≤ b.name).filterMap fun e =>
    (c.valueOf? e).map fun v => (e.name, v)

/-- One line of a parameter file: a key and a value, and whatever follows them. Lines with fewer
fields, unknown keys and options that the caller set are passed over. -/
def supplyLine (c : Config) (line : List Char) : Except Problem Config :=
  match Text.fields line with
  | key :: text :: _ =>
    match lookup? (String.ofList key) with
    | none => .ok c
    | some e =>
      if c.isChosen e.name then .ok c
      else
        match Value.read? e.kind (String.ofList text) with
        | some v => .ok { c with supplied := (e.name, v) :: c.supplied }
        | none => .error (.unreadableParameter e.name e.kind (String.ofList text))
  | _ => .ok c

def supplyLines (c : Config) : List (List Char) → Except Problem Config
  | [] => .ok c
  | line :: rest => do
    let c ← c.supplyLine line
    c.supplyLines rest

def supply (c : Config) (text : String) : Except Problem Config :=
  c.supplyLines (Text.lines text.toList)

def orFail {α : Type} : Except Problem α → Outcome α
  | .ok a => .ok a
  | .error p => .error p.failure

end Config

end SpeechDecoder
