import SpeechDecoder.CommandLine.Verbosity
import SpeechDecoder.Report.Encoder
import SpeechDecoder.Text.Numeral

/-! Arguments of the command. Options stand in any order between the inputs; `--` ends them. A long
option takes its value behind `=` or as the next argument, a short one right behind it, behind `=`, or
as the next argument; flags of one letter may be written together. A value that is an argument of its
own must not begin with `-`, except `-` itself. -/
namespace SpeechDecoder.CommandLine

inductive Key where
  | model
  | dictionary
  | language
  | fillers
  | setting
  | format
  | jobs
  | alternatives
  | raw
  | segment
  | verbose
  deriving DecidableEq, Repr

namespace Key

def ofName? : String → Option Key
  | "hmm" => some .model
  | "dict" => some .dictionary
  | "lm" => some .language
  | "fdict" => some .fillers
  | "option" => some .setting
  | "output-type" => some .format
  | "jobs" => some .jobs
  | "nbest" => some .alternatives
  | "raw" => some .raw
  | "segment" => some .segment
  | "verbose" => some .verbose
  | _ => none

def ofLetter? : Char → Option Key
  | 'O' => some .setting
  | 'o' => some .format
  | 'j' => some .jobs
  | 'n' => some .alternatives
  | 'v' => some .verbose
  | _ => none

def takesValue : Key → Bool
  | .raw | .segment | .verbose => false
  | _ => true

end Key

inductive Item where
  | input (name : String)
  | option (key : Key) (value : String)
  | flag (key : Key)
  deriving DecidableEq, Repr

def isValue (arg : List Char) : Bool := arg.head? != some '-' || arg == ['-']

/-- The flags of a cluster of letters, and the option at its end with its value if it is attached. -/
def readLetters : List Char → Option (List Item × Option (Key × Option String))
  | [] => some ([], none)
  | c :: rest => do
    let key ← Key.ofLetter? c
    if key.takesValue then
      match rest with
      | [] => some ([], some (key, none))
      | '=' :: value => some ([], some (key, some (String.ofList value)))
      | value => some ([], some (key, some (String.ofList value)))
    else
      let (items, last) ← readLetters rest
      some (.flag key :: items, last)

/-- What an argument that begins with `-` says: items, and an option that waits for its value. -/
def readDashed (arg : List Char) : Option (List Item × Option Key) :=
  match arg with
  | '-' :: '-' :: long =>
    match Text.cut? '=' long with
    | some (name, value) => do
      let key ← Key.ofName? (String.ofList name)
      if key.takesValue then some ([.option key (String.ofList value)], none) else none
    | none => do
      let key ← Key.ofName? (String.ofList long)
      if key.takesValue then some ([], some key) else some ([.flag key], none)
  | _ :: letters => do
    match ← readLetters letters with
    | (items, none) => some (items, none)
    | (items, some (key, none)) => some (items, some key)
    | (items, some (key, some value)) => some (items ++ [.option key value], none)
  | [] => none

/-- Reads arguments; `waiting` is the option whose value is the next one. -/
def readItems : (waiting : Option Key) → List (List Char) → Option (List Item)
  | some _, [] => none
  | none, [] => some []
  | some key, arg :: rest => do
    if !isValue arg then none
    let items ← readItems none rest
    some (.option key (String.ofList arg) :: items)
  | none, arg :: rest => do
    if arg = ['-', '-'] then some (rest.map fun a => .input (String.ofList a))
    else if isValue arg then
      let items ← readItems none rest
      some (.input (String.ofList arg) :: items)
    else
      let (items, waiting) ← readDashed arg
      let more ← readItems waiting rest
      some (items ++ more)

structure Arguments where
  model : String
  dictionary : String
  language : String
  fillers : Option String
  settings : List String
  format : Report.Format
  /-- How many inputs may be decoded at once; what is reported does not depend on it. -/
  jobs : Option Nat
  alternatives : Nat
  raw : Bool
  segment : Bool
  level : Level
  inputs : List String
  deriving DecidableEq, Repr

namespace Items

def inputs (items : List Item) : List String :=
  items.filterMap fun
    | .input name => some name
    | _ => none

def values (key : Key) (items : List Item) : List String :=
  items.filterMap fun
    | .option k value => if k = key then some value else none
    | _ => none

def count (key : Key) (items : List Item) : Nat := items.countP (· = .flag key)

def single (key : Key) (items : List Item) : Option (Option String) :=
  match values key items with
  | [] => some none
  | [value] => some (some value)
  | _ => none

def path (key : Key) (items : List Item) : Option (Option String) := do
  match ← single key items with
  | none => some none
  | some value => if value.isEmpty then none else some (some value)

def number (key : Key) (items : List Item) : Option (Option Nat) := do
  match ← single key items with
  | none => some none
  | some value =>
    let n ← Text.natural? wordBits value.toList
    some (some n)

def formatOf : String → Option Report.Format
  | "json" => some .json
  | "ctm" => some .ctm
  | "hyp" => some .hyp
  | _ => none

def format (items : List Item) : Option Report.Format := do
  match ← single .format items with
  | none => some .hyp
  | some name => formatOf name

def flag (key : Key) (items : List Item) : Option Bool :=
  match count key items with
  | 0 => some false
  | 1 => some true
  | _ => none

end Items

/-- The arguments that items stand for, unless something is missing, given twice or of a wrong form. -/
def Arguments.ofItems (items : List Item) : Option Arguments := do
  let model ← Items.path .model items
  let dictionary ← Items.path .dictionary items
  let language ← Items.path .language items
  let fillers ← Items.path .fillers items
  let format ← Items.format items
  let jobs ← Items.number .jobs items
  let alternatives ← Items.number .alternatives items
  let raw ← Items.flag .raw items
  let segment ← Items.flag .segment items
  let inputs := Items.inputs items
  if inputs.isEmpty || inputs.any String.isEmpty then none
  some {
    model := ← model, dictionary := ← dictionary, language := ← language, fillers,
    settings := Items.values .setting items, format, jobs, alternatives := alternatives.getD 0, raw,
    segment, level := .ofCount (Items.count .verbose items), inputs }

def Arguments.read? (args : List String) : Option Arguments := do
  let items ← readItems none (args.map String.toList)
  Arguments.ofItems items

end SpeechDecoder.CommandLine
