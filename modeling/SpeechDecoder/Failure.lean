/-! What can go wrong, by cause and lifecycle: a configuration or a model that cannot be used, a call
made out of order, a value that does not fit, and what the file system or an output reports. -/
namespace SpeechDecoder

inductive SystemError where
  | notFound
  | notDirectory
  | isDirectory
  | notText
  | full
  deriving DecidableEq, Repr

def SystemError.message : SystemError → String
  | .notFound => "No such file or directory (os error 2)"
  | .notDirectory => "Not a directory (os error 20)"
  | .isDirectory => "Is a directory (os error 21)"
  | .notText => "stream did not contain valid UTF-8"
  | .full => "sink is full"

inductive Fault where
  | divisionByZero
  | overflow
  | capacity
  deriving DecidableEq, Repr

inductive Failure where
  | unknownOption (key : String)
  | configuration (reason : String)
  | model (path reason : String)
  | outOfOrder (reason : String)
  | mismatch (reason : String)
  | system (error : SystemError)
  | content (reason : String)
  | fault (cause : Fault)
  deriving DecidableEq, Repr

namespace Failure

def message : Failure → String
  | .unknownOption key => s!"unknown configuration option '{key}'"
  | .configuration reason => s!"configuration error: {reason}"
  | .model path reason => s!"failed to load model file '{path}': {reason}"
  | .outOfOrder reason => s!"API called out of order: {reason}"
  | .mismatch reason => reason
  | .system error => error.message
  | .content reason => reason
  | .fault .divisionByZero => "attempt to divide by zero"
  | .fault .overflow => "attempt to compute a number that is no word"
  | .fault .capacity => "capacity overflow"

/-- Whether nothing can be built with what was given, as opposed to one call failing. -/
def isSetup : Failure → Bool
  | .unknownOption _ | .configuration _ | .model _ _ => true
  | _ => false

end Failure

abbrev Outcome (α : Type) := Except Failure α

/-- Counts and sizes are words of this many bits. -/
def wordBits : Nat := 64

def checkedWord (n : Nat) : Except Fault Nat :=
  if n < Nat.pow 2 wordBits then .ok n else .error .overflow

def checkedProduct (first : Nat) : List Nat → Except Fault Nat
  | [] => .ok first
  | n :: rest => do
    let product ← checkedWord (first * n)
    checkedProduct product rest

def checkedDiv (n d : Nat) : Except Fault Nat :=
  if d = 0 then .error .divisionByZero else .ok (n / d)

def checkedMod (n d : Nat) : Except Fault Nat :=
  if d = 0 then .error .divisionByZero else .ok (n % d)

/-- Room for values of so many bytes, which cannot be more than a signed word counts. -/
def checkedRoom (values bytes : Nat) : Except Fault Unit :=
  if values * bytes < Nat.pow 2 (wordBits - 1) then .ok () else .error .capacity

def orFault {α : Type} : Except Fault α → Outcome α
  | .ok a => .ok a
  | .error cause => .error (.fault cause)

end SpeechDecoder
