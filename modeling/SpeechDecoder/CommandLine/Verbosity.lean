/-! How much is logged. -/
namespace SpeechDecoder.CommandLine

inductive Level where
  | error
  | warn
  | info
  | debug
  | trace
  deriving DecidableEq, Repr

def Level.ofCount : Nat → Level
  | 0 => .error
  | 1 => .warn
  | 2 => .info
  | 3 => .debug
  | _ => .trace

def Level.name : Level → String
  | .error => "error"
  | .warn => "warn"
  | .info => "info"
  | .debug => "debug"
  | .trace => "trace"

end SpeechDecoder.CommandLine
