import SpeechDecoder.Failure
import SpeechDecoder.Text.Blank
import SpeechDecoder.Text.Utf8

/-! Files by name, as a program sees them from its working directory. A name is read component by
component; what it passes through must be a directory. -/
namespace SpeechDecoder

inductive FileNode where
  | file (bytes : List UInt8)
  | directory
  deriving DecidableEq, Repr

structure FileTree where
  nodes : List (List String × FileNode) := []
  deriving Repr

namespace FileTree

/-- The components of a name; empty ones and `.` stand for nothing, and an absolute name begins with
the component `/`. -/
def components (name : String) : List String :=
  let parts := ((name.toList.splitOn '/').map String.ofList).filter fun c => c != "" && c != "."
  if name.toList.head? = some '/' then "/" :: parts else parts

def asksDirectory (name : String) : Bool :=
  match (name.toList.splitOn '/').getLast? with
  | some last => last.isEmpty || last == ['.'] || last == ['.', '.']
  | none => false

/-- Whether a place lies on the way up from the working directory, or is the root of all. -/
def isAbove (place : List String) : Bool := place.all (· == "..") || place == ["/"]

def parent (place : List String) : List String :=
  if place == ["/"] then place
  else if isAbove place then place ++ [".."]
  else place.dropLast

def enter (place : List String) (c : String) : List String :=
  if c = ".." then parent place else place ++ [c]

/-- The place that a name stands for when everything on the way is a directory. -/
def placeOf (name : String) : List String := (components name).foldl enter []

/-- What stands at a place; parents of what was put in are directories. -/
def at? (t : FileTree) (place : List String) : Option FileNode :=
  if isAbove place then some .directory
  else
    match t.nodes.lookup place with
    | some node => some node
    | none => if t.nodes.any fun (p, _) => place.isPrefixOf p then some .directory else none

def add (t : FileTree) (name : String) (bytes : List UInt8) : FileTree :=
  let place := placeOf name
  if asksDirectory name then ⟨(place, .directory) :: t.nodes⟩
  else ⟨(place, .file bytes) :: t.nodes⟩

def walk (t : FileTree) (place : List String) :
    List String → Except SystemError (List String × FileNode)
  | [] =>
    match t.at? place with
    | some node => .ok (place, node)
    | none => .error .notFound
  | c :: rest =>
    match t.at? place with
    | none => .error .notFound
    | some (.file _) => .error .notDirectory
    | some .directory => t.walk (enter place c) rest

def find (t : FileTree) (name : String) : Except SystemError FileNode :=
  if name.isEmpty then .error .notFound
  else
    match t.walk [] (components name) with
    | .error e => .error e
    | .ok (_, node) =>
      match node, asksDirectory name with
      | .file _, true => .error .notDirectory
      | node, _ => .ok node

def isFile (t : FileTree) (name : String) : Bool :=
  match t.find name with
  | .ok (.file _) => true
  | _ => false

def isDirectory (t : FileTree) (name : String) : Bool :=
  match t.find name with
  | .ok .directory => true
  | _ => false

def read (t : FileTree) (name : String) : Except SystemError (List UInt8) :=
  match t.find name with
  | .ok (.file bytes) => .ok bytes
  | .ok .directory => .error .isDirectory
  | .error e => .error e

def readText (t : FileTree) (name : String) : Except SystemError String := do
  let bytes ← t.read name
  match Text.Utf8.decode? bytes with
  | some s => .ok (String.ofList s)
  | none => .error .notText

/-- A name inside a directory; an absolute name stands for itself. -/
def join (directory name : String) : String :=
  if name.toList.head? = some '/' then name
  else if directory.isEmpty ∨ directory.toList.getLast? = some '/' then directory ++ name
  else directory ++ "/" ++ name

/-- The last component of a name, unless it leads upwards or there is none. -/
def lastComponent? (name : String) : Option String :=
  match (components name).getLast? with
  | none => none
  | some c => if c = ".." ∨ c = "/" then none else some c

/-- A file's name without its directories and without what follows its last point, which must not be
the first character. -/
def stem (name : String) : String :=
  match lastComponent? name with
  | none => name
  | some last =>
    match Text.cut? '.' last.toList.reverse with
    | none => last
    | some (_, before) => if before.isEmpty then last else String.ofList before.reverse

end FileTree

end SpeechDecoder
