/-! Blanks, fields and lines of a text. A blank is a character of the Unicode property White_Space;
a field is a longest run of other characters; a line ends at a line feed, and one carriage return
before that line feed belongs to the end of the line. -/
namespace SpeechDecoder.Text

def isBlank (c : Char) : Bool :=
  let n := c.toNat
  (0x9 ≤ n && n ≤ 0xD) || n == 0x20 || n == 0x85 || n == 0xA0 || n == 0x1680 ||
    (0x2000 ≤ n && n ≤ 0x200A) || n == 0x2028 || n == 0x2029 || n == 0x202F || n == 0x205F ||
    n == 0x3000

def trim (s : List Char) : List Char :=
  ((s.dropWhile isBlank).reverse.dropWhile isBlank).reverse

/-- The fields of a text, with `open_` the reversed beginning of the field being read. -/
def fieldsFrom (open_ : List Char) : List Char → List (List Char)
  | [] => if open_.isEmpty then [] else [open_.reverse]
  | c :: rest =>
    if isBlank c then
      if open_.isEmpty then fieldsFrom [] rest else open_.reverse :: fieldsFrom [] rest
    else fieldsFrom (c :: open_) rest

def fields (s : List Char) : List (List Char) := fieldsFrom [] s

def dropReturn : List Char → List Char
  | '\r' :: rest => rest
  | s => s

/-- The lines of a text, with `open_` the reversed beginning of the line being read. -/
def linesFrom (open_ : List Char) : List Char → List (List Char)
  | [] => if open_.isEmpty then [] else [open_.reverse]
  | c :: rest =>
    if c = '\n' then (dropReturn open_).reverse :: linesFrom [] rest
    else linesFrom (c :: open_) rest

def lines (s : List Char) : List (List Char) := linesFrom [] s

def after? : (mark s : List Char) → Option (List Char)
  | [], s => some s
  | _ :: _, [] => none
  | m :: mark, c :: s => if m = c then after? mark s else none

def before? (mark s : List Char) : Option (List Char) :=
  (after? mark.reverse s.reverse).map List.reverse

def cut? (c : Char) : List Char → Option (List Char × List Char)
  | [] => none
  | d :: s => if d = c then some ([], s) else (cut? c s).map fun (l, r) => (d :: l, r)

def lower (c : Char) : Char := if 'A' ≤ c ∧ c ≤ 'Z' then Char.ofNat (c.toNat + 32) else c

example : lines "a\r\nb\rc\r".toList = ["a".toList, "b\rc\r".toList] := by decide
example : fields " ab\tc ".toList = ["ab".toList, "c".toList] := by decide

end SpeechDecoder.Text
