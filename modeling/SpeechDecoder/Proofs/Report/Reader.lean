import SpeechDecoder.Proofs.Report.Numbers

/-! Reading a text of JSON, as a machine that takes one character after another. Its state is how far a token has been
read and what is open around it. Numbers are kept as they are written. Truth values are not read: no report has one.
What is rendered is read back, also with blanks after its commas. -/
namespace SpeechDecoder.Report.Json

inductive Token where
  | openList
  | closeList
  | openObject
  | closeObject
  | comma
  | colon
  | text (s : List Char)
  | number (w : List Char)
  | null

/-- What is open around a value, the latest items first. -/
inductive Frame where
  | list (items : List Json)
  | object (fields : List (List Char × Json))
  | field (fields : List (List Char × Json)) (name : List Char)

inductive Expected where
  | value (mayEnd : Bool)
  | name (mayEnd : Bool)
  | colon
  | more (value : Json)

structure Tree where
  frames : List Frame
  next : Expected

namespace Tree

def begin (frames : List Frame) (mayEnd : Bool) : Token → Option Tree
  | .null => some ⟨frames, .more .null⟩
  | .number w => some ⟨frames, .more (.number w)⟩
  | .text s => some ⟨frames, .more (.text s)⟩
  | .openList => some ⟨.list [] :: frames, .value true⟩
  | .openObject => some ⟨.object [] :: frames, .name true⟩
  | .closeList =>
    match mayEnd, frames with
    | true, .list _ :: frames => some ⟨frames, .more (.list [])⟩
    | _, _ => none
  | _ => none

def named (frames : List Frame) (mayEnd : Bool) : Token → Option Tree
  | .text s =>
    match frames with
    | .object fields :: frames => some ⟨.field fields s :: frames, .colon⟩
    | _ => none
  | .closeObject =>
    match mayEnd, frames with
    | true, .object _ :: frames => some ⟨frames, .more (.object [])⟩
    | _, _ => none
  | _ => none

def goOn (value : Json) : List Frame → Token → Option Tree
  | .list items :: frames, .comma => some ⟨.list (value :: items) :: frames, .value false⟩
  | .list items :: frames, .closeList => some ⟨frames, .more (.list (value :: items).reverse)⟩
  | .field fields name :: frames, .comma => some ⟨.object ((name, value) :: fields) :: frames, .name false⟩
  | .field fields name :: frames, .closeObject => some ⟨frames, .more (.object ((name, value) :: fields).reverse)⟩
  | _, _ => none

def take (tree : Tree) (token : Token) : Option Tree :=
  match tree.next with
  | .value mayEnd => begin tree.frames mayEnd token
  | .name mayEnd => named tree.frames mayEnd token
  | .more value => goOn value tree.frames token
  | .colon =>
    match token with
    | .colon => some ⟨tree.frames, .value false⟩
    | _ => none

def value? : Tree → Option Json
  | ⟨[], .more value⟩ => some value
  | _ => none

end Tree

/-- How far a token has been read, its latest characters first. A character above the first plane is written as two
codes, of which `high` is the first. -/
inductive Mode where
  | between
  | word (read : List Char)
  | text (read : List Char)
  | escape (read : List Char)
  | code (read : List Char) (high : Option Nat) (left value : Nat)
  | half (read : List Char) (high : Nat)
  | halfEscape (read : List Char) (high : Nat)

structure Reading where
  mode : Mode
  tree : Tree

def isSpace (c : Char) : Bool := c == ' ' || c == '\t' || c == '\n' || c == '\r'

def mark? (c : Char) : Option Token :=
  if c = '[' then some .openList
  else if c = ']' then some .closeList
  else if c.toNat = 0x7B then some .openObject
  else if c.toNat = 0x7D then some .closeObject
  else if c = ',' then some .comma
  else if c = ':' then some .colon
  else none

def word? (w : List Char) : Option Token :=
  if w = ['n', 'u', 'l', 'l'] then some .null else if isNumber w then some (.number w) else none

def escaped? (c : Char) : Option Char :=
  if c = '"' ∨ c = '\\' ∨ c = '/' then some c
  else if c = 'n' then some '\n'
  else if c = 'r' then some '\r'
  else if c = 't' then some '\t'
  else if c = 'b' then some (Char.ofNat 8)
  else if c = 'f' then some (Char.ofNat 12)
  else none

def hexValue? (c : Char) : Option Nat :=
  if c.isDigit then some (c.toNat - '0'.toNat)
  else if 'a' ≤ c ∧ c ≤ 'f' then some (c.toNat - 'a'.toNat + 10)
  else if 'A' ≤ c ∧ c ≤ 'F' then some (c.toNat - 'A'.toNat + 10)
  else none

def coded (read : List Char) : Option Nat → Nat → Option Mode
  | none, n =>
    if 0xD800 ≤ n ∧ n ≤ 0xDBFF then some (.half read n)
    else if 0xDC00 ≤ n ∧ n ≤ 0xDFFF then none
    else some (.text (Char.ofNat n :: read))
  | some high, n =>
    if 0xDC00 ≤ n ∧ n ≤ 0xDFFF then
      some (.text (Char.ofNat (0x10000 + (high - 0xD800) * 0x400 + (n - 0xDC00)) :: read))
    else none

namespace Reading

def begin (tree : Tree) (c : Char) : Option Reading :=
  if isSpace c then some ⟨.between, tree⟩
  else if c = '"' then some ⟨.text [], tree⟩
  else
    match mark? c with
    | some token => (tree.take token).map (⟨.between, ·⟩)
    | none => some ⟨.word [c], tree⟩

def endsWord (c : Char) : Bool := isSpace c || c == '"' || (mark? c).isSome

/-- What has been read when the text ends here. -/
def close? (r : Reading) : Option Tree :=
  match r.mode with
  | .between => some r.tree
  | .word read => (word? read.reverse).bind r.tree.take
  | _ => none

def step (r : Reading) (c : Char) : Option Reading :=
  match r.mode with
  | .between => begin r.tree c
  | .word read => if endsWord c then r.close?.bind (begin · c) else some { r with mode := .word (c :: read) }
  | .text read =>
    if c = '"' then (r.tree.take (.text read.reverse)).map (⟨.between, ·⟩)
    else if c = '\\' then some { r with mode := .escape read }
    else if c.toNat < 32 then none
    else some { r with mode := .text (c :: read) }
  | .escape read =>
    if c = 'u' then some { r with mode := .code read none 4 0 }
    else (escaped? c).map fun d => { r with mode := .text (d :: read) }
  | .code read high left value =>
    (hexValue? c).bind fun d =>
      if left ≤ 1 then (coded read high (value * 16 + d)).map fun mode => { r with mode }
      else some { r with mode := .code read high (left - 1) (value * 16 + d) }
  | .half read high => if c = '\\' then some { r with mode := .halfEscape read high } else none
  | .halfEscape read high => if c = 'u' then some { r with mode := .code read (some high) 4 0 } else none

end Reading

/-- The value of a whole text. -/
def read? (s : List Char) : Option Json := do
  let r ← s.foldlM Reading.step ⟨.between, [], .value false⟩
  let tree ← r.close?
  tree.value?

namespace Reading

/-! ### Tokens -/

theorem spaceMark {c : Char} (space : isSpace c = true) : mark? c = none := by
  simp only [isSpace, Bool.or_eq_true, beq_iff_eq] at space
  rcases space with ((rfl | rfl) | rfl) | rfl
  all_goals rfl

theorem closedMark {r : Reading} {tree next : Tree} (closed : r.close? = some tree) {c : Char} {token : Token}
    (mark : mark? c = some token) (taken : tree.take token = some next) : r.step c = some ⟨.between, next⟩ := by
  have space : isSpace c = false := Bool.eq_false_iff.mpr fun space => by
    rw [spaceMark space] at mark
    cases mark
  have other : c ≠ '"' := by
    rintro rfl
    cases mark
  have begun : begin tree c = some ⟨.between, next⟩ := by simp [begin, space, other, mark, taken]
  obtain ⟨mode, tree'⟩ := r
  cases mode with
  | between =>
    cases closed
    exact begun
  | word read => simp [step, endsWord, mark, closed, begun]
  | _ => cases closed

theorem closedSpace {r : Reading} {tree : Tree} (closed : r.close? = some tree) {c : Char}
    (space : isSpace c = true) : r.step c = some ⟨.between, tree⟩ := by
  have begun : begin tree c = some ⟨.between, tree⟩ := by simp [begin, space]
  obtain ⟨mode, tree'⟩ := r
  cases mode with
  | between =>
    cases closed
    exact begun
  | word read => simp [step, endsWord, space, closed, begun]
  | _ => cases closed

theorem closedSpaces (tree : Tree) {gap : List Char} (spaces : ∀ c ∈ gap, isSpace c = true) :
    gap.foldlM step ⟨.between, tree⟩ = some ⟨.between, tree⟩ := by
  induction gap with
  | nil => rfl
  | cons c gap ih =>
    have first : step ⟨.between, tree⟩ c = some ⟨.between, tree⟩ :=
      closedSpace rfl (spaces c List.mem_cons_self)
    rw [List.foldlM_cons, first]
    exact ih fun d mem => spaces d (List.mem_cons_of_mem c mem)

theorem endCode {c : Char} (ends : endsWord c = true) :
    c.toNat ∈ [32, 9, 10, 13, 34, 91, 93, 123, 125, 44, 58] := by
  simp only [endsWord, isSpace, Bool.or_eq_true, beq_iff_eq] at ends
  rcases ends with (((((rfl | rfl) | rfl) | rfl) | rfl) | mark)
  iterate 5 decide
  unfold mark? at mark
  iterate 2
    split at mark
    · subst c
      decide
  iterate 2
    split at mark
    · simp [*]
  iterate 2
    split at mark
    · subst c
      decide
  cases mark

theorem partWord {c : Char} (part : Numeral.isPart c = true) : endsWord c = false := by
  have code : c.toNat ∈ [45, 43, 46, 101, 69] ∨ 48 ≤ c.toNat ∧ c.toNat ≤ 57 := by
    simp only [Numeral.isPart, Bool.or_eq_true, beq_iff_eq] at part
    rcases part with ((((digit | rfl) | rfl) | rfl) | rfl) | rfl
    · simp only [Char.isDigit, Bool.and_eq_true, decide_eq_true_eq] at digit
      exact .inr digit
    iterate 5 decide
  refine Bool.eq_false_iff.mpr fun ends => ?_
  have other := endCode ends
  simp only [List.mem_cons, List.not_mem_nil, or_false] at code other
  omega

theorem wordRead {w : List Char} (parts : ∀ c ∈ w, Numeral.isPart c = true) (tree : Tree) (before : List Char) :
    w.foldlM step ⟨.word before, tree⟩ = some ⟨.word (w.reverse ++ before), tree⟩ := by
  induction w generalizing before with
  | nil => rfl
  | cons c w ih =>
    have within := partWord (parts c List.mem_cons_self)
    have first : step ⟨.word before, tree⟩ c = some ⟨.word (c :: before), tree⟩ := by simp [step, within]
    rw [List.foldlM_cons, first]
    have later := ih (fun d mem => parts d (List.mem_cons_of_mem c mem)) (c :: before)
    simpa using later

theorem hexRead : ∀ n < 32, hexValue? (Nat.digitChar (n / 16)) = some (n / 16) ∧
    hexValue? (Nat.digitChar (n % 16)) = some (n % 16) := by
  decide

/-- A control character by its code. -/
theorem codeRead {c : Char} (small : c.toNat < 32) (tree : Tree) (before : List Char) :
    ('\\' :: 'u' :: '0' :: '0' :: hexDigits c.toNat).foldlM step ⟨.text before, tree⟩ =
      some ⟨.text (c :: before), tree⟩ := by
  obtain ⟨high, low⟩ := hexRead c.toNat small
  have begun : ['\\', 'u', '0', '0'].foldlM step ⟨.text before, tree⟩ = some ⟨.code before none 2 0, tree⟩ := rfl
  have third : step ⟨.code before none 2 0, tree⟩ (Nat.digitChar (c.toNat / 16)) =
      some ⟨.code before none 1 (c.toNat / 16), tree⟩ := by
    simp [step, high]
  have plain : coded before none c.toNat = some (.text (c :: before)) := by
    rw [coded, if_neg (by omega), if_neg (by omega), Char.ofNat_toNat]
  have whole : c.toNat / 16 * 16 + c.toNat % 16 = c.toNat := by omega
  have fourth : step ⟨.code before none 1 (c.toNat / 16), tree⟩ (Nat.digitChar (c.toNat % 16)) =
      some ⟨.text (c :: before), tree⟩ := by
    simp [step, low, whole, plain]
  change (['\\', 'u', '0', '0'] ++ hexDigits c.toNat).foldlM step ⟨.text before, tree⟩ = _
  rw [List.foldlM_append, begun]
  change (step ⟨.code before none 2 0, tree⟩ _ >>= fun r => step r _ >>= pure) = _
  rw [third]
  change (step ⟨.code before none 1 _, tree⟩ _ >>= pure) = _
  rw [fourth]
  rfl

theorem escapeRead (c : Char) (tree : Tree) (before : List Char) :
    (escape c).foldlM step ⟨.text before, tree⟩ = some ⟨.text (c :: before), tree⟩ := by
  have same {n : Nat} (code : c.toNat = n) : c = Char.ofNat n := by rw [← code, Char.ofNat_toNat]
  unfold escape
  -- characters with an escape of their own
  iterate 5
    split
    · subst c
      rfl
  iterate 2
    split
    · rw [same ‹_›]
      rfl
  split
  · exact codeRead ‹_› tree before
  · rename_i quote slash _ _ _ _ _ large
    simp [step, quote, slash, large]

theorem textRead (s : List Char) (tree : Tree) (before : List Char) :
    (s.flatMap escape).foldlM step ⟨.text before, tree⟩ = some ⟨.text (s.reverse ++ before), tree⟩ := by
  induction s generalizing before with
  | nil => rfl
  | cons c s ih =>
    rw [List.flatMap_cons, List.foldlM_append, escapeRead]
    simpa using ih (c :: before)

theorem quoteRead (s : List Char) (tree : Tree) :
    (quote s).foldlM step ⟨.between, tree⟩ = (tree.take (.text s)).map (⟨.between, ·⟩) := by
  have opened : step ⟨.between, tree⟩ '"' = some ⟨.text [], tree⟩ := rfl
  rw [quote, List.cons_append, List.foldlM_cons, opened]
  change (s.flatMap escape ++ ['"']).foldlM step ⟨.text [], tree⟩ = _
  rw [List.foldlM_append, textRead]
  simp [step]

theorem numberClosed {w : List Char} (number : isNumber w = true) (tree : Tree) :
    ∃ r, w.foldlM step ⟨.between, tree⟩ = some r ∧ r.close? = tree.take (.number w) := by
  obtain ⟨more, parts⟩ := numberParts number
  obtain ⟨c, rest, rfl⟩ := List.exists_cons_of_ne_nil more
  have first : step ⟨.between, tree⟩ c = some ⟨.word [c], tree⟩ := by
    have within := partWord (parts c List.mem_cons_self)
    simp only [endsWord, Bool.or_eq_false_iff, beq_eq_false_iff_ne, Option.isSome_eq_false_iff,
      Option.isNone_iff_eq_none] at within
    simp [step, begin, within]
  have word : word? (c :: rest) = some (.number (c :: rest)) := by
    have other : c :: rest ≠ ['n', 'u', 'l', 'l'] := by
      rintro same
      rw [same] at number
      revert number
      decide
    rw [word?, if_neg other, if_pos number]
  refine ⟨⟨.word (c :: rest).reverse, tree⟩, ?_, ?_⟩
  · rw [List.foldlM_cons, first, List.reverse_cons]
    exact wordRead (fun d mem => parts d (List.mem_cons_of_mem c mem)) tree [c]
  · simp [close?, word]

end Reading

/-! ### Values -/

/-- A value that is read back from its text wherever a value is expected. -/
def Reads (j : Json) : Prop :=
  ∀ frames mayEnd, ∃ r, (render j).foldlM Reading.step ⟨.between, frames, .value mayEnd⟩ = some r ∧
    r.close? = some ⟨frames, .more j⟩

/-- Items one after another, with blanks after the commas. -/
def joined (gap : List Char) : List Json → List Char
  | [] => []
  | [item] => render item
  | item :: rest => render item ++ ',' :: gap ++ joined gap rest

theorem joinedItems (items : List Json) : joined [] items = renderItems items := by
  induction items with
  | nil => rfl
  | cons item rest ih =>
    cases rest with
    | nil => simp [joined, renderItems]
    | cons next rest => simp [joined, renderItems, ih]

theorem itemsRead {gap : List Char} (spaces : ∀ c ∈ gap, isSpace c = true) {items : List Json}
    (each : ∀ item ∈ items, Reads item) (more : items ≠ []) (done : List Json) (frames : List Frame) (mayEnd : Bool) :
    ∃ r last before, (joined gap items).foldlM Reading.step ⟨.between, .list done :: frames, .value mayEnd⟩ = some r ∧
      r.close? = some ⟨.list before :: frames, .more last⟩ ∧ last :: before = items.reverse ++ done := by
  induction items generalizing done mayEnd with
  | nil => exact absurd rfl more
  | cons item rest ih =>
    obtain ⟨r, read, closed⟩ := each item List.mem_cons_self (.list done :: frames) mayEnd
    cases rest with
    | nil => exact ⟨r, item, done, by simpa [joined] using read, closed, rfl⟩
    | cons next rest =>
      have comma : r.step ',' = some ⟨.between, .list (item :: done) :: frames, .value false⟩ :=
        Reading.closedMark closed rfl rfl
      have blanks := Reading.closedSpaces ⟨.list (item :: done) :: frames, .value false⟩ spaces
      obtain ⟨r', last, before, read', closed', same⟩ := ih (fun i mem => each i (List.mem_cons_of_mem item mem))
        (List.cons_ne_nil next rest) (item :: done) false
      refine ⟨r', last, before, ?_, closed', by simpa using same⟩
      rw [joined, List.foldlM_append, List.foldlM_append, read]
      · simp [comma, blanks, read']
      · simp

theorem listRead (gap : List Char) (spaces : ∀ c ∈ gap, isSpace c = true) {items : List Json}
    (each : ∀ item ∈ items, Reads item) (frames : List Frame) (mayEnd : Bool) :
    ('[' :: joined gap items ++ [']']).foldlM Reading.step ⟨.between, frames, .value mayEnd⟩ =
      some ⟨.between, frames, .more (.list items)⟩ := by
  have opened : Reading.step ⟨.between, frames, .value mayEnd⟩ '[' = some ⟨.between, .list [] :: frames, .value true⟩ :=
    rfl
  rw [List.cons_append, List.foldlM_cons, opened]
  by_cases none : items = []
  · subst none
    rfl
  · obtain ⟨r, last, before, read, closed, same⟩ := itemsRead spaces each none [] frames true
    have ended : r.step ']' = some ⟨.between, frames, .more (.list (last :: before).reverse)⟩ :=
      Reading.closedMark closed rfl rfl
    rw [same] at ended
    simp [List.foldlM_append, read, ended]

theorem fieldRead (name : List Char) {value : Json} (reads : Reads value) (done : List (List Char × Json))
    (frames : List Frame) (mayEnd : Bool) :
    ∃ r, (quote name ++ ':' :: render value).foldlM Reading.step ⟨.between, .object done :: frames, .name mayEnd⟩ =
        some r ∧ r.close? = some ⟨.field done name :: frames, .more value⟩ := by
  obtain ⟨r, read, closed⟩ := reads (.field done name :: frames) false
  have named : (quote name).foldlM Reading.step ⟨.between, .object done :: frames, .name mayEnd⟩ =
      some ⟨.between, .field done name :: frames, .colon⟩ := Reading.quoteRead name _
  have colon : Reading.step ⟨.between, .field done name :: frames, .colon⟩ ':' =
      some ⟨.between, .field done name :: frames, .value false⟩ := rfl
  refine ⟨r, ?_, closed⟩
  rw [List.foldlM_append, named]
  simpa [colon] using read

theorem fieldsRead {fields : List (List Char × Json)} (each : ∀ field ∈ fields, Reads field.2) (more : fields ≠ [])
    (done : List (List Char × Json)) (frames : List Frame) (mayEnd : Bool) :
    ∃ r name last before,
      (renderFields fields).foldlM Reading.step ⟨.between, .object done :: frames, .name mayEnd⟩ = some r ∧
        r.close? = some ⟨.field before name :: frames, .more last⟩ ∧
        (name, last) :: before = fields.reverse ++ done := by
  induction fields generalizing done mayEnd with
  | nil => exact absurd rfl more
  | cons field rest ih =>
    obtain ⟨name, value⟩ := field
    obtain ⟨r, read, closed⟩ := fieldRead name (each _ List.mem_cons_self) done frames mayEnd
    cases rest with
    | nil => exact ⟨r, name, value, done, by simpa [renderFields] using read, closed, rfl⟩
    | cons next rest =>
      have comma : r.step ',' = some ⟨.between, .object ((name, value) :: done) :: frames, .name false⟩ :=
        Reading.closedMark closed rfl rfl
      obtain ⟨r', name', last, before, read', closed', same⟩ := ih (fun f mem => each f (List.mem_cons_of_mem _ mem))
        (List.cons_ne_nil next rest) ((name, value) :: done) false
      refine ⟨r', name', last, before, ?_, closed', by simpa using same⟩
      have text : renderFields ((name, value) :: next :: rest) =
          (quote name ++ ':' :: render value) ++ ',' :: renderFields (next :: rest) := by simp [renderFields]
      rw [text, List.foldlM_append, read]
      simp [comma, read']

theorem objectRead {fields : List (List Char × Json)} (each : ∀ field ∈ fields, Reads field.2) (frames : List Frame)
    (mayEnd : Bool) : (render (.object fields)).foldlM Reading.step ⟨.between, frames, .value mayEnd⟩ =
      some ⟨.between, frames, .more (.object fields)⟩ := by
  have opened : Reading.step ⟨.between, frames, .value mayEnd⟩ (Char.ofNat 0x7B) =
      some ⟨.between, .object [] :: frames, .name true⟩ := rfl
  rw [render, List.cons_append, List.foldlM_cons, opened]
  by_cases none : fields = []
  · subst none
    rfl
  · obtain ⟨r, name, last, before, read, closed, same⟩ := fieldsRead each none [] frames true
    have ended : r.step (Char.ofNat 0x7D) =
        some ⟨.between, frames, .more (.object ((name, last) :: before).reverse)⟩ :=
      Reading.closedMark closed rfl rfl
    rw [same] at ended
    simp [List.foldlM_append, read, ended]

/-- A value whose numbers are numbers. -/
inductive Valid : Json → Prop
  | null : Valid .null
  | number {w : List Char} (number : isNumber w = true) : Valid (.number w)
  | text (s : List Char) : Valid (.text s)
  | list {items : List Json} (each : ∀ item ∈ items, Valid item) : Valid (.list items)
  | object {fields : List (List Char × Json)} (each : ∀ field ∈ fields, Valid field.2) : Valid (.object fields)

theorem Valid.reads {j : Json} (valid : Valid j) : Reads j := by
  induction valid with
  | null => exact fun frames mayEnd => ⟨_, rfl, rfl⟩
  | number number => exact fun frames mayEnd => Reading.numberClosed number _
  | text s => exact fun frames mayEnd => ⟨_, Reading.quoteRead s _, rfl⟩
  | list each ih =>
    intro frames mayEnd
    have read := listRead [] (by simp) ih frames mayEnd
    rw [joinedItems] at read
    exact ⟨_, read, rfl⟩
  | object each ih => exact fun frames mayEnd => ⟨_, objectRead ih frames mayEnd, rfl⟩

/-- What is rendered is read back. -/
theorem readRendered {j : Json} (valid : Valid j) : read? (render j) = some j := by
  obtain ⟨r, read, closed⟩ := valid.reads [] false
  simp [read?, read, closed, Tree.value?]

theorem readJoined (gap : List Char) (spaces : ∀ c ∈ gap, isSpace c = true) {items : List Json}
    (each : ∀ item ∈ items, Valid item) : read? ('[' :: joined gap items ++ [']']) = some (.list items) := by
  have read := listRead gap spaces (fun item mem => (each item mem).reads) [] false
  rw [read?, read]
  rfl

/-! ### Lines -/

theorem escapeOneLine (c : Char) : '\n' ∉ escape c := by
  have digits : ∀ n < 32, '\n' ∉ hexDigits n := by decide
  by_cases feed : c = '\n'
  · subst c
    decide
  simp only [escape, if_neg feed]
  iterate 6
    split
    · decide
  split
  · simp [digits c.toNat ‹_›]
  · simpa using Ne.symm feed

theorem quoteOneLine (s : List Char) : '\n' ∉ quote s := by
  simp [quote, escapeOneLine]

theorem joinedLines (gap : List Char) {items : List Json} (each : ∀ item ∈ items, '\n' ∉ render item) :
    (joined gap items).count '\n' = (items.length - 1) * gap.count '\n' := by
  induction items with
  | nil => simp [joined]
  | cons item rest ih =>
    have first := List.count_eq_zero.mpr (each item List.mem_cons_self)
    have later := ih fun i mem => each i (List.mem_cons_of_mem item mem)
    cases rest with
    | nil => simpa [joined] using first
    | cons next rest =>
      rw [joined, List.count_append, List.count_append, first, later]
      · simp [Nat.succ_mul]
        omega
      · simp

theorem fieldsOneLine {fields : List (List Char × Json)} (each : ∀ field ∈ fields, '\n' ∉ render field.2) :
    '\n' ∉ renderFields fields := by
  induction fields with
  | nil => simp [renderFields]
  | cons field rest ih =>
    have first := each field List.mem_cons_self
    have later := ih fun f mem => each f (List.mem_cons_of_mem field mem)
    cases rest with
    | nil => simp [renderFields, quoteOneLine, first]
    | cons next rest => simp [renderFields, quoteOneLine, first, later]

theorem Valid.oneLine {j : Json} (valid : Valid j) : '\n' ∉ render j := by
  induction valid with
  | null => simp [render]
  | number number =>
    intro mem
    have part := (numberParts number).2 _ mem
    revert part
    decide
  | text s => exact quoteOneLine s
  | list each ih =>
    have inside := joinedLines [] ih
    rw [joinedItems, List.count_nil, Nat.mul_zero, List.count_eq_zero] at inside
    simp [render, inside]
  | object each ih => simp [render, fieldsOneLine ih]

end SpeechDecoder.Report.Json
