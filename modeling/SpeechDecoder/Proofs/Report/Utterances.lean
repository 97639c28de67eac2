import SpeechDecoder.Report.Encoder
import SpeechDecoder.Proofs.Report.Reader
import SpeechDecoder.Proofs.Characters
import SpeechDecoder.Proofs.Calls

/-! The report of utterances as one array. Whatever is written and closed in whatever order, a closed report is one
text of JSON that gives back the utterances whose writing was granted, one on a line, and nothing changes it. -/
namespace SpeechDecoder

def Hypothesis.map {α β : Type} (f : α → β) (h : Hypothesis α) : Hypothesis β := ⟨h.text, f h.score, f h.confidence⟩

def Segment.map {α β : Type} (f : α → β) (s : Segment α) : Segment β :=
  ⟨s.word, s.startFrame, s.endFrame, f s.acousticScore, f s.languageScore⟩

def Alternative.map {α β : Type} (f : α → β) (a : Alternative α) : Alternative β :=
  ⟨a.rank, a.hypothesis.map f, a.segments.map (·.map f)⟩

namespace Report

/-! ### Utterances in a report -/

/-- A number as it is written; what is no number is not written as one. -/
abbrev Written := Option (List Char)

def written (x : Float32) : Written := if x.isFinite then some (Decimal.jsonFloat32 x) else none

/-- What a report says of an utterance. -/
structure Reported where
  id : String
  hypothesis : Hypothesis Written
  frameRate : Nat
  segments : List (Segment Written)
  alternatives : Option (List (Alternative Written))
  deriving DecidableEq

def Reported.of (u : Utterance) : Reported where
  id := u.id
  hypothesis := u.hypothesis.map written
  frameRate := u.frameRate
  segments := u.segments.map (·.map written)
  alternatives := if u.alternatives = [] then none else some (u.alternatives.map (·.map written))

namespace Json

def written? : Json → Option Written
  | .number w => some (some w)
  | .null => some none
  | _ => none

def natural? : Json → Option Nat
  | .number w => if w.all Char.isDigit then some (Nat.ofDigitChars 10 w 0) else none
  | _ => none

def string? : Json → Option String
  | .text s => some (String.ofList s)
  | _ => none

def items? : Json → Option (List Json)
  | .list items => some items
  | _ => none

def field? (name : String) : Json → Option Json
  | .object fields => fields.lookup name.toList
  | _ => none

def hypothesis? (j : Json) : Option (Hypothesis Written) := do
  let text ← j.field? "text" >>= string?
  let score ← j.field? "score" >>= written?
  let confidence ← j.field? "confidence" >>= written?
  some ⟨text, score, confidence⟩

def segment? (j : Json) : Option (Segment Written) := do
  let word ← j.field? "word" >>= string?
  let startFrame ← j.field? "start_frame" >>= natural?
  let endFrame ← j.field? "end_frame" >>= natural?
  let acousticScore ← j.field? "ascore" >>= written?
  let languageScore ← j.field? "lscore" >>= written?
  some ⟨word, startFrame, endFrame, acousticScore, languageScore⟩

def alternative? (j : Json) : Option (Alternative Written) := do
  let rank ← j.field? "rank" >>= natural?
  let hypothesis ← j.field? "hypothesis" >>= hypothesis?
  let segments ← j.field? "segments" >>= items?
  let segments ← segments.mapM segment?
  some ⟨rank, hypothesis, segments⟩

/-- The alternatives, where there is a field of them. -/
def alternatives? (j : Json) : Option (Option (List (Alternative Written))) :=
  match j.field? "nbest" with
  | none => some none
  | some field => (field.items? >>= List.mapM alternative?).map some

def utterance? (j : Json) : Option Reported := do
  let id ← j.field? "id" >>= string?
  let hypothesis ← j.hypothesis?
  let frameRate ← j.field? "frame_rate" >>= natural?
  let segments ← j.field? "segments" >>= items?
  let segments ← segments.mapM segment?
  let alternatives ← j.alternatives?
  some ⟨id, hypothesis, frameRate, segments, alternatives⟩

theorem singleWritten (x : Float32) : (single x).written? = some (written x) := by
  unfold single written
  split
  · rfl
  · rfl

theorem naturalBack (n : Nat) : (natural n).natural? = some n := by
  have digits : (Decimal.natural n).all Char.isDigit = true := List.all_eq_true.mpr (naturalDigits n)
  rw [natural, natural?, if_pos digits, Decimal.natural, Nat.ofDigitChars_ten_toDigits]

theorem stringBack (s : String) : (string s).string? = some s := by
  simp [string, string?]

theorem mapBack {α β : Type} {made : α → Json} {read : Json → Option β} {same : α → β}
    (each : ∀ x, read (made x) = some (same x)) (all : List α) : (all.map made).mapM read = some (all.map same) := by
  induction all with
  | nil => rfl
  | cons x all ih => simp [each, ih]

theorem segmentBack (s : Segment Float32) : (ofSegment s).segment? = some (s.map written) := by
  have word : (ofSegment s).field? "word" = some (string s.word) := rfl
  have first : (ofSegment s).field? "start_frame" = some (natural s.startFrame) := rfl
  have last : (ofSegment s).field? "end_frame" = some (natural s.endFrame) := rfl
  have acoustic : (ofSegment s).field? "ascore" = some (single s.acousticScore) := rfl
  have language : (ofSegment s).field? "lscore" = some (single s.languageScore) := rfl
  simp [segment?, word, first, last, acoustic, language, stringBack, naturalBack, singleWritten, Segment.map]

theorem hypothesisBack {j : Json} {h : Hypothesis Float32} (text : j.field? "text" = some (string h.text))
    (score : j.field? "score" = some (single h.score))
    (confidence : j.field? "confidence" = some (single h.confidence)) : j.hypothesis? = some (h.map written) := by
  simp [hypothesis?, text, score, confidence, stringBack, singleWritten, Hypothesis.map]

theorem alternativeBack (a : Alternative Float32) : (ofAlternative a).alternative? = some (a.map written) := by
  have rank : (ofAlternative a).field? "rank" = some (natural a.rank) := rfl
  have text : (ofAlternative a).field? "hypothesis" = some (.object (hypothesisFields a.hypothesis)) := rfl
  have segments : (ofAlternative a).field? "segments" = some (.list (a.segments.map ofSegment)) := rfl
  have hypothesis : (object (hypothesisFields a.hypothesis)).hypothesis? = some (a.hypothesis.map written) :=
    hypothesisBack rfl rfl rfl
  simp [alternative?, rank, text, segments, hypothesis, items?, naturalBack, mapBack segmentBack, Alternative.map]

theorem utteranceBack (u : Utterance) : (ofUtterance u).utterance? = some (.of u) := by
  have id : (ofUtterance u).field? "id" = some (string u.id) := rfl
  have hypothesis : (ofUtterance u).hypothesis? = some (u.hypothesis.map written) := hypothesisBack rfl rfl rfl
  have rate : (ofUtterance u).field? "frame_rate" = some (natural u.frameRate) := rfl
  have segments : (ofUtterance u).field? "segments" = some (.list (u.segments.map ofSegment)) := rfl
  have alternatives : (ofUtterance u).alternatives? = some (Reported.of u).alternatives := by
    cases all : u.alternatives with
    | nil =>
      have absent : (ofUtterance u).field? "nbest" = none := by
        rw [ofUtterance, all]
        rfl
      simp [alternatives?, absent, Reported.of, all]
    | cons a rest =>
      have present : (ofUtterance u).field? "nbest" = some (.list (u.alternatives.map ofAlternative)) := by
        rw [ofUtterance, all]
        rfl
      rw [alternatives?, present]
      simp only [items?, Option.bind_eq_bind, Option.bind_some, mapBack alternativeBack]
      simp [Reported.of, all]
  simp [utterance?, id, hypothesis, rate, segments, items?, alternatives, stringBack, naturalBack, mapBack segmentBack,
    Reported.of]

theorem validSingle (x : Float32) : (single x).Valid := by
  unfold single
  split
  · exact .number (jsonNumber ‹_›)
  · exact .null

theorem validNatural (n : Nat) : (natural n).Valid := .number (naturalNumber n)

theorem validFields {fields : List (List Char × Json)} (each : ∀ value ∈ fields.map Prod.snd, value.Valid) :
    (object fields).Valid :=
  .object fun field mem => each field.2 (List.mem_map_of_mem mem)

theorem validSegment (s : Segment Float32) : (ofSegment s).Valid :=
  validFields (by simp [string, Valid.text, validNatural, validSingle])

theorem validItems {α : Type} {made : α → Json} (each : ∀ x, (made x).Valid) (all : List α) :
    (list (all.map made)).Valid :=
  .list (by simp [each])

theorem validAlternative (a : Alternative Float32) : (ofAlternative a).Valid := by
  have hypothesis : (object (hypothesisFields a.hypothesis)).Valid :=
    validFields (by simp [hypothesisFields, string, Valid.text, validSingle])
  exact validFields (by simp [validNatural, hypothesis, validItems validSegment])

theorem validUtterance (u : Utterance) : (ofUtterance u).Valid := by
  refine validFields ?_
  cases all : u.alternatives with
  | nil => simp [hypothesisFields, string, Valid.text, validNatural, validSingle, validItems validSegment]
  | cons a rest =>
    have alternatives := validItems validAlternative (a :: rest)
    simp [hypothesisFields, string, Valid.text, validNatural, validSingle, validItems validSegment] at alternatives ⊢
    exact alternatives

end Json

/-! ### Calls -/

inductive Call where
  | write (u : Utterance)
  | close
  deriving DecidableEq

def Call.utterance? : Call → Option Utterance
  | .write u => some u
  | .close => none

namespace Encoder

def call (e : Encoder) : Call → Outcome Unit × Encoder
  | .write u => e.write u
  | .close => e.close

/-- The text of a report that is not closed. -/
def begun (us : List Utterance) : List Char := '[' :: Json.joined ['\n'] (us.map Json.ofUtterance)

def going (us : List Utterance) : Encoder where
  format := .json
  sink := ⟨none, Text.Utf8.encode (begun us)⟩
  started := true
  count := us.length

def done (us : List Utterance) : Encoder :=
  { going us with sink := ⟨none, Text.Utf8.encode (begun us ++ [']'])⟩, closed := true }

/-- The encoders of a report of one array, by what they have written and whether they are closed. -/
inductive Stage : List Utterance → Bool → Encoder → Prop
  | fresh : Stage [] false (make .json none)
  | going (us : List Utterance) : Stage us false (going us)
  | done (us : List Utterance) : Stage us true (done us)

theorem putText (e : Encoder) (unlimited : e.sink.room = none) (text : List Char) (failure : Failure) :
    e.put text failure = (.ok (), { e with sink := ⟨none, e.sink.written ++ Text.Utf8.encode text⟩ }) := by
  simp [put, Sink.write, unlimited]

theorem encodedAppend (s t : List Char) : Text.Utf8.encode s ++ Text.Utf8.encode t = Text.Utf8.encode (s ++ t) := by
  simp [Text.Utf8.encode]

theorem begunMore {us : List Utterance} (more : us ≠ []) (u : Utterance) :
    begun (us ++ [u]) = begun us ++ [',', '\n'] ++ (Json.ofUtterance u).render := by
  have items (gap : List Char) (all : List Json) (some : all ≠ []) (item : Json) :
      Json.joined gap (all ++ [item]) = Json.joined gap all ++ ',' :: gap ++ item.render := by
    induction all with
    | nil => exact absurd rfl some
    | cons first rest ih =>
      cases rest with
      | nil => simp [Json.joined]
      | cons next rest =>
        have later := ih (List.cons_ne_nil next rest)
        simp only [List.cons_append] at later
        simp [Json.joined, later]
  simp [begun, items _ _ (show us.map Json.ofUtterance ≠ [] by simpa using more)]

@[simp] theorem freshWrite (u : Utterance) : (make .json none).write u = (.ok (), going [u]) := by
  simp [write, make, writeElement, start, putText, separate, going, begun, Json.joined, encodedAppend]

@[simp] theorem goingWrite (us : List Utterance) (u : Utterance) :
    (going us).write u = (.ok (), going (us ++ [u])) := by
  cases us with
  | nil => simp [write, writeElement, start, putText, separate, going, begun, Json.joined, encodedAppend]
  | cons first rest =>
    have text := begunMore (List.cons_ne_nil first rest) u
    simp only [List.cons_append] at text
    simp [write, writeElement, start, putText, separate, going, encodedAppend, text]

@[simp] theorem doneWrite (us : List Utterance) (u : Utterance) :
    (done us).write u = (.error closedFailure, done us) := rfl

@[simp] theorem freshClose : (make .json none).close = (.ok (), done []) := by
  simp [close, make, start, putText, done, going, begun, Json.joined, encodedAppend]

@[simp] theorem goingClose (us : List Utterance) : (going us).close = (.ok (), done us) := by
  simp [close, start, putText, done, going, encodedAppend]

@[simp] theorem doneClose (us : List Utterance) : (done us).close = (.ok (), done us) := rfl

/-- An open report takes an utterance, a closed one refuses it, and either is closed by a call. -/
theorem Stage.answer {us : List Utterance} {closed : Bool} {e : Encoder} (stage : Stage us closed e) (op : Call) :
    (∃ u, op = .write u ∧ closed = false ∧ e.call op = (.ok (), Encoder.going (us ++ [u]))) ∨
      (∃ u, op = .write u ∧ closed = true ∧ e.call op = (.error closedFailure, e)) ∨
      op = .close ∧ e.call op = (.ok (), Encoder.done us) := by
  cases op with
  | write u =>
    cases stage with
    | fresh => exact .inl ⟨u, rfl, rfl, freshWrite u⟩
    | going us => exact .inl ⟨u, rfl, rfl, goingWrite us u⟩
    | done us => exact .inr (.inl ⟨u, rfl, rfl, doneWrite us u⟩)
  | close =>
    cases stage with
    | fresh => exact .inr (.inr ⟨rfl, freshClose⟩)
    | going us => exact .inr (.inr ⟨rfl, goingClose us⟩)
    | done us => exact .inr (.inr ⟨rfl, doneClose us⟩)

theorem Stage.run {us : List Utterance} {closed : Bool} {e : Encoder} (stage : Stage us closed e)
    (calls : List Call) :
    Stage (us ++ (Calls.granted call e calls).filterMap Call.utterance?) (closed || decide (.close ∈ calls))
      (Calls.after call e calls) := by
  induction calls generalizing us closed e with
  | nil => simpa [Calls.granted, Calls.after] using stage
  | cons op rest ih =>
    obtain ⟨u, rfl, rfl, told⟩ | ⟨u, rfl, rfl, told⟩ | ⟨rfl, told⟩ := stage.answer op
    · rw [Calls.afterCall told, Calls.grantedOk told]
      simpa [Call.utterance?] using ih (.going (us ++ [u]))
    · rw [Calls.afterCall told, Calls.grantedError told]
      simpa using ih stage
    · rw [Calls.afterCall told, Calls.grantedOk told]
      simpa [Call.utterance?, List.filterMap_cons] using ih (.done us)

/-- Before it is closed a report grants what is asked. Once it is closed it is one text of JSON, of a list of the
utterances whose writing was granted, each but the last with an end of line behind it; nothing is written any more. -/
theorem reportReadBack (calls : List Call) :
    let made := Encoder.make .json none
    let e := Calls.after call made calls
    let us := (Calls.granted call made calls).filterMap Call.utterance?
    e.written? = some us.length ∧ e.close.1 = .ok () ∧ (.close ∉ calls → ∀ u, (e.write u).1 = .ok ()) ∧
      (.close ∈ calls →
        (∃ text items, Text.Utf8.decode? e.sink.written = some text ∧ Json.read? text = some (.list items) ∧
          items.mapM Json.utterance? = some (us.map Reported.of) ∧ text.count '\n' = us.length - 1) ∧
        (∀ u, e.write u = (.error closedFailure, e)) ∧ e.close = (.ok (), e)) := by
  intro made e us
  have stage : Stage us (decide (.close ∈ calls)) e := by simpa using Stage.fresh.run calls
  by_cases closed : .close ∈ calls
  · rw [decide_eq_true closed] at stage
    generalize us = us, e = e at stage
    cases stage with
    | done =>
      have valid : ∀ item ∈ us.map Json.ofUtterance, item.Valid := by simp [Json.validUtterance]
      have read := Json.readJoined ['\n'] (by simp [Json.isSpace]) valid
      have lines := Json.joinedLines ['\n'] fun item mem => (valid item mem).oneLine
      have back : (us.map Json.ofUtterance).mapM Json.utterance? = some (us.map .of) :=
        Json.mapBack Json.utteranceBack us
      have count : (begun us ++ [']']).count '\n' = us.length - 1 := by simpa [begun] using lines
      exact ⟨rfl, rfl, absurd closed, fun _ =>
        ⟨⟨_, _, Text.Utf8.decodedEncoded _, read, back, count⟩, doneWrite us, rfl⟩⟩
  · rw [decide_eq_false closed] at stage
    generalize us = us, e = e at stage
    cases stage with
    | fresh =>
      exact ⟨rfl, by rw [freshClose], fun _ u => by rw [freshWrite], fun done => absurd done closed⟩
    | going =>
      exact ⟨rfl, by rw [goingClose], fun _ u => by rw [goingWrite], fun done => absurd done closed⟩

/-- Two utterances, one of them with an alternative and a score that is no number, and one that comes too late. -/
theorem reportOfTwo :
    let first : Utterance := ⟨"a\"b\\", ⟨"é 😀\n", -1234.5, 1⟩, 100, [⟨"é", 3, 40, -0.0, 2.5e-9⟩], []⟩
    let second : Utterance := ⟨"", ⟨"", 0 / 0, 0⟩, 0, [], [⟨2, ⟨"\u0001/", 1e30, 0.5⟩, []⟩]⟩
    let reports : List Reported := [
      ⟨"a\"b\\", ⟨"é 😀\n", some "-1234.5".toList, some "1.0".toList⟩, 100,
        [⟨"é", 3, 40, some "-0.0".toList, some "2.5e-9".toList⟩], none⟩,
      ⟨"", ⟨"", none, some "0.0".toList⟩, 0, [],
        some [⟨2, ⟨"\u0001/", some "1e+30".toList, some "0.5".toList⟩, []⟩]⟩]
    let calls : List Call := [.write first, .write second, .close, .write first, .close]
    ∃ text items, Text.Utf8.decode? (Calls.after call (make .json none) calls).sink.written = some text ∧
      Json.read? text = some (.list items) ∧ text.count '\n' = 1 ∧ items.mapM Json.utterance? = some reports := by
  intro first second reports calls
  obtain ⟨_, _, _, closed⟩ := reportReadBack calls
  obtain ⟨⟨text, items, bytes, read, back, lines⟩, _⟩ := closed (by simp [calls])
  have granted : (Calls.granted call (make .json none) calls).filterMap Call.utterance? = [first, second] := rfl
  have reported : [first, second].map Reported.of = reports := by decide +kernel
  rw [granted] at back lines
  rw [reported] at back
  exact ⟨text, items, bytes, read, lines, back⟩

end Encoder

end Report
end SpeechDecoder
