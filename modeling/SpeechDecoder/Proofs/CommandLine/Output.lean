import SpeechDecoder.CommandLine.Batch
import SpeechDecoder.Proofs.Report.Utterances

/-! A report into an output that has only so much room. It goes as one without a limit does while all of it fits;
otherwise what fits of it is written, and the report fails. -/
namespace SpeechDecoder

namespace Report.Encoder
open Report (Format)

/-- An encoder with room for so many bytes in all. -/
def within (n : Nat) (e : Encoder) : Encoder :=
  { e with sink := ⟨some (n - e.sink.written.length), e.sink.written⟩ }

def extended (e : Encoder) (text : List Char) : Encoder :=
  { e with sink := ⟨none, e.sink.written ++ Text.Utf8.encode text⟩ }

/-- A part of a report, by what it makes of an encoder without a limit and of the same one within one. -/
structure Bounded (n : Nat) (part : Encoder → Outcome Unit × Encoder) (e e' : Encoder) : Prop where
  free : part e = (.ok (), e')
  unlimited : e'.sink.room = none
  grows : e.sink.written <+: e'.sink.written
  fits : e'.sink.written.length ≤ n → part (e.within n) = (.ok (), e'.within n)
  stops : e.sink.written.length ≤ n → n < e'.sink.written.length →
    ∃ f last, part (e.within n) = (.error f, last) ∧ last.sink.written = e'.sink.written.take n

def andThen (first second : Encoder → Outcome Unit × Encoder) (e : Encoder) : Outcome Unit × Encoder :=
  match first e with
  | (.ok (), e) => second e
  | failed => failed

/-- A part that succeeds and writes nothing. -/
def noting (note : Encoder → Encoder) (e : Encoder) : Outcome Unit × Encoder := (.ok (), note e)

section
variable {n : Nat} {e e' e'' : Encoder}

theorem Bounded.andThen {first second : Encoder → Outcome Unit × Encoder} (one : Bounded n first e e')
    (two : Bounded n second e' e'') : Bounded n (andThen first second) e e'' where
  free := by simp only [Encoder.andThen, one.free, two.free]
  unlimited := two.unlimited
  grows := one.grows.trans two.grows
  fits enough := by
    have less := two.grows.length_le
    simp only [Encoder.andThen, one.fits (by omega), two.fits enough]
  stops before less := by
    by_cases fits : e'.sink.written.length ≤ n
    · obtain ⟨f, last, failed, written⟩ := two.stops fits less
      exact ⟨f, last, by simp only [Encoder.andThen, one.fits fits, failed], written⟩
    · obtain ⟨f, last, failed, written⟩ := one.stops before (Nat.lt_of_not_le fits)
      refine ⟨f, last, by simp only [Encoder.andThen, failed], ?_⟩
      obtain ⟨more, all⟩ := two.grows
      rw [written, ← all, List.take_append_of_le_length (by omega)]

theorem Bounded.noting (unlimited : e.sink.room = none) (note : Encoder → Encoder) (sink : (note e).sink = e.sink)
    (within : note (e.within n) = (note e).within n) : Bounded n (noting note) e (note e) where
  free := rfl
  unlimited := by rw [sink, unlimited]
  grows := sink ▸ List.prefix_rfl
  fits _ := by rw [Encoder.noting, within]
  stops before less := by
    rw [sink] at less
    omega

theorem Bounded.put (unlimited : e.sink.room = none) (text : List Char) (failure : Failure) :
    Bounded n (put · text failure) e (e.extended text) where
  free := putText e unlimited text failure
  unlimited := rfl
  grows := List.prefix_append _ _
  fits enough := by
    simp only [extended, List.length_append] at enough
    have room : (Text.Utf8.encode text).length ≤ n - e.sink.written.length := by omega
    simp only [Encoder.put, Sink.write, within, extended, List.take_of_length_le room, room, decide_true,
      List.length_append]
    rw [Nat.sub_sub]
  stops before less := by
    simp only [extended, List.length_append] at less
    have room : ¬ (Text.Utf8.encode text).length ≤ n - e.sink.written.length := by omega
    let bytes := (Text.Utf8.encode text).take (n - e.sink.written.length)
    let full : Sink := ⟨some (n - e.sink.written.length - bytes.length), e.sink.written ++ bytes⟩
    refine ⟨failure, { e with sink := full }, ?_, ?_⟩
    · simp only [Encoder.put, Sink.write, within, room, decide_false]
      rfl
    · simp only [full, bytes, extended, List.take_append, List.take_of_length_le before]

theorem Bounded.same {part part' : Encoder → Outcome Unit × Encoder} (bounded : Bounded n part e e')
    (here : part' e = part e) (there : part' (e.within n) = part (e.within n)) : Bounded n part' e e' where
  free := here.trans bounded.free
  unlimited := bounded.unlimited
  grows := bounded.grows
  fits enough := there.trans (bounded.fits enough)
  stops before less := by
    rw [there]
    exact bounded.stops before less

/-- A part that goes on with a report, whatever the room. -/
def Lasts (part : Encoder → Outcome Unit × Encoder) (e : Encoder) : Prop :=
  ∃ e', e'.format = e.format ∧ e'.closed = e.closed ∧ ∀ n, Bounded n part e e'

theorem Lasts.andThen {first second : Encoder → Outcome Unit × Encoder} (one : Lasts first e)
    (two : ∀ e', e'.format = e.format → e'.closed = e.closed → e'.sink.room = none → Lasts second e') :
    Lasts (andThen first second) e := by
  obtain ⟨e', format, closed, bounded⟩ := one
  obtain ⟨e'', format', closed', bounded'⟩ := two e' format closed (bounded 0).unlimited
  exact ⟨e'', format'.trans format, closed'.trans closed, fun n => (bounded n).andThen (bounded' n)⟩

theorem startLasts (unlimited : e.sink.room = none) : Lasts start e := by
  by_cases started : e.started = true
  · have nothing (n : Nat) := Bounded.noting (n := n) unlimited id rfl rfl
    exact ⟨e, rfl, rfl, fun n => (nothing n).same (if_pos started) (if_pos started)⟩
  · refine ⟨{ e.extended ['['] with started := true }, rfl, rfl, fun n => ?_⟩
    have bounded := (Bounded.put (n := n) unlimited ['['] full).andThen
      (Bounded.noting rfl (fun e => { e with started := true }) rfl rfl)
    refine bounded.same ?_ ?_
    · rw [start, if_neg started]
      rfl
    · rw [start, if_neg (show ¬ (e.within n).started = true from started)]
      rfl

theorem separateLasts (unlimited : e.sink.room = none) : Lasts separate e := by
  by_cases some : 0 < e.count
  · have bounded (n : Nat) := Bounded.put (n := n) unlimited [',', '\n'] full
    exact ⟨e.extended [',', '\n'], rfl, rfl, fun n => (bounded n).same (if_pos some) (if_pos some)⟩
  · have nothing (n : Nat) := Bounded.noting (n := n) unlimited id rfl rfl
    exact ⟨e, rfl, rfl, fun n => (nothing n).same (if_neg some) (if_neg some)⟩

theorem elementLasts (unlimited : e.sink.room = none) (u : Utterance) : Lasts (writeElement · u) e := by
  have element : (writeElement · u) = Encoder.andThen start (Encoder.andThen separate
      (Encoder.andThen (put · (Json.ofUtterance u).render (.content SystemError.full.message))
        (noting fun e => { e with count := e.count + 1 }))) := by
    funext e
    unfold writeElement Encoder.andThen
    rcases e.start with ⟨_ | _, e⟩
    · rfl
    · dsimp only
      rcases e.separate with ⟨_ | _, e⟩
      · rfl
      · rfl
  rw [element]
  refine (startLasts unlimited).andThen fun e _ _ unlimited => ?_
  refine (separateLasts unlimited).andThen fun e _ _ unlimited => ?_
  refine ⟨{ e.extended (Json.ofUtterance u).render with count := e.count + 1 }, rfl, rfl, fun n => ?_⟩
  exact (Bounded.put unlimited _ _).andThen (Bounded.noting rfl (fun e => { e with count := e.count + 1 }) rfl rfl)

theorem writeIs (opened : e.closed = false) (format : Format) (same : e.format = format) (u : Utterance) :
    e.write u = if format = .json then e.writeElement u else e.put (linesOf u format) full := by
  rw [write, if_neg (Bool.eq_false_iff.mp opened), same]
  cases format with
  | json => rfl
  | ctm => rfl
  | hyp => rfl

def mark (e : Encoder) : Encoder := { e with closed := true }

theorem closeIs (opened : e.closed = false) (format : Format) (same : e.format = format) :
    e.close = if format = .json then Encoder.andThen start (Encoder.andThen (put · [']'] full) (noting mark)) e
      else noting mark e := by
  cases format with
  | json =>
    simp only [close, opened, same, Encoder.andThen, if_true]
    rcases e.start with ⟨_ | _, e⟩
    · rfl
    · rfl
  | ctm => simp [close, opened, same, noting, mark]
  | hyp => simp [close, opened, same, noting, mark]

theorem writeLasts (unlimited : e.sink.room = none) (opened : e.closed = false) (u : Utterance) :
    Lasts (write · u) e := by
  have here := writeIs opened e.format rfl u
  have there (n : Nat) := writeIs (e := e.within n) opened e.format rfl u
  by_cases json : e.format = .json
  · simp only [json, if_true] at here there
    obtain ⟨e', same, closed, bounded⟩ := elementLasts unlimited u
    exact ⟨e', same, closed, fun n => (bounded n).same here (there n)⟩
  · simp only [if_neg json] at here there
    exact ⟨e.extended (linesOf u e.format), rfl, rfl, fun n => (Bounded.put unlimited _ _).same here (there n)⟩

theorem closeBounded (unlimited : e.sink.room = none) (opened : e.closed = false) :
    ∃ e', ∀ n, Bounded n close e e' := by
  have here := closeIs opened e.format rfl
  have there (n : Nat) := closeIs (e := e.within n) opened e.format rfl
  by_cases json : e.format = .json
  · simp only [json, if_true] at here there
    obtain ⟨e', _, _, bounded⟩ := startLasts unlimited
    refine ⟨(e'.extended [']']).mark, fun n => Bounded.same ?_ here (there n)⟩
    exact (bounded n).andThen ((Bounded.put (bounded n).unlimited _ _).andThen (Bounded.noting rfl mark rfl rfl))
  · simp only [if_neg json] at here there
    exact ⟨e.mark, fun n => (Bounded.noting unlimited mark rfl rfl).same here (there n)⟩

end

end Report.Encoder

namespace CommandLine
open Report (Format Encoder)
open Report.Encoder (Lasts Bounded within)

theorem allLasts (us : List Utterance) {e : Encoder} (unlimited : e.sink.room = none) (opened : e.closed = false) :
    Lasts (writeAll · us) e := by
  induction us generalizing e with
  | nil => exact ⟨e, rfl, rfl, fun n => Bounded.noting unlimited id rfl rfl⟩
  | cons u rest ih =>
    have each : (writeAll · (u :: rest)) = Encoder.andThen (Encoder.write · u) (writeAll · rest) := by
      funext e
      rcases written : e.write u with ⟨_ | _, _⟩
      · simp only [writeAll, Encoder.andThen, written]
      · simp only [writeAll, Encoder.andThen, written]
    rw [each]
    refine (Encoder.writeLasts unlimited opened u).andThen fun e' _ closed unlimited => ?_
    exact ih unlimited (closed.trans opened)

/-- What a report says besides what it writes. -/
def verdict (results : List (Outcome (List Utterance))) : Option Trouble :=
  if failures results = 0 then none else some { message := s!"{failures results} of {results.length} inputs failed" }

theorem reportIs (format : Format) (room : Option Nat) (results : List (Outcome (List Utterance))) :
    report format room results =
      match Encoder.andThen (writeAll · (reported results)) Encoder.close (.make format room) with
      | (.error f, e) => (e.sink.written, some { message := f.message })
      | (.ok (), e) => (e.sink.written, verdict results) := by
  simp only [report, Encoder.andThen, verdict]
  rcases writeAll (.make format room) (reported results) with ⟨_ | _, e⟩
  · rfl
  · dsimp only
    rcases e.close with ⟨_ | _, e⟩
    · rfl
    · dsimp only
      split
      · rfl
      · rfl

theorem reportSame (format : Format) (room : Option Nat) {results others : List (Outcome (List Utterance))}
    (same : reported results = reported others) : (report format room results).1 = (report format room others).1 := by
  simp only [reportIs, same]
  split
  · rfl
  · rfl

theorem verdictFails (results : List (Outcome (List Utterance))) :
    (verdict results).isSome ↔ ∃ result ∈ results, result.isOk = false := by
  have same : failures results = results.countP fun r => !r.isOk := by
    unfold failures
    congr 1
    funext r
    cases r with
    | error f => rfl
    | ok us => rfl
  have count : failures results = 0 ↔ ∀ r ∈ results, r.isOk = true := by
    simp [same, List.countP_eq_zero]
  unfold verdict
  split
  · rename_i none
    simpa using count.mp none
  · rename_i some
    simpa [count] using some

/-- A report that fits is written and fails only for inputs that failed; of another one what fits is written. -/
theorem reportWithin (format : Format) (results : List (Outcome (List Utterance))) :
    let whole := (report format none results).1
    (report format none results).2 = verdict results ∧
      ∀ n, (whole.length ≤ n → report format (some n) results = (whole, verdict results)) ∧
        (n < whole.length → (report format (some n) results).1 = whole.take n ∧
          (report format (some n) results).2.isSome) := by
  let made := Encoder.make format none
  have started (n : Nat) : Encoder.make format (some n) = made.within n := rfl
  obtain ⟨e, _, closed, bounded⟩ := allLasts (reported results) (e := made) rfl rfl
  obtain ⟨e', bounded'⟩ := Encoder.closeBounded (bounded 0).unlimited closed
  have all (n : Nat) := (bounded n).andThen (bounded' n)
  have free := (all 0).free
  simp only [reportIs, started]
  rw [show Encoder.make format none = made from rfl, free]
  refine ⟨rfl, fun n => ⟨fun enough => ?_, fun less => ?_⟩⟩
  · rw [(all n).fits enough]
    rfl
  · obtain ⟨f, last, failed, written⟩ := (all n).stops (Nat.zero_le n) less
    rw [failed]
    exact ⟨written, rfl⟩

end CommandLine
end SpeechDecoder
