import Mathlib.Tactic.FieldSimp
import Mathlib.Tactic.Ring
import Mathlib.Data.Rat.Cast.Order
import SpeechDecoder.Proofs.Arithmetic
import SpeechDecoder.Proofs.Endpointer.Utterances

/-! Whole streams. An endpointer at the beginning of a stream tells the same however the stream is cut, and all that
it tells is of the stream. -/
namespace SpeechDecoder

/-- Seconds without rounding. -/
instance : Time Rat where
  zero := 0
  add t u := t + u
  ofSamples samples rate := samples / rate

/-- A time shows the sample that it falls on. -/
def Sampled (rate : Nat) (time : Rat) (place : Nat) : Prop := time * rate = place

theorem sampledClock {rate : Nat} (some : rate ≠ 0) : Clock rate (Sampled rate) where
  zero := by
    change (0 : Rat) * rate = (0 : Nat)
    simp
  later t place n shown := by
    have shown : t * rate = place := shown
    have positive : (rate : Rat) ≠ 0 := by exact_mod_cast some
    change (t + n / rate) * rate = ((place + n : Nat) : Rat)
    rw [add_mul, shown, div_mul_cancel₀ _ positive]
    push_cast
    rfl

namespace Endpointer
open Activity (Scale Detector)

section
variable {τ α : Type} [Time τ] {s : Scale α} {c : EndpointerSettings} {e made : Endpointer τ α}

/-! ### Throughout a stream -/

/-- What is left when frames go out of the window one after another. -/
def dropped : Nat → Endpointer τ α → Endpointer τ α
  | 0, e => e
  | n + 1, e => dropped n e.pop.2

/-- The window counts the speech in it, however many frames go out, and none goes out that was not counted. -/
structure Accounted (e : Endpointer τ α) : Prop where
  counted : ∀ n, (e.dropped n).Counted
  enough : ∀ n f rest, (e.dropped n).queue.toList = f :: rest → f.isSpeech = true → 0 < (e.dropped n).speechCount

/-- What holds between two frames, and while the next comes in. -/
structure Kept (e : Endpointer τ α) : Prop where
  now : e.Accounted
  within : e.queue.size ≤ e.capacity
  next : ∀ f, (e.insert f).Accounted ∧ (e.insert f).queue.size ≤ e.capacity
  nothingLost : e.inSpeech = true → ∀ f, (e.insert f).queue.toList = e.queue.toList ++ [f]

theorem Counted.accounted {e : Endpointer τ α} (counted : e.Counted) : e.Accounted := by
  have each (n : Nat) : (e.dropped n).Counted := by
    induction n generalizing e with
    | zero => exact counted
    | succ n ih => exact ih counted.pop
  exact ⟨each, fun n _ _ items speech => (each n).enough items speech⟩

theorem Steady.kept {e : Endpointer τ α} (steady : e.Steady) (room : 0 < e.capacity) : e.Kept where
  now := steady.counted.accounted
  within := steady.within
  next f :=
    have inserted := insertCounted steady room f
    ⟨inserted.1.accounted, inserted.2.1⟩
  nothingLost speech f := (insertCounted steady room f).2.2.2 speech

/-! ### New streams -/

/-- At the beginning of a stream. -/
structure Blank (s : Scale α) (e : Endpointer τ α) : Prop where
  floor : e.detector.floor = s.initialFloor
  queue : e.queue = .empty
  speechCount : e.speechCount = 0
  queueStart : e.queueStart = Time.zero
  inSpeech : e.inSpeech = false
  pending : e.pending = .empty
  rate : e.detector.sampleRate ≠ 0
  frames : 0 < e.detector.frameSize
  room : 0 < e.capacity

theorem Detector.makeSizes {mode : Activity.Mode} {rate : Nat} {seconds : Float} {d : Detector α}
    (ok : Detector.make s mode rate seconds = .ok d) :
    d.floor = s.initialFloor ∧ d.sampleRate = rate ∧ rate ≠ 0 ∧ 0 < d.frameSize := by
  simp only [Detector.make] at ok
  generalize (if (seconds == 0) = true then Activity.defaultFrameLength else seconds) = length at ok
  split at ok
  · cases ok
  · rename_i right
    split at ok
    · cases ok
    · rename_i some
      cases ok
      exact ⟨rfl, rfl, fun none => right (.inl none), Nat.pos_of_ne_zero some⟩

theorem Blank.open (blank : e.Blank s) : e.Open := by
  change e.pending.size < _
  rw [blank.pending]
  exact blank.frames

theorem Blank.sized (blank : e.Blank s) (stream : List Int16) :
    ∀ f ∈ (Pieces.gather (e.detector.frameSize - 1) e.pending stream).1, f.length = e.detector.frameSize := by
  intro f mem
  have room : e.pending.size < e.detector.frameSize := blank.open
  have size := Pieces.gatherLengths (e.detector.frameSize - 1) e.pending stream (by omega) f mem
  omega

theorem Blank.steady (blank : e.Blank s) : e.Steady where
  counted := by
    change e.speechCount = _
    rw [blank.speechCount, blank.queue]
    rfl
  within := by
    rw [blank.queue]
    exact Nat.zero_le _
  room speech := by
    rw [blank.inSpeech] at speech
    cases speech

theorem Blank.traced (blank : e.Blank s) {shows : τ → Nat → Prop} (clock : Clock e.detector.sampleRate shows)
    (stream : List Int16) : Traced shows stream stream [] e where
  steady := blank.steady
  stands := by
    refine ⟨0, ⟨Nat.zero_le _, ?_, ?_, ?_⟩, ?_⟩
    · simp [blank.queue, Fifo.toListEmpty]
    · rw [blank.queueStart]
      exact clock.zero
    · simp [blank.queue, Fifo.toListEmpty]
    · rw [blank.inSpeech]
      have nothing : Spoken.Slices shows stream [] := ⟨by simp, .nil⟩
      exact .silent nothing (by simp)

theorem makeBlank (ok : make s c = .ok e) : e.Blank s ∧ e.detector.sampleRate = c.sampleRate := by
  unfold make at ok
  cases detector : Detector.make s c.mode c.sampleRate c.frameLength with
  | error p => simp [detector, bind, Except.bind] at ok
  | ok d =>
    obtain ⟨floor, rate, some, frames⟩ := Detector.makeSizes detector
    simp only [detector, bind, Except.bind] at ok
    generalize (if (c.window == 0) = true then _ else c.window) = window at ok
    generalize (if (c.ratio == 0) = true then _ else c.ratio) = ratio at ok
    split at ok
    · cases ok
    · split at ok
      · cases ok
      · rename_i right
        cases ok
        have room := Nat.lt_of_not_le fun le => right (.inr le)
        exact ⟨⟨floor, rfl, rfl, rfl, rfl, rfl, rate ▸ some, frames, Nat.zero_lt_of_lt room⟩, rate⟩

variable [Score α]

/-- What calls make of an endpointer. -/
inductive Reached (s : Scale α) (made : Endpointer τ α) : Endpointer τ α → Prop where
  | made : Reached s made made
  | pushed {e e' : Endpointer τ α} {samples : List Int16} {events : List (SpeechEvent τ)} (before : Reached s made e)
      (ok : e.push s samples = .ok (events, e')) : Reached s made e'
  | finished {e : Endpointer τ α} (before : Reached s made e) : Reached s made e.finish.2
  | reset {e : Endpointer τ α} (before : Reached s made e) : Reached s made (e.reset s)

theorem reachedSame (blank : made.Blank s) (reached : Reached s made e) : Same made e ∧ e.Open := by
  induction reached with
  | made => exact ⟨.refl _, blank.open⟩
  | pushed before ok ih =>
    obtain ⟨still, same⟩ := pushOpen s ih.2 ok
    exact ⟨ih.1.trans same, still⟩
  | @finished e before ih =>
    have same := ih.1.trans e.finishSame
    obtain ⟨_, _, _, _, finished⟩ := e.finishIs
    refine ⟨same, ?_⟩
    change e.finish.2.pending.size < e.finish.2.detector.frameSize
    rw [same.frameSize, finished]
    exact blank.frames
  | @reset e before ih =>
    have same : Same made (e.reset s) := ih.1.trans ⟨rfl, rfl, rfl, rfl, rfl, rfl⟩
    refine ⟨same, ?_⟩
    change 0 < (e.reset s).detector.frameSize
    rw [same.frameSize]
    exact blank.frames

theorem resetBlank (blank : made.Blank s) (reached : Reached s made e) : (e.reset s).Blank s := by
  have same := (reachedSame blank (.reset reached)).1
  exact ⟨rfl, rfl, rfl, rfl, rfl, rfl, same.sampleRate ▸ blank.rate, same.frameSize ▸ blank.frames,
    same.capacity ▸ blank.room⟩

/-- A new endpointer, or one that has been reset after any calls. -/
def New (s : Scale α) (made e : Endpointer τ α) : Prop :=
  e = made ∨ ∃ before, Reached s made before ∧ e = before.reset s

theorem newBlank (ok : make s c = .ok made) (new : New s made e) : e.Blank s ∧ Same made e := by
  have blank := (makeBlank ok).1
  rcases new with rfl | ⟨before, reached, rfl⟩
  · exact ⟨blank, .refl _⟩
  · exact ⟨resetBlank blank reached, (reachedSame blank (.reset reached)).1⟩

theorem listenTold (blank : e.Blank s) {shows : τ → Nat → Prop} (clock : Clock e.detector.sampleRate shows)
    (stream : List Int16) : ∃ told : List (Spoken τ), Spoken.Slices shows stream told ∧
      ∀ pieces, pieces.flatten = stream → e.listen s pieces = .ok (told.flatMap Spoken.events) := by
  let parts := Pieces.gather (e.detector.frameSize - 1) e.pending stream
  let heard := e.hearAll s parts.1
  let last : Endpointer τ α := { heard.2 with pending := parts.2 }
  have joined : parts.1.flatten ++ parts.2.toList = stream := by
    have all := Pieces.gatherFlatten (e.detector.frameSize - 1) e.pending stream
    simpa [blank.pending, Fifo.toListEmpty, parts] using all
  have fit : e.Fit shows := ⟨clock, blank.frames, blank.room⟩
  have traced : Traced shows stream (parts.1.flatten ++ parts.2.toList) [] e := by
    rw [joined]
    exact blank.traced clock stream
  obtain ⟨⟨counted, within, free⟩, place, standing, telling⟩ := hearAllTold s fit parts.1 (blank.sized stream) traced
  have same : Same e last := (e.hearAllSame s parts.1).trans ⟨rfl, rfl, rfl, rfl, rfl, rfl⟩
  obtain ⟨told, same, slices⟩ := finishTold (e := last) (fit.same same)
    ⟨⟨counted, within, free⟩, place, ⟨standing.inside, standing.ahead, standing.clock, standing.sizes⟩, telling⟩
  refine ⟨told, slices, fun pieces whole => ?_⟩
  have heard := callsHear s blank.open pieces
  rw [whole] at heard
  simpa [← same] using heard

/-- No arithmetic of times is asked for. -/
theorem looseClock (rate : Nat) : Clock rate fun (_ : τ) _ => True := ⟨trivial, fun _ _ _ _ => trivial⟩

theorem hearAllSteady (blank : e.Blank s) (frames : List (List Int16))
    (sizes : ∀ f ∈ frames, f.length = e.detector.frameSize) : (e.hearAll s frames).2.Steady := by
  have clock := looseClock (τ := τ) e.detector.sampleRate
  have traced := blank.traced clock (frames.flatten ++ [])
  exact (hearAllTold s ⟨clock, blank.frames, blank.room⟩ frames sizes traced).steady

theorem pushEachSteady (blank : e.Blank s) (pieces : List (List Int16)) :
    ∃ events last, e.pushEach s pieces = .ok (events, last) ∧ last.Steady ∧ Same e last := by
  let parts := Pieces.gather (e.detector.frameSize - 1) e.pending pieces.flatten
  obtain ⟨events, pushed, _⟩ := pushEachHear s blank.open pieces
  obtain ⟨counted, within, room⟩ := hearAllSteady blank parts.1 (blank.sized pieces.flatten)
  exact ⟨events, _, pushed, ⟨counted, within, room⟩,
    (e.hearAllSame s parts.1).trans ⟨rfl, rfl, rfl, rfl, rfl, rfl⟩⟩

end

/-- However a stream is cut into calls, the same utterances are told of it. They are slices of the stream in order
and apart, at the very samples of their times. All along, the window counts the speech in it, holds no more than it
may, and loses no frame of an utterance. -/
theorem slicesOfStream {α : Type} [Score α] {s : Scale α} {c : EndpointerSettings} {made e : Endpointer Rat α}
    (ok : make s c = .ok made) (new : New s made e) (stream : List Int16) :
    (∃ told : List (Spoken Rat), Spoken.Slices (Sampled c.sampleRate) stream told ∧
      ∀ pieces, pieces.flatten = stream → e.listen s pieces = .ok (told.flatMap Spoken.events)) ∧
    (∀ frames, (∀ f ∈ frames, f.length = e.detector.frameSize) → (e.hearAll s frames).2.Kept) ∧
    ∀ pieces, ∃ events last, e.pushEach s pieces = .ok (events, last) ∧ last.Kept := by
  obtain ⟨blank, same⟩ := newBlank ok new
  have rate : e.detector.sampleRate = c.sampleRate := same.sampleRate.trans (makeBlank ok).2
  refine ⟨?_, fun frames sizes => ?_, fun pieces => ?_⟩
  · rw [← rate]
    exact listenTold blank (sampledClock blank.rate) stream
  · have room := (e.hearAllSame s frames).capacity
    exact (hearAllSteady blank frames sizes).kept (room ▸ blank.room)
  · obtain ⟨events, last, pushed, steady, alike⟩ := pushEachSteady blank pieces
    exact ⟨events, last, pushed, steady.kept (alike.capacity ▸ blank.room)⟩

/-- A frame is as loud as its first sample, and any sound is speech. -/
def firstSample : Scale Whole where
  level frame := .number (frame.headD 0).toInt
  margin _ := .number 0
  leastSpeech := .number 0
  initialFloor := .number 0
  rise := .number 0

/-- Frames of two samples in a window of five, and an endpointer that has been reset: of eleven samples the utterance
begins with the first, and its last audio is the sample that fills no frame. -/
theorem slicesOfShortStream :
    let events : List (SpeechEvent Rat) :=
      .start 0 :: .audio [0, 0] :: List.replicate 4 (.audio [7, 7]) ++ [.audio [0], .finish (11 / 100)]
    ∃ made : Endpointer Rat Whole, make firstSample ⟨0.1, 0.6, .loose, 100, 0.02⟩ = .ok made ∧
      New firstSample made (made.finish.2.reset firstSample) ∧
      (∃ told : List (Spoken Rat), Spoken.Slices (Sampled 100) [0, 0, 7, 7, 7, 7, 7, 7, 7, 7, 0] told ∧
        told.flatMap Spoken.events = events) ∧
      (made.finish.2.reset firstSample).listen firstSample [[0, 0, 7], [7, 7, 7, 7, 7, 7, 7], [], [0]] =
        .ok events := by
  intro events
  have accepted : ((make firstSample ⟨0.1, 0.6, .loose, 100, 0.02⟩ : Except Problem (Endpointer Rat Whole)).map
      fun e => ((e.finish.2.reset firstSample).listen firstSample
        [[0, 0, 7], [7, 7, 7, 7, 7, 7, 7], [], [0]]).toOption).toOption = some (some events) := by
    decide +kernel
  obtain ⟨made, ok, heard⟩ := Outcome.mapOk accepted
  have new : New firstSample made (made.finish.2.reset firstSample) := .inr ⟨_, .finished .made, rfl⟩
  obtain ⟨⟨told, slices, same⟩, _⟩ := slicesOfStream ok new [0, 0, 7, 7, 7, 7, 7, 7, 7, 7, 0]
  have listened := same [[0, 0, 7], [7, 7, 7, 7, 7, 7, 7], [], [0]] rfl
  rw [listened] at heard
  have known : told.flatMap Spoken.events = events := Option.some.inj heard
  exact ⟨made, ok, new, ⟨told, slices, known⟩, listened.trans (congrArg Except.ok known)⟩

end Endpointer

end SpeechDecoder
