import SpeechDecoder.Proofs.Endpointer.Streams

/-! Speech without a break. What an endpointer needs to begin an utterance and what it needs to go on come of one
ratio, but each has a threshold of its own. Where the second is at most one above the first, speech that goes on is
never ended before the stream is; where it is higher, the first speech of a stream ends as soon as it has begun. -/
namespace SpeechDecoder.Endpointer
open Activity (Scale)

variable {τ α : Type} [Time τ] {s : Scale α} {c : EndpointerSettings} {e made : Endpointer τ α}

/-! ### Between calls -/

theorem makeThresholds (ok : make s c = .ok e) :
    0 < e.startFrames ∧ e.startFrames < e.capacity ∧ 0 < e.endFrames ∧ e.endFrames < e.capacity := by
  unfold make at ok
  cases detector : Activity.Detector.make s c.mode c.sampleRate c.frameLength with
  | error p => simp [detector, bind, Except.bind] at ok
  | ok d =>
    simp only [detector, bind, Except.bind] at ok
    generalize (if (c.window == 0) = true then _ else c.window) = window at ok
    generalize (if (c.ratio == 0) = true then _ else c.ratio) = ratio at ok
    split at ok
    · cases ok
    · split at ok
      · cases ok
      · cases ok
        dsimp only
        omega

theorem concludeSteady (counted : e.Counted) (within : e.queue.size ≤ e.capacity) (some : e.queue.toList ≠ []) :
    e.conclude.2.Steady := by
  obtain ⟨f, rest, items⟩ := List.exists_cons_of_ne_nil some
  unfold conclude
  cases speech : e.inSpeech with
  | true =>
    obtain ⟨steady, _⟩ := popSpeaking counted within speech items
    simp only [if_true, releaseSome items]
    split
    · exact ⟨steady.counted, steady.within, by simp⟩
    · exact steady
  | false =>
    simp only [Bool.false_eq_true, if_false]
    split
    · let begun : Endpointer τ α := { e with
        speechStart := e.queueStart, speechEnd := Time.zero, inSpeech := true }
      have same : begun.release = ([.audio f.samples], begun.pop.2) := releaseSome items
      simp only [begun] at same
      simp only [same]
      exact (popSpeaking (e := begun) counted within rfl items).1
    · exact ⟨counted, within, by simp [speech]⟩

theorem releaseSpeechCounted (fuel : Nat) (counted : e.Counted) : (releaseSpeech fuel e).2.Counted := by
  induction fuel generalizing e with
  | zero => exact counted
  | succ fuel ih =>
    unfold releaseSpeech
    split
    · exact counted
    · split
      · simp only [releaseIs]
        exact ih (e := { e.pop.2 with speechEnd := e.pop.2.queueStart }) counted.pop
      · exact counted

theorem clearQueueEmpty (e : Endpointer τ α) : (clearQueue e.queue.size e).queue.size = 0 := by
  have each (n : Nat) (e : Endpointer τ α) (few : e.queue.toList.length ≤ n) : (clearQueue n e).queue.toList = [] := by
    induction n generalizing e with
    | zero => simpa [clearQueue] using few
    | succ n ih =>
      cases items : e.queue.toList with
      | nil => simp [clearQueue, Fifo.sizeEq, items]
      | cons f rest =>
        obtain ⟨queue, left, popped⟩ := popSome items
        simp only [items, List.length_cons] at few
        have later := ih e.pop.2 (by simp [popped, left]; omega)
        simpa [clearQueue, Fifo.sizeEq, items] using later
  rw [Fifo.sizeEq, each e.queue.size e (Nat.le_of_eq e.queue.sizeEq.symm), List.length_nil]

theorem clearQueueCounted (fuel : Nat) (counted : e.Counted) : (clearQueue fuel e).Counted := by
  induction fuel generalizing e with
  | zero => exact counted
  | succ fuel ih =>
    unfold clearQueue
    split
    · exact counted
    · exact ih counted.pop

theorem finishSteady (counted : e.Counted) : e.finish.2.Steady := by
  have cleared (e : Endpointer τ α) (counted : e.Counted) (idle : e.inSpeech = false) :
      (clearQueue e.queue.size e).Steady := by
    obtain ⟨_, _, _, same⟩ := clearQueueIs e.queue.size e
    have still : (clearQueue e.queue.size e).inSpeech = false := by rw [same, idle]
    exact ⟨clearQueueCounted _ counted, by simp [clearQueueEmpty], by simp [still]⟩
  unfold finish
  cases speech : e.inSpeech with
  | false =>
    simp only [Bool.false_eq_true, if_false]
    exact cleared { e with pending := .empty, inSpeech := false } counted rfl
  | true =>
    let ended : Endpointer τ α := { e with pending := .empty, inSpeech := false, speechEnd := e.queueStart }
    have released := releaseSpeechCounted (e := ended) e.queue.size counted
    obtain ⟨_, _, _, _, same⟩ := releaseSpeechIs e.queue.size ended
    have idle : (releaseSpeech e.queue.size ended).2.inSpeech = false := by rw [same]
    simp only [if_true]
    split
    · exact cleared { (releaseSpeech e.queue.size ended).2 with speechEnd := _ } released idle
    · exact cleared _ released idle

/-! ### Steps -/

theorem popCount (e : Endpointer τ α) : e.speechCount ≤ e.pop.2.speechCount + 1 := by
  unfold pop
  split
  · exact Nat.le_succ _
  · dsimp only
    split <;> omega

theorem releaseAudio (e : Endpointer τ α) {event : SpeechEvent τ} (told : event ∈ e.release.1) :
    ∃ samples, event = .audio samples := by
  unfold release at told
  split at told
  · exact ⟨_, List.mem_singleton.mp told⟩
  · simp at told

theorem concludeOn (speaking : e.inSpeech = true) (enough : e.endFrames ≤ e.speechCount) : e.conclude = e.release := by
  simp [conclude, speaking, Nat.not_lt.mpr enough]

theorem concludeEnds (speaking : e.inSpeech = true) (less : e.speechCount < e.endFrames) :
    ∃ time, .finish time ∈ e.conclude.1 :=
  ⟨e.release.2.queueStart, by simp [conclude, speaking, less]⟩

theorem finishEnds (speaking : e.inSpeech = true) : ∃ time, .finish time ∈ e.finish.1 := by
  simp only [finish, speaking, if_true]
  exact ⟨_, List.mem_append_right _ List.mem_cons_self⟩

/-- At the beginning of an utterance. -/
def begun (e : Endpointer τ α) : Endpointer τ α :=
  { e with speechStart := e.queueStart, speechEnd := Time.zero, inSpeech := true }

theorem concludeBegun (idle : e.inSpeech = false) (more : e.startFrames < e.speechCount) :
    e.conclude = (.start e.queueStart :: e.begun.release.1, e.begun.release.2) := by
  simp [conclude, idle, more, begun]

theorem concludeBegins {time : τ} (told : .start time ∈ e.conclude.1) :
    e.inSpeech = false ∧ e.startFrames < e.speechCount := by
  cases speech : e.inSpeech with
  | true =>
    -- what goes out in speech is no start
    have none : SpeechEvent.start time ∉ e.release.1 := fun told => by
      obtain ⟨_, audio⟩ := e.releaseAudio told
      cases audio
    simp only [conclude, speech, if_true] at told
    split at told <;> simp [none] at told
  | false =>
    refine ⟨rfl, Nat.lt_of_not_le fun few => ?_⟩
    simp [conclude, speech, Nat.not_lt.mpr few] at told

/-- In an utterance, with as much speech in the window as it needs to begin once the next frame is speech. -/
structure Going (e : Endpointer τ α) : Prop where
  steady : e.Steady
  speaking : e.inSpeech = true
  enough : e.startFrames ≤ e.speechCount

theorem releaseOn (steady : e.release.2.Steady) (speaking : e.inSpeech = true)
    (more : e.startFrames < e.speechCount) : e.release.2.Going ∧ ∀ time, .finish time ∉ e.release.1 := by
  have count := e.popCount
  obtain ⟨_, _, _, popped⟩ := e.popIs
  refine ⟨⟨steady, ?_, ?_⟩, fun time told => ?_⟩
  · rw [releaseIs, popped, speaking]
  · rw [releaseIs, e.popSame.startFrames]
    omega
  · obtain ⟨_, audio⟩ := e.releaseAudio told
    cases audio

/-- Outside of an utterance, with so many frames in the window, which are all speech. -/
structure Filled (e : Endpointer τ α) (n : Nat) : Prop where
  steady : e.Steady
  idle : e.inSpeech = false
  size : e.queue.size = n
  count : e.speechCount = n

theorem Blank.filled (blank : e.Blank s) : e.Filled 0 :=
  ⟨blank.steady, blank.inSpeech, by simp [blank.queue, Fifo.empty], blank.speechCount⟩

theorem popFull {n : Nat} (counted : e.Counted) (size : e.queue.size = n + 1) (count : e.speechCount = n + 1) :
    e.pop.2.speechCount = n ∧ e.pop.2.queue.size = n := by
  cases items : e.queue.toList with
  | nil => simp [Fifo.sizeEq, items] at size
  | cons f rest =>
    obtain ⟨queue, left, popped⟩ := popSome items
    have all : (f :: rest).countP LabelledFrame.isSpeech = (f :: rest).length := by
      rw [← items, ← Fifo.sizeEq, size, ← count]
      exact counted.symm
    have speech : f.isSpeech = true := List.countP_eq_length.mp all f List.mem_cons_self
    have length := Fifo.sizeEq e.queue
    simp only [items, List.length_cons] at length
    simp only [popped, speech, if_true, Fifo.sizeEq, left]
    omega

variable [Score α]

def label (s : Scale α) (e : Endpointer τ α) (frame : List Int16) : Bool :=
  s.isSpeech e.detector.mode e.detector.floor (s.level frame)

/-- With a frame in the window of which nothing is concluded yet. -/
def taken (s : Scale α) (e : Endpointer τ α) (frame : List Int16) : Endpointer τ α :=
  { e with detector := { e.detector with floor := s.follow e.detector.floor (s.level frame) } }.insert
    ⟨frame, e.label s frame⟩

theorem hearTaken (s : Scale α) (e : Endpointer τ α) (frame : List Int16) :
    e.hear s frame = (e.taken s frame).conclude := rfl

theorem takenSame (s : Scale α) (e : Endpointer τ α) (frame : List Int16) : Same e (e.taken s frame) := by
  have heard : Same e { e with
    detector := { e.detector with floor := s.follow e.detector.floor (s.level frame) } } :=
    ⟨rfl, rfl, rfl, rfl, rfl, rfl⟩
  exact heard.trans (insertSame _ _)

theorem takenSpeech (s : Scale α) (e : Endpointer τ α) (frame : List Int16) :
    (e.taken s frame).inSpeech = e.inSpeech := insertSpeech _ _

theorem takenFree (free : e.queue.size < e.capacity) {frame : List Int16} (speech : e.label s frame = true) :
    (e.taken s frame).speechCount = e.speechCount + 1 ∧ (e.taken s frame).queue.size = e.queue.size + 1 := by
  simp [taken, insert, speech, Nat.ne_of_lt free, Fifo.push]

theorem takenCounted (room : 0 < e.capacity) (steady : e.Steady) (frame : List Int16) :
    (e.taken s frame).Counted ∧ (e.taken s frame).queue.size ≤ (e.taken s frame).capacity ∧
      (e.taken s frame).queue.toList ≠ [] := by
  obtain ⟨counted, within, free⟩ := steady
  let heard : Endpointer τ α := { e with
    detector := { e.detector with floor := s.follow e.detector.floor (s.level frame) } }
  obtain ⟨counted, within, some, _⟩ := insertCounted (e := heard) ⟨counted, within, free⟩ room ⟨frame, e.label s frame⟩
  rw [(e.takenSame s frame).capacity]
  exact ⟨counted, within, some⟩

theorem hearSteady (s : Scale α) (room : 0 < e.capacity) (steady : e.Steady) (frame : List Int16) :
    (e.hear s frame).2.Steady := by
  obtain ⟨counted, within, some⟩ := takenCounted (s := s) room steady frame
  exact concludeSteady counted within some

theorem hearAllStaysSteady (s : Scale α) (room : 0 < e.capacity) (steady : e.Steady) (frames : List (List Int16)) :
    (e.hearAll s frames).2.Steady := by
  induction frames generalizing e with
  | nil => exact steady
  | cons frame rest ih =>
    have next := hearSteady s room steady frame
    rw [← (e.hearSame s frame).capacity] at room
    exact ih room next

theorem reachedSteady (blank : made.Blank s) (reached : Reached s made e) : e.Steady := by
  induction reached with
  | made => exact blank.steady
  | @pushed e e' samples events before ok ih =>
    have heard := pushHear s (reachedSame blank before).2 samples
    rw [ok] at heard
    cases heard
    have room := blank.room
    rw [← (reachedSame blank before).1.capacity] at room
    obtain ⟨counted, within, free⟩ := hearAllStaysSteady s room ih
      (Pieces.gather (e.detector.frameSize - 1) e.pending samples).1
    exact ⟨counted, within, free⟩
  | finished before ih => exact finishSteady ih.counted
  | reset before ih => exact (resetBlank blank before).steady

/-! ### Speech that goes on -/

/-- The labels that frames get one after another. -/
def labels (s : Scale α) (e : Endpointer τ α) : List (List Int16) → List Bool
  | [] => []
  | frame :: rest => e.label s frame :: (e.hear s frame).2.labels s rest

theorem Going.hear (room : 0 < e.capacity) (few : e.endFrames ≤ e.startFrames + 1) (going : e.Going)
    {frame : List Int16} (speech : e.label s frame = true) :
    (e.hear s frame).2.Going ∧ ∀ time, .finish time ∉ (e.hear s frame).1 := by
  have enough := going.enough
  have same := e.takenSame s frame
  have speaking := (e.takenSpeech s frame).trans going.speaking
  obtain ⟨count, _⟩ := takenFree (going.steady.room going.speaking) speech
  have next := hearSteady s room going.steady frame
  have still : e.hear s frame = (e.taken s frame).release := by
    rw [hearTaken, concludeOn speaking]
    rw [same.endFrames]
    omega
  rw [still] at next ⊢
  exact releaseOn next speaking (by rw [same.startFrames]; omega)

theorem Going.hearAll (room : 0 < e.capacity) (few : e.endFrames ≤ e.startFrames + 1) (going : e.Going)
    {frames : List (List Int16)} (speech : ∀ l ∈ e.labels s frames, l = true) :
    (e.hearAll s frames).2.Going ∧ ∀ time, .finish time ∉ (e.hearAll s frames).1 := by
  induction frames generalizing e with
  | nil => exact ⟨going, by simp [Endpointer.hearAll]⟩
  | cons frame rest ih =>
    simp only [labels, List.mem_cons, forall_eq_or_imp] at speech
    obtain ⟨next, first⟩ := going.hear (s := s) room few speech.1
    have same := e.hearSame s frame
    rw [← same.capacity] at room
    rw [← same.endFrames, ← same.startFrames] at few
    obtain ⟨last, later⟩ := ih room few next speech.2
    exact ⟨last, fun time => by simp [Endpointer.hearAll, first time, later time]⟩

/-- An utterance begins with as much speech as it takes to go on. -/
theorem startGoing (room : 0 < e.capacity) (steady : e.Steady) {frame : List Int16} {time : τ}
    (told : .start time ∈ (e.hear s frame).1) :
    (e.hear s frame).2.Going ∧ ∀ time, .finish time ∉ (e.hear s frame).1 := by
  have next := hearSteady s room steady frame
  rw [hearTaken] at told next ⊢
  obtain ⟨idle, more⟩ := concludeBegins told
  rw [concludeBegun idle more] at next ⊢
  obtain ⟨going, none⟩ := releaseOn (e := (e.taken s frame).begun) next rfl more
  exact ⟨going, fun time => by simpa using none time⟩

/-! ### Speech that ends at once -/

theorem Filled.hear {n : Nat} (filled : e.Filled n) (less : n < e.startFrames) (room : e.startFrames < e.capacity)
    {frame : List Int16} (speech : e.label s frame = true) : (e.hear s frame).2.Filled (n + 1) := by
  have next := hearSteady s (by omega) filled.steady frame
  have same := e.takenSame s frame
  have size := filled.size
  obtain ⟨count, more⟩ := takenFree (by omega) speech
  rw [filled.count] at count
  rw [filled.size] at more
  have idle := (e.takenSpeech s frame).trans filled.idle
  have few : ¬ (e.taken s frame).startFrames < (e.taken s frame).speechCount := by
    rw [same.startFrames]
    omega
  have still : e.hear s frame = ([], e.taken s frame) := by simp [hearTaken, conclude, idle, few]
  rw [still] at next ⊢
  exact ⟨next, idle, more, count⟩

theorem Filled.hearAll {n : Nat} (filled : e.Filled n) (room : e.startFrames < e.capacity) {frames : List (List Int16)}
    (less : n + frames.length ≤ e.startFrames) (speech : ∀ l ∈ e.labels s frames, l = true) :
    (e.hearAll s frames).2.Filled (n + frames.length) := by
  induction frames generalizing e n with
  | nil => exact filled
  | cons frame rest ih =>
    simp only [labels, List.mem_cons, forall_eq_or_imp, List.length_cons] at speech less
    have next := filled.hear (s := s) (by omega) room speech.1
    have same := e.hearSame s frame
    rw [← same.startFrames] at less
    rw [← same.startFrames, ← same.capacity] at room
    have last := ih next room (by omega) speech.2
    simpa [Endpointer.hearAll, Nat.add_assoc, Nat.add_comm 1] using last

/-- When an utterance needs more speech to go on than it has one frame after its beginning, it ends there. -/
theorem Filled.ends (filled : e.Filled e.startFrames) (room : e.startFrames < e.capacity)
    (many : e.startFrames + 1 < e.endFrames) {frame next : List Int16}
    (speech : ∀ l ∈ e.labels s [frame, next], l = true) :
    (∃ time, .start time ∈ (e.hear s frame).1) ∧ ∃ time, .finish time ∈ ((e.hear s frame).2.hear s next).1 := by
  simp only [labels, List.mem_cons, List.not_mem_nil, or_false, forall_eq_or_imp, forall_eq] at speech
  have same := e.takenSame s frame
  have first := filled.size
  obtain ⟨count, size⟩ := takenFree (by omega) speech.1
  rw [filled.count] at count
  rw [filled.size] at size
  have idle := (e.takenSpeech s frame).trans filled.idle
  have more : (e.taken s frame).startFrames < (e.taken s frame).speechCount := by
    rw [same.startFrames]
    omega
  have begins := concludeBegun idle more
  rw [← hearTaken] at begins
  obtain ⟨counted, _⟩ := takenCounted (s := s) (by omega) filled.steady frame
  obtain ⟨left, held⟩ := popFull (e := (e.taken s frame).begun) counted size count
  obtain ⟨_, _, _, popped⟩ := (e.taken s frame).begun.popIs
  refine ⟨⟨_, by rw [begins]; exact List.mem_cons_self⟩, ?_⟩
  -- one frame came in and one went out, so the window is as full of speech as before
  have after : (e.hear s frame).2 = (e.taken s frame).begun.pop.2 := by rw [begins, releaseIs]
  have again := e.hearSame s frame
  have later := (e.hear s frame).2.takenSame s next
  rw [← after] at left held
  obtain ⟨count, _⟩ := takenFree (by rw [again.capacity]; omega) speech.2
  have speaking : ((e.hear s frame).2.taken s next).inSpeech = true := by
    rw [takenSpeech, after, popped]
    rfl
  have less : ((e.hear s frame).2.taken s next).speechCount < ((e.hear s frame).2.taken s next).endFrames := by
    rw [later.endFrames, again.endFrames]
    omega
  exact concludeEnds speaking less

/-! ### Whole streams -/

theorem labelsAppend (s : Scale α) (e : Endpointer τ α) (first second : List (List Int16)) :
    e.labels s (first ++ second) = e.labels s first ++ (e.hearAll s first).2.labels s second := by
  induction first generalizing e with
  | nil => rfl
  | cons frame rest ih => simp [labels, hearAll, ih]

/-- The frames that pieces of a stream complete. -/
def completed (e : Endpointer τ α) (pieces : List (List Int16)) : List (List Int16) :=
  (Pieces.gather (e.detector.frameSize - 1) e.pending pieces.flatten).1

/-- Where it takes no more speech to go on than to begin, speech without a break is one utterance, which stays open
until the stream is ended. Where it takes more, a stream that begins with speech has its first utterance ended with
the frame after the one that began it. -/
theorem unbrokenSpeech (ok : make s c = .ok made) :
    (made.endFrames ≤ made.startFrames + 1 → ∀ e, Reached s made e → ∀ pieces before frame later,
      e.completed pieces = before ++ frame :: later →
      let first := (e.hearAll s before).2
      let rest := first.hearAll s (frame :: later)
      (∃ time, .start time ∈ (first.hear s frame).1) → (∀ l ∈ first.labels s (frame :: later), l = true) →
      ∃ events last, e.pushEach s pieces = .ok (events, last) ∧ events.flatten = (e.hearAll s before).1 ++ rest.1 ∧
        (∀ time, .finish time ∉ rest.1) ∧ last.inSpeech = true ∧ ∃ time, .finish time ∈ last.finish.1) ∧
    (made.startFrames + 1 < made.endFrames → ∀ e, New s made e → ∀ pieces before frame next,
      e.completed pieces = before ++ [frame, next] → before.length = made.startFrames →
      (∀ l ∈ e.labels s (before ++ [frame, next]), l = true) →
      let first := (e.hearAll s before).2
      let begun := first.hear s frame
      let ended := begun.2.hear s next
      (∃ time, .start time ∈ begun.1) ∧ (∃ time, .finish time ∈ ended.1) ∧
        ∃ events last, e.pushEach s pieces = .ok (events, last) ∧
          events.flatten = (e.hearAll s before).1 ++ (begun.1 ++ ended.1)) := by
  have blank := (makeBlank ok).1
  obtain ⟨_, room, _, _⟩ := makeThresholds ok
  constructor
  · intro few e reached pieces before frame later whole first rest ⟨time, told⟩ speech
    obtain ⟨same, free⟩ := reachedSame blank reached
    have still := same.trans (e.hearAllSame s before)
    have again := first.hearSame s frame
    have space : 0 < e.capacity := by rw [same.capacity]; exact blank.room
    have steady := hearAllStaysSteady s space (reachedSteady blank reached) before
    rw [← (e.hearAllSame s before).capacity] at space
    obtain ⟨going, none⟩ := startGoing space steady told
    simp only [labels, List.mem_cons, forall_eq_or_imp] at speech
    obtain ⟨last, silent⟩ := going.hearAll (s := s) (by rw [again.capacity]; exact space)
      (by rw [again.endFrames, again.startFrames, still.endFrames, still.startFrames]; exact few) speech.2
    obtain ⟨events, pushed, joined⟩ := pushEachHear s free pieces
    rw [show (Pieces.gather _ e.pending pieces.flatten).1 = _ from whole, hearAllAppend] at pushed joined
    refine ⟨events, _, pushed, joined, fun time told => ?_, last.speaking, finishEnds last.speaking⟩
    exact (List.mem_append.mp told).elim (none time) (silent time)
  · intro many e new pieces before frame next whole length speech first begun ended
    obtain ⟨blank, same⟩ := newBlank ok new
    have still := same.trans (e.hearAllSame s before)
    rw [labelsAppend] at speech
    have filled : first.Filled (0 + before.length) := blank.filled.hearAll
      (by rw [same.startFrames, same.capacity]; exact room) (by rw [same.startFrames]; omega)
      fun l mem => speech l (List.mem_append_left _ mem)
    rw [Nat.zero_add, length, ← still.startFrames] at filled
    obtain ⟨begins, ends⟩ := filled.ends (s := s) (by rw [still.startFrames, still.capacity]; exact room)
      (by rw [still.startFrames, still.endFrames]; exact many) fun l mem => speech l (List.mem_append_right _ mem)
    obtain ⟨events, pushed, joined⟩ := pushEachHear s blank.open pieces
    rw [show (Pieces.gather _ e.pending pieces.flatten).1 = _ from whole, hearAllAppend] at joined
    exact ⟨begins, ends, events, _, pushed, by simpa [hearAll, begun, ended, first] using joined⟩

/-- Sound that goes on until the stream ends, and sound that is cut at its third frame. -/
theorem unbrokenOfShortStreams :
    (∃ made : Endpointer Rat Whole, make firstSample ⟨0.1, 0.6, .loose, 100, 0.02⟩ = .ok made ∧
      made.endFrames ≤ made.startFrames + 1 ∧
      ∃ events last, made.pushEach firstSample [[0, 0, 7], [7, 7, 7, 7, 7, 7, 7], [], [7, 7]] = .ok (events, last) ∧
        last.inSpeech = true) ∧
    ∃ made : Endpointer Rat Whole, make firstSample ⟨0.1, 0.2, .loose, 100, 0.02⟩ = .ok made ∧
      made.startFrames + 1 < made.endFrames ∧
      ∃ events last, made.pushEach firstSample [[7, 7, 7], [7, 7, 7]] = .ok (events, last) ∧
        ∃ time, .finish time ∈ events.flatten := by
  constructor
  · have accepted : ((make firstSample ⟨0.1, 0.6, .loose, 100, 0.02⟩ : Except Problem (Endpointer Rat Whole)).map
        fun e =>
          let first := (e.hearAll firstSample [[0, 0], [7, 7], [7, 7], [7, 7]]).2
          decide (e.startFrames = 3 ∧ e.endFrames = 2 ∧
            e.completed [[0, 0, 7], [7, 7, 7, 7, 7, 7, 7], [], [7, 7]] =
              [[0, 0], [7, 7], [7, 7], [7, 7], [7, 7], [7, 7]] ∧
            first.inSpeech = false ∧ (first.taken firstSample [7, 7]).startFrames = 3 ∧
            (first.taken firstSample [7, 7]).speechCount = 4 ∧
            first.labels firstSample [[7, 7], [7, 7]] = [true, true])).toOption = some true := by
      decide +kernel
    obtain ⟨made, ok, facts⟩ := Outcome.mapOk accepted
    obtain ⟨starts, ends, whole, idle, needs, has, speech⟩ := of_decide_eq_true facts
    have begins := concludeBegun ((takenSpeech firstSample _ [7, 7]).trans idle) (by rw [needs, has]; decide)
    have few : made.endFrames ≤ made.startFrames + 1 := by rw [starts, ends]; decide
    obtain ⟨events, last, pushed, _, _, still, _⟩ := (unbrokenSpeech ok).1 few made .made _
      [[0, 0], [7, 7], [7, 7], [7, 7]] [7, 7] [[7, 7]] whole
      ⟨_, by rw [hearTaken, begins]; exact List.mem_cons_self⟩ (by simp [speech])
    exact ⟨made, ok, few, events, last, pushed, still⟩
  · have accepted : ((make firstSample ⟨0.1, 0.2, .loose, 100, 0.02⟩ : Except Problem (Endpointer Rat Whole)).map
        fun e => decide (e.startFrames = 1 ∧ e.endFrames = 4 ∧
          e.completed [[7, 7, 7], [7, 7, 7]] = [[7, 7], [7, 7], [7, 7]] ∧
          e.labels firstSample [[7, 7], [7, 7], [7, 7]] = [true, true, true])).toOption = some true := by
      decide +kernel
    obtain ⟨made, ok, facts⟩ := Outcome.mapOk accepted
    obtain ⟨starts, ends, whole, speech⟩ := of_decide_eq_true facts
    have many : made.startFrames + 1 < made.endFrames := by rw [starts, ends]; decide
    obtain ⟨_, ⟨time, told⟩, events, last, pushed, joined⟩ := (unbrokenSpeech ok).2 many made (.inl rfl) _
      [[7, 7]] [7, 7] [7, 7] whole starts.symm (by simp [speech])
    exact ⟨made, ok, many, events, last, pushed, time, by simp [joined, told]⟩

/-- The logarithm by the number of digits, which is exact at powers of ten. -/
@[reducible] def digitLogarithm : Elementary :=
  { Elementary.system with log10 := fun x => Binary.ofNatural (Decimal.width (Binary.truncateToWord x) - 1) }

/-- At a ratio of a fifth the third frame of a sound begins an utterance and the fourth ends it, although the sound
goes on. -/
theorem endedInSpeech :
    let _ := digitLogarithm
    let scale := Activity.decibelScale
    let loud : List Int16 := [1000, -1000]
    ∃ made : Endpointer Float Float32, make scale ⟨0.2, 0.2, .loose, 100, 0.02⟩ = .ok made ∧
      let first := (made.hearAll scale [loud, loud]).2
      made.completed [loud ++ loud, loud ++ loud] = [loud, loud] ++ loud :: [loud] ∧
      (∃ time, .start time ∈ (first.hear scale loud).1) ∧ (∀ l ∈ first.labels scale [loud, loud], l = true) ∧
      ∃ events last, made.pushEach scale [loud ++ loud, loud ++ loud] = .ok (events, last) ∧
        events.flatten = (made.hearAll scale [loud, loud]).1 ++ (first.hearAll scale [loud, loud]).1 ∧
        ∃ time, .finish time ∈ (first.hearAll scale [loud, loud]).1 := by
  intro _ scale loud
  have accepted : ((make scale ⟨0.2, 0.2, .loose, 100, 0.02⟩ : Except Problem (Endpointer Float Float32)).map
      fun e => decide (e.startFrames = 2 ∧ e.endFrames = 8 ∧ e.capacity = 10 ∧
        e.completed [loud ++ loud, loud ++ loud] = [loud, loud, loud, loud] ∧
        e.labels scale [loud, loud] = [true, true] ∧
        (e.hearAll scale [loud, loud]).2.labels scale [loud, loud] = [true, true])).toOption = some true := by
    decide +kernel
  obtain ⟨made, ok, facts⟩ := Outcome.mapOk accepted
  obtain ⟨starts, ends, size, whole, before, speech⟩ := of_decide_eq_true facts
  have same := made.hearAllSame scale [loud, loud]
  have filled : (made.hearAll scale [loud, loud]).2.Filled 2 := (makeBlank ok).1.filled.hearAll
    (by rw [starts, size]; decide) (by rw [starts]; decide) (by simp [before])
  have each : ∀ l ∈ (made.hearAll scale [loud, loud]).2.labels scale [loud, loud], l = true := by simp [speech]
  obtain ⟨begins, time, told⟩ := Filled.ends (s := scale) (by rw [same.startFrames, starts]; exact filled)
    (by rw [same.startFrames, same.capacity, starts, size]; decide)
    (by rw [same.startFrames, same.endFrames, starts, ends]; decide) each
  obtain ⟨events, pushed, joined⟩ := pushEachHear scale (makeBlank ok).1.open [loud ++ loud, loud ++ loud]
  rw [show (Pieces.gather _ made.pending [loud ++ loud, loud ++ loud].flatten).1 = _ from whole,
    show [loud, loud, loud, loud] = [loud, loud] ++ [loud, loud] from rfl, hearAllAppend] at joined
  exact ⟨made, ok, whole, begins, each, events, _, pushed, joined, time,
    List.mem_append_right _ (List.mem_append_left _ told)⟩

end SpeechDecoder.Endpointer
