import SpeechDecoder.Proofs.Endpointer.Window

/-! The utterances that an endpointer tells of are slices of its stream, in order and apart from each other. A
relation says which time stands at which place of the stream; it may be as loose as the arithmetic of times asks. -/
namespace SpeechDecoder

/-- An utterance as it is told, with the places of the stream where it begins and where it ends. -/
structure Spoken (τ : Type) where
  start : τ
  finish : τ
  audio : List (List Int16)
  first : Nat
  last : Nat

namespace Spoken
variable {τ : Type}

def opening (start : τ) (audio : List (List Int16)) : List (SpeechEvent τ) := .start start :: audio.map .audio

def events (u : Spoken τ) : List (SpeechEvent τ) := opening u.start u.audio ++ [.finish u.finish]

structure Slice (shows : τ → Nat → Prop) (stream : List Int16) (u : Spoken τ) : Prop where
  some : u.audio ≠ []
  joined : u.audio.flatten = (stream.take u.last).drop u.first
  ordered : u.first < u.last
  inside : u.last ≤ stream.length
  start : shows u.start u.first
  finish : shows u.finish u.last

structure Slices (shows : τ → Nat → Prop) (stream : List Int16) (told : List (Spoken τ)) : Prop where
  each : ∀ u ∈ told, u.Slice shows stream
  apart : told.Pairwise fun u v => u.last ≤ v.first

end Spoken

/-- Time zero stands at the beginning, and times add up as samples do. -/
structure Clock {τ : Type} [Time τ] (rate : Nat) (shows : τ → Nat → Prop) : Prop where
  zero : shows Time.zero 0
  later : ∀ t place n, shows t place → shows (Time.add t (Time.ofSamples n rate)) (place + n)

namespace Endpointer
open Activity (Scale)

section
variable {τ : Type}

/-- What events tell up to a place of the stream, in an utterance or not. -/
inductive Telling (shows : τ → Nat → Prop) (stream : List Int16) (place : Nat) :
    Bool → List (SpeechEvent τ) → Prop where
  | silent {told : List (Spoken τ)} (slices : Spoken.Slices shows stream told) (past : ∀ u ∈ told, u.last ≤ place) :
      Telling shows stream place false (told.flatMap Spoken.events)
  | speaking {told : List (Spoken τ)} {start : τ} {audio : List (List Int16)} {first : Nat}
      (slices : Spoken.Slices shows stream told) (past : ∀ u ∈ told, u.last ≤ first) (began : shows start first)
      (some : audio ≠ []) (more : first < place) (joined : audio.flatten = (stream.take place).drop first) :
      Telling shows stream place true (told.flatMap Spoken.events ++ Spoken.opening start audio)

theorem takeMore {stream frame rest : List Int16} {place first : Nat} (ahead : stream.drop place = frame ++ rest)
    (inside : place ≤ stream.length) (before : first ≤ place) :
    (stream.take (place + frame.length)).drop first = (stream.take place).drop first ++ frame := by
  have size : (stream.take place).length = place := List.length_take_of_le inside
  rw [List.take_add, ahead, List.take_left, List.drop_append_of_le_length (by omega)]

variable {shows : τ → Nat → Prop} {stream : List Int16} {place : Nat} {events : List (SpeechEvent τ)}

theorem Telling.later (telling : Telling shows stream place false events) {place' : Nat} (le : place ≤ place') :
    Telling shows stream place' false events := by
  cases telling with
  | silent slices past => exact .silent slices fun u mem => Nat.le_trans (past u mem) le

theorem Telling.begin (telling : Telling shows stream place false events) {start : τ} (now : shows start place)
    {frame rest : List Int16} (ahead : stream.drop place = frame ++ rest) (inside : place ≤ stream.length)
    (some : 0 < frame.length) :
    Telling shows stream (place + frame.length) true (events ++ [.start start, .audio frame]) := by
  cases telling with
  | silent slices past =>
    have joined : [frame].flatten = (stream.take (place + frame.length)).drop place := by
      simp [takeMore ahead inside (Nat.le_refl place)]
    exact .speaking slices past now (by simp) (by omega) joined

theorem Telling.more (telling : Telling shows stream place true events) {frame rest : List Int16}
    (ahead : stream.drop place = frame ++ rest) (inside : place ≤ stream.length) :
    Telling shows stream (place + frame.length) true (events ++ [.audio frame]) := by
  cases telling with
  | @speaking told start audio first slices past began some less joined =>
    have longer := takeMore ahead inside (Nat.le_of_lt less)
    have same : told.flatMap Spoken.events ++ Spoken.opening start audio ++ [.audio frame] =
        told.flatMap Spoken.events ++ Spoken.opening start (audio ++ [frame]) := by simp [Spoken.opening]
    rw [same]
    refine .speaking slices past began (by simp) (by omega) ?_
    simp [joined, longer]

theorem Telling.finish (telling : Telling shows stream place true events) {time : τ} (now : shows time place)
    (inside : place ≤ stream.length) : Telling shows stream place false (events ++ [.finish time]) := by
  cases telling with
  | @speaking told start audio first slices past began some less joined =>
    let u : Spoken τ := ⟨start, time, audio, first, place⟩
    have same : told.flatMap Spoken.events ++ Spoken.opening start audio ++ [.finish time] =
        (told ++ [u]).flatMap Spoken.events := by simp [Spoken.events, u]
    rw [same]
    refine .silent ⟨fun v mem => ?_, ?_⟩ fun v mem => ?_
    · rcases List.mem_append.mp mem with old | new
      · exact slices.each v old
      · rw [List.mem_singleton.mp new]
        exact ⟨some, joined, less, inside, began, now⟩
    · rw [List.pairwise_append]
      refine ⟨slices.apart, List.pairwise_singleton _ _, fun v mem w new => ?_⟩
      rw [List.mem_singleton.mp new]
      exact past v mem
    · rcases List.mem_append.mp mem with old | new
      · exact Nat.le_trans (past v old) (Nat.le_of_lt less)
      · exact Nat.le_of_eq (congrArg Spoken.last (List.mem_singleton.mp new))

theorem Telling.told (telling : Telling shows stream place false events) :
    ∃ told : List (Spoken τ), events = told.flatMap Spoken.events ∧ Spoken.Slices shows stream told := by
  cases telling with
  | silent slices _ => exact ⟨_, rfl, slices⟩

end

variable {τ α : Type} {e : Endpointer τ α}

/-! ### The window -/

def Counted (e : Endpointer τ α) : Prop := e.speechCount = e.queue.toList.countP LabelledFrame.isSpeech

/-- What holds between calls. In speech the window has room for the next frame. -/
structure Steady (e : Endpointer τ α) : Prop where
  counted : e.Counted
  within : e.queue.size ≤ e.capacity
  room : e.inSpeech = true → e.queue.size < e.capacity

/-- The window begins at a place of the stream, and `rest` is what has not come into it. -/
structure Standing (shows : τ → Nat → Prop) (stream : List Int16) (place : Nat) (rest : List Int16)
    (e : Endpointer τ α) : Prop where
  inside : place ≤ stream.length
  ahead : stream.drop place = e.queue.toList.flatMap LabelledFrame.samples ++ rest
  clock : shows e.queueStart place
  sizes : ∀ f ∈ e.queue.toList, f.samples.length = e.detector.frameSize

theorem Counted.enough (counted : e.Counted) {f : LabelledFrame} {more : List LabelledFrame}
    (items : e.queue.toList = f :: more) (speech : f.isSpeech = true) : 0 < e.speechCount := by
  have count : e.speechCount = (f :: more).countP LabelledFrame.isSpeech := items ▸ counted
  simp [count, speech]

variable [Time τ] {shows : τ → Nat → Prop} {stream rest : List Int16} {place : Nat}
  {events : List (SpeechEvent τ)}

theorem Counted.pop (counted : e.Counted) : e.pop.2.Counted := by
  cases items : e.queue.toList with
  | nil =>
    rw [popEmpty items]
    exact counted
  | cons f more =>
    obtain ⟨queue, same, popped⟩ := popSome items
    have count : e.speechCount = (f :: more).countP LabelledFrame.isSpeech := items ▸ counted
    rw [popped]
    change (if f.isSpeech = true then e.speechCount - 1 else e.speechCount) = _
    rw [count, same]
    cases speech : f.isSpeech <;> simp [speech]

theorem Standing.pop (clock : Clock e.detector.sampleRate shows)
    (standing : Standing shows stream place rest e) {f : LabelledFrame} {more : List LabelledFrame}
    (items : e.queue.toList = f :: more) :
    stream.drop place = f.samples ++ (more.flatMap LabelledFrame.samples ++ rest) ∧
      Standing shows stream (place + f.samples.length) rest e.pop.2 := by
  obtain ⟨inside, ahead, now, sizes⟩ := standing
  obtain ⟨queue, same, popped⟩ := popSome items
  rw [items, List.flatMap_cons, List.append_assoc] at ahead
  have size : stream.length - place = f.samples.length + (more.flatMap LabelledFrame.samples ++ rest).length := by
    rw [← List.length_drop, ahead, List.length_append]
  have frame := sizes f (by simp [items])
  refine ⟨ahead, ?_⟩
  rw [popped]
  refine ⟨by omega, ?_, ?_, fun g mem => ?_⟩
  · rw [← List.drop_drop, ahead, List.drop_left, same]
  · rw [frame]
    exact clock.later _ _ _ now
  · rw [same] at mem
    exact sizes g (by simp [items, mem])

theorem insertCounted (steady : e.Steady) (room : 0 < e.capacity) (f : LabelledFrame) :
    (e.insert f).Counted ∧ (e.insert f).queue.size ≤ e.capacity ∧ (e.insert f).queue.toList ≠ [] ∧
      (e.inSpeech = true → (e.insert f).queue.toList = e.queue.toList ++ [f]) := by
  obtain ⟨counted, within, free⟩ := steady
  -- in speech there is room, so that no frame of an utterance is dropped
  let kept := if e.queue.size = e.capacity then e.pop.2 else e
  have before : kept.Counted ∧ kept.queue.size < e.capacity ∧ (e.inSpeech = true → kept = e) := by
    by_cases full : e.queue.size = e.capacity
    · have same : kept = e.pop.2 := if_pos full
      have still : e.inSpeech = true → kept = e := fun speech => absurd full (Nat.ne_of_lt (free speech))
      cases items : e.queue.toList with
      | nil =>
        rw [Fifo.sizeEq, items] at full
        simp at full
        omega
      | cons g more =>
        obtain ⟨queue, left, popped⟩ := popSome items
        refine ⟨same ▸ counted.pop, ?_, still⟩
        rw [same, popped, Fifo.sizeEq, ← full, Fifo.sizeEq, items, left]
        simp
    · have same : kept = e := if_neg full
      exact ⟨same ▸ counted, by rw [same]; omega, fun _ => same⟩
  obtain ⟨counted, less, still⟩ := before
  have items : (e.insert f).queue.toList = kept.queue.toList ++ [f] := Fifo.toListPush kept.queue f
  refine ⟨?_, ?_, by simp [items], fun speech => by rw [items, still speech]⟩
  · change (if f.isSpeech = true then kept.speechCount + 1 else kept.speechCount) = _
    rw [items, List.countP_append]
    have count : kept.speechCount = kept.queue.toList.countP LabelledFrame.isSpeech := counted
    cases speech : f.isSpeech <;> simp [speech, count]
  · exact less

theorem insertStanding (clock : Clock e.detector.sampleRate shows) {f : LabelledFrame}
    (standing : Standing shows stream place (f.samples ++ rest) e) (steady : e.Steady)
    (size : f.samples.length = e.detector.frameSize) :
    ∃ place', place ≤ place' ∧ (e.inSpeech = true → place' = place) ∧
      Standing shows stream place' rest (e.insert f) := by
  have push {kept : Endpointer τ α} {place : Nat} (frames : kept.detector.frameSize = e.detector.frameSize)
      (before : Standing shows stream place (f.samples ++ rest) kept) : Standing shows stream place rest
        { kept with
          queue := kept.queue.push f
          speechCount := if f.isSpeech then kept.speechCount + 1 else kept.speechCount } := by
    refine ⟨before.inside, ?_, before.clock, fun g mem => ?_⟩
    · rw [before.ahead, Fifo.toListPush]
      simp
    · rw [Fifo.toListPush] at mem
      rcases List.mem_append.mp mem with old | new
      · exact before.sizes g old
      · rw [List.mem_singleton.mp new]
        exact size.trans frames.symm
  unfold insert
  dsimp only
  split
  · rename_i full
    cases items : e.queue.toList with
    | nil =>
      rw [popEmpty items]
      exact ⟨place, Nat.le_refl place, fun _ => rfl, push rfl standing⟩
    | cons g more =>
      refine ⟨_, Nat.le_add_right place g.samples.length, fun speech => ?_,
        push e.popSame.frameSize (standing.pop clock items).2⟩
      exact absurd full (Nat.ne_of_lt (steady.room speech))
  · exact ⟨place, Nat.le_refl place, fun _ => rfl, push rfl standing⟩

theorem insertSpeech (e : Endpointer τ α) (f : LabelledFrame) : (e.insert f).inSpeech = e.inSpeech := by
  unfold insert pop
  split
  · split <;> rfl
  · rfl

theorem popWithin {f : LabelledFrame} {more : List LabelledFrame} (items : e.queue.toList = f :: more)
    (within : e.queue.size ≤ e.capacity) : e.pop.2.queue.size < e.capacity := by
  obtain ⟨queue, left, popped⟩ := popSome items
  rw [Fifo.sizeEq, items] at within
  rw [popped, Fifo.sizeEq, left]
  simp at within
  omega

theorem popSpeaking (counted : e.Counted) (within : e.queue.size ≤ e.capacity) (speech : e.inSpeech = true)
    {f : LabelledFrame} {more : List LabelledFrame} (items : e.queue.toList = f :: more) :
    e.pop.2.Steady ∧ e.pop.2.inSpeech = true := by
  obtain ⟨queue, _, popped⟩ := popSome items
  have less : e.pop.2.queue.size < e.pop.2.capacity := by
    rw [e.popSame.capacity]
    exact popWithin items within
  refine ⟨⟨counted.pop, Nat.le_of_lt less, fun _ => less⟩, ?_⟩
  rw [popped]
  exact speech

theorem concludeTold (clock : Clock e.detector.sampleRate shows) (frames : 0 < e.detector.frameSize)
    (standing : Standing shows stream place rest e) (counted : e.Counted)
    (within : e.queue.size ≤ e.capacity) (some : e.queue.toList ≠ [])
    (telling : Telling shows stream place e.inSpeech events) :
    ∃ place', Standing shows stream place' rest e.conclude.2 ∧ e.conclude.2.Steady ∧
      Telling shows stream place' e.conclude.2.inSpeech (events ++ e.conclude.1) := by
  obtain ⟨f, more, items⟩ := List.exists_cons_of_ne_nil some
  unfold conclude
  cases speech : e.inSpeech with
  | true =>
    rw [speech] at telling
    obtain ⟨ahead, next⟩ := standing.pop clock items
    obtain ⟨steady, still⟩ := popSpeaking counted within speech items
    have further := telling.more ahead standing.inside
    simp only [if_true, releaseSome items]
    split
    · -- the utterance ends with the frame that goes out
      refine ⟨_, ⟨next.inside, next.ahead, next.clock, next.sizes⟩, ⟨steady.counted, steady.within, by simp⟩, ?_⟩
      simpa using further.finish next.clock next.inside
    · refine ⟨_, next, steady, ?_⟩
      rw [still]
      exact further
  | false =>
    rw [speech] at telling
    simp only [Bool.false_eq_true, if_false]
    split
    · -- an utterance begins where the window does, with the oldest frame in it
      let begun : Endpointer τ α := { e with
        speechStart := e.queueStart, speechEnd := Time.zero, inSpeech := true }
      have items' : begun.queue.toList = f :: more := items
      have standing' : Standing shows stream place rest begun :=
        ⟨standing.inside, standing.ahead, standing.clock, standing.sizes⟩
      obtain ⟨ahead, next⟩ := Standing.pop (e := begun) clock standing' items'
      obtain ⟨steady, still⟩ := popSpeaking (e := begun) counted within rfl items'
      have filled : 0 < f.samples.length := by
        rw [standing.sizes f (by simp [items])]
        exact frames
      have told := telling.begin standing.clock ahead standing.inside filled
      have released : (SpeechEvent.start begun.speechStart :: begun.release.1, begun.release.2) =
          (([.start e.queueStart, .audio f.samples], begun.pop.2) :
            List (SpeechEvent τ) × Endpointer τ α) := by
        rw [releaseSome items']
      change ∃ place', Standing _ _ _ _ (_, begun.release.2).2 ∧ _
      rw [released]
      exact ⟨_, next, steady, by rw [still]; exact told⟩
    · refine ⟨place, standing, ⟨counted, within, fun speaking => ?_⟩, ?_⟩
      · rw [speech] at speaking
        cases speaking
      · simpa [speech] using telling

/-! ### Streams -/

/-- What was told fits the stream up to the place where the window begins. -/
structure Traced (shows : τ → Nat → Prop) (stream rest : List Int16) (events : List (SpeechEvent τ))
    (e : Endpointer τ α) : Prop where
  steady : e.Steady
  stands : ∃ place, Standing shows stream place rest e ∧ Telling shows stream place e.inSpeech events

/-- What is asked of an endpointer to hear frames. -/
structure Fit (shows : τ → Nat → Prop) (e : Endpointer τ α) : Prop where
  clock : Clock e.detector.sampleRate shows
  frames : 0 < e.detector.frameSize
  room : 0 < e.capacity

theorem Fit.same {e' : Endpointer τ α} (fit : e.Fit shows) (same : Same e e') : e'.Fit shows := by
  obtain ⟨clock, frames, room⟩ := fit
  refine ⟨?_, ?_, ?_⟩
  · rw [same.sampleRate]
    exact clock
  · rw [same.frameSize]
    exact frames
  · rw [same.capacity]
    exact room

theorem releaseSpeechTold (fuel : Nat) (clock : Clock e.detector.sampleRate shows)
    (frames : 0 < e.detector.frameSize) (standing : Standing shows stream place rest e)
    (now : e.speechEnd = e.queueStart) (telling : Telling shows stream place true events) :
    let released := releaseSpeech fuel e
    ∃ place', Standing shows stream place' rest released.2 ∧ released.2.speechEnd = released.2.queueStart ∧
      Telling shows stream place' true (events ++ released.1) := by
  induction fuel generalizing e place events with
  | zero => exact ⟨place, standing, now, by simpa [releaseSpeech] using telling⟩
  | succ fuel ih =>
    have same : Same e { e.pop.2 with speechEnd := e.pop.2.queueStart } :=
      e.popSame.trans ⟨rfl, rfl, rfl, rfl, rfl, rfl⟩
    cases items : e.queue.toList with
    | nil =>
      simp only [releaseSpeech, Fifo.popNone items, List.append_nil]
      exact ⟨place, standing, now, telling⟩
    | cons f more =>
      obtain ⟨queue, popped, _⟩ := Fifo.popIs items
      obtain ⟨ahead, next⟩ := standing.pop clock items
      simp only [releaseSpeech, popped]
      split
      · obtain ⟨place', later, still, told⟩ := ih (e := { e.pop.2 with speechEnd := e.pop.2.queueStart })
          (same.sampleRate ▸ clock) (same.frameSize ▸ frames)
          ⟨next.inside, next.ahead, next.clock, next.sizes⟩ rfl (telling.more ahead standing.inside)
        simp only [releaseSome items]
        exact ⟨place', later, still, by simpa using told⟩
      · exact ⟨place, standing, now, by simpa using telling⟩

theorem finishTold (fit : e.Fit shows) (traced : Traced shows stream e.pending.toList events e) :
    ∃ told : List (Spoken τ), events ++ e.finish.1 = told.flatMap Spoken.events ∧
      Spoken.Slices shows stream told := by
  obtain ⟨place, standing, telling⟩ := traced.stands
  unfold finish
  cases speech : e.inSpeech with
  | false =>
    rw [speech] at telling
    simpa using telling.told
  | true =>
    rw [speech] at telling
    let ended : Endpointer τ α := { e with pending := .empty, inSpeech := false, speechEnd := e.queueStart }
    obtain ⟨place, standing, now, told⟩ := releaseSpeechTold (e := ended) e.queue.size fit.clock fit.frames
      ⟨standing.inside, standing.ahead, standing.clock, standing.sizes⟩ rfl telling
    obtain ⟨queue, queueStart, count, speechEnd, released⟩ := releaseSpeechIs e.queue.size ended
    simp only [if_true]
    rw [released] at standing now ⊢
    have cleared (n : Nat) (e : Endpointer τ α) : (clearQueue n e).speechEnd = e.speechEnd := by
      obtain ⟨_, _, _, same⟩ := clearQueueIs n e
      rw [same]
    split
    · -- the samples that fill no frame belong to the utterance when all of the window does
      rename_i ends
      have empty : queue.toList = [] := by
        rw [← List.length_eq_zero_iff, ← Fifo.sizeEq]
        exact ends.1
      have ahead : stream.drop place = e.pending.toList ++ [] := by simpa [empty] using standing.ahead
      have whole : place + e.pending.toList.length ≤ stream.length := by
        have inside := standing.inside
        have size := congrArg List.length ahead
        rw [List.length_drop, List.append_nil] at size
        omega
      have told := (told.more ahead standing.inside).finish
        (fit.clock.later _ _ e.pending.toList.length (now ▸ standing.clock)) whole
      simpa [cleared, ended] using told.told
    · have told := told.finish (now ▸ standing.clock) standing.inside
      simpa [cleared, ended] using told.told

variable [Score α]

theorem hearTold (s : Scale α) (fit : e.Fit shows) {frame : List Int16} (size : frame.length = e.detector.frameSize)
    (traced : Traced shows stream (frame ++ rest) events e) :
    Traced shows stream rest (events ++ (e.hear s frame).1) (e.hear s frame).2 := by
  let heard : Endpointer τ α := { e with
    detector := { e.detector with floor := s.follow e.detector.floor (s.level frame) } }
  let f : LabelledFrame := ⟨frame, s.isSpeech e.detector.mode e.detector.floor (s.level frame)⟩
  obtain ⟨⟨counted, within, free⟩, place, standing, telling⟩ := traced
  have steady : heard.Steady := ⟨counted, within, free⟩
  have standing : Standing shows stream place (f.samples ++ rest) heard :=
    ⟨standing.inside, standing.ahead, standing.clock, standing.sizes⟩
  obtain ⟨counted, within, some, _⟩ := insertCounted steady fit.room f
  obtain ⟨place', le, stays, standing⟩ := insertStanding (e := heard) fit.clock standing steady size
  have same := heard.insertSame f
  have told : Telling shows stream place' (heard.insert f).inSpeech events := by
    rw [insertSpeech]
    cases speech : e.inSpeech with
    | true =>
      rw [speech] at telling
      rwa [stays speech]
    | false =>
      rw [speech] at telling
      exact telling.later le
  obtain ⟨place', standing, steady, told⟩ := concludeTold (same.sampleRate ▸ fit.clock)
    (same.frameSize ▸ fit.frames) standing counted (same.capacity ▸ within) some told
  exact ⟨steady, place', standing, told⟩

theorem hearAllTold (s : Scale α) (fit : e.Fit shows) (frames : List (List Int16))
    (sizes : ∀ f ∈ frames, f.length = e.detector.frameSize)
    (traced : Traced shows stream (frames.flatten ++ rest) events e) :
    Traced shows stream rest (events ++ (e.hearAll s frames).1) (e.hearAll s frames).2 := by
  induction frames generalizing e events with
  | nil => simpa [hearAll] using traced
  | cons frame more ih =>
    have same := e.hearSame s frame
    rw [List.flatten_cons, List.append_assoc] at traced
    have next := hearTold s fit (sizes frame (by simp)) traced
    have later := ih (fit.same same) (fun f mem => by rw [same.frameSize]; exact sizes f (by simp [mem])) next
    simpa [hearAll] using later

end Endpointer

end SpeechDecoder
