import SpeechDecoder.Stream
import SpeechDecoder.Proofs.Session.Splitting
import SpeechDecoder.Proofs.Endpointer.Streams

/-! The utterances that are found in a stream. However the stream is cut, they are the same but for their starts: a
start is read when a call is over, and is the last one that was told until then. -/
namespace SpeechDecoder

namespace SpeechEvent
variable {τ : Type}

/-- The last start that events tell of. -/
def latest (start : τ) : List (SpeechEvent τ) → τ
  | [] => start
  | .start time :: rest => latest time rest
  | .audio _ :: rest => latest start rest
  | .finish _ :: rest => latest start rest

def time? : SpeechEvent τ → Option τ
  | .start time => some time
  | .audio _ => none
  | .finish time => some time

/-- No utterance starts after one that ended. -/
def Apart : List (SpeechEvent τ) → Prop
  | [] => True
  | .finish _ :: rest => (∀ time, .start time ∉ rest) ∧ Apart rest
  | _ :: rest => Apart rest

theorem latestAppend (start : τ) (first second : List (SpeechEvent τ)) :
    latest start (first ++ second) = latest (latest start first) second := by
  fun_induction latest start first with
  | case1 => rfl
  | case2 start time rest ih => simpa [latest] using ih
  | case3 start _ rest ih => simpa [latest] using ih
  | case4 start _ rest ih => simpa [latest] using ih

theorem latestNone (start : τ) {events : List (SpeechEvent τ)} (none : ∀ time, .start time ∉ events) :
    latest start events = start := by
  fun_induction latest start events with
  | case1 => rfl
  | case2 start time rest ih => exact absurd List.mem_cons_self (none time)
  | case3 start _ rest ih => exact ih (by simpa using none)
  | case4 start _ rest ih => exact ih (by simpa using none)

end SpeechEvent

namespace Endpointer
open Activity (Scale)
open SpeechEvent (latest latestAppend latestNone)

section
variable {τ α : Type} [Time τ]

theorem releaseNone (e : Endpointer τ α) : ∀ time, .start time ∉ e.release.1 := by
  unfold release
  split <;> simp

theorem insertStart (e : Endpointer τ α) (f : LabelledFrame) : (e.insert f).speechStart = e.speechStart := by
  obtain ⟨_, _, _, popped⟩ := e.popIs
  unfold insert
  rw [popped]
  split <;> rfl

theorem concludeStart (e : Endpointer τ α) : e.conclude.2.speechStart = latest e.speechStart e.conclude.1 := by
  have released (e : Endpointer τ α) : e.release.2.speechStart = e.speechStart := by
    obtain ⟨_, _, _, popped⟩ := e.popIs
    rw [releaseIs, popped]
  unfold conclude
  split
  · have kept := latestNone e.speechStart e.releaseNone
    dsimp only
    split
    · simpa [latestAppend, kept, latest] using released e
    · simpa [kept] using released e
  · split
    · simp only [latest]
      rw [latestNone _ (releaseNone _), released]
    · rfl

theorem releaseSpeechNone (fuel : Nat) (e : Endpointer τ α) : ∀ time, .start time ∉ (releaseSpeech fuel e).1 := by
  induction fuel generalizing e with
  | zero => simp [releaseSpeech]
  | succ fuel ih =>
    intro time
    unfold releaseSpeech
    split
    · simp
    · split
      · simpa using ⟨releaseNone e time, ih _ time⟩
      · simp

theorem finishStart (e : Endpointer τ α) : e.finish.2.speechStart = latest e.speechStart e.finish.1 := by
  have none : ∀ time, .start time ∉ e.finish.1 := by
    intro time
    unfold finish
    dsimp only
    split
    · have audio := releaseSpeechNone e.queue.size
        { e with pending := .empty, inSpeech := false, speechEnd := e.queueStart } time
      split <;> simpa using audio
    · simp
  obtain ⟨_, _, _, _, finished⟩ := e.finishIs
  rw [latestNone _ none, finished]

variable [Score α]

theorem hearAllStart (s : Scale α) (e : Endpointer τ α) (frames : List (List Int16)) :
    (e.hearAll s frames).2.speechStart = latest e.speechStart (e.hearAll s frames).1 := by
  induction frames generalizing e with
  | nil => rfl
  | cons frame rest ih =>
    have heard : (e.hear s frame).2.speechStart = latest e.speechStart (e.hear s frame).1 := by
      unfold hear
      rw [concludeStart, insertStart]
    simp only [hearAll, latestAppend, ih, heard]

theorem pushStart (s : Scale α) {e e' : Endpointer τ α} (room : e.Open) {samples : List Int16}
    {events : List (SpeechEvent τ)} (ok : e.push s samples = .ok (events, e')) :
    e'.speechStart = latest e.speechStart events := by
  have heard := pushHear s room samples
  rw [ok] at heard
  cases heard
  exact hearAllStart s e _

theorem pushEachStart (s : Scale α) {e e' : Endpointer τ α} (room : e.Open) {pieces : List (List Int16)}
    {events : List (List (SpeechEvent τ))} (ok : e.pushEach s pieces = .ok (events, e')) :
    e'.speechStart = latest e.speechStart events.flatten := by
  obtain ⟨told, heard, joined⟩ := pushEachHear s room pieces
  rw [ok] at heard
  cases heard
  rw [joined]
  exact hearAllStart s e _

end

end Endpointer

namespace StreamSession
open Endpointer (Blank)
open SpeechEvent (latest latestAppend latestNone time? Apart)
open Session (Reached Serves Fresh Fed)

theorem makeIs {s : Session} {e : Endpointer Float Float32} {wanted : Nat} {d : StreamSession}
    (ready : make s e wanted = .ok d) : s.inUtterance = false ∧ d = ⟨s, e, wanted⟩ := by
  unfold make at ready
  dsimp only at ready
  split at ready
  · cases ready
  · split at ready
    · cases ready
    · rename_i idle
      cases ready
      exact ⟨Bool.eq_false_of_not_eq_true idle, rfl⟩

theorem makeOk {s : Session} {e : Endpointer Float Float32}
    (same : e.detector.sampleRate = s.models.features.sampleRate) (idle : s.inUtterance = false) (wanted : Nat) :
    make s e wanted = .ok ⟨s, e, wanted⟩ := by
  simp [make, same, idle]

section
variable [Elementary]

def pushEach (d : StreamSession) : List (List Int16) → Outcome (List (List FoundUtterance) × StreamSession)
  | [] => .ok ([], d)
  | piece :: rest => do
    let (found, d) ← d.push piece
    let (more, d) ← d.pushEach rest
    .ok (found :: more, d)

/-- What each call finds in a stream that comes in pieces, the end of the stream being the last call. -/
def listen (d : StreamSession) (pieces : List (List Int16)) : Outcome (List (List FoundUtterance)) := do
  let (found, d) ← d.pushEach pieces
  let (last, _) ← d.finish
  .ok (found ++ [last])

/-- Follows the events of calls, each with the last start until its end. -/
def followCalls (start : Float) (wanted : Nat) (s : Session) :
    List (List (SpeechEvent Float)) → Outcome (List (List FoundUtterance) × Session)
  | [] => .ok ([], s)
  | events :: rest => do
    let (found, s) ← follow (latest start events) wanted s events
    let (more, s) ← followCalls (latest start events) wanted s rest
    .ok (found :: more, s)

/-- Follows events as `follow` does, and gives each utterance its own start. -/
def followOwn (start : Float) (wanted : Nat) (s : Session) :
    List (SpeechEvent Float) → Outcome (List FoundUtterance × Session)
  | [] => .ok ([], s)
  | .start time :: rest => do
    let s ← s.start
    followOwn time wanted s rest
  | .audio samples :: rest => do
    let (_, s) ← s.processSamples samples false false
    followOwn start wanted s rest
  | .finish time :: rest => do
    let s ← s.finish
    let first := found s start time wanted
    let (more, s) ← followOwn start wanted s rest
    .ok (first :: more, s)

/-! ### Calls of an endpointer and calls of a stream -/

theorem pushEachFound {d : StreamSession} (room : d.endpointer.Open) {pieces : List (List Int16)}
    {calls : List (List (SpeechEvent Float))} {e : Endpointer Float Float32}
    (heard : d.endpointer.pushEach Activity.decibelScale pieces = .ok (calls, e)) {found : List (List FoundUtterance)}
    {s : Session} (followed : followCalls d.endpointer.speechStart d.wanted d.session calls = .ok (found, s)) :
    d.pushEach pieces = .ok (found, { d with session := s, endpointer := e }) := by
  induction pieces generalizing d calls found with
  | nil =>
    cases heard
    cases followed
    rfl
  | cons piece rest ih =>
    obtain ⟨⟨events, e'⟩, first, heard⟩ := Outcome.bindOk heard
    obtain ⟨⟨more, last⟩, later, heard⟩ := Outcome.bindOk heard
    cases heard
    obtain ⟨⟨here, s'⟩, now, followed⟩ := Outcome.bindOk followed
    obtain ⟨⟨others, s''⟩, next, followed⟩ := Outcome.bindOk followed
    cases followed
    obtain ⟨room', _⟩ := Endpointer.pushOpen _ room first
    rw [← Endpointer.pushStart _ room first] at now next
    have pushed : d.push piece = .ok (here, { d with session := s', endpointer := e' }) := by
      simp only [push, first, apply, now, bind, Except.bind]
    have after := ih (d := { d with session := s', endpointer := e' }) room' later next
    simp only [pushEach, pushed, after, bind, Except.bind]

theorem followCallsAppend (start : Float) (wanted : Nat) (s : Session)
    (first second : List (List (SpeechEvent Float))) :
    followCalls start wanted s (first ++ second) = (do
      let (found, s) ← followCalls start wanted s first
      let (more, s) ← followCalls (latest start first.flatten) wanted s second
      .ok (found ++ more, s)) := by
  induction first generalizing start s with
  | nil =>
    simp only [List.nil_append, followCalls, List.flatten_nil, latest, bind, Except.bind]
    cases followCalls start wanted s second <;> rfl
  | cons events rest ih =>
    simp only [List.cons_append, followCalls, List.flatten_cons, latestAppend, ih, bind, Except.bind]
    cases follow (latest start events) wanted s events with
    | error p => rfl
    | ok r =>
      dsimp only
      cases followCalls (latest start events) wanted r.2 rest with
      | error p => rfl
      | ok r' =>
        dsimp only
        cases followCalls (latest (latest start events) rest.flatten) wanted r'.2 second <;> rfl

theorem listenFound {d : StreamSession} (room : d.endpointer.Open) {pieces : List (List Int16)}
    {calls : List (List (SpeechEvent Float))} (heard : d.endpointer.calls Activity.decibelScale pieces = .ok calls)
    {found : List (List FoundUtterance)} {s : Session}
    (followed : followCalls d.endpointer.speechStart d.wanted d.session calls = .ok (found, s)) :
    d.listen pieces = .ok found := by
  obtain ⟨⟨events, e⟩, pushed, heard⟩ := Outcome.bindOk heard
  cases heard
  rw [followCallsAppend] at followed
  obtain ⟨⟨before, s'⟩, first, followed⟩ := Outcome.bindOk followed
  obtain ⟨⟨last, s''⟩, final, followed⟩ := Outcome.bindOk followed
  cases followed
  obtain ⟨⟨here, s₁⟩, now, final⟩ := Outcome.bindOk final
  cases final
  have start := Endpointer.pushEachStart _ room pushed
  have finished : e.finish.2.speechStart = latest (latest d.endpointer.speechStart events.flatten) e.finish.1 := by
    rw [Endpointer.finishStart, start]
  rw [← finished] at now
  have before := pushEachFound room pushed first
  simp only [listen, before, finish, apply, now, bind, Except.bind]

/-! ### Own starts -/

def stamp (start : Float) (f : FoundUtterance) : FoundUtterance := { f with start }

theorem followOwnAppend (start : Float) (wanted : Nat) (s : Session) (first second : List (SpeechEvent Float)) :
    followOwn start wanted s (first ++ second) = (do
      let (found, s) ← followOwn start wanted s first
      let (more, s) ← followOwn (latest start first) wanted s second
      .ok (found ++ more, s)) := by
  induction first generalizing start s with
  | nil =>
    simp only [List.nil_append, followOwn, latest, bind, Except.bind]
    cases followOwn start wanted s second <;> rfl
  | cons event rest ih =>
    cases event with
    | start time =>
      simp only [List.cons_append, followOwn, latest, ih, bind, Except.bind]
      cases s.start <;> rfl
    | audio samples =>
      simp only [List.cons_append, followOwn, latest, ih, bind, Except.bind]
      cases s.processSamples samples false false <;> rfl
    | finish time =>
      simp only [List.cons_append, followOwn, latest, ih, bind, Except.bind]
      cases s.finish with
      | error p => rfl
      | ok s' =>
        dsimp only
        cases followOwn start wanted s' rest with
        | error p => rfl
        | ok r =>
          dsimp only
          cases followOwn (latest start rest) wanted r.2 second <;> rfl

theorem followStamped (start other : Float) (wanted : Nat) (s : Session) {events : List (SpeechEvent Float)}
    {right : List FoundUtterance} {last : Session} (own : followOwn start wanted s events = .ok (right, last)) :
    follow other wanted s events = .ok (right.map (stamp other), last) := by
  induction events generalizing start s right with
  | nil =>
    cases own
    rfl
  | cons event rest ih =>
    cases event with
    | start time =>
      obtain ⟨s', started, own⟩ := Outcome.bindOk own
      simp only [follow, started, bind, Except.bind]
      exact ih time s' own
    | audio samples =>
      obtain ⟨r, taken, own⟩ := Outcome.bindOk own
      simp only [follow, taken, bind, Except.bind]
      exact ih start r.2 own
    | finish time =>
      obtain ⟨s', finished, own⟩ := Outcome.bindOk own
      obtain ⟨r, later, own⟩ := Outcome.bindOk own
      cases own
      simp only [follow, finished, ih start s' later, bind, Except.bind]
      rfl

theorem followApart (start : Float) (wanted : Nat) (s : Session) {events : List (SpeechEvent Float)}
    (apart : Apart events) : follow (latest start events) wanted s events = followOwn start wanted s events := by
  induction events generalizing start s with
  | nil => rfl
  | cons event rest ih =>
    cases event with
    | start time =>
      simp only [latest, follow, followOwn]
      exact congrArg _ (funext fun s' => ih time s' apart)
    | audio samples =>
      simp only [latest, follow, followOwn]
      exact congrArg _ (funext fun r => ih start r.2 apart)
    | finish time =>
      -- nothing starts after this end, so the start that is in force here is the last one
      have same := latestNone start apart.1
      have later := fun s' => ih start s' apart.2
      simp only [same] at later
      simp only [latest, same, follow, followOwn, later]

/-- What calls find together is found in their events at once, but for the starts. -/
theorem followCallsOwn {start : Float} {wanted : Nat} {s : Session} {calls : List (List (SpeechEvent Float))}
    {right : List FoundUtterance} {last : Session}
    (own : followOwn start wanted s calls.flatten = .ok (right, last)) :
    ∃ found, followCalls start wanted s calls = .ok (found, last) ∧
      (∀ other, found.flatten.map (stamp other) = right.map (stamp other)) ∧
      (∀ i, ∀ f ∈ found[i]?.getD [], f.start = latest start (calls.take (i + 1)).flatten) ∧
      ((∀ events ∈ calls, Apart events) → found.flatten = right) := by
  induction calls generalizing start s right with
  | nil =>
    cases own
    exact ⟨[], rfl, fun _ => rfl, by simp, fun _ => rfl⟩
  | cons events rest ih =>
    rw [List.flatten_cons, followOwnAppend] at own
    obtain ⟨⟨here, s'⟩, now, own⟩ := Outcome.bindOk own
    obtain ⟨⟨more, s''⟩, later, own⟩ := Outcome.bindOk own
    cases own
    obtain ⟨found, followed, same, starts, apart⟩ := ih later
    have first := followStamped start (latest start events) wanted s now
    refine ⟨here.map (stamp (latest start events)) :: found, ?_, fun other => ?_, fun i f mem => ?_, fun every => ?_⟩
    · simp only [followCalls, first, followed, bind, Except.bind]
    · simp [same other, stamp]
    · cases i with
      | zero =>
        obtain ⟨g, _, rfl⟩ := List.mem_map.mp mem
        simp [stamp]
      | succ i => simpa [latestAppend] using starts i f mem
    · have own := followApart start wanted s (every events (by simp))
      have alone := Prod.mk.inj (Except.ok.inj (first.symm.trans (own.trans now)))
      rw [List.flatten_cons, alone.1, apart fun c mem => every c (by simp [mem])]

/-! ### No call fails -/

theorem audioFed {m : Models} (fit : m.Fit) {t s : Session} {xs : List Int16} {counted : Nat} (fresh : t.Fresh m)
    (fed : t.Fed xs none counted s) (serves : s.Serves m) (start : Float) (wanted : Nat) (audio : List (List Int16)) :
    ∃ n s', t.Fed (xs ++ audio.flatten) none n s' ∧ s'.Serves m ∧ ∀ rest,
      followOwn start wanted s (audio.map .audio ++ rest) = followOwn start wanted s' rest := by
  induction audio generalizing xs counted s with
  | nil => exact ⟨counted, s, by simpa using fed, serves, fun _ => rfl⟩
  | cons samples more ih =>
    obtain ⟨n, next, taken, fed'⟩ := Session.processFed fit fresh fed samples false
    obtain ⟨last, s', later, serves', same⟩ := ih fed' (Session.processServes serves taken)
    refine ⟨last, s', by simpa using later, serves', fun rest => ?_⟩
    have first : s.processSamples samples false false = .ok (n, next) := by
      rw [Session.processSamples, if_pos fed.going, taken]
    simp only [List.map_cons, List.cons_append, followOwn, first, bind, Except.bind]
    exact same rest

theorem utteranceFound {m : Models} (fit : m.Fit) {s : Session} (serves : s.Serves m) (idle : s.inUtterance = false)
    (start : Float) (wanted : Nat) (u : Spoken Float) : ∃ f s',
      followOwn start wanted s u.events = .ok ([f], s') ∧ f.start = u.start ∧ f.finish = u.finish ∧
      s'.Serves m ∧ s'.inUtterance = false := by
  obtain ⟨t, started, fresh⟩ := Session.startFresh serves idle
  obtain ⟨n, s', fed, serves', same⟩ := audioFed fit fresh (Session.freshFed fit fresh)
    (Session.startServes serves started) u.start wanted u.audio
  obtain ⟨_, _, ends⟩ := Session.fedFinish fit fresh u.audio.flatten
  obtain ⟨_, last, finished, _⟩ := ends none n s' (by simpa using fed)
  refine ⟨found last u.start u.finish wanted, last, ?_, rfl, rfl, ?_, Session.finishIdle finished⟩
  · simp only [Spoken.events, Spoken.opening, List.cons_append, followOwn, started, same, finished, bind,
      Except.bind]
  · exact Session.finishServes serves' finished

theorem toldFound {m : Models} (fit : m.Fit) {s : Session} (serves : s.Serves m) (idle : s.inUtterance = false)
    (start : Float) (wanted : Nat) (told : List (Spoken Float)) : ∃ right last,
      followOwn start wanted s (told.flatMap Spoken.events) = .ok (right, last) ∧
      List.Forall₂ (fun u f => f.start = u.start ∧ f.finish = u.finish) told right := by
  induction told generalizing start s with
  | nil => exact ⟨[], s, rfl, .nil⟩
  | cons u rest ih =>
    obtain ⟨f, s', first, own, ending, serves', idle'⟩ := utteranceFound fit serves idle start wanted u
    obtain ⟨right, last, later, times⟩ := ih serves' idle' (latest start u.events)
    refine ⟨f :: right, last, ?_, .cons ⟨own, ending⟩ times⟩
    simp only [List.flatMap_cons, followOwnAppend, first, later, bind, Except.bind]
    rfl

/-- However a stream is cut into calls, no call fails and the utterances of its events are found, the same but for
their starts. The start of one is the last that was told until the end of its call, so it is its own wherever no call
goes on from the end of an utterance to the start of another. -/
theorem foundInCalls {config : Config} {phones : Model.PhoneSet} {transitions : Model.Transitions Float32}
    {scorer : Model.Scorer Float32} {language : Model.Ngram Float32} {lexicon : Model.Lexicon} {m : Models}
    (accepted : Models.ofParts config phones transitions scorer language lexicon = .ok m)
    {s : Session} (reached : Reached m s) {c : EndpointerSettings} {e : Endpointer Float Float32}
    (made : Endpointer.make Activity.decibelScale c = .ok e) {wanted : Nat} {d : StreamSession}
    (ready : make s e wanted = .ok d) (stream : List Int16) :
    ∃ (told : List (Spoken Float)) (right : List FoundUtterance),
      Spoken.Slices (fun _ _ => True) stream told ∧
      List.Forall₂ (fun u f => f.start = u.start ∧ f.finish = u.finish) told right ∧
      ∀ pieces, pieces.flatten = stream → ∃ calls found,
        e.calls Activity.decibelScale pieces = .ok calls ∧ calls.flatten = told.flatMap Spoken.events ∧
        d.listen pieces = .ok found ∧
        (∀ other, found.flatten.map (stamp other) = right.map (stamp other)) ∧
        (∀ i, ∀ f ∈ found[i]?.getD [], f.start = latest e.speechStart (calls.take (i + 1)).flatten) ∧
        ((∀ events ∈ calls, Apart events) → found.flatten = right) := by
  have fit := Models.ofPartsFit config phones transitions scorer language lexicon m accepted
  have blank := (Endpointer.makeBlank made).1
  obtain ⟨idle, rfl⟩ := makeIs ready
  obtain ⟨told, slices, heard⟩ := Endpointer.listenTold blank (Endpointer.looseClock e.detector.sampleRate) stream
  obtain ⟨right, last, own, times⟩ :=
    toldFound fit (Session.reachedServes reached) idle e.speechStart wanted told
  refine ⟨told, right, slices, times, fun pieces whole => ?_⟩
  obtain ⟨calls, called, joined⟩ : ∃ calls, e.calls Activity.decibelScale pieces = .ok calls ∧
      calls.flatten = told.flatMap Spoken.events := by
    have heard := heard pieces whole
    unfold Endpointer.listen at heard
    cases called : e.calls Activity.decibelScale pieces with
    | error p =>
      rw [called] at heard
      cases heard
    | ok calls =>
      rw [called] at heard
      exact ⟨calls, rfl, Except.ok.inj heard⟩
  rw [← joined] at own
  obtain ⟨found, followed, same, starts, apart⟩ := followCallsOwn own
  have listened := listenFound (d := ⟨s, e, wanted⟩) blank.open called followed
  exact ⟨calls, found, called, joined, listened, same, starts, apart⟩

end

/-! ### Two sounds in one call -/

def times (f : FoundUtterance) : List Float := [f.start, f.finish]

theorem timesTold {told : List (Spoken Float)} {right : List FoundUtterance}
    (own : List.Forall₂ (fun u f => f.start = u.start ∧ f.finish = u.finish) told right) :
    right.flatMap times = (told.flatMap Spoken.events).filterMap time? := by
  induction own with
  | nil => rfl
  | @cons u f _ _ first _ ih =>
    have audio : (u.audio.map SpeechEvent.audio).filterMap time? = ([] : List Float) := by
      simp [time?]
    simp [Spoken.events, Spoken.opening, time?, times, audio, first, ih]

theorem stampedSame {start : Float} {found right : List FoundUtterance}
    (same : found.map (stamp start) = right.map (stamp start)) (late : ∀ f ∈ found, f.start = start) :
    found = right.map (stamp start) := by
  rw [← same]
  refine ((List.map_congr_left fun f mem => ?_).trans (List.map_id found)).symm
  rw [← late f mem]
  rfl

/-- The common logarithm at the powers of a silent sample and of a loud one. -/
@[reducible] def twoPowers : Elementary :=
  { Elementary.system with log10 := fun x => if x = 1 then 0 else 8.000000004342945 }

/-- A word of one phone with one state. -/
def smallParts [Elementary] : Outcome Models :=
  Models.ofParts {} ⟨[⟨"A", false, 0, [0]⟩], 0, 1, 1, 1⟩ ⟨1, #[-1, -1]⟩ (.direct 1 39)
    { order := 1, words := #["a"], unigrams := #[(-1, 0)] } ⟨#[⟨"a", "a", some 0, .normal, [0]⟩], none, none⟩

theorem smallRate : let _ := twoPowers
    ∃ m, smallParts = .ok m ∧ m.features.sampleRate = 16000 := by
  intro _
  have made : (smallParts.map fun m => m.features.sampleRate).toOption = some 16000 := by decide +kernel
  exact Outcome.mapOk made

/-- Windows of five frames, each of one sample. -/
def sampleBySample : EndpointerSettings := ⟨0.0003125, 0.6, .loose, 16000, 0.0001⟩

/-- Seconds as they are counted, sample by sample. -/
def secondsOf (samples : Nat) : Float := (· + 1 / 16000)^[samples] 0

/-- Six loud samples and the silent one before them. -/
def toldOf (first last : Nat) : List (SpeechEvent Float) :=
  .start (secondsOf first) :: .audio [0] :: List.replicate 6 (.audio [10000]) ++ [.finish (secondsOf last)]

def twoSounds : List Int16 :=
  List.replicate 2 0 ++ List.replicate 6 10000 ++ List.replicate 6 0 ++ List.replicate 6 10000 ++ List.replicate 6 0

/-- In one call the first sound is found with the start of the second one, which is behind its own end; in two calls
it has its own. -/
theorem foundInOneCall :
    let _ := twoPowers
    ∃ m e d, smallParts = .ok m ∧ Reached m (.ofModels m) ∧
      Endpointer.make Activity.decibelScale sampleBySample = .ok e ∧ make (.ofModels m) e 2 = .ok d ∧
      e.calls Activity.decibelScale [twoSounds] = .ok [toldOf 1 8 ++ toldOf 13 20, []] ∧
      ∃ together apart, d.listen [twoSounds] = .ok together ∧
        d.listen [twoSounds.take 14, twoSounds.drop 14] = .ok apart ∧
        together.flatten.flatMap times = [secondsOf 13, secondsOf 8, secondsOf 13, secondsOf 20] ∧
        apart.flatten.flatMap times = [secondsOf 1, secondsOf 8, secondsOf 13, secondsOf 20] ∧
        secondsOf 1 < secondsOf 8 ∧ secondsOf 8 < secondsOf 13 := by
  intro _
  have heard : ((Endpointer.make Activity.decibelScale sampleBySample :
      Except Endpointer.Problem (Endpointer Float Float32)).map fun e => decide (e.detector.sampleRate = 16000 ∧
        (e.calls Activity.decibelScale [twoSounds]).toOption = some [toldOf 1 8 ++ toldOf 13 20, []] ∧
        (e.calls Activity.decibelScale [twoSounds.take 14, twoSounds.drop 14]).toOption =
          some [toldOf 1 8, toldOf 13 20, []])).toOption = some true := by
    decide +kernel
  obtain ⟨m, accepted, rate⟩ := smallRate
  obtain ⟨e, made, facts⟩ := Outcome.mapOk heard
  obtain ⟨rate', once, twice⟩ := of_decide_eq_true facts
  have ready : make (.ofModels m) e 2 = .ok ⟨.ofModels m, e, 2⟩ := makeOk (rate'.trans rate.symm) rfl 2
  obtain ⟨told, right, _, own, every⟩ := foundInCalls accepted .made made ready twoSounds
  obtain ⟨_, together, called, joined, listened, same, starts, _⟩ := every [twoSounds] rfl
  obtain ⟨_, apart, called', _, listened', _, _, separate⟩ := every [twoSounds.take 14, twoSounds.drop 14] rfl
  cases called.symm.trans (Outcome.toOptionOk once)
  cases called'.symm.trans (Outcome.toOptionOk twice)
  have owned : right.flatMap times = [secondsOf 1, secondsOf 8, secondsOf 13, secondsOf 20] := by
    rw [timesTold own, ← joined]
    rfl
  have two : right.length = 2 := by
    have size : right.length * 2 = 4 := by simpa [times] using congrArg List.length owned
    omega
  obtain ⟨f, g, rfl⟩ := List.length_eq_two.mp two
  have late : together.flatten = [f, g].map (stamp (secondsOf 13)) := by
    refine stampedSame (same _) fun h mem => ?_
    obtain ⟨call, inside, mem⟩ := List.mem_flatten.mp mem
    obtain ⟨i, here⟩ := List.getElem?_of_mem inside
    rw [starts i h (by rw [here]; exact mem)]
    cases i <;> simp [toldOf, List.replicate, latest]
  refine ⟨m, e, _, accepted, .made, made, ready, called, together, apart, listened, listened', ?_, ?_,
    by decide +kernel⟩
  · simp only [times, List.flatMap_cons, List.flatMap_nil, List.cons_append, List.nil_append, List.cons.injEq] at owned
    simp [late, times, stamp, owned]
  · rw [separate (by simp [toldOf, List.replicate, Apart]), owned]

end StreamSession

end SpeechDecoder
