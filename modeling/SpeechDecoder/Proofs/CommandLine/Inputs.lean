import SpeechDecoder.CommandLine.Batch
import SpeechDecoder.Proofs.Session.Lifecycle
import SpeechDecoder.Proofs.Endpointer.Lockstep

/-! Inputs on a session that has decoded others. An input either fails before its session is asked for anything, or it
is decoded and leaves the session between utterances; and what it gives does not depend on what was decoded before. -/
namespace SpeechDecoder

namespace Session.Doing
open CommandLine

/-! ### What is done with an input -/

def given {α : Type} : Outcome α → Doing α
  | .ok a => pure a
  | .error f => throw f

def feed {β : Type} (take : β → Doing Nat) : List β → Doing Unit
  | [] => pure ()
  | piece :: rest => do
    let _ ← take piece
    feed take rest

section
variable [Elementary]

def follow (start : Float) (wanted : Nat) : List (SpeechEvent Float) → Doing (List FoundUtterance)
  | [] => pure []
  | .start _ :: rest => do
    Doing.start
    follow start wanted rest
  | .audio samples :: rest => do
    let _ ← takeSamples ⟨samples, false, false⟩
    follow start wanted rest
  | .finish time :: rest => do
    finish
    let s ← get
    let more ← follow start wanted rest
    return StreamSession.found s start time wanted :: more

def listen (wanted : Nat) (e : Endpointer Float Float32) :
    List (List Int16) → Doing (List FoundUtterance × Endpointer Float Float32)
  | [] => return ([], e)
  | piece :: rest => do
    let (events, e) ← given (e.push Activity.decibelScale piece)
    let first ← follow e.speechStart wanted events
    let (more, e) ← listen wanted e rest
    return (first ++ more, e)

def decodeSegments (name : String) (wanted : Nat) (samples : List Int16) : Doing (List Utterance) := do
  let s ← get
  let settings := EndpointerSettings.initial s.models.features.sampleRate
  let endpointer ← given ((Endpointer.make Activity.decibelScale settings).mapError Endpointer.Problem.failure)
  let stream ← given ((StreamSession.make s endpointer wanted).mapError StreamSession.Problem.failure)
  let (found, e) ← listen wanted stream.endpointer (samplePieces samples)
  let last ← follow e.finish.2.speechStart wanted e.finish.1
  let s ← get
  return (found ++ last).map (namedUtterance name s.frameRate)

def decodePieces {β : Type} (take : β → Doing Nat) (pieces : List β) : Doing Unit := do
  Doing.start
  feed take pieces
  finish

def decodeWhole (files : FileTree) (a : Arguments) (input : String) : Doing Unit :=
  if a.raw then do
    let bytes ← given (readBytes files input)
    decodePieces (fun piece => takeBytes ⟨piece, false, false⟩) (Pieces.ofList pieceBytes bytes)
  else do
    let s ← get
    let samples ← given (readSamples files s.models.features false input)
    decodePieces (fun piece => takeSamples ⟨piece, false, false⟩) (samplePieces samples)

def decodeInput (files : FileTree) (a : Arguments) (input : String) : Doing (List Utterance) :=
  if a.segment then do
    let s ← get
    let samples ← given (readSamples files s.models.features a.raw input)
    decodeSegments (FileTree.stem input) a.alternatives samples
  else do
    decodeWhole files a input
    let s ← get
    return [s.utterance (FileTree.stem input) a.alternatives]

end

/-! ### Calls that are granted -/

section
variable {s t : Session}

theorem feedOk {β : Type} {take : β → Doing Nat} {process : Session → β → Outcome (Nat × Session)}
    (same : ∀ s t piece n, process s piece = .ok (n, t) → (take piece).run s = (.ok n, t)) {pieces : List β}
    {counts : List Nat} (fed : s.feed process pieces = (.ok counts, t)) : (feed take pieces).run s = (.ok (), t) := by
  induction pieces generalizing s counts with
  | nil =>
    cases fed
    rfl
  | cons piece rest ih =>
    unfold Session.feed at fed
    cases first : process s piece with
    | error f => simp [first] at fed
    | ok r =>
      obtain ⟨n, u⟩ := r
      simp only [first] at fed
      cases later : u.feed process rest with
      | mk result last =>
        rw [later] at fed
        cases result with
        | error f => cases fed
        | ok more =>
          cases fed
          rw [feed, next (same s u piece n first)]
          exact ih later

variable [Elementary]

theorem followOk {start : Float} {wanted : Nat} {events : List (SpeechEvent Float)} {found : List FoundUtterance}
    (ok : StreamSession.follow start wanted s events = .ok (found, t)) :
    (follow start wanted events).run s = (.ok found, t) := by
  induction events generalizing s found with
  | nil =>
    cases ok
    rfl
  | cons event rest ih =>
    cases event with
    | start time =>
      obtain ⟨u, started, ok⟩ := Outcome.bindOk ok
      rw [follow, next (startOk started)]
      exact ih ok
    | audio samples =>
      obtain ⟨⟨n, u⟩, taken, ok⟩ := Outcome.bindOk ok
      rw [follow, next (takeSamplesOk (c := ⟨samples, false, false⟩) taken)]
      exact ih ok
    | finish time =>
      obtain ⟨u, finished, ok⟩ := Outcome.bindOk ok
      obtain ⟨⟨more, v⟩, later, ok⟩ := Outcome.bindOk ok
      cases ok
      have here : (get : Doing Session).run u = (.ok u, u) := rfl
      rw [follow, next (finishOk finished), next here, next (ih later)]
      rfl

theorem feedReached {m : Models} {β : Type} {process : Session → β → Outcome (Nat × Session)}
    (keeps : ∀ s t piece n, Reached m s → process s piece = .ok (n, t) → Reached m t) (reached : Reached m s)
    {pieces : List β} {counts : List Nat} (fed : s.feed process pieces = (.ok counts, t)) : Reached m t := by
  induction pieces generalizing s counts with
  | nil =>
    cases fed
    exact reached
  | cons piece rest ih =>
    unfold Session.feed at fed
    cases first : process s piece with
    | error f => simp [first] at fed
    | ok r =>
      obtain ⟨n, u⟩ := r
      simp only [first] at fed
      cases later : u.feed process rest with
      | mk result last =>
        rw [later] at fed
        cases result with
        | error f => cases fed
        | ok more =>
          cases fed
          exact ih (keeps s u piece n reached first) later

/-- A part of the work on an input that fails before the session is asked, or leaves it between utterances. -/
def Settles {α : Type} (m : Models) (s : Session) (x : Doing α) : Outcome (α × Session) → Prop
  | .error f => x.run s = (.error f, s)
  | .ok (a, t) => x.run s = (.ok a, t) ∧ Reached m t ∧ t.inUtterance = false

theorem Settles.same {α : Type} {m : Models} {x y : Doing α} {r : Outcome (α × Session)} (runs : x.run s = y.run s)
    (settles : Settles m s y r) : Settles m s x r := by
  unfold Settles
  rw [runs]
  exact settles

theorem Settles.given {α β : Type} {m : Models} {r : Outcome β} {x : β → Doing α} {y : β → Outcome (α × Session)}
    (each : ∀ b, r = .ok b → Settles m s (x b) (y b)) : Settles m s (given r >>= x) (r >>= y) := by
  cases r with
  | error f => exact stop rfl
  | ok b => exact (each b rfl).same (next rfl)

/-- A whole utterance in pieces, by one way of taking them. -/
theorem piecesSettle {m : Models} (fit : m.Fit) (reached : Reached m s) (idle : s.inUtterance = false) {β : Type}
    {take : β → Doing Nat} (process : Session → β → Outcome (Nat × Session))
    (same : ∀ s t piece n, process s piece = .ok (n, t) → (take piece).run s = (.ok n, t))
    (keeps : ∀ s t piece n, Reached m s → process s piece = .ok (n, t) → Reached m t) {pieces : List β}
    (fed : ∀ t : Session, t.Fresh m → ∃ counts samples odd n u, t.feed process pieces = (.ok counts, u) ∧
      t.Fed samples odd n u) :
    Settles m s (decodePieces take pieces)
      (Prod.mk () <$> (s.start >>= fun t => finishFed (t.feed process pieces))) := by
  obtain ⟨t, started, fresh⟩ := startFresh (reachedServes reached) idle
  obtain ⟨counts, samples, odd, n, u, heard, last⟩ := fed t fresh
  obtain ⟨_, _, ends⟩ := fedFinish fit fresh samples
  obtain ⟨_, v, finished, _⟩ := ends odd n u last
  have going := feedReached keeps (.started reached started) heard
  have ok : (s.start >>= fun t => finishFed (t.feed process pieces)) = .ok v := by
    rw [started]
    change finishFed (t.feed process pieces) = _
    rw [heard]
    exact finished
  rw [ok]
  refine ⟨?_, .finished going finished, finishIdle finished⟩
  rw [decodePieces, next (startOk started), next (feedOk same heard)]
  exact finishOk finished

omit [Elementary] in
theorem feedMap {β γ : Type} (process : Session → γ → Outcome (Nat × Session)) (f : β → γ) (pieces : List β) :
    s.feed (fun s piece => process s (f piece)) pieces = s.feed process (pieces.map f) := by
  induction pieces generalizing s with
  | nil => rfl
  | cons piece rest ih =>
    simp only [List.map_cons, Session.feed]
    cases process s (f piece) with
    | error _ => rfl
    | ok r => simp only [ih]

theorem wholeSettles {m : Models} (fit : m.Fit) (reached : Reached m s) (idle : s.inUtterance = false)
    (files : FileTree) (a : Arguments) (input : String) :
    Settles m s (decodeWhole files a input) (Prod.mk () <$> CommandLine.decodeWhole files a s input) := by
  unfold decodeWhole CommandLine.decodeWhole
  split
  · rw [map_bind]
    refine .given fun bytes _ => ?_
    let call (piece : List UInt8) : Call UInt8 := ⟨piece, false, false⟩
    refine piecesSettle fit reached idle (fun s piece => Session.takeBytes s (call piece))
      (fun _ _ _ _ => takeBytesOk) (fun _ _ _ _ before ok => .bytes before ok) fun t fresh => ?_
    obtain ⟨counts, u, heard, fed⟩ := feedBytes fit fresh (freshFed fit fresh)
      ((Pieces.ofList pieceBytes bytes).map call)
    exact ⟨counts, _, _, _, u, (feedMap Session.takeBytes call _).trans heard, fed⟩
  · rw [map_bind]
    refine Settles.same (next rfl) (.given fun samples _ => ?_)
    let call (piece : List Int16) : Call Int16 := ⟨piece, false, false⟩
    refine piecesSettle fit reached idle (fun s piece => Session.takeSamples s (call piece))
      (fun _ _ _ _ => takeSamplesOk) (fun _ _ _ _ before ok => .samples before ok) fun t fresh => ?_
    obtain ⟨counts, u, heard, fed⟩ := feedSamples fit fresh (freshFed fit fresh) ((samplePieces samples).map call)
    exact ⟨counts, _, _, _, u, (feedMap Session.takeSamples call _).trans heard, fed⟩

theorem listenOk {m : Models} (fit : m.Fit) {made : Endpointer Float Float32}
    (blank : made.Blank Activity.decibelScale) (pieces : List (List Int16)) {d : StreamSession}
    (reached : Endpointer.Reached Activity.decibelScale made d.endpointer) {heard : Option (List Int16)}
    (abreast : StreamSession.Abreast m d.session heard) (same : heard.isSome = d.endpointer.inSpeech) :
    ∃ found d' heard', pushPieces d pieces = .ok (found, d') ∧
      (listen d.wanted d.endpointer pieces).run d.session = (.ok (found, d'.endpointer), d'.session) ∧
      StreamSession.Abreast m d'.session heard' ∧ heard'.isSome = d'.endpointer.inSpeech ∧ d'.wanted = d.wanted := by
  induction pieces generalizing d heard with
  | nil => exact ⟨[], d, heard, rfl, rfl, abreast, same, rfl⟩
  | cons piece rest ih =>
    obtain ⟨events, e, told, reached', turns⟩ := Endpointer.askTurns blank reached (.push piece)
    rw [← same] at turns
    obtain ⟨first, t, followed, abreast', still, _⟩ :=
      StreamSession.followAlone fit abreast turns e.speechStart d.wanted
    obtain ⟨more, d', heard', pushed, listened, last⟩ :=
      ih (d := { d with session := t, endpointer := e }) reached' abreast' still
    refine ⟨first ++ more, d', heard', ?_, ?_, last⟩
    · have asked : d.push piece = d.apply e events := StreamSession.askFollows told
      simp only [pushPieces, asked, StreamSession.apply, followed, pushed, bind, Except.bind]
    · have pushed : (given (d.endpointer.push Activity.decibelScale piece)).run d.session =
          (.ok (events, e), d.session) := by
        rw [show d.endpointer.push Activity.decibelScale piece = _ from told]
        rfl
      rw [listen, next pushed, next (followOk followed), next listened]
      rfl

theorem segmentsSettle {m : Models} (fit : m.Fit) (reached : Reached m s) (name : String) (wanted : Nat)
    (samples : List Int16) :
    Settles m s (decodeSegments name wanted samples) (CommandLine.decodeSegments name wanted s samples) := by
  refine Settles.same (next rfl) (.given fun endpointer made => .given fun stream ready => ?_)
  obtain ⟨blank, _⟩ := Endpointer.makeBlank (Outcome.mapErrorOk made)
  obtain ⟨idle, rfl⟩ := StreamSession.makeIs (Outcome.mapErrorOk ready)
  obtain ⟨found, d, heard, pushed, listened, abreast, same, kept⟩ :=
    listenOk fit blank (samplePieces samples) (d := ⟨s, endpointer, wanted⟩) .made (.idle reached idle)
      blank.inSpeech.symm
  have turns := d.endpointer.finishTurns
  rw [← same] at turns
  obtain ⟨last, t, followed, abreast', ended, _⟩ :=
    StreamSession.followAlone fit abreast turns d.endpointer.finish.2.speechStart d.wanted
  have finished : d.finish = .ok (last, { d with session := t, endpointer := d.endpointer.finish.2 }) := by
    simp only [StreamSession.finish, StreamSession.apply, followed, bind, Except.bind]
  have closed : d.endpointer.finish.2.inSpeech = false := by
    obtain ⟨_, _, _, _, closed⟩ := d.endpointer.finishIs
    rw [closed]
  simp only [pushed, finished, bind, Except.bind]
  refine ⟨?_, abreast'.reached, abreast'.going.trans (ended.trans closed)⟩
  change (listen wanted endpointer _ >>= _).run s = _
  rw [next listened]
  have wanted' : d.wanted = wanted := kept
  rw [wanted'] at followed
  exact (next (followOk followed)).trans rfl

/-- An input fails before its session is asked for anything, or it is decoded and the utterance over. -/
theorem inputSettles {m : Models} (fit : m.Fit) (reached : Reached m s) (idle : s.inUtterance = false)
    (files : FileTree) (a : Arguments) (input : String) :
    Settles m s (decodeInput files a input) (CommandLine.decodeInput files a s input) := by
  unfold decodeInput CommandLine.decodeInput
  split
  · refine Settles.same (next rfl) (.given fun samples _ => ?_)
    exact segmentsSettle fit reached (FileTree.stem input) a.alternatives samples
  · have whole := wholeSettles fit reached idle files a input
    cases ok : CommandLine.decodeWhole files a s input with
    | error f =>
      rw [ok] at whole
      exact stop whole
    | ok t =>
      rw [ok] at whole
      obtain ⟨ran, ready⟩ := whole
      exact ⟨next ran, ready⟩

end
end Session.Doing

namespace CommandLine
open Session (Alike Reached)

section
variable [Elementary]

/-- A session between utterances and a new one, or sessions that no call can tell apart. -/
inductive Beside (m : Models) : Session → Session → Prop where
  | first {s : Session} (reached : Reached m s) (idle : s.inUtterance = false) : Beside m s (.ofModels m)
  | alike {s t : Session} (same : s.Alike t) : Beside m s t

variable {m : Models} {s t : Session}

theorem modelsAlike (same : s.Alike t) : s.models = t.models := by
  obtain ⟨e, rfl, _⟩ := same
  rfl

theorem Beside.models (beside : Beside m s t) : s.models = t.models := by
  cases beside with
  | first reached _ => exact (Session.reachedServes reached).models
  | alike same => exact modelsAlike same

theorem Beside.start (beside : Beside m s t) : Outcome.Both Alike s.start t.start := by
  cases beside with
  | first reached idle =>
    obtain ⟨a, b, started, other, same⟩ := Session.startFirst reached idle
    rw [started, other]
    exact .made same
  | alike same => exact Session.startAlike same

theorem Beside.samples (beside : Beside m s t) (samples : List Int16) :
    Outcome.Both (fun x y => x.1 = y.1 ∧ x.2.Alike y.2) (s.processSamples samples false false)
      (t.processSamples samples false false) := by
  cases beside with
  | first _ idle =>
    unfold Session.processSamples
    rw [if_neg (Bool.eq_false_iff.mp idle)]
    exact .failed _
  | alike same => exact Session.takeSamplesAlike same ⟨samples, false, false⟩

theorem Beside.finish (beside : Beside m s t) : Outcome.Both Alike s.finish t.finish := by
  cases beside with
  | first _ idle =>
    unfold Session.finish
    rw [if_neg (Bool.eq_false_iff.mp idle)]
    exact .failed _
  | alike same => exact Session.finishAlike same

theorem foundAlike (same : s.Alike t) (start finish : Float) (wanted : Nat) :
    StreamSession.found s start finish wanted = StreamSession.found t start finish wanted := by
  obtain ⟨hypothesis, segments, alternatives, _⟩ := same.shown
  simp only [StreamSession.found, hypothesis, segments, alternatives]

theorem utteranceAlike (same : s.Alike t) (name : String) (wanted : Nat) :
    s.utterance name wanted = t.utterance name wanted := by
  have models := modelsAlike same
  obtain ⟨hypothesis, segments, alternatives, _⟩ := same.shown
  simp only [Session.utterance, Session.frameRate, models, hypothesis, segments, alternatives]

theorem followBeside (beside : Beside m s t) (start : Float) (wanted : Nat) (events : List (SpeechEvent Float)) :
    Outcome.Both (fun x y => x.1 = y.1 ∧ Beside m x.2 y.2) (StreamSession.follow start wanted s events)
      (StreamSession.follow start wanted t events) := by
  induction events generalizing s t with
  | nil => exact .made ⟨rfl, beside⟩
  | cons event rest ih =>
    cases event with
    | start time => exact beside.start.bind fun _ _ same => ih (.alike same)
    | audio samples => exact (beside.samples samples).bind fun _ _ same => ih (.alike same.2)
    | finish time =>
      refine beside.finish.bind fun _ _ same => (ih (.alike same)).bind fun _ _ later => ?_
      exact .made ⟨congrArg₂ List.cons (foundAlike same start time wanted) later.1, later.2⟩

/-- Streams of which only the sessions differ. -/
def StreamsBeside (m : Models) (d d' : StreamSession) : Prop :=
  d'.endpointer = d.endpointer ∧ d'.wanted = d.wanted ∧ Beside m d.session d'.session

theorem StreamsBeside.apply {d d' : StreamSession} (beside : StreamsBeside m d d') (e : Endpointer Float Float32)
    (events : List (SpeechEvent Float)) :
    Outcome.Both (fun x y => x.1 = y.1 ∧ StreamsBeside m x.2 y.2) (d.apply e events) (d'.apply e events) := by
  obtain ⟨_, wanted, sessions⟩ := beside
  unfold StreamSession.apply
  rw [wanted]
  refine (followBeside sessions e.speechStart d.wanted events).bind fun _ _ followed => ?_
  exact .made ⟨followed.1, rfl, rfl, followed.2⟩

theorem StreamsBeside.pushPieces {d d' : StreamSession} (beside : StreamsBeside m d d') (pieces : List (List Int16)) :
    Outcome.Both (fun x y => x.1 = y.1 ∧ StreamsBeside m x.2 y.2) (CommandLine.pushPieces d pieces)
      (CommandLine.pushPieces d' pieces) := by
  induction pieces generalizing d d' with
  | nil => exact .made ⟨rfl, beside⟩
  | cons piece rest ih =>
    have pushed : Outcome.Both (fun x y => x.1 = y.1 ∧ StreamsBeside m x.2 y.2) (d.push piece) (d'.push piece) := by
      unfold StreamSession.push
      rw [beside.1]
      cases d.endpointer.push Activity.decibelScale piece with
      | error f => exact .failed f
      | ok told => exact beside.apply told.2 told.1
    refine pushed.bind fun _ _ first => (ih first.2).bind fun _ _ later => ?_
    exact .made ⟨congrArg₂ (· ++ ·) first.1 later.1, later.2⟩

theorem feedAlike {β : Type} {process : Session → β → Outcome (Nat × Session)}
    (each : ∀ s t, s.Alike t → ∀ piece,
      Outcome.Both (fun x y => x.1 = y.1 ∧ x.2.Alike y.2) (process s piece) (process t piece))
    (same : s.Alike t) (pieces : List β) :
    (s.feed process pieces).1 = (t.feed process pieces).1 ∧
      (s.feed process pieces).2.Alike (t.feed process pieces).2 := by
  induction pieces generalizing s t with
  | nil => exact ⟨rfl, same⟩
  | cons piece rest ih =>
    have both := each s t same piece
    unfold Session.feed
    generalize process s piece = x, process t piece = y at both
    cases both with
    | failed f => exact ⟨rfl, same⟩
    | @made a b first =>
      obtain ⟨counts, last⟩ := ih first.2
      dsimp only
      rw [first.1, counts]
      exact ⟨rfl, last⟩

theorem piecesBeside (beside : Beside m s t) {β : Type} {process : Session → β → Outcome (Nat × Session)}
    (each : ∀ s t, s.Alike t → ∀ piece,
      Outcome.Both (fun x y => x.1 = y.1 ∧ x.2.Alike y.2) (process s piece) (process t piece)) (pieces : List β) :
    Outcome.Both Alike (s.start >>= fun s => finishFed (s.feed process pieces))
      (t.start >>= fun t => finishFed (t.feed process pieces)) := by
  refine beside.start.bind fun a b same => ?_
  obtain ⟨counts, last⟩ := feedAlike each same pieces
  generalize a.feed process pieces = x, b.feed process pieces = y at counts last
  obtain ⟨x, a'⟩ := x
  obtain ⟨y, b'⟩ := y
  cases counts
  cases x with
  | error f => exact .failed f
  | ok _ => exact Session.finishAlike last

theorem wholeBeside (beside : Beside m s t) (files : FileTree) (a : Arguments) (input : String) :
    Outcome.Both Alike (decodeWhole files a s input) (decodeWhole files a t input) := by
  unfold decodeWhole
  rw [← beside.models]
  split
  · cases readBytes files input with
    | error f => exact .failed f
    | ok bytes => exact piecesBeside beside (fun _ _ same piece => Session.takeBytesAlike same ⟨piece, false, false⟩) _
  · cases readSamples files s.models.features false input with
    | error f => exact .failed f
    | ok samples =>
      exact piecesBeside beside (fun _ _ same piece => Session.takeSamplesAlike same ⟨piece, false, false⟩) _

theorem makeBeside (reached : Reached m s) (idle : s.inUtterance = false) (e : Endpointer Float Float32)
    (wanted : Nat) :
    Outcome.Both (StreamsBeside m) (StreamSession.make s e wanted) (StreamSession.make (.ofModels m) e wanted) := by
  have beside := Beside.first reached idle
  simp only [StreamSession.make, beside.models, idle]
  split
  · exact .failed _
  · exact .made ⟨rfl, rfl, beside⟩

theorem segmentsBeside (reached : Reached m s) (idle : s.inUtterance = false) (name : String) (wanted : Nat)
    (samples : List Int16) :
    Outcome.Both (fun x y => x.1 = y.1) (decodeSegments name wanted s samples)
      (decodeSegments name wanted (.ofModels m) samples) := by
  unfold decodeSegments
  rw [(Beside.first reached idle).models]
  refine (Outcome.Both.refl _).bind fun e _ made => ?_
  subst made
  refine ((makeBeside reached idle e wanted).mapError _).bind fun d d' beside => ?_
  refine (beside.pushPieces _).bind fun x y pushed => ?_
  have finished : Outcome.Both (fun x y => x.1 = y.1 ∧ StreamsBeside m x.2 y.2) x.2.finish y.2.finish := by
    unfold StreamSession.finish
    rw [pushed.2.1]
    exact pushed.2.apply _ _
  refine finished.bind fun x' y' last => .made ?_
  simp only [pushed.1, last.1, Session.frameRate, last.2.2.2.models]

/-- What an input gives does not depend on what its session decoded before. -/
theorem inputBeside (reached : Reached m s) (idle : s.inUtterance = false) (files : FileTree) (a : Arguments)
    (input : String) :
    Outcome.Both (fun x y => x.1 = y.1) (decodeInput files a s input) (decodeInput files a (.ofModels m) input) := by
  have beside := Beside.first reached idle
  unfold decodeInput
  split
  · rw [← beside.models]
    cases readSamples files s.models.features a.raw input with
    | error f => exact .failed f
    | ok samples => exact segmentsBeside reached idle _ _ samples
  · refine (wholeBeside beside files a input).bind fun _ _ same => .made ?_
    exact congrArg ([·]) (utteranceAlike same _ _)

end
end CommandLine
end SpeechDecoder
