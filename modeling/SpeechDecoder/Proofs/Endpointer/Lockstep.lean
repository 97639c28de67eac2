import SpeechDecoder.Proofs.Session.Reset
import SpeechDecoder.Proofs.Endpointer.Found

/-! A decoder that follows an endpointer. What an endpointer tells takes turns, so that the decoder is in an utterance
when the endpointer is in speech, and every utterance is decoded as if it were the only one. -/
namespace SpeechDecoder

namespace SpeechEvent
variable {τ : Type}

/-- Events in turn, from inside or outside an utterance to inside or outside one. -/
inductive Turns : Bool → List (SpeechEvent τ) → Bool → Prop where
  | done (going : Bool) : Turns going [] going
  | start {time : τ} {rest : List (SpeechEvent τ)} {last : Bool} (later : Turns true rest last) :
      Turns false (.start time :: rest) last
  | audio {samples : List Int16} {rest : List (SpeechEvent τ)} {last : Bool} (later : Turns true rest last) :
      Turns true (.audio samples :: rest) last
  | finish {time : τ} {rest : List (SpeechEvent τ)} {last : Bool} (later : Turns false rest last) :
      Turns true (.finish time :: rest) last

theorem Turns.append {a b c : Bool} {first second : List (SpeechEvent τ)} (turns : Turns a first b)
    (later : Turns b second c) : Turns a (first ++ second) c := by
  induction turns with
  | done going => exact later
  | start _ ih => exact .start (ih later)
  | audio _ ih => exact .audio (ih later)
  | finish _ ih => exact .finish (ih later)

/-- The audio of the utterance that events leave open, if any. -/
def openAfter (heard : Option (List Int16)) : List (SpeechEvent τ) → Option (List Int16)
  | [] => heard
  | .start _ :: rest => openAfter (some []) rest
  | .audio samples :: rest => openAfter (heard.map (· ++ samples)) rest
  | .finish _ :: rest => openAfter none rest

/-- The audio of each utterance that events end. -/
def groups (heard : Option (List Int16)) : List (SpeechEvent τ) → List (List Int16)
  | [] => []
  | .start _ :: rest => groups (some []) rest
  | .audio samples :: rest => groups (heard.map (· ++ samples)) rest
  | .finish _ :: rest => heard.toList ++ groups none rest

theorem groupsAppend (heard : Option (List Int16)) (first second : List (SpeechEvent τ)) :
    groups heard (first ++ second) = groups heard first ++ groups (openAfter heard first) second := by
  fun_induction groups heard first with
  | case1 heard => rfl
  | case2 heard time rest ih => exact ih
  | case3 heard samples rest ih => exact ih
  | case4 heard time rest ih => simp only [List.cons_append, groups, openAfter, ih, List.append_assoc]

end SpeechEvent

namespace Endpointer
open Activity (Scale)
open SpeechEvent (Turns)

inductive Ask where
  | push (samples : List Int16)
  | finish

section
variable {τ α : Type} [Time τ]

theorem releaseTurns (e : Endpointer τ α) : Turns true e.release.1 true := by
  unfold release
  split
  · exact .audio (.done true)
  · exact .done true

theorem releaseGoing (e : Endpointer τ α) : e.release.2.inSpeech = e.inSpeech := by
  obtain ⟨_, _, _, popped⟩ := e.popIs
  rw [releaseIs, popped]

theorem concludeTurns (e : Endpointer τ α) : Turns e.inSpeech e.conclude.1 e.conclude.2.inSpeech := by
  have turns := e.releaseTurns
  unfold conclude
  cases speech : e.inSpeech with
  | true =>
    simp only [if_true]
    split
    · exact turns.append (.finish (.done false))
    · rw [releaseGoing, speech]
      exact turns
  | false =>
    simp only [Bool.false_eq_true, if_false]
    split
    · let begun : Endpointer τ α := { e with
        speechStart := e.queueStart, speechEnd := Time.zero, inSpeech := true }
      change Turns false (.start begun.speechStart :: begun.release.1) begun.release.2.inSpeech
      rw [releaseGoing]
      exact .start begun.releaseTurns
    · rw [speech]
      exact .done false

theorem releaseSpeechTurns (fuel : Nat) (e : Endpointer τ α) : Turns true (releaseSpeech fuel e).1 true := by
  induction fuel generalizing e with
  | zero => exact .done true
  | succ fuel ih =>
    unfold releaseSpeech
    split
    · exact .done true
    · split
      · exact e.releaseTurns.append (ih _)
      · exact .done true

theorem finishTurns (e : Endpointer τ α) : Turns e.inSpeech e.finish.1 e.finish.2.inSpeech := by
  obtain ⟨_, _, _, _, finished⟩ := e.finishIs
  have closed : e.finish.2.inSpeech = false := by rw [finished]
  rw [closed]
  unfold finish
  cases e.inSpeech with
  | true =>
    have turns := releaseSpeechTurns e.queue.size
      { e with pending := .empty, inSpeech := false, speechEnd := e.queueStart }
    simp only [if_true]
    split
    · exact (turns.append (.audio (.done true))).append (.finish (.done false))
    · exact (turns.append (.done true)).append (.finish (.done false))
  | false => exact .done false

variable [Score α]

def ask (s : Scale α) (e : Endpointer τ α) : Ask → Outcome (List (SpeechEvent τ) × Endpointer τ α)
  | .push samples => e.push s samples
  | .finish => .ok e.finish

/-- The events of each call. -/
def asks (s : Scale α) (e : Endpointer τ α) : List Ask → Outcome (List (List (SpeechEvent τ)) × Endpointer τ α)
  | [] => .ok ([], e)
  | a :: rest => do
    let (events, e) ← e.ask s a
    let (more, e) ← e.asks s rest
    .ok (events :: more, e)

theorem hearTurns (s : Scale α) (e : Endpointer τ α) (frame : List Int16) :
    Turns e.inSpeech (e.hear s frame).1 (e.hear s frame).2.inSpeech := by
  let heard : Endpointer τ α := { e with
    detector := { e.detector with floor := s.follow e.detector.floor (s.level frame) } }
  have turns := concludeTurns
    (heard.insert ⟨frame, s.isSpeech e.detector.mode e.detector.floor (s.level frame)⟩)
  rw [insertSpeech] at turns
  exact turns

theorem hearAllTurns (s : Scale α) (e : Endpointer τ α) (frames : List (List Int16)) :
    Turns e.inSpeech (e.hearAll s frames).1 (e.hearAll s frames).2.inSpeech := by
  induction frames generalizing e with
  | nil => exact .done e.inSpeech
  | cons frame rest ih => exact (hearTurns s e frame).append (ih _)

theorem askTurns {s : Scale α} {made e : Endpointer τ α} (blank : made.Blank s) (reached : Reached s made e) (a : Ask) :
    ∃ events e', e.ask s a = .ok (events, e') ∧ Reached s made e' ∧ Turns e.inSpeech events e'.inSpeech := by
  cases a with
  | push samples =>
    have pushed := pushHear s (reachedSame blank reached).2 samples
    exact ⟨_, _, pushed, .pushed reached pushed, e.hearAllTurns s _⟩
  | finish => exact ⟨_, _, rfl, .finished reached, e.finishTurns⟩

end

end Endpointer

namespace Session
open Search (Engine)

section
variable [Elementary]

/-- An utterance tells what the same samples tell on a new session, given to it at once. -/
theorem toldAlone {m : Models} (fit : m.Fit) {before t s u : Session} (reached : Reached m before)
    (idle : before.inUtterance = false) (started : before.start = .ok t) {audio : List Int16} {n : Nat}
    (fed : t.Fed audio none n s) (finished : s.finish = .ok u) :
    ∃ told, (ofModels m).decode takeSamples [⟨audio, false, false⟩] = .ok told ∧
      told.hypothesis = u.hypothesis? ∧ told.segments = u.segments ∧ told.alternatives = u.alternatives := by
  obtain ⟨a, b, first, other, alike⟩ := startFirst reached idle
  obtain rfl : t = a := Except.ok.inj (started.symm.trans first)
  obtain ⟨a, ok, fresh⟩ := startFresh (reachedServes reached) idle
  obtain rfl : t = a := Except.ok.inj (started.symm.trans ok)
  -- the same samples at once, on this session and on a new one
  let call : Call Int16 := ⟨audio, false, false⟩
  obtain ⟨k, once, taken, fed'⟩ := processFed fit fresh (freshFed fit fresh) audio false
  obtain ⟨_, e, ends⟩ := fedFinish fit fresh audio
  obtain ⟨_, w, closed, same⟩ := ends none (0 + k) once fed'
  obtain ⟨_, w', closed', same'⟩ := ends none n s fed
  obtain rfl : u = w' := Except.ok.inj (finished.symm.trans closed')
  have took : t.takeSamples call = .ok (k, once) := (if_pos fresh.going).trans taken
  have both := takeSamplesAlike alike call
  rw [took] at both
  obtain ⟨⟨_, once'⟩, took', rfl, alike'⟩ := both.ok
  have last := finishAlike alike'
  rw [closed] at last
  obtain ⟨v, closed'', shown⟩ := last.ok
  obtain ⟨hypothesis, segments, alternatives, _⟩ := shown.shown
  have engines : w.engine = u.engine := same.trans same'.symm
  have seen := tellSame engines 0
  simp only [tell, Told.mk.injEq] at seen
  refine ⟨tell [k].sum v, ?_, ?_, ?_, ?_⟩
  · have heard : b.feed takeSamples [call] = (.ok [k], once') := by
      simp only [feed, took']
      rfl
    simp only [decode, other, bind, Except.bind]
    rw [heard]
    simp only [closed'']
  · exact hypothesis.symm.trans seen.2.1
  · exact segments.symm.trans seen.2.2.1
  · exact alternatives.symm.trans seen.2.2.2.2

theorem finishHypothesis {s t : Session} (ok : s.finish = .ok t) : ∃ h, t.hypothesis? = some h := by
  unfold finish at ok
  split at ok
  · obtain ⟨_, _, ok⟩ := Outcome.bindOk ok
    obtain ⟨e, _, ok⟩ := Outcome.bindOk ok
    obtain ⟨last, closed, ok⟩ := Outcome.bindOk ok
    cases ok
    have closed := searchedOk closed
    unfold Engine.finish at closed
    split at closed
    · cases closed
    · cases closed
      exact ⟨_, rfl⟩
  · cases ok

end

end Session

namespace StreamSession
open Endpointer (Ask Blank)
open SpeechEvent (Turns openAfter groups groupsAppend)
open Session (Reached takeSamples toldAlone)

section
variable [Elementary]

/-- A session that has heard what there is of the open utterance, if any. -/
inductive Abreast (m : Models) (s : Session) : Option (List Int16) → Prop where
  | idle (reached : Reached m s) (idle : s.inUtterance = false) : Abreast m s none
  | hearing {before t : Session} {audio : List Int16} {n : Nat} (reached : Reached m s) (first : Reached m before)
      (idle : before.inUtterance = false) (started : before.start = .ok t) (fresh : t.Fresh m)
      (fed : t.Fed audio none n s) : Abreast m s (some audio)

/-- An utterance with the results that its audio has on a new session, given to it at once. -/
def Alone (m : Models) (wanted : Nat) (audio : List Int16) (f : FoundUtterance) : Prop :=
  ∃ told, (Session.ofModels m).decode takeSamples [⟨audio, false, false⟩] = .ok told ∧
    told.hypothesis = some f.hypothesis ∧ told.segments = f.segments ∧ told.alternatives wanted = f.alternatives

theorem Abreast.going {m : Models} {s : Session} {heard : Option (List Int16)} (abreast : Abreast m s heard) :
    s.inUtterance = heard.isSome := by
  cases abreast with
  | idle _ idle => exact idle
  | hearing _ _ _ _ _ fed => exact fed.going

theorem Abreast.reached {m : Models} {s : Session} {heard : Option (List Int16)} (abreast : Abreast m s heard) :
    Reached m s := by
  cases abreast with
  | idle reached _ => exact reached
  | hearing reached _ _ _ _ _ => exact reached

theorem Abreast.start {m : Models} (fit : m.Fit) {s : Session} (abreast : Abreast m s none) :
    ∃ t, s.start = .ok t ∧ Abreast m t (some []) := by
  cases abreast with
  | idle reached idle =>
    obtain ⟨t, started, fresh⟩ := Session.startFresh (Session.reachedServes reached) idle
    exact ⟨t, started, .hearing (.started reached started) reached idle started fresh (Session.freshFed fit fresh)⟩

theorem Abreast.audio {m : Models} (fit : m.Fit) {s : Session} {audio : List Int16} (abreast : Abreast m s (some audio))
    (samples : List Int16) :
    ∃ n t, s.processSamples samples false false = .ok (n, t) ∧ Abreast m t (some (audio ++ samples)) := by
  cases abreast with
  | hearing reached first idle started fresh fed =>
    obtain ⟨n, t, taken, later⟩ := Session.processFed fit fresh fed samples false
    have ok : s.processSamples samples false false = .ok (n, t) := (if_pos fed.going).trans taken
    exact ⟨n, t, ok, .hearing (.samples reached ok) first idle started fresh later⟩

theorem Abreast.finish {m : Models} (fit : m.Fit) {s : Session} {audio : List Int16}
    (abreast : Abreast m s (some audio)) (start time : Float) (wanted : Nat) :
    ∃ t, s.finish = .ok t ∧ Abreast m t none ∧ Alone m wanted audio (found t start time wanted) := by
  cases abreast with
  | hearing reached first idle started fresh fed =>
    obtain ⟨_, _, ends⟩ := Session.fedFinish fit fresh audio
    obtain ⟨_, t, ok, _⟩ := ends none _ s fed
    obtain ⟨told, decoded, hypothesis, segments, alternatives⟩ := toldAlone fit first idle started fed ok
    obtain ⟨h, some⟩ := Session.finishHypothesis ok
    refine ⟨t, ok, .idle (.finished reached ok) (Session.finishIdle ok), told, decoded, ?_, segments, ?_⟩
    · simp only [hypothesis, found, some, Option.getD_some]
    · simp only [alternatives, found]

theorem followAlone {m : Models} (fit : m.Fit) {s : Session} {heard : Option (List Int16)} (abreast : Abreast m s heard)
    {events : List (SpeechEvent Float)} {last : Bool} (turns : Turns heard.isSome events last) (start : Float)
    (wanted : Nat) : ∃ found s', follow start wanted s events = .ok (found, s') ∧
      Abreast m s' (openAfter heard events) ∧ (openAfter heard events).isSome = last ∧
      List.Forall₂ (Alone m wanted) (groups heard events) found := by
  generalize same : heard.isSome = going at turns
  induction turns generalizing s heard with
  | done going => exact ⟨[], s, rfl, abreast, same, .nil⟩
  | start _ ih =>
    obtain rfl := Option.isNone_iff_eq_none.mp (Option.isSome_eq_false_iff.mp same)
    obtain ⟨t, started, abreast⟩ := abreast.start fit
    obtain ⟨found, s', followed, later, going, each⟩ := ih abreast rfl
    refine ⟨found, s', ?_, later, going, each⟩
    simp only [follow, started, bind, Except.bind, followed]
  | @audio samples _ _ _ ih =>
    obtain ⟨audio, rfl⟩ := Option.isSome_iff_exists.mp same
    obtain ⟨n, t, taken, abreast⟩ := abreast.audio fit samples
    obtain ⟨found, s', followed, later, going, each⟩ := ih abreast rfl
    refine ⟨found, s', ?_, later, going, each⟩
    simp only [follow, taken, bind, Except.bind, followed]
  | @finish time _ _ _ ih =>
    obtain ⟨audio, rfl⟩ := Option.isSome_iff_exists.mp same
    obtain ⟨t, finished, abreast, alone⟩ := abreast.finish fit start time wanted
    obtain ⟨more, s', followed, later, going, each⟩ := ih abreast rfl
    refine ⟨found t start time wanted :: more, s', ?_, later, going, .cons alone each⟩
    simp only [follow, finished, bind, Except.bind, followed]

def ask (d : StreamSession) : Ask → Outcome (List FoundUtterance × StreamSession)
  | .push samples => d.push samples
  | .finish => d.finish

/-- What each call finds. -/
def asks (d : StreamSession) : List Ask → Outcome (List (List FoundUtterance) × StreamSession)
  | [] => .ok ([], d)
  | a :: rest => do
    let (found, d) ← d.ask a
    let (more, d) ← d.asks rest
    .ok (found :: more, d)

theorem askFollows {d : StreamSession} {a : Ask} {events : List (SpeechEvent Float)} {e : Endpointer Float Float32}
    (told : d.endpointer.ask Activity.decibelScale a = .ok (events, e)) : d.ask a = d.apply e events := by
  cases a with
  | push samples =>
    have pushed : d.endpointer.push Activity.decibelScale samples = .ok (events, e) := told
    simp only [ask, push, pushed, bind, Except.bind]
  | finish =>
    have finished : d.endpointer.finish = (events, e) := Except.ok.inj told
    simp only [ask, finish, finished]

theorem asksAlone {m : Models} (fit : m.Fit) {made : Endpointer Float Float32}
    (blank : made.Blank Activity.decibelScale) (asked : List Ask) {d : StreamSession} (reached : Endpointer.Reached Activity.decibelScale made d.endpointer)
    {heard : Option (List Int16)} (abreast : Abreast m d.session heard) (same : heard.isSome = d.endpointer.inSpeech) :
    ∃ calls e found d', d.endpointer.asks Activity.decibelScale asked = .ok (calls, e) ∧
      d.asks asked = .ok (found, d') ∧ d'.endpointer = e ∧ d'.session.inUtterance = e.inSpeech ∧
      List.Forall₂ (Alone m d.wanted) (groups heard calls.flatten) found.flatten := by
  induction asked generalizing d heard with
  | nil => exact ⟨[], _, [], d, rfl, rfl, rfl, abreast.going.trans same, .nil⟩
  | cons a rest ih =>
    obtain ⟨events, e, told, reached', turns⟩ := Endpointer.askTurns blank reached a
    rw [← same] at turns
    obtain ⟨here, s, followed, abreast', still, each⟩ := followAlone fit abreast turns e.speechStart d.wanted
    have asked : d.ask a = .ok (here, { d with session := s, endpointer := e }) := by
      rw [askFollows told, apply, followed]
      rfl
    obtain ⟨calls, e', more, d', told', asked', same', going, others⟩ :=
      ih (d := { d with session := s, endpointer := e }) reached' abreast' still
    refine ⟨events :: calls, e', here :: more, d', ?_, ?_, same', going, ?_⟩
    · simp only [Endpointer.asks, told, told', bind, Except.bind]
    · simp only [asks, asked, asked', bind, Except.bind]
    · rw [List.flatten_cons, List.flatten_cons, groupsAppend]
      exact List.rel_append each others

/-- Calls of a stream session in any order do not fail. After each, the session is in an utterance when the endpointer
is in speech, and each utterance that was found has the results of its audio on a new session. -/
theorem utterancesAlone {config : Config} {phones : Model.PhoneSet} {transitions : Model.Transitions Float32}
    {scorer : Model.Scorer Float32} {language : Model.Ngram Float32} {lexicon : Model.Lexicon} {m : Models}
    (accepted : Models.ofParts config phones transitions scorer language lexicon = .ok m)
    {s : Session} (reached : Reached m s) {c : EndpointerSettings} {e : Endpointer Float Float32}
    (made : Endpointer.make Activity.decibelScale c = .ok e) {wanted : Nat} {d : StreamSession}
    (ready : make s e wanted = .ok d) (asked : List Ask) :
    ∃ calls e' found d', e.asks Activity.decibelScale asked = .ok (calls, e') ∧ d.asks asked = .ok (found, d') ∧
      d'.endpointer = e' ∧ d'.session.inUtterance = e'.inSpeech ∧
      List.Forall₂ (Alone m wanted) (groups none calls.flatten) found.flatten := by
  have fit := Models.ofPartsFit config phones transitions scorer language lexicon m accepted
  have blank := (Endpointer.makeBlank made).1
  obtain ⟨idle, rfl⟩ := makeIs ready
  exact asksAlone fit blank asked (d := ⟨s, e, wanted⟩) .made (.idle reached idle) blank.inSpeech.symm

end

/-- The second sound is ended by the end of the stream, which goes on all the same, and the last one is still heard. -/
theorem aloneAfterAnEnd :
    let _ := twoPowers
    let sound : List Int16 := 0 :: List.replicate 6 10000
    let asked : List Ask := [.push (twoSounds.take 20), .finish, .push (twoSounds ++ twoSounds.take 8)]
    ∃ m e d, smallParts = .ok m ∧ Reached m (.ofModels m) ∧
      Endpointer.make Activity.decibelScale sampleBySample = .ok e ∧ make (.ofModels m) e 2 = .ok d ∧
      ∃ calls e' found d', e.asks Activity.decibelScale asked = .ok (calls, e') ∧ d.asks asked = .ok (found, d') ∧
        groups none calls.flatten = [sound, sound, sound, sound] ∧ e'.inSpeech = true ∧
        d'.session.inUtterance = true ∧ List.Forall₂ (Alone m 2) [sound, sound, sound, sound] found.flatten := by
  intro _ sound asked
  have heard : ((Endpointer.make Activity.decibelScale sampleBySample :
      Except Endpointer.Problem (Endpointer Float Float32)).map fun e => decide (e.detector.sampleRate = 16000 ∧
        ((e.asks Activity.decibelScale asked).map fun told => (groups none told.1.flatten, told.2.inSpeech)).toOption =
          some ([sound, sound, sound, sound], true))).toOption = some true := by
    decide +kernel
  obtain ⟨m, accepted, rate⟩ := smallRate
  obtain ⟨e, made, facts⟩ := Outcome.mapOk heard
  obtain ⟨rate', told⟩ := of_decide_eq_true facts
  have ready : make (.ofModels m) e 2 = .ok ⟨.ofModels m, e, 2⟩ := makeOk (rate'.trans rate.symm) rfl 2
  obtain ⟨calls, e', found, d', called, answered, _, going, alone⟩ := utterancesAlone accepted .made made ready asked
  rw [called] at told
  obtain ⟨sounds, speech⟩ := Prod.mk.inj (Option.some.inj told)
  refine ⟨m, e, _, accepted, .made, made, ready, calls, e', found, d', called, answered, sounds, speech,
    going.trans speech, ?_⟩
  rw [← sounds]
  exact alone

end StreamSession

end SpeechDecoder
