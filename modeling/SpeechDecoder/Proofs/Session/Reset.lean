import SpeechDecoder.Proofs.Session.Splitting
import SpeechDecoder.Proofs.Search.Reset

/-! One utterance after another. A session that starts an utterance answers all calls from there on as a new session
over the same models, whatever was decoded, refused or left before. -/
namespace SpeechDecoder.Session
open Feature (Frontend)
open Search (Engine)

inductive Op where
  | start
  | bytes (call : Call UInt8)
  | samples (call : Call Int16)
  | finish

theorem searchedBoth {related : Engine Float32 → Engine Float32 → Prop}
    {x y : Except Engine.Problem (Engine Float32)} (both : Outcome.Both related x y) :
    Outcome.Both related (searched x) (searched y) := by
  cases both with
  | failed p => exact .failed p.failure
  | made same => exact .made same

section
variable [Elementary]

/-- The answer to a call, which is a number of frames for those that bring audio. -/
def perform (s : Session) : Op → Outcome (Option Nat × Session)
  | .start => s.start.map (Prod.mk none)
  | .bytes call => (s.takeBytes call).map (Prod.map some id)
  | .samples call => (s.takeSamples call).map (Prod.map some id)
  | .finish => s.finish.map (Prod.mk none)

/-- A call that fails leaves the session as it was. -/
def next (s : Session) (op : Op) : Session := (s.perform op).toOption.elim s Prod.snd

def after (s : Session) (ops : List Op) : Session := ops.foldl next s

def answers (s : Session) : List Op → List (Outcome (Option Nat))
  | [] => []
  | op :: rest => (s.perform op).map Prod.fst :: (s.next op).answers rest

/-- Sessions that have the same but their searches, which no call can tell apart. -/
def Alike (s t : Session) : Prop := ∃ e, t = { s with engine := e } ∧ s.engine.Resembles e

theorem advanceAllAlike {e e' : Engine Float32} (same : e.Resembles e') (frames : List (Frame Float32)) :
    Outcome.Both Engine.Resembles (advanceAll e frames) (advanceAll e' frames) := by
  induction frames generalizing e e' with
  | nil => exact .made same
  | cons frame rest ih => exact (searchedBoth (same.perform (.advance frame))).bind fun _ _ => ih

theorem Alike.shown {s t : Session} (alike : s.Alike t) :
    s.hypothesis? = t.hypothesis? ∧ s.segments = t.segments ∧ s.alternatives = t.alternatives ∧
      s.frames = t.frames := by
  obtain ⟨e, rfl, same⟩ := alike
  have seen := same.seen
  have result : s.engine.result = e.result := congrArg Search.Seen.result seen
  refine ⟨?_, ?_, congrArg Search.Seen.alternatives seen, congrArg Search.Seen.frames seen⟩
  · simp only [hypothesis?, result]
  · simp only [segments, result]

theorem processAlike {s t : Session} (alike : s.Alike t) (samples : List Int16) (hold : Bool) :
    Outcome.Both (fun x y => x.1 = y.1 ∧ x.2.Alike y.2) (s.process samples hold) (t.process samples hold) := by
  obtain ⟨e, rfl, same⟩ := alike
  cases hold with
  | true => exact .made ⟨rfl, e, rfl, same⟩
  | false =>
    rw [processSearch, processSearch]
    refine (advanceAllAlike same _).bind fun a b first => ?_
    refine (advanceAllAlike first _).bind fun a' b' second => ?_
    exact .made ⟨rfl, b', rfl, second⟩

theorem startAlike {s t : Session} (alike : s.Alike t) : Outcome.Both Alike s.start t.start := by
  obtain ⟨e, rfl, same⟩ := alike
  unfold start
  split
  · exact .failed _
  · have reset : s.engine.reset.Resembles e.reset := by
      cases same.perform .reset with
      | made same => exact same
    exact (searchedBoth (reset.perform .start)).bind fun a b started => .made ⟨b, rfl, started⟩

theorem takeBytesAlike {s t : Session} (alike : s.Alike t) (call : Call UInt8) :
    Outcome.Both (fun x y => x.1 = y.1 ∧ x.2.Alike y.2) (s.takeBytes call) (t.takeBytes call) := by
  obtain ⟨e, rfl, same⟩ := alike
  unfold takeBytes
  by_cases going : s.inUtterance = true
  · rw [processBytesOpen going, processBytesOpen (s := { s with engine := e }) going]
    refine processAlike ?_ _ _
    exact ⟨e, rfl, same⟩
  · rw [processBytes, processBytes, if_neg going, if_neg going]
    exact .failed _

theorem takeSamplesAlike {s t : Session} (alike : s.Alike t) (call : Call Int16) :
    Outcome.Both (fun x y => x.1 = y.1 ∧ x.2.Alike y.2) (s.takeSamples call) (t.takeSamples call) := by
  have both := processAlike alike call.piece call.hold
  obtain ⟨e, rfl, same⟩ := alike
  unfold takeSamples processSamples
  split
  · exact both
  · exact .failed _

theorem finishAlike {s t : Session} (alike : s.Alike t) : Outcome.Both Alike s.finish t.finish := by
  obtain ⟨e, rfl, same⟩ := alike
  unfold finish
  split
  · refine (advanceAllAlike same _).bind fun a b first => ?_
    refine (advanceAllAlike first _).bind fun a' b' second => ?_
    exact (searchedBoth (second.perform .finish)).bind fun c d last => .made ⟨d, rfl, last⟩
  · exact .failed _

theorem performAlike {s t : Session} (alike : s.Alike t) (op : Op) :
    Outcome.Both (fun x y => x.1 = y.1 ∧ x.2.Alike y.2) (s.perform op) (t.perform op) := by
  cases op with
  | start => exact (startAlike alike).map fun _ _ same => ⟨rfl, same⟩
  | bytes call => exact (takeBytesAlike alike call).map fun _ _ same => ⟨congrArg some same.1, same.2⟩
  | samples call => exact (takeSamplesAlike alike call).map fun _ _ same => ⟨congrArg some same.1, same.2⟩
  | finish => exact (finishAlike alike).map fun _ _ same => ⟨rfl, same⟩

theorem nextAlike {s t : Session} (alike : s.Alike t) (op : Op) :
    (s.perform op).map Prod.fst = (t.perform op).map Prod.fst ∧ (s.next op).Alike (t.next op) := by
  unfold next
  have both := performAlike alike op
  generalize s.perform op = x, t.perform op = y at both
  cases both with
  | failed f => exact ⟨rfl, alike⟩
  | made same => exact ⟨congrArg Except.ok same.1, same.2⟩

theorem answersAlike {s t : Session} (alike : s.Alike t) (ops : List Op) :
    s.answers ops = t.answers ops ∧ (s.after ops).Alike (t.after ops) := by
  induction ops generalizing s t with
  | nil => exact ⟨rfl, alike⟩
  | cons op rest ih =>
    obtain ⟨here, later⟩ := nextAlike alike op
    obtain ⟨others, last⟩ := ih later
    exact ⟨by rw [answers, answers, here, others], last⟩

def Searches (m : Models) (e : Engine Float32) : Prop := ∃ ops, e = (Engine.make m.knowledge).after ops

theorem Searches.perform {m : Models} {e e' : Engine Float32} (searches : Searches m e) (op : Search.Op Float32)
    (ok : e.perform op = .ok e') : Searches m e' := by
  obtain ⟨ops, rfl⟩ := searches
  refine ⟨ops ++ [op], ?_⟩
  simp only [Engine.after, List.foldl_append, List.foldl_cons, List.foldl_nil]
  rw [← Engine.after, ok]
  rfl

theorem Searches.advanced {m : Models} {e e' : Engine Float32} (searches : Searches m e) {frames : List (Frame Float32)}
    (ok : advanceAll e frames = .ok e') : Searches m e' := by
  induction frames generalizing e with
  | nil =>
    cases ok
    exact searches
  | cons frame rest ih =>
    obtain ⟨a, first, ok⟩ := Outcome.bindOk ok
    exact ih (searches.perform (.advance frame) (searchedOk first)) ok

theorem processSearches {m : Models} {s t : Session} {n : Nat} {samples : List Int16} {hold : Bool}
    (searches : Searches m s.engine) (ok : s.process samples hold = .ok (n, t)) : Searches m t.engine := by
  cases hold with
  | true =>
    cases ok
    exact searches
  | false =>
    rw [processSearch] at ok
    obtain ⟨e, first, ok⟩ := Outcome.bindOk ok
    obtain ⟨e', second, ok⟩ := Outcome.bindOk ok
    cases ok
    exact (searches.advanced first).advanced second

theorem reachedSearches {m : Models} {s : Session} (reached : Reached m s) : Searches m s.engine := by
  induction reached with
  | made => exact ⟨[], rfl⟩
  | @started s t before ok ih =>
    unfold start at ok
    split at ok
    · cases ok
    · obtain ⟨e, started, ok⟩ := Outcome.bindOk ok
      cases ok
      have reset : Searches m s.engine.reset := ih.perform .reset rfl
      exact reset.perform .start (searchedOk started)
  | @bytes s t n data hold whole before ok ih =>
    by_cases going : s.inUtterance = true
    · rw [processBytesOpen going] at ok
      refine processSearches ?_ ok
      exact ih
    · rw [processBytes, if_neg going] at ok
      cases ok
  | @samples s t n data hold whole before ok ih =>
    unfold processSamples at ok
    split at ok
    · exact processSearches ih ok
    · cases ok
  | @finished s t before ok ih =>
    unfold finish at ok
    split at ok
    · obtain ⟨e, first, ok⟩ := Outcome.bindOk ok
      obtain ⟨e', second, ok⟩ := Outcome.bindOk ok
      obtain ⟨last, closed, ok⟩ := Outcome.bindOk ok
      cases ok
      exact ((ih.advanced first).advanced second).perform .finish (searchedOk closed)
    · cases ok

theorem nextReached {m : Models} {s : Session} (reached : Reached m s) (op : Op) : Reached m (s.next op) := by
  unfold next
  cases done : s.perform op with
  | error f => exact reached
  | ok result =>
    cases op with
    | start =>
      obtain ⟨t, ok, rfl⟩ := Outcome.mapOk (congrArg Except.toOption done)
      exact reached.started ok
    | bytes call =>
      obtain ⟨⟨n, t⟩, ok, rfl⟩ := Outcome.mapOk (congrArg Except.toOption done)
      exact reached.bytes ok
    | samples call =>
      obtain ⟨⟨n, t⟩, ok, rfl⟩ := Outcome.mapOk (congrArg Except.toOption done)
      exact reached.samples ok
    | finish =>
      obtain ⟨t, ok, rfl⟩ := Outcome.mapOk (congrArg Except.toOption done)
      exact reached.finished ok

theorem afterReached {m : Models} {s : Session} (reached : Reached m s) (ops : List Op) :
    Reached m (s.after ops) := by
  induction ops generalizing s with
  | nil => exact reached
  | cons op rest ih => exact ih (nextReached reached op)

theorem answersStarted {s t : Session} (started : s.start = .ok t) (later : List Op) :
    s.answers (.start :: later) = .ok none :: t.answers later ∧ s.after (.start :: later) = t.after later := by
  have answer : s.perform .start = .ok (none, t) := by
    rw [perform, started]
    rfl
  have next : s.next .start = t := by
    rw [next, answer]
    rfl
  constructor
  · rw [answers, answer, next]
    rfl
  · rw [after, List.foldl_cons, next]
    rfl

/-- An utterance starts on any session that is between utterances as on a new one. -/
theorem startFirst {m : Models} {s : Session} (reached : Reached m s) (idle : s.inUtterance = false) :
    ∃ a b, s.start = .ok a ∧ (ofModels m).start = .ok b ∧ a.Alike b := by
  have serves := reachedServes reached
  obtain ⟨ops, searched⟩ := reachedSearches reached
  have reset : s.engine.reset.Resembles (ofModels m).engine.reset := by
    rw [searched]
    exact Engine.resetResembles m.knowledge ops
  obtain ⟨e, first, _⟩ := Engine.resetStart s.engine
  obtain ⟨e', other, _⟩ := Engine.resetStart (ofModels m).engine
  have same : e.Resembles e' := by
    have both := reset.perform .start
    simp only [Engine.perform, first, other] at both
    cases both with
    | made same => exact same
  refine ⟨⟨s.models, s.frontend.reset, e, true, none, []⟩,
    ⟨m, (Frontend.ofSettings m.features).reset, e', true, none, []⟩, ?_, ?_, e', ?_, same⟩
  · simp only [start, idle, first]
    rfl
  · simp only [start, ofModels, Bool.false_eq_true, if_false]
    rw [show (Engine.make m.knowledge).reset.start = .ok e' from other]
    rfl
  · rw [serves.models, serves.frontend, Frontend.settingsReset]

/-- After any calls, successful or not, an utterance goes as on a new session, and nothing of what was before is
heard again; so does a search that is reset, wherever it was, and a front end. -/
theorem startsAfresh :
    (∀ (m : Models) (before : List Op), ((ofModels m).after before).inUtterance = false → ∀ later : List Op,
      let calls := Op.start :: later
      let s := (ofModels m).after before
      s.answers calls = (ofModels m).answers calls ∧
        (s.after calls).hypothesis? = ((ofModels m).after calls).hypothesis? ∧
        (s.after calls).segments = ((ofModels m).after calls).segments ∧
        (s.after calls).alternatives = ((ofModels m).after calls).alternatives ∧
        (s.after calls).frames = ((ofModels m).after calls).frames) ∧
    (∀ (k : Search.Knowledge Float32) (before later : List (Search.Op Float32)),
      let e := ((Engine.make k).after before).reset
      (e.after later).seen = ((Engine.make k).after later).seen ∧
        ∀ op, (e.after later).problem? op = ((Engine.make k).after later).problem? op) ∧
    ∀ (s : Feature.Settings) (f : Frontend), Frontend.Reached s f → f.reset = .ofSettings s := by
  refine ⟨fun m before idle later => ?_, fun k before later => ?_, fun s f => Frontend.reachedReset⟩
  · obtain ⟨a, b, started, first, alike⟩ := startFirst (afterReached .made before) idle
    obtain ⟨here, state⟩ := answersStarted started later
    obtain ⟨there, state'⟩ := answersStarted first later
    obtain ⟨answers, last⟩ := answersAlike alike later
    dsimp only
    rw [here, there, state, state', answers]
    exact ⟨rfl, last.shown⟩
  · have same := (Engine.resetResembles k before).after later
    exact ⟨same.seen, same.problem⟩

end

/-- A session that refused a call and decoded an utterance of which a byte was left is asked for another one; a
front end of the same models is reset with a sample in it. -/
theorem startsAfterOddByte :
    let _ := Elementary.system
    let before : List Op := [.finish, .start, .start, .bytes ⟨[1], true, false⟩, .finish]
    let calls : List Op := [.start, .bytes ⟨[2, 3], false, false⟩, .finish]
    ∃ m, ((ofModels m).after before).inUtterance = false ∧
      ((ofModels m).after before).answers calls = (ofModels m).answers calls ∧
      (((ofModels m).after before).after calls).segments = ((ofModels m).after calls).segments ∧
      ((Frontend.ofSettings m.features).push [256] (some 1)).2.reset = .ofSettings m.features := by
  intro _ before calls
  have made : ((Models.ofParts {} ⟨[⟨"A", false, 0, [0]⟩], 0, 1, 1, 1⟩ ⟨1, #[-1, -1]⟩ (.direct 1 39)
      { order := 1, words := #["a"], unigrams := #[(-1, 0)] }
      ⟨#[⟨"a", "a", some 0, .normal, [0]⟩], none, none⟩).map fun m =>
        ((ofModels m).after before).inUtterance).toOption = some false := by decide +kernel
  obtain ⟨m, _, idle⟩ := Outcome.mapOk made
  have afresh := startsAfresh.1 m before idle [.bytes ⟨[2, 3], false, false⟩, .finish]
  exact ⟨m, idle, afresh.1, afresh.2.2.1, startsAfresh.2.2 m.features _ (.pushed .made [256] (some 1))⟩

end SpeechDecoder.Session
