import SpeechDecoder.Session
import SpeechDecoder.Proofs.Acceptance
import SpeechDecoder.Proofs.Feature.Reset

/-! Sessions that calls lead to. Whatever was decoded before, a session keeps its models, and its front end and
its search forget the utterance when the next one starts. -/
namespace SpeechDecoder

namespace Feature.Frontend

theorem regularOfReset {f : Frontend} (regular : f.reset.Regular) : f.Regular :=
  ⟨regular.long, regular.apart⟩

theorem settingsSized [Elementary] {s : Settings} (fit : s.Fit) : (ofSettings s).Sized s.cepstra := by
  refine ⟨Analysis.settingsSized s, ?_⟩
  exact Stage.resetSized (s := Stage.ofSettings s) fit.initial

end Feature.Frontend

namespace Search.Engine
variable {α : Type} [Score α]

theorem resetStart (e : Engine α) :
    ∃ e', e.reset.start = .ok e' ∧ e'.phase = .active ∧ e'.knowledge = e.knowledge := by
  refine ⟨_, rfl, rfl, rfl⟩

theorem advanceOk {e : Engine α} {frame : Frame α} (active : e.phase = .active)
    (size : frame.values.length = e.knowledge.scorer.dimension) :
    ∃ e', e.advance frame = .ok e' ∧ e'.phase = .active ∧ e'.knowledge = e.knowledge := by
  unfold advance
  rw [if_neg (by simp [active]), if_neg (by simp [size])]
  exact ⟨e.step frame, rfl, active, rfl⟩

theorem finishOk {e : Engine α} (active : e.phase = .active) :
    ∃ e', e.finish = .ok e' ∧ e'.knowledge = e.knowledge := by
  unfold finish
  rw [if_neg (by simp [active])]
  exact ⟨_, rfl, rfl⟩

theorem advanceKnowledge {e e' : Engine α} {frame : Frame α} (ok : e.advance frame = .ok e') :
    e'.knowledge = e.knowledge := by
  unfold advance at ok
  split at ok
  · cases ok
  · split at ok
    · cases ok
    · cases ok
      rfl

theorem finishKnowledge {e e' : Engine α} (ok : e.finish = .ok e') :
    e'.knowledge = e.knowledge := by
  unfold finish at ok
  split at ok
  · cases ok
  · cases ok
    rfl

end Search.Engine

namespace Session
open Feature (Frontend)
open Search (Engine)

theorem searchedOk {r : Except Engine.Problem (Engine Float32)} {e : Engine Float32}
    (ok : searched r = .ok e) : r = .ok e := by
  cases r with
  | error p => cases ok
  | ok a => cases ok; rfl

variable [Elementary]

inductive Reached (m : Models) : Session → Prop where
  | made : Reached m (ofModels m)
  | started {s t} (before : Reached m s) (ok : s.start = .ok t) : Reached m t
  | bytes {s t n data hold whole} (before : Reached m s)
      (ok : s.processBytes data hold whole = .ok (n, t)) : Reached m t
  | samples {s t n data hold whole} (before : Reached m s)
      (ok : s.processSamples data hold whole = .ok (n, t)) : Reached m t
  | finished {s t} (before : Reached m s) (ok : s.finish = .ok t) : Reached m t

/-- What a session has of its models, whatever it has decoded. -/
structure Serves (m : Models) (s : Session) : Prop where
  models : s.models = m
  frontend : s.frontend.reset = .ofSettings m.features
  knowledge : s.engine.knowledge = m.knowledge

theorem advanceAllKnowledge {e e' : Engine Float32} {frames : List (Frame Float32)}
    (ok : advanceAll e frames = .ok e') : e'.knowledge = e.knowledge := by
  induction frames generalizing e with
  | nil => cases ok; rfl
  | cons frame rest ih =>
    unfold advanceAll at ok
    cases next : searched (e.advance frame) with
    | error p => rw [next] at ok; cases ok
    | ok a =>
      rw [next] at ok
      exact (ih ok).trans (Engine.advanceKnowledge (searchedOk next))

theorem startServes {m : Models} {s t : Session} (serves : s.Serves m) (ok : s.start = .ok t) :
    t.Serves m := by
  unfold start at ok
  split at ok
  · cases ok
  · obtain ⟨e, started, _, same⟩ := Engine.resetStart s.engine
    rw [started] at ok
    cases ok
    refine ⟨serves.models, ?_, same.trans serves.knowledge⟩
    exact (congrArg Frontend.reset serves.frontend).trans (Frontend.settingsReset m.features)

theorem processHold (s : Session) (samples : List Int16) :
    s.process samples true = .ok ((s.frontend.push samples).1.length,
      { s with frontend := (s.frontend.push samples).2,
               deferred := (s.frontend.push samples).1.reverse ++ s.deferred }) := rfl

theorem processSearch (s : Session) (samples : List Int16) :
    s.process samples false = (do
      let engine ← advanceAll s.engine s.deferred.reverse
      let engine ← advanceAll engine (s.frontend.push samples).1
      .ok ((s.frontend.push samples).1.length,
        { s with frontend := (s.frontend.push samples).2, engine, deferred := [] })) := rfl

theorem processBytesOpen {s : Session} (going : s.inUtterance = true) (bytes : List UInt8)
    (hold whole : Bool) :
    let audio := Audio.samplesIn s.models.features.bigEndian (s.carry.toList ++ bytes)
    s.processBytes bytes hold whole = { s with carry := audio.2 }.process audio.1 hold := by
  simp only [processBytes, going, if_true]

theorem processServes {m : Models} {s t : Session} {n : Nat} {samples : List Int16} {hold : Bool}
    (serves : s.Serves m) (ok : s.process samples hold = .ok (n, t)) : t.Serves m := by
  have reset := (s.frontend.pushReset samples none).trans serves.frontend
  cases hold with
  | true =>
    rw [processHold] at ok
    cases ok
    exact ⟨serves.models, reset, serves.knowledge⟩
  | false =>
    rw [processSearch] at ok
    obtain ⟨e, first, ok⟩ := Outcome.bindOk ok
    obtain ⟨e', second, ok⟩ := Outcome.bindOk ok
    cases ok
    refine ⟨serves.models, reset, ?_⟩
    rw [advanceAllKnowledge second, advanceAllKnowledge first]
    exact serves.knowledge

theorem finishServes {m : Models} {s t : Session} (serves : s.Serves m) (ok : s.finish = .ok t) :
    t.Serves m := by
  unfold finish at ok
  split at ok
  · obtain ⟨e, first, ok⟩ := Outcome.bindOk ok
    obtain ⟨e', second, ok⟩ := Outcome.bindOk ok
    obtain ⟨last, closed, ok⟩ := Outcome.bindOk ok
    cases ok
    refine ⟨serves.models, (s.frontend.flushReset none).trans serves.frontend, ?_⟩
    rw [Engine.finishKnowledge (searchedOk closed), advanceAllKnowledge second,
      advanceAllKnowledge first]
    exact serves.knowledge
  · cases ok

theorem finishIdle {s t : Session} (ok : s.finish = .ok t) : t.inUtterance = false := by
  unfold finish at ok
  split at ok
  · obtain ⟨_, _, ok⟩ := Outcome.bindOk ok
    obtain ⟨_, _, ok⟩ := Outcome.bindOk ok
    obtain ⟨_, _, ok⟩ := Outcome.bindOk ok
    cases ok
    rfl
  · cases ok

theorem reachedServes {m : Models} {s : Session} (reached : Reached m s) : s.Serves m := by
  induction reached with
  | made => exact ⟨rfl, Frontend.settingsReset m.features, rfl⟩
  | started before ok ih => exact startServes ih ok
  | @bytes s t n data hold whole before ok ih =>
    by_cases going : s.inUtterance = true
    · rw [processBytesOpen going] at ok
      refine processServes ?_ ok
      exact ⟨ih.models, ih.frontend, ih.knowledge⟩
    · rw [processBytes, if_neg going] at ok
      cases ok
  | @samples s t n data hold whole before ok ih =>
    by_cases going : s.inUtterance = true
    · rw [processSamples, if_pos going] at ok
      exact processServes ih ok
    · rw [processSamples, if_neg going] at ok
      cases ok
  | finished before ok ih => exact finishServes ih ok

end Session

end SpeechDecoder
