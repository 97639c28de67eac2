import SpeechDecoder.Proofs.Calls
import SpeechDecoder.Proofs.Session.Reset

/-! Calls out of order. A session refuses exactly the calls that do not fit the utterance, and a search those that do
not fit its phase or the size of its frames. Nothing else fails, and what is refused leaves nothing behind. -/
namespace SpeechDecoder

namespace Search.Engine
variable {α : Type} [Score α]

/-- The answer to a call, which is the result for the one that finishes, and the search after it. -/
def attempt (e : Engine α) (op : Op α) : Except Failure (Option (Result α)) × Engine α :=
  match op, e.perform op with
  | _, .error p => (.error p.failure, e)
  | .finish, .ok done => (.ok done.result, done)
  | _, .ok done => (.ok none, done)

/-- Why a search in a phase does not take a call. -/
def refusal (dimension : Nat) (phase : Phase) : Op α → Option Problem
  | .start => if phase = .idle then none else some (.phase "start" phase)
  | .advance frame =>
    if phase = .active then
      if frame.values.length = dimension then none else some (.dimension frame.values.length dimension)
    else some (.phase "advance" phase)
  | .finish => if phase = .active then none else some (.phase "finish" phase)
  | .reset => none

def phaseAfter (phase : Phase) : Op α → Phase
  | .start => if phase = .idle then .active else phase
  | .advance _ => phase
  | .finish => if phase = .active then .finalized else phase
  | .reset => .idle

theorem performRefused {e : Engine α} {op : Op α} {p : Problem}
    (wrong : refusal e.knowledge.scorer.dimension e.phase op = some p) :
    e.perform op = .error p ∧ phaseAfter e.phase op = e.phase := by
  cases op with
  | start =>
    by_cases idle : e.phase = .idle
    · simp [refusal, idle] at wrong
    · simp only [refusal, if_neg idle, Option.some.injEq] at wrong
      exact ⟨by rw [perform, start, if_pos idle, wrong], if_neg idle⟩
  | advance frame =>
    refine ⟨?_, rfl⟩
    by_cases active : e.phase = .active
    · by_cases size : frame.values.length = e.knowledge.scorer.dimension
      · simp [refusal, active, size] at wrong
      · simp only [refusal, if_pos active, if_neg size, Option.some.injEq] at wrong
        rw [perform, advance, if_neg (not_not.mpr active), if_pos size, wrong]
    · simp only [refusal, if_neg active, Option.some.injEq] at wrong
      rw [perform, advance, if_pos active, wrong]
  | finish =>
    by_cases active : e.phase = .active
    · simp [refusal, active] at wrong
    · simp only [refusal, if_neg active, Option.some.injEq] at wrong
      exact ⟨by rw [perform, finish, if_pos active, wrong], if_neg active⟩
  | reset => cases wrong

theorem performGranted {e : Engine α} {op : Op α}
    (fits : refusal e.knowledge.scorer.dimension e.phase op = none) :
    ∃ done, e.perform op = .ok done ∧ done.phase = phaseAfter e.phase op ∧ done.knowledge = e.knowledge := by
  cases op with
  | start =>
    by_cases idle : e.phase = .idle
    · rw [perform, start, if_neg (not_not.mpr idle), phaseAfter, if_pos idle]
      exact ⟨_, rfl, rfl, rfl⟩
    · simp [refusal, idle] at fits
  | advance frame =>
    by_cases active : e.phase = .active
    · by_cases size : frame.values.length = e.knowledge.scorer.dimension
      · obtain ⟨done, ok, still, same⟩ := advanceOk active size
        exact ⟨done, ok, still.trans active.symm, same⟩
      · simp [refusal, active, size] at fits
    · simp [refusal, active] at fits
  | finish =>
    by_cases active : e.phase = .active
    · rw [perform, finish, if_neg (not_not.mpr active), phaseAfter, if_pos active]
      exact ⟨_, rfl, rfl, rfl⟩
    · simp [refusal, active] at fits
  | reset => exact ⟨e.reset, rfl, rfl, rfl⟩

theorem attemptIs (e : Engine α) (op : Op α) :
    (∀ f, (e.attempt op).1 = .error f ↔
      (refusal e.knowledge.scorer.dimension e.phase op).map Problem.failure = some f) ∧
    (e.attempt op).2.phase = phaseAfter e.phase op ∧ (e.attempt op).2.knowledge = e.knowledge ∧
    ((e.attempt op).1.isOk = false → (e.attempt op).2 = e) := by
  cases fits : refusal e.knowledge.scorer.dimension e.phase op with
  | some p =>
    obtain ⟨refused, stays⟩ := performRefused fits
    have answer : e.attempt op = (.error p.failure, e) := by simp only [attempt, refused]
    rw [answer]
    exact ⟨fun f => by simp, stays.symm, rfl, fun _ => rfl⟩
  | none =>
    obtain ⟨done, ok, phase, same⟩ := performGranted fits
    obtain ⟨a, answer⟩ : ∃ a, e.attempt op = (.ok a, done) := by
      unfold attempt
      rw [ok]
      cases op <;> exact ⟨_, rfl⟩
    rw [answer]
    exact ⟨fun f => by simp, phase, same, fun failed => by cases failed⟩

theorem attemptAtomic : Calls.Atomic (attempt (α := α)) fun _ => True :=
  ⟨fun _ _ _ => trivial, fun e op _ => (attemptIs e op).2.2.2⟩

theorem attemptsPhase (k : Knowledge α) (ops : List (Op α)) :
    (Calls.after attempt (make k) ops).phase = ops.foldl phaseAfter .idle ∧
      (Calls.after attempt (make k) ops).knowledge = k := by
  have each (e : Engine α) : (Calls.after attempt e ops).phase = ops.foldl phaseAfter e.phase ∧
      (Calls.after attempt e ops).knowledge = e.knowledge := by
    induction ops generalizing e with
    | nil => exact ⟨rfl, rfl⟩
    | cons op rest ih =>
      obtain ⟨_, phase, same, _⟩ := attemptIs e op
      obtain ⟨last, still⟩ := ih (e.attempt op).2
      rw [phase] at last
      exact ⟨last, still.trans same⟩
  exact each (make k)

end Search.Engine

namespace Session
open Feature (Frontend)
open Search (Engine)

/-- A part of a call. What was done before a failure stays done. -/
abbrev Doing := ExceptT Failure (StateM Session)

namespace Doing
variable {α β : Type} {s t : Session}

theorem next {x : Doing α} {f : α → Doing β} {a : α} (first : x.run s = (.ok a, t)) :
    (x >>= f).run s = (f a).run t :=
  congrArg (fun r : Except Failure α × Session => ExceptT.bindCont f r.1 r.2) first

theorem stop {x : Doing α} {f : α → Doing β} {e : Failure} (first : x.run s = (.error e, t)) :
    (x >>= f).run s = (.error e, t) :=
  congrArg (fun r : Except Failure α × Session => ExceptT.bindCont f r.1 r.2) first

def refuse (wrong : Session → Bool) (p : Problem) : Doing Unit := do
  if wrong (← get) then throw p.failure

def searching (ask : Engine Float32 → Except Engine.Problem (Engine Float32)) : Doing Unit := do
  match ask (← get).engine with
  | .ok engine => modify fun s => { s with engine }
  | .error p => throw p.failure

theorem refuseIs (wrong : Session → Bool) (p : Problem) :
    (refuse wrong p).run s = (if wrong s then .error p.failure else .ok (), s) := by
  change (if wrong s then _ else _ : Doing Unit).run s = _
  split <;> rfl

theorem refused {wrong : Session → Bool} {p : Problem} {f : Unit → Doing β} (out : wrong s = true) :
    (refuse wrong p >>= f).run s = (.error p.failure, s) :=
  stop (by rw [refuseIs, if_pos out])

theorem searchingOk {ask : Engine Float32 → Except Engine.Problem (Engine Float32)} {e : Engine Float32}
    (ok : ask s.engine = .ok e) : (searching ask).run s = (.ok (), { s with engine := e }) := by
  change (match ask s.engine with | .ok engine => _ | .error p => _ : Doing Unit).run s = _
  rw [ok]
  rfl

def defer (frame : Frame Float32) : Doing Unit := modify fun s => { s with deferred := frame :: s.deferred }

/-- Takes frames as they are drawn. `front` is the front end when so many of them, or all, are drawn. -/
def takeFrames (front : Option Nat → Frontend) (take : Frame Float32 → Doing Unit) :
    (drawn : Nat) → List (Frame Float32) → Doing Unit
  | _, [] => modify fun s => { s with frontend := front none }
  | drawn, frame :: rest => do
    modify fun s => { s with frontend := front (some (drawn + 1)) }
    take frame
    takeFrames front take (drawn + 1) rest

theorem takeDeferred (front : Option Nat → Frontend) (drawn : Nat) (frames : List (Frame Float32)) :
    (takeFrames front defer drawn frames).run s =
      (.ok (), { s with frontend := front none, deferred := frames.reverse ++ s.deferred }) := by
  induction frames generalizing s drawn with
  | nil => rfl
  | cons frame rest ih =>
    let here : Session := { s with frontend := front (some (drawn + 1)) }
    have draw : (modify fun s => { s with frontend := front (some (drawn + 1)) } : Doing Unit).run s =
      (.ok (), here) := rfl
    have put : (defer frame).run here = (.ok (), { here with deferred := frame :: here.deferred }) := rfl
    rw [takeFrames, next draw, next put, ih]
    simp [here]

variable [Elementary]

def search (frame : Frame Float32) : Doing Unit := searching fun e => e.advance frame

/-- Searches frames that were held back, the oldest first. A frame is given up before it is searched. -/
def searchHeld : List (Frame Float32) → Doing Unit
  | [] => pure ()
  | frame :: rest => do
    modify fun s => { s with deferred := rest.reverse }
    search frame
    searchHeld rest

def takeDrawn (draw : Frontend → Option Nat → List (Frame Float32) × Frontend) (take : Frame Float32 → Doing Unit) :
    Doing Nat := do
  let f := (← get).frontend
  takeFrames (fun limit => (draw f limit).2) take 0 (draw f none).1
  return (draw f none).1.length

def start : Doing Unit := do
  refuse inUtterance .alreadyStarted
  modify fun s => { s with frontend := s.frontend.reset, engine := s.engine.reset }
  searching Engine.start
  modify fun s => { s with inUtterance := true, carry := none, deferred := [] }

def process (samples : List Int16) : (hold : Bool) → Doing Nat
  | true => takeDrawn (fun f limit => f.push samples limit) defer
  | false => do
    searchHeld (← get).deferred.reverse
    takeDrawn (fun f limit => f.push samples limit) search

def takeBytes (call : Call UInt8) : Doing Nat := do
  refuse (fun s => !s.inUtterance) .bytesBeforeStart
  let s ← get
  let audio := Audio.samplesIn s.models.features.bigEndian (s.carry.toList ++ call.piece)
  modify fun s => { s with carry := audio.2 }
  process audio.1 call.hold

def takeSamples (call : Call Int16) : Doing Nat := do
  refuse (fun s => !s.inUtterance) .samplesBeforeStart
  process call.piece call.hold

def finish : Doing Unit := do
  refuse (fun s => !s.inUtterance) .endBeforeStart
  modify fun s => { s with inUtterance := false, carry := none }
  searchHeld (← get).deferred.reverse
  let _ ← takeDrawn (fun f limit => f.flush limit) search
  searching Engine.finish

def call : Op → Doing (Option Nat)
  | .start => do start; return none
  | .bytes call => do return some (← takeBytes call)
  | .samples call => do return some (← takeSamples call)
  | .finish => do finish; return none

/-! ### Calls that succeed -/

theorem searchHeldOk {frames : List (Frame Float32)} {e : Engine Float32} (held : s.deferred = frames.reverse)
    (ok : advanceAll s.engine frames = .ok e) :
    (searchHeld frames).run s = (.ok (), { s with engine := e, deferred := [] }) := by
  induction frames generalizing s with
  | nil =>
    cases ok
    obtain ⟨models, frontend, engine, going, carry, deferred⟩ := s
    cases held
    rfl
  | cons frame rest ih =>
    obtain ⟨a, first, ok⟩ := Outcome.bindOk ok
    let given : Session := { s with deferred := rest.reverse }
    have give : (modify fun s => { s with deferred := rest.reverse } : Doing Unit).run s = (.ok (), given) := rfl
    have searched : (search frame).run given = (.ok (), { given with engine := a }) := searchingOk (searchedOk first)
    rw [searchHeld, next give, next searched]
    exact ih rfl ok

theorem takeSearched {front : Option Nat → Frontend} {drawn : Nat} {frames : List (Frame Float32)} {e : Engine Float32}
    (ok : advanceAll s.engine frames = .ok e) :
    (takeFrames front search drawn frames).run s = (.ok (), { s with frontend := front none, engine := e }) := by
  induction frames generalizing s drawn with
  | nil =>
    cases ok
    rfl
  | cons frame rest ih =>
    obtain ⟨a, first, ok⟩ := Outcome.bindOk ok
    let here : Session := { s with frontend := front (some (drawn + 1)) }
    have draw : (modify fun s => { s with frontend := front (some (drawn + 1)) } : Doing Unit).run s =
      (.ok (), here) := rfl
    have searched : (search frame).run here = (.ok (), { here with engine := a }) := searchingOk (searchedOk first)
    rw [takeFrames, next draw, next searched]
    exact ih ok

theorem drawSearched (draw : Frontend → Option Nat → List (Frame Float32) × Frontend) {e : Engine Float32}
    (ok : advanceAll s.engine (draw s.frontend none).1 = .ok e) :
    (takeDrawn draw search).run s = (.ok (draw s.frontend none).1.length,
      { s with frontend := (draw s.frontend none).2, engine := e }) := by
  have here : (get : Doing Session).run s = (.ok s, s) := rfl
  rw [takeDrawn, next here, next (takeSearched ok)]
  rfl

theorem startOk (ok : s.start = .ok t) : start.run s = (.ok (), t) := by
  unfold Session.start at ok
  split at ok
  · cases ok
  · rename_i idle
    obtain ⟨e, started, ok⟩ := Outcome.bindOk ok
    cases ok
    let clear : Session := { s with frontend := s.frontend.reset, engine := s.engine.reset }
    have may : (refuse inUtterance .alreadyStarted).run s = (.ok (), s) := by rw [refuseIs, if_neg idle]
    have reset : (modify fun s => { s with frontend := s.frontend.reset, engine := s.engine.reset } :
      Doing Unit).run s = (.ok (), clear) := rfl
    have search : (searching Engine.start).run clear = (.ok (), { clear with engine := e }) :=
      searchingOk (searchedOk started)
    rw [start, next may, next reset, next search]
    rfl

theorem processOk {samples : List Int16} {hold : Bool} {n : Nat} (ok : s.process samples hold = .ok (n, t)) :
    (process samples hold).run s = (.ok n, t) := by
  have here : (get : Doing Session).run s = (.ok s, s) := rfl
  cases hold with
  | true =>
    rw [processHold] at ok
    cases ok
    rw [process, takeDrawn, next here, next (takeDeferred _ _ _)]
    rfl
  | false =>
    rw [processSearch] at ok
    obtain ⟨a, before, ok⟩ := Outcome.bindOk ok
    obtain ⟨b, after, ok⟩ := Outcome.bindOk ok
    cases ok
    let given : Session := { s with engine := a, deferred := [] }
    have held : (searchHeld s.deferred.reverse).run s = (.ok (), given) :=
      searchHeldOk s.deferred.reverse_reverse.symm before
    rw [process, next here, next held]
    exact drawSearched (s := given) (fun f limit => f.push samples limit) after

theorem finishOk (ok : s.finish = .ok t) : finish.run s = (.ok (), t) := by
  unfold Session.finish at ok
  split at ok
  · rename_i going
    obtain ⟨a, before, ok⟩ := Outcome.bindOk ok
    obtain ⟨b, after, ok⟩ := Outcome.bindOk ok
    obtain ⟨last, closed, ok⟩ := Outcome.bindOk ok
    cases ok
    let ended : Session := { s with inUtterance := false, carry := none }
    let given : Session := { ended with engine := a, deferred := [] }
    let drawn : Session := { given with frontend := s.frontend.flush.2, engine := b }
    have may : (refuse (fun s => !s.inUtterance) .endBeforeStart).run s = (.ok (), s) := by
      rw [refuseIs, going]
      rfl
    have end' : (modify fun s => { s with inUtterance := false, carry := none } : Doing Unit).run s =
      (.ok (), ended) := rfl
    have here : (get : Doing Session).run ended = (.ok ended, ended) := rfl
    have held : (searchHeld ended.deferred.reverse).run ended = (.ok (), given) :=
      searchHeldOk s.deferred.reverse_reverse.symm before
    have draw : (takeDrawn (fun f limit => f.flush limit) search).run given = (.ok s.frontend.flush.1.length, drawn) :=
      drawSearched (s := given) (fun f limit => f.flush limit) after
    rw [finish, next may, next end', next here, next held, next draw]
    exact searchingOk (s := drawn) (searchedOk closed)
  · cases ok

theorem takeBytesOk {c : Call UInt8} {n : Nat} (ok : s.takeBytes c = .ok (n, t)) :
    (takeBytes c).run s = (.ok n, t) := by
  by_cases going : s.inUtterance = true
  · have may : (refuse (fun s => !s.inUtterance) .bytesBeforeStart).run s = (.ok (), s) := by
      rw [refuseIs, going]
      rfl
    have here : (get : Doing Session).run s = (.ok s, s) := rfl
    let audio := Audio.samplesIn s.models.features.bigEndian (s.carry.toList ++ c.piece)
    have carry : (modify fun s => { s with carry := audio.2 } : Doing Unit).run s =
      (.ok (), { s with carry := audio.2 }) := rfl
    rw [Session.takeBytes, processBytesOpen going] at ok
    rw [takeBytes, next may, next here, next carry]
    exact processOk ok
  · rw [Session.takeBytes, processBytes, if_neg going] at ok
    cases ok

theorem takeSamplesOk {c : Call Int16} {n : Nat} (ok : s.takeSamples c = .ok (n, t)) :
    (takeSamples c).run s = (.ok n, t) := by
  by_cases going : s.inUtterance = true
  · have may : (refuse (fun s => !s.inUtterance) .samplesBeforeStart).run s = (.ok (), s) := by
      rw [refuseIs, going]
      rfl
    rw [Session.takeSamples, processSamples, if_pos going] at ok
    rw [takeSamples, next may]
    exact processOk ok
  · rw [Session.takeSamples, processSamples, if_neg going] at ok
    cases ok

theorem callOk {op : Op} {a : Option Nat} (ok : s.perform op = .ok (a, t)) : (call op).run s = (.ok a, t) := by
  cases op with
  | start =>
    obtain ⟨u, done, same⟩ := Outcome.mapOk (congrArg Except.toOption ok)
    cases same
    rw [call, next (startOk done)]
    rfl
  | bytes c =>
    obtain ⟨⟨n, u⟩, done, same⟩ := Outcome.mapOk (congrArg Except.toOption ok)
    cases same
    rw [call, next (takeBytesOk done)]
    rfl
  | samples c =>
    obtain ⟨⟨n, u⟩, done, same⟩ := Outcome.mapOk (congrArg Except.toOption ok)
    cases same
    rw [call, next (takeSamplesOk done)]
    rfl
  | finish =>
    obtain ⟨u, done, same⟩ := Outcome.mapOk (congrArg Except.toOption ok)
    cases same
    rw [call, next (finishOk done)]
    rfl

end Doing

section
variable [Elementary]

def attempt (s : Session) (op : Op) : Except Failure (Option Nat) × Session := (Doing.call op).run s

/-- Why a session does not take a call, by whether an utterance is in progress. -/
def refusal (going : Bool) : Op → Option Problem
  | .start => if going then some .alreadyStarted else none
  | .bytes _ => if going then none else some .bytesBeforeStart
  | .samples _ => if going then none else some .samplesBeforeStart
  | .finish => if going then none else some .endBeforeStart

def goingAfter (going : Bool) : Op → Bool
  | .start => true
  | .bytes _ | .samples _ => going
  | .finish => false

/-- What a session that calls led to is ready for: to start, or to go on with what its utterance has so far. -/
structure Ready (m : Models) (s : Session) : Prop where
  serves : s.Serves m
  fed : s.inUtterance = true → ∃ (t : Session), ∃ samples odd counted, t.Fresh m ∧ t.Fed samples odd counted s

theorem attemptRefused {s : Session} {op : Op} {p : Problem} (wrong : refusal s.inUtterance op = some p) :
    s.attempt op = (.error p.failure, s) ∧ s.perform op = .error p.failure ∧
      goingAfter s.inUtterance op = s.inUtterance := by
  cases op with
  | start =>
    by_cases going : s.inUtterance = true
    · obtain rfl : Problem.alreadyStarted = p := by simpa [refusal, going] using wrong
      refine ⟨Doing.stop (x := Doing.start) (Doing.refused going), ?_, going.symm⟩
      rw [perform, start, if_pos going]
      rfl
    · simp [refusal, going] at wrong
  | bytes c =>
    by_cases going : s.inUtterance = true
    · simp [refusal, going] at wrong
    · obtain rfl : Problem.bytesBeforeStart = p := by simpa [refusal, going] using wrong
      refine ⟨Doing.stop (x := Doing.takeBytes c) (Doing.refused (by simpa using going)), ?_, rfl⟩
      rw [perform, takeBytes, processBytes, if_neg going]
      rfl
  | samples c =>
    by_cases going : s.inUtterance = true
    · simp [refusal, going] at wrong
    · obtain rfl : Problem.samplesBeforeStart = p := by simpa [refusal, going] using wrong
      refine ⟨Doing.stop (x := Doing.takeSamples c) (Doing.refused (by simpa using going)), ?_, rfl⟩
      rw [perform, takeSamples, processSamples, if_neg going]
      rfl
  | finish =>
    by_cases going : s.inUtterance = true
    · simp [refusal, going] at wrong
    · obtain rfl : Problem.endBeforeStart = p := by simpa [refusal, going] using wrong
      refine ⟨Doing.stop (x := Doing.finish) (Doing.refused (by simpa using going)), ?_,
        by simpa [goingAfter] using going⟩
      rw [perform, finish, if_neg going]
      rfl

theorem attemptGranted {m : Models} {s : Session} {op : Op} (fit : m.Fit) (ready : Ready m s)
    (fits : refusal s.inUtterance op = none) :
    ∃ a t, s.perform op = .ok (a, t) ∧ Ready m t ∧ t.inUtterance = goingAfter s.inUtterance op := by
  cases op with
  | start =>
    have idle : s.inUtterance = false := by simpa [refusal] using fits
    obtain ⟨t, ok, fresh⟩ := startFresh ready.serves idle
    refine ⟨none, t, ?_, ⟨startServes ready.serves ok, fun _ => ?_⟩, fresh.going⟩
    · rw [perform, ok]
      rfl
    · exact ⟨t, [], none, 0, fresh, freshFed fit fresh⟩
  | bytes c =>
    have going : s.inUtterance = true := by simpa [refusal] using fits
    obtain ⟨first, samples, odd, counted, fresh, fed⟩ := ready.fed going
    let audio := Audio.samplesIn s.models.features.bigEndian (s.carry.toList ++ c.piece)
    have kept : first.Fed samples audio.2 counted { s with carry := audio.2 } :=
      ⟨fed.models, fed.going, rfl, fed.drawn⟩
    obtain ⟨n, t, ok, later⟩ := processFed fit fresh kept audio.1 c.hold
    have taken : s.takeBytes c = .ok (n, t) := (processBytesOpen going c.piece c.hold c.whole).trans ok
    refine ⟨some n, t, ?_, ⟨?_, fun _ => ?_⟩, later.going.trans going.symm⟩
    · rw [perform, taken]
      rfl
    · refine processServes ?_ ok
      exact ⟨ready.serves.models, ready.serves.frontend, ready.serves.knowledge⟩
    · exact ⟨first, _, _, _, fresh, later⟩
  | samples c =>
    have going : s.inUtterance = true := by simpa [refusal] using fits
    obtain ⟨first, samples, odd, counted, fresh, fed⟩ := ready.fed going
    obtain ⟨n, t, ok, later⟩ := processFed fit fresh fed c.piece c.hold
    have taken : s.takeSamples c = .ok (n, t) := (if_pos going).trans ok
    refine ⟨some n, t, ?_, ⟨processServes ready.serves ok, fun _ => ?_⟩, later.going.trans going.symm⟩
    · rw [perform, taken]
      rfl
    · exact ⟨first, _, _, _, fresh, later⟩
  | finish =>
    have going : s.inUtterance = true := by simpa [refusal] using fits
    obtain ⟨first, samples, odd, counted, fresh, fed⟩ := ready.fed going
    obtain ⟨_, _, ends⟩ := fedFinish fit fresh samples
    obtain ⟨_, t, ok, _⟩ := ends odd counted s fed
    have ended : t.inUtterance = false := finishIdle ok
    refine ⟨none, t, ?_, ⟨finishServes ready.serves ok, fun still => ?_⟩, ended⟩
    · rw [perform, ok]
      rfl
    · rw [ended] at still
      cases still

theorem attemptReady {m : Models} {s : Session} (fit : m.Fit) (ready : Ready m s) (op : Op) :
    (∀ f, (s.attempt op).1 = .error f ↔ (refusal s.inUtterance op).map Problem.failure = some f) ∧
    s.attempt op = ((s.perform op).map Prod.fst, s.next op) ∧
    Ready m (s.attempt op).2 ∧ (s.attempt op).2.inUtterance = goingAfter s.inUtterance op ∧
    ((s.attempt op).1.isOk = false → (s.attempt op).2 = s) := by
  unfold next
  cases fits : refusal s.inUtterance op with
  | some p =>
    obtain ⟨refused, fails, stays⟩ := attemptRefused fits
    rw [refused, fails, stays]
    exact ⟨fun f => by simp, rfl, ready, rfl, fun _ => rfl⟩
  | none =>
    obtain ⟨a, t, ok, later, going⟩ := attemptGranted fit ready fits
    have done : s.attempt op = (.ok a, t) := Doing.callOk ok
    rw [done, ok]
    exact ⟨fun f => by simp, rfl, later, going, fun failed => by cases failed⟩

theorem attemptAtomic {m : Models} (fit : m.Fit) : Calls.Atomic attempt (Ready m) :=
  ⟨fun _ op ready => (attemptReady fit ready op).2.2.1, fun _ op ready => (attemptReady fit ready op).2.2.2.2⟩

theorem makeReady (m : Models) : Ready m (ofModels m) :=
  ⟨reachedServes .made, fun going => by cases going⟩

theorem attemptsGoing {m : Models} (fit : m.Fit) {s : Session} (ready : Ready m s) (ops : List Op) :
    (Calls.after attempt s ops).inUtterance = ops.foldl goingAfter s.inUtterance := by
  induction ops generalizing s with
  | nil => rfl
  | cons op rest ih =>
    obtain ⟨_, _, later, going, _⟩ := attemptReady fit ready op
    have last := ih later
    rw [going] at last
    exact last

/-- A session fails exactly the calls that are out of order, with the problem of each, and a search also frames of
the wrong size. Every call is done wholly or not at all, and without those that fail the others are answered the
same and lead to the same session or search. -/
theorem onlyOutOfOrder {config : Config} {phones : Model.PhoneSet} {transitions : Model.Transitions Float32}
    {scorer : Model.Scorer Float32} {language : Model.Ngram Float32} {lexicon : Model.Lexicon} {m : Models}
    (accepted : Models.ofParts config phones transitions scorer language lexicon = .ok m) :
    (∀ ops : List Op,
      let s := Calls.after attempt (ofModels m) ops
      let fitting := Calls.granted attempt (ofModels m) ops
      s.inUtterance = ops.foldl goingAfter false ∧
        (∀ op f, (s.attempt op).1 = .error f ↔ (refusal s.inUtterance op).map Problem.failure = some f) ∧
        (∀ op, s.attempt op = ((s.perform op).map Prod.fst, s.next op)) ∧
        Calls.answers attempt (ofModels m) fitting =
          (Calls.answers attempt (ofModels m) ops).filter Except.isOk ∧
        Calls.after attempt (ofModels m) fitting = s) ∧
    ∀ (k : Search.Knowledge Float32) (ops : List (Search.Op Float32)),
      let e := Calls.after Engine.attempt (Engine.make k) ops
      let fitting := Calls.granted Engine.attempt (Engine.make k) ops
      e.phase = ops.foldl Engine.phaseAfter .idle ∧
        (∀ op f, (e.attempt op).1 = .error f ↔
          (Engine.refusal k.scorer.dimension e.phase op).map Engine.Problem.failure = some f) ∧
        Calls.answers Engine.attempt (Engine.make k) fitting =
          (Calls.answers Engine.attempt (Engine.make k) ops).filter Except.isOk ∧
        Calls.after Engine.attempt (Engine.make k) fitting = e := by
  refine ⟨fun ops => ?_, fun k ops => ?_⟩
  · have fit := Models.ofPartsFit config phones transitions scorer language lexicon m accepted
    have ready := (attemptAtomic fit).after (makeReady m) ops
    have each (op : Op) := attemptReady fit ready op
    exact ⟨attemptsGoing fit (makeReady m) ops, fun op => (each op).1, fun op => (each op).2.1,
      (attemptAtomic fit).granted (makeReady m) ops⟩
  · obtain ⟨phase, same⟩ := Engine.attemptsPhase k ops
    refine ⟨phase, fun op => ?_, Engine.attemptAtomic.granted trivial ops⟩
    have exact := (Engine.attemptIs (Calls.after Engine.attempt (Engine.make k) ops) op).1
    rwa [same] at exact

end

/-- An end too soon, a start too many and samples too late, on a session that decodes a byte and on a search. -/
theorem thriceOutOfOrder :
    let _ := Elementary.system
    let ops : List Op := [.finish, .start, .start, .bytes ⟨[1], true, false⟩, .finish, .samples ⟨[1], false, false⟩]
    let asked : List (Search.Op Float32) := [.finish, .start, .start, .advance ⟨0, []⟩, .finish]
    ∃ m, Models.ofParts {} ⟨[⟨"A", false, 0, [0]⟩], 0, 1, 1, 1⟩ ⟨1, #[-1, -1]⟩ (.direct 1 39)
        { order := 1, words := #["a"], unigrams := #[(-1, 0)] }
        ⟨#[⟨"a", "a", some 0, .normal, [0]⟩], none, none⟩ = .ok m ∧
      (Calls.after attempt (ofModels m) ops).inUtterance = false ∧
      Calls.after attempt (ofModels m) (Calls.granted attempt (ofModels m) ops) =
        Calls.after attempt (ofModels m) ops ∧
      (Calls.after Engine.attempt (Engine.make m.knowledge) asked).phase = .finalized := by
  intro _ ops asked
  have parts : ((Models.ofParts {} ⟨[⟨"A", false, 0, [0]⟩], 0, 1, 1, 1⟩ ⟨1, #[-1, -1]⟩ (.direct 1 39)
      { order := 1, words := #["a"], unigrams := #[(-1, 0)] }
      ⟨#[⟨"a", "a", some 0, .normal, [0]⟩], none, none⟩).map fun m => m.features.sampleRate).toOption =
      some 16000 := by decide +kernel
  obtain ⟨m, accepted, _⟩ := Outcome.mapOk parts
  obtain ⟨session, search⟩ := onlyOutOfOrder accepted
  obtain ⟨ended, _, _, _, same⟩ := session ops
  exact ⟨m, accepted, ended, same, (search m.knowledge asked).1⟩

end Session
end SpeechDecoder
