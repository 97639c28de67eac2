import Mathlib.Algebra.GroupWithZero.Nat
import SpeechDecoder.Proofs.Session.Reached

/-! An utterance in pieces. A session that is being fed has drawn the frames of the samples so far: the first of
them are searched and the others held back. What it tells at the end is decided by the samples alone, not by
the calls that brought them. -/
namespace SpeechDecoder

namespace Audio

theorem samplesInAppend (bigEndian : Bool) (first second : List UInt8) :
    samplesIn bigEndian (first ++ second) =
      let before := samplesIn bigEndian first
      let after := samplesIn bigEndian (before.2.toList ++ second)
      (before.1 ++ after.1, after.2) := by
  fun_induction samplesIn bigEndian first with
  | case1 => rfl
  | case2 b => rfl
  | case3 a b rest samples odd same ih =>
    rw [same] at ih
    simp only [List.cons_append, samplesIn, ih]

end Audio

namespace Session
open Feature (Frontend)
open Search (Engine)

/-- A call that brings a piece of audio, with its wishes to hold the frames back and to take it as whole. -/
structure Call (β : Type) where
  piece : List β
  hold : Bool
  whole : Bool

/-- What is heard of an utterance: the number of frames that the calls gave, and the results. -/
structure Told where
  counted : Nat
  hypothesis : Option (Hypothesis Float32)
  segments : List (Segment Float32)
  frames : Nat
  alternatives : Nat → List (Alternative Float32)

section
variable [Elementary]

def takeBytes (s : Session) (c : Call UInt8) : Outcome (Nat × Session) :=
  s.processBytes c.piece c.hold c.whole

def takeSamples (s : Session) (c : Call Int16) : Outcome (Nat × Session) :=
  s.processSamples c.piece c.hold c.whole

def tell (counted : Nat) (s : Session) : Told :=
  ⟨counted, s.hypothesis?, s.segments, s.frames, s.alternatives⟩

def decode {β : Type} (take : Session → β → Outcome (Nat × Session)) (s : Session) (calls : List β) :
    Outcome Told := do
  let s ← s.start
  let (counts, s) := s.feed take calls
  let counts ← counts
  let s ← s.finish
  .ok (tell counts.sum s)

structure Fresh (m : Models) (t : Session) : Prop where
  models : t.models = m
  frontend : t.frontend = .ofSettings m.features
  knowledge : t.engine.knowledge = m.knowledge
  active : t.engine.phase = .active
  going : t.inUtterance = true
  carry : t.carry = none
  deferred : t.deferred = []

theorem startFresh {m : Models} {s : Session} (serves : s.Serves m) (idle : s.inUtterance = false) :
    ∃ t, s.start = .ok t ∧ t.Fresh m := by
  obtain ⟨e, started, active, same⟩ := Engine.resetStart s.engine
  refine ⟨{ s with
    frontend := s.frontend.reset, engine := e, inUtterance := true, carry := none, deferred := [] },
    ?_, ?_⟩
  · unfold start
    rw [if_neg (by simp [idle]), started]
    rfl
  · exact ⟨serves.models, serves.frontend, same.trans serves.knowledge, active, rfl, rfl, rfl⟩

theorem advanceAllAppend (e : Engine Float32) (first second : List (Frame Float32)) :
    advanceAll e (first ++ second) = (do
      let e ← advanceAll e first
      advanceAll e second) := by
  induction first generalizing e with
  | nil => rfl
  | cons frame rest ih =>
    simp only [List.cons_append, advanceAll]
    cases searched (e.advance frame) with
    | error p => rfl
    | ok next => exact ih next

theorem advanceAllOk {e : Engine Float32} {frames : List (Frame Float32)} (active : e.phase = .active)
    (sizes : ∀ f ∈ frames, f.values.length = e.knowledge.scorer.dimension) :
    ∃ e', advanceAll e frames = .ok e' ∧ e'.phase = .active := by
  induction frames generalizing e with
  | nil => exact ⟨e, rfl, active⟩
  | cons frame rest ih =>
    obtain ⟨next, ok, active', same⟩ := Engine.advanceOk active (sizes frame List.mem_cons_self)
    obtain ⟨e', all, still⟩ := ih (e := next) active' fun f mem => by
      rw [same]
      exact sizes f (List.mem_cons_of_mem frame mem)
    refine ⟨e', ?_, still⟩
    simp only [advanceAll, ok]
    exact all

/-- A session after samples and perhaps the first byte of another one, since the start `t` of the utterance;
`counted` frames were drawn. -/
structure Fed (t : Session) (samples : List Int16) (odd : Option UInt8) (counted : Nat) (s : Session) :
    Prop where
  models : s.models = t.models
  going : s.inUtterance = true
  carry : s.carry = odd
  drawn : ∃ searched f, Frontend.Draws false none (t.frontend.extend samples)
      (searched ++ s.deferred.reverse) f ∧ f.Alike s.frontend ∧
    advanceAll t.engine searched = .ok s.engine ∧ counted = (searched ++ s.deferred.reverse).length

theorem freshRegular {m : Models} {t : Session} (fit : m.Fit) (fresh : t.Fresh m)
    (samples : List Int16) : (t.frontend.extend samples).Regular := by
  refine Frontend.regularOfReset ?_
  simp only [Frontend.reset, Frontend.extend, Feature.Signal.extendReset, fresh.frontend]
  exact ⟨fit.features.long, fit.features.apart⟩

theorem freshFed {m : Models} {t : Session} (fit : m.Fit) (fresh : t.Fresh m) :
    t.Fed [] none 0 t := by
  refine ⟨rfl, fresh.going, fresh.carry, [], t.frontend, ?_, Frontend.alikeRefl _, rfl, ?_⟩
  · rw [fresh.deferred, fresh.frontend]
    refine .done (by simp) (Feature.Stage.popOfIdle rfl) (Feature.Signal.nextOfEmpty ?_ rfl)
    exact fit.features.long
  · rw [fresh.deferred]
    rfl

theorem freshDrawn {m : Models} {t : Session} (fit : m.Fit) (fresh : t.Fresh m)
    {samples : List Int16} {frames : List (Frame Float32)} {f : Frontend}
    (draws : Frontend.Draws false none (t.frontend.extend samples) frames f) :
    (∀ x ∈ frames, x.values.length = t.engine.knowledge.scorer.dimension) ∧ f.Regular ∧
      f.Sized m.features.cepstra ∧ f.stage.streams = m.features.streams := by
  have sized : (t.frontend.extend samples).Sized m.features.cepstra := by
    have start := Frontend.settingsSized fit.features
    rw [← fresh.frontend] at start
    exact ⟨start.analysis, start.stage⟩
  obtain ⟨sizes, last, streams⟩ := Frontend.drawsSized draws sized
  have kind : (t.frontend.extend samples).stage.streams = m.features.streams :=
    congrArg (fun f : Frontend => f.stage.streams) fresh.frontend
  rw [kind] at sizes streams
  refine ⟨?_, draws.regular (freshRegular fit fresh samples), last, streams⟩
  rw [fresh.knowledge, fit.dimension]
  exact sizes

theorem pushDrawn {f g : Frontend} (regular : f.Regular) (alike : f.Alike g) (samples : List Int16) :
    ∃ h, Frontend.Draws false none (f.extend samples) (g.push samples).1 h ∧
      h.Alike (g.push samples).2 := by
  have same : (f.extend samples).Alike { g with signal := g.signal.push samples } :=
    ⟨alike.analysis, (Feature.Signal.pushAlike alike.signal.symm samples).symm, alike.stage⟩
  have extended : (f.extend samples).Regular := by
    refine Frontend.regularOfReset ?_
    simp only [Frontend.reset, Frontend.extend, Feature.Signal.extendReset]
    exact ⟨regular.long, regular.apart⟩
  have pushed : ({ g with signal := g.signal.push samples } : Frontend).Regular :=
    ⟨same.signal.length ▸ extended.long, same.signal.shift ▸ extended.apart⟩
  obtain ⟨h, draws, close⟩ := (Frontend.drawDraws false none pushed).alike same.symm
  exact ⟨h, draws, close.symm⟩

theorem flushDrawn {f g h : Frontend} {tail : List (Frame Float32)} (regular : f.Regular) (alike : f.Alike g)
    (ends : Frontend.Draws true none { f with signal := f.signal.finish } tail h) :
    g.flush.1 = tail := by
  have ready : ({ g with signal := g.signal.finish } : Frontend).Regular :=
    ⟨alike.signal.length ▸ regular.long, alike.signal.shift ▸ regular.apart⟩
  have again := Frontend.drawDraws true none ready
  obtain ⟨last, other, _⟩ := ends.alike (h := { g with signal := g.signal.finish })
    ⟨alike.analysis, Feature.Signal.finishAlike alike.signal, alike.stage⟩
  exact (again.unique other).1

theorem processFed {m : Models} {t s : Session} {xs : List Int16} {odd : Option UInt8}
    {counted : Nat} (fit : m.Fit) (fresh : t.Fresh m) (fed : t.Fed xs odd counted s) (ys : List Int16)
    (hold : Bool) :
    ∃ n s', s.process ys hold = .ok (n, s') ∧ t.Fed (xs ++ ys) odd (counted + n) s' := by
  obtain ⟨models, going, carry, past, f, before, alike, advanced, count⟩ := fed
  obtain ⟨_, regular, _, _⟩ := freshDrawn fit fresh before
  obtain ⟨g, after, close⟩ := pushDrawn regular alike ys
  have still : (t.frontend.extend xs).signal.ending = false := by
    simp only [Frontend.extend, Feature.Signal.extendEnding, fresh.frontend]
    rfl
  have all := Frontend.drawsExtend still before after
  rw [← Frontend.extendAppend] at all
  cases hold with
  | true =>
    refine ⟨_, _, processHold s ys, models, going, carry, past, g, ?_, close, advanced, ?_⟩
    · simpa only [List.reverse_append, List.reverse_reverse, List.append_assoc] using all
    · simp [count, Nat.add_assoc]
  | false =>
    obtain ⟨sizes, _⟩ := freshDrawn fit fresh all
    obtain ⟨e, done, _⟩ := advanceAllOk fresh.active sizes
    have parts := done
    rw [advanceAllAppend, advanceAllAppend] at parts
    obtain ⟨e₁, first, last⟩ := Outcome.bindOk parts
    obtain ⟨e₀, none, middle⟩ := Outcome.bindOk first
    rw [advanced] at none
    cases none
    refine ⟨(s.frontend.push ys).1.length,
      { s with frontend := (s.frontend.push ys).2, engine := e, deferred := [] }, ?_, models, going,
      carry, past ++ s.deferred.reverse ++ (s.frontend.push ys).1, g, ?_, close, done, ?_⟩
    · rw [processSearch, middle]
      change (advanceAll e₁ _ >>= _) = _
      rw [last]
      rfl
    · simpa using all
    · simp [count, Nat.add_assoc]

theorem feedSamples {m : Models} {t s : Session} {xs : List Int16} {counted : Nat} (fit : m.Fit)
    (fresh : t.Fresh m) (fed : t.Fed xs none counted s) (calls : List (Call Int16)) :
    ∃ counts s', s.feed takeSamples calls = (.ok counts, s') ∧
      t.Fed (xs ++ calls.flatMap Call.piece) none (counted + counts.sum) s' := by
  induction calls generalizing xs counted s with
  | nil => exact ⟨[], s, rfl, by simpa using fed⟩
  | cons c rest ih =>
    obtain ⟨n, next, taken, fed'⟩ := processFed fit fresh fed c.piece c.hold
    obtain ⟨counts, s', others, last⟩ := ih fed'
    have call : s.takeSamples c = .ok (n, next) := by
      rw [takeSamples, processSamples, if_pos fed.going, taken]
    refine ⟨n :: counts, s', ?_, ?_⟩
    · simp only [feed, call, others]
      rfl
    · simpa [Nat.add_assoc] using last

theorem feedBytes {m : Models} {t s : Session} {xs : List Int16} {odd : Option UInt8} {counted : Nat}
    (fit : m.Fit) (fresh : t.Fresh m) (fed : t.Fed xs odd counted s) (calls : List (Call UInt8)) :
    let audio := Audio.samplesIn m.features.bigEndian (odd.toList ++ calls.flatMap Call.piece)
    ∃ counts s', s.feed takeBytes calls = (.ok counts, s') ∧
      t.Fed (xs ++ audio.1) audio.2 (counted + counts.sum) s' := by
  induction calls generalizing xs odd counted s with
  | nil =>
    refine ⟨[], s, rfl, ?_⟩
    cases odd <;> simpa [Audio.samplesIn] using fed
  | cons c rest ih =>
    let audio := Audio.samplesIn m.features.bigEndian (odd.toList ++ c.piece)
    have kept : t.Fed xs audio.2 counted { s with carry := audio.2 } :=
      ⟨fed.models, fed.going, rfl, fed.drawn⟩
    obtain ⟨n, next, taken, fed'⟩ := processFed fit fresh kept audio.1 c.hold
    obtain ⟨counts, s', others, last⟩ := ih fed'
    have order : s.models.features.bigEndian = m.features.bigEndian := by
      rw [fed.models, fresh.models]
    have call : s.takeBytes c = .ok (n, next) := by
      rw [takeBytes, processBytesOpen fed.going, order, fed.carry]
      exact taken
    refine ⟨n :: counts, s', ?_, ?_⟩
    · simp only [feed, call, others]
      rfl
    · rw [List.flatMap_cons, ← List.append_assoc, Audio.samplesInAppend]
      simpa [audio, Nat.add_assoc] using last

theorem fedFinish {m : Models} {t : Session} (fit : m.Fit) (fresh : t.Fresh m) (samples : List Int16) :
    ∃ counted e, ∀ odd n s, t.Fed samples odd n s →
      n = counted ∧ ∃ u, s.finish = .ok u ∧ u.engine = e := by
  obtain ⟨frames, f, draws⟩ : ∃ frames f, Frontend.Draws false none (t.frontend.extend samples) frames f :=
    ⟨_, _, Frontend.drawDraws false none (freshRegular fit fresh samples)⟩
  obtain ⟨sizes, regular, sized, streams⟩ := freshDrawn fit fresh draws
  obtain ⟨tail, g, ends⟩ : ∃ tail g,
      Frontend.Draws true none { f with signal := f.signal.finish } tail g :=
    ⟨_, _, Frontend.drawDraws true none ⟨regular.long, regular.apart⟩⟩
  obtain ⟨sizes', _, _⟩ := Frontend.drawsSized ends ⟨sized.analysis, sized.stage⟩
  have every : ∀ x ∈ frames ++ tail, x.values.length = t.engine.knowledge.scorer.dimension := by
    intro x mem
    rcases List.mem_append.mp mem with old | new
    · exact sizes x old
    · rw [sizes' x new, fresh.knowledge, fit.dimension, streams]
      rfl
  obtain ⟨last, done, active⟩ := advanceAllOk fresh.active every
  obtain ⟨e, finished, _⟩ := Engine.finishOk active
  refine ⟨frames.length, e, ?_⟩
  intro odd n s fed
  obtain ⟨_, going, _, past, f', drawn, alike, advanced, count⟩ := fed
  -- however the samples came, what they give is drawn in one way, whether searched already or held back
  obtain ⟨same, state⟩ := drawn.unique draws
  subst state
  have flush := flushDrawn regular alike ends
  rw [← same, advanceAllAppend, advanceAllAppend] at done
  obtain ⟨e₁, both, final⟩ := Outcome.bindOk done
  obtain ⟨e₀, none, middle⟩ := Outcome.bindOk both
  rw [advanced] at none
  cases none
  refine ⟨by rw [count, same], ?_⟩
  refine ⟨{ s with
    frontend := s.frontend.flush.2, engine := e, inUtterance := false, carry := none, deferred := [] },
    ?_, rfl⟩
  unfold finish
  rw [if_pos going, middle]
  change (advanceAll e₁ s.frontend.flush.1 >>= _) = _
  rw [flush, final]
  change (searched last.finish >>= _) = _
  rw [finished]
  rfl

theorem tellSame {s u : Session} (same : s.engine = u.engine) (n : Nat) : tell n s = tell n u := by
  have others : s.alternatives = u.alternatives := by
    funext wanted
    simp only [alternatives, same]
  simp only [tell, hypothesis?, segments, frames, others, same]

/-- An utterance is heard as the samples say, however its audio is cut into calls, whatever the calls wish, and
whether it comes as bytes or as samples. -/
theorem splitDoesNotMatter {config : Config} {phones : Model.PhoneSet}
    {transitions : Model.Transitions Float32} {scorer : Model.Scorer Float32}
    {language : Model.Ngram Float32} {lexicon : Model.Lexicon} {m : Models}
    (accepted : Models.ofParts config phones transitions scorer language lexicon = .ok m)
    {s : Session} (reached : Reached m s) (idle : s.inUtterance = false) (bytes : List UInt8)
    (pieces : List (Call UInt8)) (joined : pieces.flatMap Call.piece = bytes)
    (samples : List (Call Int16))
    (read : samples.flatMap Call.piece = (Audio.samplesIn m.features.bigEndian bytes).1) :
    ∃ told, s.decode takeBytes [⟨bytes, false, false⟩] = .ok told ∧
      s.decode takeBytes pieces = .ok told ∧ s.decode takeSamples samples = .ok told := by
  have fit := Models.ofPartsFit config phones transitions scorer language lexicon m accepted
  obtain ⟨t, started, fresh⟩ := startFresh (reachedServes reached) idle
  let audio := Audio.samplesIn m.features.bigEndian bytes
  obtain ⟨counted, e, ends⟩ := fedFinish fit fresh audio.1
  have start := freshFed fit fresh
  have heard : ∀ {β : Type} (take : Session → β → Outcome (Nat × Session)) (calls : List β)
      (odd : Option UInt8), (∃ counts s', t.feed take calls = (.ok counts, s') ∧
        t.Fed audio.1 odd (0 + counts.sum) s') →
      s.decode take calls = .ok (tell counted { t with engine := e }) := by
    rintro β take calls odd ⟨counts, s', fed, state⟩
    obtain ⟨total, u, finished, same⟩ := ends odd _ s' state
    rw [Nat.zero_add] at total
    rw [decode, started]
    change ((t.feed take calls).1 >>= _) = _
    rw [fed]
    change (s'.finish >>= _) = _
    rw [finished, ← tellSame (u := { t with engine := e }) same, ← total]
    rfl
  refine ⟨_, heard takeBytes _ audio.2 ?_, heard takeBytes _ audio.2 ?_, heard takeSamples _ none ?_⟩
  · simpa [audio] using feedBytes fit fresh start [⟨bytes, false, false⟩]
  · simpa [audio, joined] using feedBytes fit fresh start pieces
  · simpa [audio, read] using feedSamples fit fresh start samples

end

/-- A small models value, bytes of an odd number in three calls of which one is empty, and samples in two. -/
theorem splitOfOddBytes :
    let _ := Elementary.system
    ∃ m, Models.ofParts {} ⟨[⟨"A", false, 0, [0]⟩], 0, 1, 1, 1⟩ ⟨1, #[-1, -1]⟩ (.direct 1 39)
        { order := 1, words := #["a"], unigrams := #[(-1, 0)] }
        ⟨#[⟨"a", "a", some 0, .normal, [0]⟩], none, none⟩ = .ok m ∧
      Reached m (ofModels m) ∧ (ofModels m).inUtterance = false ∧
      Audio.samplesIn m.features.bigEndian [1, 2, 3, 4, 5] = ([513, 1027], some 5) ∧
      ∃ told, (ofModels m).decode takeBytes [⟨[1, 2, 3, 4, 5], false, false⟩] = .ok told ∧
        (ofModels m).decode takeBytes [⟨[1, 2, 3], true, false⟩, ⟨[], false, true⟩, ⟨[4, 5], false, false⟩]
          = .ok told ∧
        (ofModels m).decode takeSamples [⟨[513], true, true⟩, ⟨[1027], false, false⟩] = .ok told := by
  intro _
  have made : ((Models.ofParts {} ⟨[⟨"A", false, 0, [0]⟩], 0, 1, 1, 1⟩ ⟨1, #[-1, -1]⟩ (.direct 1 39)
      { order := 1, words := #["a"], unigrams := #[(-1, 0)] }
      ⟨#[⟨"a", "a", some 0, .normal, [0]⟩], none, none⟩).map fun m => m.features.bigEndian).toOption =
      some false := by decide +kernel
  obtain ⟨m, accepted, order⟩ := Outcome.mapOk made
  have read : Audio.samplesIn m.features.bigEndian [1, 2, 3, 4, 5] = ([513, 1027], some 5) := by
    rw [order]
    decide
  refine ⟨m, accepted, .made, rfl, read, ?_⟩
  exact splitDoesNotMatter accepted .made rfl [1, 2, 3, 4, 5] _ rfl _ (by rw [read]; rfl)

end Session

end SpeechDecoder
