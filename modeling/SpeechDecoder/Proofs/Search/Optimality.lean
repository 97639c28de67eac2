import Mathlib
import SpeechDecoder.Proofs.Search.Dominance
import SpeechDecoder.Proofs.Search.Completion
import SpeechDecoder.Proofs.Search.Simulation

/-! The hypothesis of an utterance scores at least as high as every alignment that keeps within the beams. Without
beams it is the score of a best alignment. -/
namespace SpeechDecoder.Search

open Model (History)
open Score (Monotone)

variable {α : Type} [Score α]

/-! ### Alignments -/

section
variable {k : Knowledge α} {frames : List (Frame α)} {allowed : Nat → Place → α → Prop} {h : History} {a : α}

theorem Path.exitLater {t word : Nat} (path : Path k frames allowed t (.exit word) h a) : t ≠ 0 := by
  rintro rfl
  cases path with
  | leave before _ _ _ => cases before

end

/-! ### The plain search -/

namespace Plain

theorem startDominates [Monotone α] {k : Knowledge α} {words : List (WordModel α)} {frames : List (Frame α)}
    (cleared : Traced k frames 0 words #[Exit.root k]) (allowed : Nat → Place → α → Prop) :
    Dominates k frames allowed 0 (offerAll k Score.impossible #[Exit.root k] words 0) #[Exit.root k] := by
  intro place h a path live
  cases path with
  | @start word m first =>
    have shape := cleared.shape word 0
    rw [first] at shape
    obtain ⟨m₀, found, _⟩ := Option.map_eq_some_iff.mp shape
    have known : #[Exit.root k][0]? = some (Exit.root k) := rfl
    exact offerEachShown (List.mem_singleton_self 0) known found (Score.atMostRefl _) (Monotone.impossibleLeast _)
  | cross before _ _ _ => cases before
  | leave before _ _ _ => cases before
  | next left _ _ => exact absurd rfl left.exitLater

def bests (p : Plain α) : List (Frame α) → List α
  | [] => []
  | frame :: rest => (move p.knowledge frame p.words).2 :: (p.step frame).bests rest

theorem runDominates [Monotone α] {k : Knowledge α} (unigram : k.language.order = 1)
    (allWords : k.params.maxActive = none) (allExits : k.params.maxExits = none)
    (forward : k.transitions.Forward k.phones.states)
    {best : Nat → α} (past : List (Frame α)) {rest : List (Frame α)} {p : Plain α} (knowledge : p.knowledge = k)
    (time : p.frames = past.length) (traced : Traced k (past ++ rest) p.frames p.words p.exits)
    (dominates : Dominates k (past ++ rest) (withinBeams k best) p.frames p.words p.exits)
    (top : ∀ (i : Nat) (x : α), (p.bests rest)[i]? = some x → best (p.frames + i + 1) = x) :
    let q := rest.foldl step p
    q.knowledge = k ∧ q.frames = (past ++ rest).length ∧ Traced k (past ++ rest) q.frames q.words q.exits ∧
      Dominates k (past ++ rest) (withinBeams k best) q.frames q.words q.exits := by
  induction rest generalizing past p with
  | nil => exact ⟨knowledge, by simpa using time, traced, dominates⟩
  | cons frame rest ih =>
    subst knowledge
    have now : (past ++ frame :: rest)[p.frames]? = some frame := by simp [time]
    have first := top 0 _ rfl
    have all : past ++ frame :: rest = (past ++ [frame]) ++ rest := by simp
    have traced' := traced.step now
    have dominates' := dominates.step unigram allWords allExits forward traced now first
    rw [all] at traced' dominates' ⊢
    refine ih (past ++ [frame]) (p := p.step frame) rfl (by simp [step, time]) traced' dominates' ?_
    intro i x at'
    have later := top (i + 1) x at'
    rw [← later]
    congr 1
    simp only [step]
    omega

end Plain

/-! ### The best final exit -/

namespace Lattice

def preferred (best : Option (Nat × α)) (new : Nat × α) : Option (Nat × α) :=
  match best with
  | none => some new
  | some old => if Score.below old.2 new.2 then some new else best

theorem preferredIs [Monotone α] (best : Option (Nat × α)) (new : Nat × α) : ∃ b, preferred best new = some b ∧
    (b = new ∨ best = some b) ∧ Score.atMost new.2 b.2 = true ∧
    ∀ old, best = some old → Score.atMost old.2 b.2 = true := by
  cases best with
  | none => exact ⟨new, rfl, .inl rfl, Score.atMostRefl _, fun old none => by cases none⟩
  | some old =>
    unfold preferred
    cases less : Score.below old.2 new.2 with
    | true =>
      refine ⟨new, if_pos less, .inl rfl, Score.atMostRefl _, fun x same => ?_⟩
      cases same
      exact Score.belowAtMost less
    | false =>
      refine ⟨old, if_neg (by simp [less]), .inr rfl, Score.notBelow.mp less, fun x same => ?_⟩
      cases same
      exact Score.atMostRefl _

theorem foldPreferred [Monotone α] (finals : List (Nat × α)) (first : Option (Nat × α)) :
    (finals.foldl preferred first = none → finals = []) ∧ ∀ b, finals.foldl preferred first = some b →
      (b ∈ finals ∨ first = some b) ∧ (∀ f ∈ finals, Score.atMost f.2 b.2 = true) ∧
      ∀ f, first = some f → Score.atMost f.2 b.2 = true := by
  induction finals generalizing first with
  | nil =>
    refine ⟨fun _ => rfl, fun b found => ⟨.inr found, fun f mem => absurd mem List.not_mem_nil, fun f same => ?_⟩⟩
    cases same.symm.trans found
    exact Score.atMostRefl _
  | cons x rest ih =>
    obtain ⟨y, kept, origin, le, before⟩ := preferredIs first x
    rw [List.foldl_cons, kept]
    obtain ⟨none', some'⟩ := ih (some y)
    refine ⟨fun missing => ?_, fun b found => ?_⟩
    · rw [none' missing] at missing
      cases missing
    · obtain ⟨mem, highest, above⟩ := some' b found
      have high := above y rfl
      refine ⟨?_, fun f mem => ?_, fun f same => Monotone.atMostTrans _ _ _ (before f same) high⟩
      · rcases mem with mem | same
        · exact .inl (List.mem_cons_of_mem x mem)
        · cases same
          rcases origin with rfl | old
          · exact .inl List.mem_cons_self
          · exact .inr old
      · rcases List.mem_cons.mp mem with rfl | later
        · exact Monotone.atMostTrans _ _ _ le high
        · exact highest f later

theorem bestFinal [Monotone α] (l : Lattice α) :
    (l.bestFinal? = none → l.finals = []) ∧
      ∀ b, l.bestFinal? = some b → b ∈ l.finals ∧ ∀ f ∈ l.finals, Score.atMost f.2 b.2 = true := by
  have same : l.bestFinal? = l.finals.foldl preferred none := rfl
  rw [same]
  obtain ⟨none', some'⟩ := foldPreferred l.finals none
  refine ⟨none', fun b found => ?_⟩
  obtain ⟨mem, highest, _⟩ := some' b found
  exact ⟨mem.resolve_right (by simp), highest⟩

theorem bestScore (k : Knowledge α) (l : Lattice α) :
    (l.best k).1.score = l.bestFinal?.elim Score.zero Prod.snd := by
  unfold best
  cases l.bestFinal? <;> rfl

end Lattice

theorem finishBest [Monotone α] {k : Knowledge α} (unigram : k.language.order = 1) {frames : List (Frame α)}
    {allowed : Nat → Place → α → Prop} {words : List (WordModel α)} {exits : Array (Exit α)}
    (traced : Traced k frames frames.length words exits)
    (dominates : Dominates k frames allowed frames.length words exits) :
    let score := ((Lattice.ofExits k exits frames.length).best k).1.score
    (∀ word h a, Path k frames allowed frames.length (.exit word) h a →
      Score.atMost (a + k.leave h) score = true) ∧
    ((∃ word h a, Path k frames allowed frames.length (.exit word) h a ∧ Score.isLive a = true) →
      ∃ word h a, Path k frames anyScore frames.length (.exit word) h a ∧ score = a + k.leave h) := by
  let l := Lattice.ofExits k exits frames.length
  obtain ⟨none', some'⟩ := l.bestFinal
  have finals {word : Nat} {h : History} {a : α} (path : Path k frames allowed frames.length (.exit word) h a)
      (live : Score.isLive a = true) :
      ∃ f ∈ l.finals, Score.atMost (a + k.leave h) f.2 = true := by
    obtain ⟨place, e, found, named, here, le⟩ := dominates _ h a path live
    have final : Lattice.isFinal frames.length e = true := by
      simp [Lattice.isFinal, path.exitLater, named, here]
    refine ⟨(place, e.score + k.leave e.history), Lattice.memFinals.mpr ⟨e, found, final, rfl⟩, ?_⟩
    rw [k.leaveUnigram unigram h e.history]
    exact Monotone.addMonotone _ _ _ le
  refine ⟨fun word h a path => ?_, fun ⟨word, h, a, path, live⟩ => ?_⟩
  · cases live : Score.isLive a with
    | false => exact Score.deadLeast (Monotone.deadAdd _ _ live) _
    | true =>
      obtain ⟨f, mem, le⟩ := finals path live
      rw [Lattice.bestScore]
      cases best : l.bestFinal? with
      | none =>
        rw [none' best] at mem
        exact absurd mem List.not_mem_nil
      | some b => exact Monotone.atMostTrans _ _ _ le ((some' b best).2 f mem)
  · obtain ⟨f, mem, _⟩ := finals path live
    rw [Lattice.bestScore]
    cases best : l.bestFinal? with
    | none =>
      rw [none' best] at mem
      exact absurd mem List.not_mem_nil
    | some b =>
      obtain ⟨e, found, final, same⟩ := Lattice.memFinals.mp (some' b best).1
      simp only [Lattice.isFinal, Bool.and_eq_true, beq_iff_eq] at final
      obtain ⟨⟨_, named⟩, here⟩ := final
      obtain ⟨word', named⟩ := Option.isSome_iff_exists.mp named
      have path := traced.exits b.1 word' e found named
      rw [here] at path
      exact ⟨word', e.history, e.score, path, same⟩

namespace Engine

def bests (e : Engine α) : List (Frame α) → List α
  | [] => []
  | frame :: rest => (e.move frame).2.1 :: (e.step frame).bests rest

def bestAt (e : Engine α) (frames : List (Frame α)) (t : Nat) : α := (e.bests frames).getD (t - 1) Score.zero

theorem Follows.run [Score.Ordered α] {e : Engine α} {p : Plain α} (follows : Follows e p)
    (active : e.phase = .active) {frames : List (Frame α)}
    (sizes : ∀ f ∈ frames, f.values.length = p.knowledge.scorer.dimension) :
    ∃ e', frames.foldlM Engine.advance e = .ok e' ∧ Follows e' (frames.foldl Plain.step p) ∧ e'.phase = .active ∧
      e.bests frames = p.bests frames := by
  induction frames generalizing e p with
  | nil => exact ⟨e, rfl, follows, active, rfl⟩
  | cons frame rest ih =>
    have answer := follows.advance frame
    have ok : e.advance frame = .ok (e.step frame) := by
      unfold Engine.advance
      rw [if_neg (by simp [active]), if_neg]
      rw [follows.knowledge]
      simp [sizes frame List.mem_cons_self]
    have ok' : p.advance frame = .ok (p.step frame) := by
      unfold Plain.advance
      rw [if_neg (by simp [← follows.phase, active]), if_neg]
      simp [sizes frame List.mem_cons_self]
    rw [ok, ok'] at answer
    cases answer with
    | follows next =>
      obtain ⟨e', all, last, active', same⟩ := ih next active fun f mem => sizes f (List.mem_cons_of_mem _ mem)
      obtain ⟨paired, upto⟩ := follows.searching active
      obtain ⟨slots, cache, moved, _⟩ := movePaired paired follows.unqueued upto frame
      refine ⟨e', ?_, last, active', ?_⟩
      · rw [List.foldlM_cons, ok]
        exact all
      · simp only [bests, Plain.bests, moved, same, follows.knowledge]

theorem finishResult {e : Engine α} (active : e.phase = .active) :
    let lattice := Lattice.ofExits e.knowledge e.exits e.frames
    ∃ e', e.finish = .ok e' ∧
      e'.result = some ⟨(lattice.best e.knowledge).1, (lattice.best e.knowledge).2, lattice⟩ := by
  unfold finish
  rw [if_neg (by simp [active])]
  exact ⟨_, rfl, rfl⟩

/-- The hypothesis of an utterance scores at least as high as every complete alignment that keeps within the
beams; without beams, it has the highest score of all complete alignments, if any of them can be. -/
theorem bestWithinBeams [Monotone α] (k : Knowledge α) (unigram : k.language.order = 1)
    (allWords : k.params.maxActive = none) (allExits : k.params.maxExits = none)
    (forward : k.transitions.Forward k.phones.states) (ops : List (Op α))
    (idle : ((make k).after ops).phase = .idle) (frames : List (Frame α))
    (sizes : ∀ f ∈ frames, f.values.length = k.scorer.dimension) :
    ∃ e e' r, ((make k).after ops).start = .ok e ∧ (frames.foldlM advance e >>= finish) = .ok e' ∧
      e'.result = some r ∧
      (∀ word h a, Path k frames (withinBeams k (e.bestAt frames)) frames.length (.exit word) h a →
        Score.atMost (a + k.leave h) r.hypothesis.score = true) ∧
      (k.params.beam = Score.impossible → k.params.phoneBeam = Score.impossible →
        k.params.wordBeam = Score.impossible →
        (∃ word h a, Path k frames anyScore frames.length (.exit word) h a ∧ Score.isLive a = true) →
        (∃ word h a, Path k frames anyScore frames.length (.exit word) h a ∧
          r.hypothesis.score = a + k.leave h) ∧
        ∀ word h a, Path k frames anyScore frames.length (.exit word) h a →
          Score.atMost (a + k.leave h) r.hypothesis.score = true) := by
  have follows := (makeFollows k).after ops
  have served := Plain.afterServed k ops
  generalize (make k).after ops = e₀, (Plain.make k).after ops = p₀ at *
  obtain ⟨rfl, shape, _⟩ := served
  obtain ⟨p₁, started⟩ : ∃ p₁, p₀.start = .ok p₁ := by
    unfold Plain.start
    rw [if_neg (by simp [← follows.phase, idle])]
    exact ⟨_, rfl⟩
  obtain ⟨same, active, zero, exits, words, _, cleared, traced⟩ := Plain.startTraced shape started frames
  have answer := follows.start
  rw [started] at answer
  generalize first : e₀.start = left at answer
  cases answer with
  | @follows e _ next =>
    have active' : e.phase = .active := next.phase.trans active
    obtain ⟨e', all, last, active'', bests⟩ := next.run active' (by rw [same]; exact sizes)
    have dominates := Plain.startDominates cleared (withinBeams p₀.knowledge (e.bestAt frames))
    rw [← words, ← exits, ← zero] at dominates
    rw [← zero] at traced
    obtain ⟨same', frames', traced', dominates'⟩ := Plain.runDominates unigram allWords allExits forward []
      same zero traced dominates fun i x at' => by
        rw [← bests] at at'
        simp [bestAt, zero, at']
    rw [List.nil_append] at frames' traced' dominates'
    rw [frames'] at traced' dominates'
    obtain ⟨highest, attained⟩ := finishBest unigram traced' dominates'
    obtain ⟨e'', closed, result⟩ := finishResult active''
    refine ⟨e, e'', _, rfl, ?_, result, ?_, ?_⟩
    · rw [all]
      exact closed
    · dsimp only
      rw [last.knowledge, last.exits, last.frames, same', frames']
      exact highest
    · intro beam phoneBeam wordBeam
      dsimp only
      rw [last.knowledge, last.exits, last.frames, same', frames']
      have wide {t : Nat} {place : Place} {h : History} {a : α}
          (path : Path p₀.knowledge frames anyScore t place h a) :
          Path p₀.knowledge frames (withinBeams p₀.knowledge (e.bestAt frames)) t place h a := by
        refine path.mono fun t place a _ => ?_
        have low (x : α) : Score.atMost (x + Score.impossible) a = true :=
          Score.deadLeast (Monotone.addDead _ _ Score.Ordered.impossibleNotLive) a
        unfold withinBeams
        split <;> simp only [beam, phoneBeam, wordBeam, low]
      rintro ⟨word, h, a, path, live⟩
      exact ⟨attained ⟨word, h, a, wide path, live⟩, fun word h a path => highest word h a (wide path)⟩

/-- A word of one phone and a word of two, and one beam for all that is pruned. -/
def shortAndLong (beam : Whole) : Knowledge Whole where
  params := {
    beam, phoneBeam := beam, wordBeam := beam, languageWeight := .number 2,
    wordPenalty := .number 1, phonePenalty := .number 0, silencePenalty := .number 0,
    fillerPenalty := .number 0, maxActive := none, maxExits := none, maxAlternatives := 5,
    acousticScale := .number 1, scoreAll := false }
  phones := ⟨[⟨"A", false, 0, [0]⟩, ⟨"B", false, 0, [1]⟩, ⟨"C", false, 0, [2]⟩], 0, 1, 3, 1⟩
  transitions := ⟨1, #[.number (-1), .number (-2)]⟩
  scorer := .direct 3 3
  language := {
    order := 1, words := #["a", "b"], unigrams := #[(.number (-3), .number 0), (.number (-3), .number 0)] }
  lexicon := ⟨#[⟨"a", "a", some 0, .normal, [0]⟩, ⟨"b", "b", some 1, .normal, [1, 2]⟩], none, none⟩

/-- The long word begins badly and ends well. -/
def lateFrames : List (Frame Whole) :=
  [⟨0, [.number 5, .number (-20), .number 0]⟩, ⟨1, [.number 7, .number (-20), .number 60]⟩]

/-- The best score of each frame, and the score of the hypothesis. -/
def searched (k : Knowledge Whole) : Option (List Whole × Option Whole) :=
  ((make k).start.map fun e => (e.bests lateFrames,
    ((lateFrames.foldlM advance e >>= finish).toOption.bind Engine.result).map fun r => r.hypothesis.score)).toOption

theorem searchedIs {k : Knowledge Whole} {e e' : Engine Whole} {r : Result Whole} (started : (make k).start = .ok e)
    (done : (lateFrames.foldlM advance e >>= finish) = .ok e') (result : e'.result = some r) :
    searched k = some (e.bests lateFrames, some r.hypothesis.score) := by
  have last : (lateFrames.foldlM advance e >>= finish).toOption.bind Engine.result = some r := by
    rw [done]
    exact result
  rw [searched, started]
  simp only [Except.map, Except.toOption] at last ⊢
  rw [last, Option.map_some]

theorem forwardOfOne (beam : Whole) : (shortAndLong beam).transitions.Forward (shortAndLong beam).phones.states := by
  intro matrix source target inside back
  have one : (shortAndLong beam).phones.states = 1 := rfl
  omega

theorem shortWay (beam : Whole) {allowed : Nat → Place → Whole → Prop} (first : allowed 1 (.state 0 0 0) (.number 0))
    (second : allowed 2 (.state 0 0 0) (.number 6)) (left : allowed 2 (.exit 0) (.number 4)) :
    ∃ h, Path (shortAndLong beam) lateFrames allowed 2 (.exit 0) h (.number 4) := by
  let k := shortAndLong beam
  have phone : k.phone? 0 0 = some ⟨0, [0], [Token.dead], Token.dead⟩ := rfl
  have entry : Path k lateFrames allowed 0 (.entry 0 0) k.startHistory (.number (-5)) := .start phone
  have begun : Path k lateFrames allowed 1 (.state 0 0 0) k.startHistory (.number 0) :=
    .enter entry rfl phone Nat.one_pos first
  have stayed : Path k lateFrames allowed 2 (.state 0 0 0) k.startHistory (.number 6) :=
    .go begun rfl phone Nat.one_pos second
  exact ⟨_, .leave stayed phone rfl left⟩

theorem longWay (beam : Whole) :
    ∃ h, Path (shortAndLong beam) lateFrames anyScore 2 (.exit 1) h (.number 31) := by
  let k := shortAndLong beam
  have first : k.phone? 1 0 = some ⟨0, [1], [Token.dead], Token.dead⟩ := rfl
  have second : k.phone? 1 1 = some ⟨0, [2], [Token.dead], Token.dead⟩ := rfl
  have entry : Path k lateFrames anyScore 0 (.entry 1 0) k.startHistory (.number (-5)) := .start first
  have begun : Path k lateFrames anyScore 1 (.state 1 0 0) k.startHistory (.number (-25)) :=
    .enter entry rfl first Nat.one_pos trivial
  have crossed : Path k lateFrames anyScore 1 (.entry 1 1) k.startHistory (.number (-27)) :=
    .cross begun first second trivial
  have ended : Path k lateFrames anyScore 2 (.state 1 1 0) k.startHistory (.number 33) :=
    .enter crossed rfl second Nat.one_pos trivial
  exact ⟨_, .leave ended second rfl trivial⟩

/-- A beam drops the long word, though it would win, and the short one is the best that keeps within it. Without beams
the long word is found. -/
theorem bestOfTwoFrames :
    let narrow := shortAndLong (.number (-10))
    let wide := shortAndLong .impossible
    ((make narrow).after []).phase = .idle ∧ narrow.transitions.Forward narrow.phones.states ∧
      (∃ h, Path narrow lateFrames anyScore 2 (.exit 1) h (.number 31)) ∧
      (∃ e e' r h, ((make narrow).after []).start = .ok e ∧ (lateFrames.foldlM advance e >>= finish) = .ok e' ∧
        e'.result = some r ∧ r.hypothesis.score = .number 4 ∧
        Path narrow lateFrames (withinBeams narrow (e.bestAt lateFrames)) 2 (.exit 0) h (.number 4) ∧
        Score.atMost (.number 4 + narrow.leave h) r.hypothesis.score = true) ∧
      ∃ e e' r, ((make wide).after []).start = .ok e ∧ (lateFrames.foldlM advance e >>= finish) = .ok e' ∧
        e'.result = some r ∧ r.hypothesis.score = .number 31 ∧
        ∀ word h a, Path wide lateFrames anyScore 2 (.exit word) h a →
          Score.atMost (a + wide.leave h) r.hypothesis.score = true := by
  intro narrow wide
  have pruned : searched narrow = some ([.number 0, .number 6], some (.number 4)) := by cbv
  have all : searched wide = some ([.number 0, .number 33], some (.number 31)) := by cbv
  refine ⟨rfl, forwardOfOne _, longWay _, ?_, ?_⟩
  · obtain ⟨e, e', r, started, done, result, best, _⟩ :=
      bestWithinBeams narrow rfl rfl rfl (forwardOfOne _) [] rfl lateFrames (by decide)
    rw [searchedIs started done result] at pruned
    obtain ⟨bests, score⟩ := Prod.mk.inj (Option.some.inj pruned)
    obtain ⟨h, path⟩ : ∃ h, Path narrow lateFrames (withinBeams narrow (e.bestAt lateFrames)) 2 (.exit 0) h
        (.number 4) := by
      refine shortWay _ ?_ ?_ ?_ <;> simp only [withinBeams, bestAt, bests] <;> decide
    exact ⟨e, e', r, h, started, done, result, Option.some.inj score, path, best 0 h (.number 4) path⟩
  · obtain ⟨e, e', r, started, done, result, _, best⟩ :=
      bestWithinBeams wide rfl rfl rfl (forwardOfOne _) [] rfl lateFrames (by decide)
    rw [searchedIs started done result] at all
    obtain ⟨_, score⟩ := Prod.mk.inj (Option.some.inj all)
    obtain ⟨h, path⟩ := longWay .impossible
    exact ⟨e, e', r, started, done, result, Option.some.inj score, (best rfl rfl rfl ⟨1, h, _, path, rfl⟩).2⟩

end Engine

end SpeechDecoder.Search
