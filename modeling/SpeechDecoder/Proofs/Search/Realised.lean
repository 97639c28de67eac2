import SpeechDecoder.Proofs.Search.Chain

/-! The hypothesis of an utterance can be realised with its very score: the words on its path, fillers among them, can
be ridden through from frame to frame, each within its own frames, over transitions that are possible. -/
namespace SpeechDecoder.Search

open Model (History)

variable {α : Type} [Score α]

def possible (_ x : α) : Prop := Score.isLive x = true

/-- Alignments of frames with the words on a chain of exits, the latest first, behind so many frames, with the
history, the word, phone and state of each frame, the latest first, and the score. -/
inductive Alignment (k : Knowledge α) (frames : List (Frame α)) (l : Lattice α) :
    List Nat → Nat → History → List (Nat × Nat × Nat) → α → Prop where
  | root : Alignment k frames l [] 0 k.startHistory [] Score.zero
  | word {chain : List Nat} {t place word : Nat} {h : History} {stays : List (Nat × Nat × Nat)}
      {inner : List (Nat × Nat)} {a b : α} {e : Exit α} (before : Alignment k frames l chain t h stays a)
      (found : l.exit? place = some e) (named : e.word = some word) (linked : e.previous = some (chain.headD 0))
      (starts : e.startFrame = t)
      (ride : Ride k frames possible word t (a + (k.enter word h).1) e.endFrame (.exit word) inner b) :
      Alignment k frames l (place :: chain) e.endFrame (k.enter word h).2 (inner.map (word, ·) ++ stays) b

section
variable {k : Knowledge α} {frames : List (Frame α)} {l : Lattice α} {chain : List Nat} {t : Nat} {h : History}
  {stays : List (Nat × Nat × Nat)} {a : α}

theorem Alignment.length (alignment : Alignment k frames l chain t h stays a) : stays.length = t := by
  induction alignment with
  | root => rfl
  | word _ _ _ _ _ ride ih =>
    rw [List.length_append, List.length_map, ih, Nat.add_comm]
    exact ride.length

def Exit.Aligned (k : Knowledge α) (frames : List (Frame α)) (l : Lattice α) (chain : List Nat) (place : Nat)
    (e : Exit α) : Prop :=
  place = chain.headD 0 ∧ ∃ stays, Alignment k frames l chain e.endFrame e.history stays e.score

theorem Traced.aligned {words : List (WordModel α)} {exits : Array (Exit α)}
    (traced : Traced k frames t words exits) (table : Table k t exits)
    (possibly : ∀ a x : α, staysLive a x → possible a x) {place : Nat} {e : Exit α}
    (found : exits[place]? = some e) : e.Aligned k frames (.ofExits k exits t)
      ((Lattice.ofExits k exits t).path place).reverse place := by
  have inside : place < exits.size := (Array.getElem?_eq_some_iff.mp found).1
  rw [Lattice.path, List.reverse_reverse]
  refine traced.chained table (Exit.Aligned k frames (.ofExits k exits t)) ⟨rfl, [], .root⟩ ?_ _ rfl found inside
  rintro chain origin place word before e ⟨rfl, stays, alignment⟩ known _ found comes same
  obtain ⟨before', inner, known', _, ride⟩ := comes
  cases known.symm.trans known'
  have behind := Exit.behindOf same
  refine ⟨rfl, ?_⟩
  rw [behind.history]
  exact ⟨_, alignment.word found behind.named behind.linked behind.starts (ride.mono possibly)⟩

theorem Traced.realised {words : List (WordModel α)} {exits : Array (Exit α)}
    (traced : Traced k frames frames.length words exits) (table : Table k frames.length exits)
    (possibly : ∀ a x : α, staysLive a x → possible a x) : let l := Lattice.ofExits k exits frames.length
    l.bestPath ≠ [] → ∃ h stays a, Alignment k frames l l.bestPath.reverse frames.length h stays a ∧
      stays.length = frames.length ∧ (l.best k).1.score = a + k.leave h := by
  intro l some
  rw [Lattice.bestScore]
  unfold Lattice.bestPath at some ⊢
  split at some
  · exact absurd rfl some
  · rename_i place score best
    obtain ⟨e, word, found, named, ends, score⟩ := Lattice.bestFinalIs best
    obtain ⟨_, stays, alignment⟩ := traced.aligned table possibly found
    rw [ends] at alignment
    rw [best]
    exact ⟨_, stays, _, alignment, alignment.length, score⟩

end

namespace Engine

theorem possibly [Elementary] (a x : Float32) (live : staysLive a x) : possible a x :=
  decide_eq_true (Single.liveAdded (of_decide_eq_true live))

/-- A hypothesis with a path is the score of an alignment of all frames with the words on that path. -/
theorem hypothesisRealised [Elementary] (k : Knowledge Float32) (ops : List (Op Float32))
    (idle : ((make k).after ops).phase = .idle) (frames : List (Frame Float32))
    (sizes : ∀ f ∈ frames, f.values.length = k.scorer.dimension) :
    ∃ e e' r, ((make k).after ops).start = .ok e ∧ (frames.foldlM advance e >>= finish) = .ok e' ∧
      e'.result = some r ∧
      r.segments = r.lattice.segments k (r.lattice.bestPath.map fun i =>
        (i, (r.lattice.exit? i).elim Score.zero Exit.languageScore)) ∧
      (r.lattice.bestPath ≠ [] → ∃ h stays a,
        Alignment k frames r.lattice r.lattice.bestPath.reverse frames.length h stays a ∧
        stays.length = frames.length ∧ r.hypothesis.score = a + k.leave h) := by
  obtain ⟨e, e', words, exits, started, done, traced, table, result⟩ := utteranceTraced k ops idle frames sizes
  exact ⟨e, e', _, started, done, result, Lattice.bestSegments _ _, traced.realised table possibly⟩

/-- A word of two phones with one state each, and silence. -/
def wordAndSilence [Elementary] : Knowledge Float32 where
  params := {
    beam := -90, phoneBeam := -90, wordBeam := -90, languageWeight := 2,
    wordPenalty := -0.5, phonePenalty := -0.25, silencePenalty := -3,
    fillerPenalty := -4, maxActive := none, maxExits := none, maxAlternatives := 5,
    acousticScale := 1, scoreAll := false }
  phones := ⟨[⟨"A", false, 0, [0]⟩, ⟨"B", false, 0, [1]⟩, ⟨"SIL", true, 0, [2]⟩], 0, 1, 3, 1⟩
  transitions := ⟨1, #[-0.5, -1]⟩
  scorer := .direct 3 3
  language := { order := 1, words := #["a", "</s>"], unigrams := #[(-1.5, 0), (-2, 0)] }
  lexicon := ⟨#[⟨"a", "a", some 0, .normal, [0, 1]⟩, ⟨"<sil>", "<sil>", none, .silence, [2]⟩], none, some 1⟩

theorem realisedOfFourFrames :
    let _ := Elementary.system
    let frames : List (Frame Float32) := [⟨0, [-1, -9, -9]⟩, ⟨1, [-9, -1, -9]⟩, ⟨2, [-9, -1.5, -9]⟩,
      ⟨3, [-9, -9, -2]⟩]
    ((make wordAndSilence).after []).phase = .idle ∧
    (∀ f ∈ frames, f.values.length = wordAndSilence.scorer.dimension) ∧
    ∃ e e' r, ((make wordAndSilence).after []).start = .ok e ∧ (frames.foldlM advance e >>= finish) = .ok e' ∧
      e'.result = some r ∧ r.lattice.bestPath = [4, 7] ∧
      ∃ h stays a, Alignment wordAndSilence frames r.lattice [7, 4] 4 h stays a ∧ stays.length = 4 ∧
        r.hypothesis.score = a + wordAndSilence.leave h := by
  intro _ frames
  obtain ⟨e, e', r, started, done, result, _, realised⟩ :=
    hypothesisRealised wordAndSilence [] rfl frames (by decide)
  have path : r.lattice.bestPath = [4, 7] := by
    have known : ((Plain.make wordAndSilence).after (.start :: frames.map .advance ++ [.finish])).result.map
        (fun r => r.lattice.bestPath) = some [4, 7] := by decide +kernel
    have follows := (makeFollows wordAndSilence).after (.start :: frames.map .advance ++ [.finish])
    have ended : (make wordAndSilence).after (.start :: frames.map .advance ++ [.finish]) = e' :=
      afterUtterance started done
    rw [← follows.result, ended, result] at known
    exact Option.some.inj known
  rw [path] at realised
  exact ⟨rfl, by decide, e, e', r, started, done, result, path, realised (by decide)⟩

end Engine

end SpeechDecoder.Search
