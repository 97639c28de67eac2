import Mathlib
import SpeechDecoder.Proofs.Search.BestFirst
import SpeechDecoder.Proofs.Search.Simulation

/-! The alternatives of an utterance are the best texts of the complete paths of its lattice, each with the score
of the best path that has the text. -/
namespace SpeechDecoder.Search

open Score (Exact)

variable {α : Type} [Score α] {k : Knowledge α} {l : Lattice α}

/-- So many texts of complete paths as there are and are wanted, with their highest scores; none that is left out
has a higher one. -/
structure Lattice.BestTexts (k : Knowledge α) (l : Lattice α) (wanted : Nat) (found : List (Alternative α)) :
    Prop where
  size : ∃ texts : Finset String, (∀ t, t ∈ texts ↔ ∃ w, l.Completes k w ∧ l.textAlong k w = t) ∧
    found.length = min wanted texts.card
  distinct : (found.map fun a => a.hypothesis.text).Nodup
  attained : ∀ a ∈ found, ∃ w, l.Completes k w ∧ a.hypothesis.text = l.textAlong k w ∧
    a.hypothesis.score = w.total k
  highest : ∀ a ∈ found, ∀ w, l.Completes k w → a.hypothesis.text = l.textAlong k w →
    Score.atMost (w.total k) a.hypothesis.score = true
  others : ∀ w, l.Completes k w → (∀ a ∈ found, a.hypothesis.text ≠ l.textAlong k w) →
    ∀ a ∈ found, Score.atMost (w.total k) a.hypothesis.score = true

theorem Lattice.BestTexts.perm {wanted : Nat} {found found' : List (Alternative α)}
    (best : l.BestTexts k wanted found)
    (same : (found'.map Alternative.hypothesis).Perm (found.map Alternative.hypothesis)) :
    l.BestTexts k wanted found' := by
  have back {a : Alternative α} (mem : a ∈ found') : ∃ b ∈ found, b.hypothesis = a.hypothesis :=
    List.mem_map.mp (same.mem_iff.mp (List.mem_map.mpr ⟨a, mem, rfl⟩))
  have forth {b : Alternative α} (mem : b ∈ found) : ∃ a ∈ found', a.hypothesis = b.hypothesis :=
    List.mem_map.mp (same.mem_iff.mpr (List.mem_map.mpr ⟨b, mem, rfl⟩))
  obtain ⟨⟨texts, all, size⟩, distinct, attained, highest, others⟩ := best
  refine ⟨⟨texts, all, ?_⟩, ?_, fun a mem => ?_, fun a mem => ?_, fun w completes absent a mem => ?_⟩
  · rw [← size]
    simpa using same.length_eq
  · have texts := (same.map Hypothesis.text).nodup_iff.mpr (by rw [List.map_map]; exact distinct)
    rwa [List.map_map] at texts
  · obtain ⟨b, mem', same⟩ := back mem
    rw [← same]
    exact attained b mem'
  · obtain ⟨b, mem', same⟩ := back mem
    rw [← same]
    exact highest b mem'
  · obtain ⟨b, mem', same⟩ := back mem
    rw [← same]
    refine others w completes (fun b mem text => ?_) b mem'
    obtain ⟨a, inside, same⟩ := forth mem
    exact absent a inside (by rw [same]; exact text)

namespace Alternatives

theorem completeTexts (formed : l.Formed) :
    ∃ texts : Finset String, ∀ t, t ∈ texts ↔ ∃ w, l.Completes k w ∧ l.textAlong k w = t := by
  have finite : {w | l.Completes k w}.Finite :=
    (Lattice.leadsFinite formed).subset fun w completes => completes.leads
  exact ⟨(finite.image (l.textAlong k)).toFinset, fun t => by simp⟩

theorem noneBest (sound : l.Sound k) {wanted : Nat} (few : wanted = 0 ∨ ∀ w, ¬ l.Completes k w) :
    l.BestTexts k wanted [] := by
  obtain ⟨texts, all⟩ := completeTexts sound.toFormed
  refine ⟨⟨texts, all, ?_⟩, List.nodup_nil, fun a mem => absurd mem List.not_mem_nil,
    fun a mem => absurd mem List.not_mem_nil, fun _ _ _ a mem => absurd mem List.not_mem_nil⟩
  rcases few with rfl | none
  · exact (Nat.zero_min _).symm
  · have empty : texts = ∅ := Finset.eq_empty_of_forall_notMem fun t mem => by
      obtain ⟨w, completes, _⟩ := (all t).mp mem
      exact none w completes
    rw [empty]
    exact (Nat.min_zero _).symm

/-- A search that ended by itself has found as many texts as there are and are wanted. -/
theorem Covering.size {s : State α} {wanted : Nat} (covering : Covering k l s []) (formed : l.Formed)
    (few : s.found.length ≤ wanted) (ended : s.queue.toList = [] ∨ wanted ≤ s.found.length) :
    ∃ texts : Finset String, (∀ t, t ∈ texts ↔ ∃ w, l.Completes k w ∧ l.textAlong k w = t) ∧
      s.found.length = min wanted texts.card := by
  obtain ⟨texts, all⟩ := completeTexts formed
  let given := (s.found.map fun a => a.hypothesis.text).toFinset
  have size : given.card = s.found.length := by
    rw [List.toFinset_card_of_nodup covering.distinct, List.length_map]
  have within : given ⊆ texts := fun t inside => by
    obtain ⟨a, mem, rfl⟩ := List.mem_map.mp (List.mem_toFinset.mp inside)
    obtain ⟨w, completes, records⟩ := covering.found a mem
    exact (all _).mpr ⟨w, completes, records.text.symm⟩
  have less := Finset.card_le_card within
  refine ⟨texts, all, ?_⟩
  rcases ended with empty | enough
  · have whole : texts ⊆ given := fun t mem => by
      obtain ⟨w, completes, rfl⟩ := (all t).mp mem
      rcases covering.covered w completes with ⟨a, mem, text⟩ | ⟨x, waiting, _⟩
      · exact List.mem_toFinset.mpr (List.mem_map.mpr ⟨a, mem, text⟩)
      · rw [empty] at waiting
        cases waiting
    have more := Finset.card_le_card whole
    omega
  · omega

theorem Searched.bestTexts [Exact α] {s : State α} {wanted : Nat} (searched : Searched k l s []) (sound : l.Sound k)
    (consistent : k.lexicon.Consistent) (falling : k.Falling) (few : s.found.length ≤ wanted)
    (ended : s.queue.toList = [] ∨ wanted ≤ s.found.length) : l.BestTexts k wanted s.found := by
  refine ⟨searched.size sound.toFormed few ended, searched.distinct, fun a mem => ?_,
    fun a mem w completes same => searched.best a mem w completes same, fun w completes absent a mem => ?_⟩
  · obtain ⟨w, completes, records⟩ := searched.found a mem
    exact ⟨w, completes, records.text, records.score⟩
  rcases searched.covered w completes with ⟨b, mem', text⟩ | ⟨x, waiting, covers⟩
  · exact absurd text (absent b mem')
  · exact Score.Monotone.atMostTrans _ _ _
      (covers.bounded sound consistent falling completes (searched.promised x waiting))
      (searched.highest a mem x waiting)

theorem rankedHypotheses (found : List (Alternative α)) : (ranked found).map Alternative.hypothesis =
    (found.mergeSort fun a b => (Score.order b.hypothesis.score a.hypothesis.score).isLE).map
      Alternative.hypothesis := by
  have same (list : List (Alternative α)) :
      (list.mapIdx fun rank a => { a with rank }).map Alternative.hypothesis = list.map Alternative.hypothesis :=
    List.ext_getElem (by simp) fun i _ _ => by simp
  exact same _

theorem rankedPerm (found : List (Alternative α)) :
    ((ranked found).map Alternative.hypothesis).Perm (found.map Alternative.hypothesis) := by
  rw [rankedHypotheses]
  exact (List.mergeSort_perm _ _).map Alternative.hypothesis

theorem exploreCovering [Score.Possible α] (formed : l.Formed) (clear : l.Clear k) (wanted : Nat) :
    let last := l.explore k wanted
    Covering k l last [] ∧ last.found.length ≤ wanted ∧
      (last.expansions < expansionLimit → last.queue.toList = [] ∨ wanted ≤ last.found.length) := by
  have fuel : (start (.ofLattice k l)).queue.toList.countP Candidate.complete = 0 ∧
      (start (.ofLattice k l)).expansions = 0 := ⟨rfl, rfl⟩
  exact runCovering formed clear wanted (2 * expansionLimit + 1) (startCovering k l) (Nat.zero_le wanted)
    (by rw [fuel.1, fuel.2])

theorem exploreBest [Exact α] (sound : l.Sound k) (consistent : k.lexicon.Consistent) (falling : k.Falling)
    {wanted : Nat} (within : (l.explore k wanted).expansions < expansionLimit) :
    l.BestTexts k wanted (ranked (l.explore k wanted).found) := by
  obtain ⟨_, few, ended⟩ := exploreCovering sound.toFormed sound.clear wanted
  have searched := runSearched sound consistent falling wanted (2 * expansionLimit + 1) (startSearched k l)
  exact (Searched.bestTexts searched sound consistent falling few (ended within)).perm (rankedPerm _)

end Alternatives

namespace Engine

/-- Where the language scores are never positive, the alternatives of an utterance are the best texts of the
complete paths of its lattice, unless the search for them had to give up. -/
theorem alternativesBest [Exact α] (k : Knowledge α) (consistent : k.lexicon.Consistent) (falling : k.Falling)
    (ops : List (Op α)) {r : Result α} (decoded : ((make k).after ops).result = some r) (wanted : Nat)
    (within : (r.lattice.explore k (min wanted k.params.maxAlternatives)).expansions <
      Alternatives.expansionLimit) :
    r.lattice.BestTexts k (min wanted k.params.maxAlternatives) (((make k).after ops).alternatives wanted) := by
  have follows := (makeFollows k).after ops
  have served := Plain.afterServed k ops
  have knowledge : ((make k).after ops).knowledge = k := follows.knowledge.trans served.knowledge
  obtain ⟨t, exits, table, same⟩ := served.finished r (follows.result ▸ decoded)
  have sound : r.lattice.Sound k := by
    rw [same]
    exact table.sound consistent
  have answer : ((make k).after ops).alternatives wanted = r.lattice.alternatives k wanted := by
    unfold Engine.alternatives
    rw [decoded, knowledge]
  rw [answer]
  unfold Lattice.alternatives
  dsimp only
  split
  · rename_i nothing
    refine Alternatives.noneBest sound (nothing.imp id fun empty w completes => ?_)
    obtain ⟨e, found, final⟩ := completes.final
    obtain ⟨score, mem⟩ := (sound.finals w.last).mpr ⟨e, found, final⟩
    rw [List.isEmpty_iff.mp empty] at mem
    cases mem
  · exact Alternatives.exploreBest sound consistent falling within

/-- Two words of one phone with one state; it costs less to enter a word again than to stay in it. -/
def twoWords : Knowledge Whole where
  params := {
    beam := .impossible, phoneBeam := .impossible, wordBeam := .impossible, languageWeight := .number 2,
    wordPenalty := .number 9, phonePenalty := .number 0, silencePenalty := .number 0,
    fillerPenalty := .number 0, maxActive := none, maxExits := none, maxAlternatives := 5,
    acousticScale := .number 1, scoreAll := false }
  phones := ⟨[⟨"A", false, 0, [0]⟩], 0, 1, 1, 1⟩
  transitions := ⟨1, #[.number (-1), .number (-2)]⟩
  scorer := .direct 1 1
  language := {
    order := 1, words := #["a", "b"], unigrams := #[(.number (-3), .number 0), (.number (-4), .number 0)] }
  lexicon := ⟨#[⟨"a", "a", some 0, .normal, [0]⟩, ⟨"b", "b", some 1, .normal, [0]⟩], none, none⟩

def twoFrames : List (Op Whole) := [.start, .advance ⟨0, [.number 5]⟩, .advance ⟨1, [.number 7]⟩, .finish]

def shownAlternatives (wanted : Nat) : List (String × Whole) :=
  (((make twoWords).after twoFrames).alternatives wanted).map fun a => (a.hypothesis.text, a.hypothesis.score)

/-- The lattice has four texts, of which the worst is left out. -/
theorem threeOfTwoFrames : twoWords.lexicon.Consistent ∧ twoWords.Falling ∧
    (∃ r, ((make twoWords).after twoFrames).result = some r ∧
      (r.lattice.explore twoWords 3).expansions < Alternatives.expansionLimit ∧
      r.lattice.BestTexts twoWords 3 (((make twoWords).after twoFrames).alternatives 3)) ∧
    shownAlternatives 3 = [("a a", .number 14), ("a b", .number 12), ("b a", .number 12)] ∧
    shownAlternatives 5 = [("a a", .number 14), ("a b", .number 12), ("b a", .number 12), ("b b", .number 10)] := by
  have words {word : Nat} {w : Model.LexiconWord} (found : twoWords.lexicon.words[word]? = some w) :
      w = ⟨"a", "a", some 0, .normal, [0]⟩ ∨ w = ⟨"b", "b", some 1, .normal, [0]⟩ := by
    simpa [twoWords] using Array.mem_of_getElem? found
  have consistent : twoWords.lexicon.Consistent := by
    intro word w found _
    rcases words found with rfl | rfl <;> rfl
  have falling : twoWords.Falling := by
    refine ⟨fun word w id h found known => ?_, fun id h finish => by cases finish⟩
    rw [Model.Ngram.scoreUnigram rfl]
    rcases words found with rfl | rfl <;> cases known <;> decide
  have few : ((make twoWords).after twoFrames).result.map (fun r => (r.lattice.explore twoWords 3).expansions) =
      some 6 := by cbv
  obtain ⟨r, decoded, count⟩ := Option.map_eq_some_iff.mp few
  have within : (r.lattice.explore twoWords 3).expansions < Alternatives.expansionLimit := by
    rw [count]
    decide
  have best := alternativesBest twoWords consistent falling twoFrames decoded 3 within
  exact ⟨consistent, falling, ⟨r, decoded, within, best⟩, by cbv, by cbv⟩

end Engine

end SpeechDecoder.Search
