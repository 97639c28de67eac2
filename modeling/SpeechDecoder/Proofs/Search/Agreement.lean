import SpeechDecoder.Proofs.Search.Foremost
import SpeechDecoder.Proofs.Search.Limit
import SpeechDecoder.Proofs.Search.Optimality

/-! The hypothesis and the first alternative. The hypothesis follows the links of the search, which is one of the
paths among which the alternatives are sought, so it never scores higher. It scores the same where no path to an
exit could have gone on better than the one that the search has kept. -/
namespace SpeechDecoder.Search

open Relation (ReflTransGen)
open Score (Cancelling Exact)

variable {α : Type} [Score α] {k : Knowledge α}

/-- No path to an exit goes on with a higher score than under the history that the exit has. -/
def Lattice.Faithful (k : Knowledge α) (l : Lattice α) : Prop :=
  ∀ w e, l.Leads k w → l.exit? w.last = some e →
    (∀ word, Score.atMost (k.enter word w.history).1 (k.enter word e.history).1 = true) ∧
      Score.atMost (k.leave w.history) (k.leave e.history) = true

/-! ### Scores along a path -/

theorem Exit.restored [Cancelling α] (before : Exit α) (origin word endFrame : Nat) (score : α)
    (live : Score.isLive (before.score + (k.enter word before.history).1) = true) :
    before.score + (k.enter word before.history).1 + (before.after k origin word endFrame score).acousticScore =
      score := by
  obtain ⟨held, entry⟩ := Score.liveOfAdd live
  have acoustic : (before.after k origin word endFrame score).acousticScore =
      score - before.score - (k.enter word before.history).1 := rfl
  rw [acoustic, Exact.addAssoc, Cancelling.addSub _ _ entry, Cancelling.addSub _ _ held]

section
variable {t : Nat} {exits : Array (Exit α)}

/-- The links of the search lead to an exit with its history and its score. -/
def Lattice.Restored (k : Knowledge α) (l : Lattice α) (place : Nat) (e : Exit α) : Prop :=
  ∃ w, l.Leads k w ∧ w.last = place ∧ w.history = e.history ∧ w.score = e.score

theorem Table.restored [Cancelling α] (table : Table k t exits) {place : Nat} {e : Exit α}
    (found : exits[place]? = some e) : (Lattice.ofExits k exits t).Restored k place e := by
  have root : (Lattice.ofExits k exits t).Restored k 0 (Exit.root k) := ⟨.root k, .refl, rfl, rfl, rfl⟩
  refine table.made root (fun place origin word before e found known entered _ same restored => ?_) found
  obtain ⟨w, leads, rfl, history, score⟩ := restored
  obtain ⟨leads', history'⟩ := leads.linked known found same history
  refine ⟨_, leads', rfl, history', ?_⟩
  change w.score + (k.enter word w.history).1 + e.acousticScore = e.score
  rw [score, history, same]
  exact before.restored w.last word _ _ entered.live

/-- Where the kept histories are the best to go on with, no path scores higher than the exit where it ends. -/
theorem Table.highest [Cancelling α] (table : Table k t exits) (linked : Linked k exits)
    (faithful : (Lattice.ofExits k exits t).Faithful k) {w : Walk α}
    (leads : (Lattice.ofExits k exits t).Leads k w) :
    ∃ e, exits[w.last]? = some e ∧ Score.atMost w.score e.score = true := by
  induction leads with
  | refl => exact ⟨_, table.root, Score.atMostRefl _⟩
  | @tail w _ path goes ih =>
    obtain ⟨kept, found, le⟩ := ih
    cases goes with
    | @on here e place word here' there named joined =>
      cases found.symm.trans here'
      refine ⟨e, there, ?_⟩
      obtain ⟨before, origin, known, entered, _, same⟩ := table.entered there named
      obtain ⟨origin', previous, before', known', foremost⟩ := linked place word e there named
      have chosen : origin = origin' := by
        rw [same] at previous
        exact Option.some.inj previous
      subst chosen
      cases known.symm.trans known'
      have start := (Exit.behindOf same).starts
      have entry := (faithful w _ path found).1 word
      have follows := foremost w.last kept found (joined.symm.trans start)
      have score : (w.extend k place word e.acousticScore).score =
          w.score + (k.enter word w.history).1 + e.acousticScore := rfl
      have restored : before.score + (k.enter word before.history).1 + e.acousticScore = e.score := by
        rw [same]
        exact before.restored origin word _ _ entered.live
      -- the path goes on from an exit that was offered beside the one that was linked
      rw [score, ← restored]
      refine Score.Monotone.addMonotone _ _ _ (Score.Monotone.atMostTrans _ _ _ ?_ follows)
      exact Score.Monotone.atMostTrans _ _ _ (Score.Monotone.addMonotone _ _ _ le) (Score.addAtMost _ entry)

end

/-! ### Kept histories -/

namespace Lattice
variable {l : Lattice α} [Score.Monotone α]

theorem faithfulOf (alike : ∀ w e, l.Leads k w → l.exit? w.last = some e →
    ∀ id, k.language.score id w.history = k.language.score id e.history) : l.Faithful k := by
  intro w e leads found
  have same := alike w e leads found
  refine ⟨fun word => ?_, ?_⟩
  · rw [k.enterSame same word]
    exact Score.atMostRefl _
  · rw [k.leaveSame same]
    exact Score.atMostRefl _

theorem faithfulUnigram (unigram : k.language.order = 1) : l.Faithful k :=
  faithfulOf fun w e _ _ id => by rw [Model.Ngram.scoreUnigram unigram, Model.Ngram.scoreUnigram unigram]

end Lattice

theorem Table.faithfulBigram [Score.Monotone α] {t : Nat} {exits : Array (Exit α)} (table : Table k t exits)
    (spelled : Spelled k exits) (consistent : k.lexicon.Consistent) (bigram : k.language.order = 2)
    (normal : k.lexicon.Fillerless) : (Lattice.ofExits k exits t).Faithful k := by
  refine Lattice.faithfulOf fun w e leads found id => Model.Ngram.scoreBigram bigram id ?_
  cases leads with
  | refl =>
    cases (found.symm.trans table.root)
    rfl
  | @tail w _ _ goes =>
    cases goes with
    | @on _ e' place word _ there named _ =>
      cases found.symm.trans there
      obtain ⟨entry, known⟩ := spelled place word e there named
      have kind := normal word entry known
      obtain ⟨id, listed⟩ := Option.isSome_iff_exists.mp (consistent word entry known kind)
      have pushed (h : Model.History) : (k.enter word h).2.last = some id := by
        unfold Knowledge.enter
        simp only [known, kind, listed]
        rfl
      -- without fillers the word that ends here is the last of every history up to the exit
      obtain ⟨before, _, _, _, _, same⟩ := table.entered there named
      rw [(Exit.behindOf same).history, pushed]
      exact pushed w.history

/-! ### The first alternative -/

theorem Alternatives.rankedFirst [Exact α] {found rest : List (Alternative α)} {a : Alternative α}
    (same : ranked found = a :: rest) :
    ∀ b ∈ ranked found, Score.atMost b.hypothesis.score a.hypothesis.score = true := by
  let later (a b : Alternative α) : Bool := (Score.order b.hypothesis.score a.hypothesis.score).isLE
  have falling : (found.mergeSort later).Pairwise fun a b => later a b = true := by
    refine List.pairwise_mergeSort (fun a b c ab bc => ?_) (fun a b => ?_) found
    · exact Std.TransCmp.isLE_trans bc ab
    · simp only [later, Score.orderAtMost, Bool.or_eq_true]
      exact (Score.Monotone.atMostTotal _ _).symm
  have scores : ((ranked found).map Alternative.hypothesis).Pairwise fun g h =>
      Score.atMost h.score g.score = true := by
    rw [rankedHypotheses, List.pairwise_map]
    exact falling.imp fun le => by rwa [← Score.orderAtMost]
  rw [same] at scores ⊢
  intro b mem
  rcases List.mem_cons.mp mem with rfl | after
  · exact Score.atMostRefl _
  · exact (List.pairwise_cons.mp (List.pairwise_map.mp scores)).1 b after

/-- The first of the best texts has the highest score of all complete paths. -/
theorem Lattice.BestTexts.first {l : Lattice α} {wanted : Nat} {found rest : List (Alternative α)}
    {a : Alternative α} [Exact α] (best : l.BestTexts k wanted found) (same : found = a :: rest)
    (falling : ∀ b ∈ found, Score.atMost b.hypothesis.score a.hypothesis.score = true) :
    (∃ w, l.Completes k w ∧ a.hypothesis.score = w.total k) ∧
      ∀ w, l.Completes k w → Score.atMost (w.total k) a.hypothesis.score = true := by
  have mem : a ∈ found := same ▸ List.mem_cons_self
  obtain ⟨w, completes, _, score⟩ := best.attained a mem
  refine ⟨⟨w, completes, score⟩, fun w completes => ?_⟩
  by_cases given : ∃ b ∈ found, b.hypothesis.text = l.textAlong k w
  · obtain ⟨b, inside, text⟩ := given
    exact Score.Monotone.atMostTrans _ _ _ (best.highest b inside w completes text) (falling b inside)
  · exact best.others w completes (fun b inside text => given ⟨b, inside, text⟩) a mem

theorem Lattice.hypothesisFinal [Score.Monotone α] {t : Nat} {exits : Array (Exit α)}
    (ends : (ofExits k exits t).finals ≠ []) :
    let score := ((ofExits k exits t).best k).1.score
    (∃ (place : Nat) (e : Exit α), exits[place]? = some e ∧ isFinal t e = true ∧
      score = e.score + k.leave e.history) ∧
    ∀ (place : Nat) (e : Exit α), exits[place]? = some e → isFinal t e = true →
      Score.atMost (e.score + k.leave e.history) score = true := by
  obtain ⟨none, some⟩ := (ofExits k exits t).bestFinal
  rw [Lattice.bestScore]
  cases best : (ofExits k exits t).bestFinal? with
  | none => exact absurd (none best) ends
  | some b =>
    obtain ⟨mem, highest⟩ := some b best
    obtain ⟨e, found, final, score⟩ := memFinals.mp mem
    exact ⟨⟨b.1, e, found, final, score⟩,
      fun place e found final => highest _ (memFinals.mpr ⟨e, found, final, rfl⟩)⟩

namespace Engine

/-- The hypothesis scores no higher than the first alternative. It scores the same where what follows an exit is
scored best under the history that the search has kept, as it is where scores of words depend on no history, or on
the word before alone and there are no fillers. -/
theorem hypothesisNeverAbove [Cancelling α] (k : Knowledge α) (consistent : k.lexicon.Consistent) (falling : k.Falling)
    (ops : List (Op α)) {r : Result α} (decoded : ((make k).after ops).result = some r)
    (ends : r.lattice.finals ≠ []) {wanted : Nat} (some : 0 < wanted) (allowed : 0 < k.params.maxAlternatives)
    (within : (r.lattice.explore k (min wanted k.params.maxAlternatives)).expansions <
      Alternatives.expansionLimit) :
    ∃ a rest, ((make k).after ops).alternatives wanted = a :: rest ∧
      Score.atMost r.hypothesis.score a.hypothesis.score = true ∧
      (r.lattice.Faithful k → r.hypothesis.score = a.hypothesis.score) ∧
      (k.language.order = 1 ∨ k.language.order = 2 ∧ k.lexicon.Fillerless → r.lattice.Faithful k) := by
  have follows := (makeFollows k).after ops
  obtain ⟨chosen, t, exits, table, linked, spelled, same⟩ :=
    (Plain.afterGuides k ops).chosen r (follows.result ▸ decoded)
  let most := min wanted k.params.maxAlternatives
  have answer := ((latticeOf k ops decoded).2 wanted).trans (Lattice.alternativesAre ends some allowed)
  have best : r.lattice.BestTexts k most (Alternatives.ranked (r.lattice.explore k most).found) :=
    Alternatives.exploreBest (same ▸ table.sound consistent) consistent falling within
  obtain ⟨texts, all, size⟩ := best.size
  obtain ⟨a, rest, first⟩ : ∃ a rest, Alternatives.ranked (r.lattice.explore k most).found = a :: rest := by
    refine List.exists_cons_of_ne_nil fun none => ?_
    obtain ⟨w, completes⟩ : ∃ w, r.lattice.Completes k w := by
      rw [same] at ends ⊢
      exact table.completes ends
    have one : 0 < texts.card := Finset.card_pos.mpr ⟨_, (all _).mpr ⟨w, completes, rfl⟩⟩
    rw [none, List.length_nil] at size
    omega
  obtain ⟨⟨w, completes, score⟩, above⟩ := best.first first (Alternatives.rankedFirst first)
  rw [same] at ends above completes ⊢
  rw [chosen, same]
  obtain ⟨⟨place, e, found, final, total⟩, highest⟩ := Lattice.hypothesisFinal (k := k) ends
  have below : Score.atMost ((Lattice.ofExits k exits t).best k).1.score a.hypothesis.score = true := by
    obtain ⟨v, leads, last, history, sum⟩ := table.restored found
    have same : v.total k = e.score + k.leave e.history := by rw [Walk.total, sum, history]
    rw [total, ← same]
    exact above v ⟨leads, e, last ▸ found, final⟩
  refine ⟨a, rest, answer.trans first, below, fun faithful => ?_, fun short => ?_⟩
  · obtain ⟨e', found', le⟩ := table.highest linked faithful completes.leads
    obtain ⟨e'', found'', final'⟩ := completes.final
    cases found'.symm.trans found''
    refine Cancelling.atMostSame _ _ below ?_
    rw [score]
    exact Score.Monotone.atMostTrans _ _ _ (Score.Monotone.atMostTrans _ _ _
      (Score.Monotone.addMonotone _ _ _ le) (Score.addAtMost _ (faithful w e' completes.leads found').2))
      (highest w.last e' found' final')
  · rcases short with unigram | ⟨bigram, normal⟩
    · exact Lattice.faithfulUnigram unigram
    · exact table.faithfulBigram spelled consistent bigram normal

/-- Two words and a silence, of one frame each; the second word makes the first cost something. -/
def overSilence (order : Nat) : Knowledge Whole where
  params := {
    beam := .impossible, phoneBeam := .impossible, wordBeam := .impossible, languageWeight := .number 1,
    wordPenalty := .number 0, phonePenalty := .number 0, silencePenalty := .number 0,
    fillerPenalty := .number 0, maxActive := none, maxExits := none, maxAlternatives := 5,
    acousticScale := .number 1, scoreAll := false }
  phones := ⟨[⟨"A", false, 0, [0]⟩, ⟨"B", false, 0, [1]⟩, ⟨"SIL", true, 0, [2]⟩], 0, 1, 3, 1⟩
  transitions := ⟨1, #[.impossible, .number 0]⟩
  scorer := .direct 3 3
  language := {
    order, words := #["a", "b"], unigrams := #[(.number 0, .number 0), (.number 0, .number 0)],
    bigrams := [((0, 0), (.number 0, .number 0)), ((1, 0), (.number (-10), .number 0))] }
  lexicon := ⟨#[⟨"a", "a", some 0, .normal, [0]⟩, ⟨"b", "b", some 1, .normal, [1]⟩,
    ⟨"<sil>", "<sil>", none, .silence, [2]⟩], none, none⟩

/-- A frame most like `b`, one of silence, and one of `a`. -/
def threeFrames : List (Op Whole) :=
  [.start, .advance ⟨0, [.number (-1), .number 0, .number (-100)]⟩,
    .advance ⟨1, [.number (-100), .number (-100), .number 0]⟩,
    .advance ⟨2, [.number 0, .number (-100), .number (-100)]⟩, .finish]

theorem overSilenceWords {order word : Nat} {w : Model.LexiconWord}
    (found : (overSilence order).lexicon.words[word]? = some w) :
    w = ⟨"a", "a", some 0, .normal, [0]⟩ ∨ w = ⟨"b", "b", some 1, .normal, [1]⟩ ∨
      w = ⟨"<sil>", "<sil>", none, .silence, [2]⟩ := by
  simpa [overSilence] using Array.mem_of_getElem? found

theorem overSilenceConsistent (order : Nat) : (overSilence order).lexicon.Consistent := by
  intro word w found normal
  rcases overSilenceWords found with rfl | rfl | rfl
  · rfl
  · rfl
  · cases normal

theorem overSilenceFalling {order : Nat} (short : order ≤ 2) : (overSilence order).Falling := by
  refine ⟨fun word w id h found known => ?_, fun id h finish => by cases finish⟩
  have inside : id < 2 := by
    rcases overSilenceWords found with rfl | rfl | rfl <;> cases known <;> decide
  have pair (last : Nat) :
      Score.atMost (.number 1 * (overSilence order).language.bigram last id) (.number 0) = true := by
    match last with
    | 0 => interval_cases id <;> rfl
    | 1 => interval_cases id <;> rfl
    | n + 2 => interval_cases id <;> rfl
  change Score.atMost (.number 1 * (overSilence order).language.score id h) (.number 0) = true
  rcases Model.Ngram.scoreShort (m := (overSilence order).language) short id h with alone | ⟨last, after⟩
  · rw [alone]
    interval_cases id <;> rfl
  · rw [after]
    exact pair last

/-- What was said before a silence is forgotten in it, but for the better of both ways. -/
theorem forgottenInSilence : (overSilence 2).lexicon.Consistent ∧ (overSilence 2).Falling ∧ 0 < 1 ∧
    0 < (overSilence 2).params.maxAlternatives ∧
    ∃ r, ((make (overSilence 2)).after threeFrames).result = some r ∧ r.lattice.finals ≠ [] ∧
      (r.lattice.explore (overSilence 2) 1).expansions < Alternatives.expansionLimit ∧
      r.hypothesis.score = .number (-10) ∧
      (((make (overSilence 2)).after threeFrames).alternatives 1).map (fun a => a.hypothesis.score) =
        [.number (-1)] := by
  have decoded : ((make (overSilence 2)).after threeFrames).result.map (fun r => (r.hypothesis.score,
      r.lattice.finals.length, (r.lattice.explore (overSilence 2) 1).expansions)) = some (.number (-10), 3, 6) := by
    cbv
  obtain ⟨r, found, known⟩ := Option.map_eq_some_iff.mp decoded
  simp only [Prod.mk.injEq] at known
  obtain ⟨score, ends, expansions⟩ := known
  refine ⟨overSilenceConsistent 2, overSilenceFalling (Nat.le_refl 2), by decide, by decide, r, found,
    fun none => ?_, ?_, score, by cbv⟩
  · rw [none] at ends
    cases ends
  · rw [expansions]
    decide

theorem rememberedInSilence : (overSilence 1).lexicon.Consistent ∧ (overSilence 1).Falling ∧
    0 < (overSilence 1).params.maxAlternatives ∧
    ∃ r, ((make (overSilence 1)).after threeFrames).result = some r ∧ r.lattice.finals ≠ [] ∧ 0 < 2 ∧
      (r.lattice.explore (overSilence 1) 2).expansions < Alternatives.expansionLimit ∧
      ∃ a rest, ((make (overSilence 1)).after threeFrames).alternatives 2 = a :: rest ∧
        r.hypothesis.score = a.hypothesis.score := by
  have decoded : ((make (overSilence 1)).after threeFrames).result.map (fun r =>
      (r.lattice.finals.length, (r.lattice.explore (overSilence 1) 2).expansions)) = some (3, 7) := by
    cbv
  obtain ⟨r, found, known⟩ := Option.map_eq_some_iff.mp decoded
  simp only [Prod.mk.injEq] at known
  obtain ⟨size, expansions⟩ := known
  have ends : r.lattice.finals ≠ [] := fun none => by
    rw [none] at size
    cases size
  have within : (r.lattice.explore (overSilence 1) 2).expansions < Alternatives.expansionLimit := by
    rw [expansions]
    decide
  have consistent := overSilenceConsistent 1
  have falling := overSilenceFalling (show 1 ≤ 2 by decide)
  obtain ⟨a, rest, first, _, agrees, kept⟩ :=
    hypothesisNeverAbove (overSilence 1) consistent falling threeFrames found ends (show 0 < 2 by decide) (by decide)
      within
  exact ⟨consistent, falling, by decide, r, found, ends, by decide, within, a, rest, first, agrees (kept (.inl rfl))⟩

end Engine

end SpeechDecoder.Search
