import SpeechDecoder.Proofs.Bounds.Runs

/-! Parts of different origin. What accepts them compares phones, matrices, scorer and features; the vocabulary is not
looked at, though it names phones and numbers of the language model that need not be there. Where they are, a search
over these parts reads nothing outside; where a phone is not, it cannot be made. -/
namespace SpeechDecoder

namespace Model

/-- What a vocabulary names is there: phones, and numbers of a language model. -/
structure Lexicon.Named (x : Lexicon) (phones unigrams : Nat) : Prop where
  phones : ∀ w ∈ x.words, ∀ id ∈ w.phones, id < phones
  numbers : ∀ w ∈ x.words, ∀ id, w.languageId = some id → id < unigrams
  start : ∀ id, x.start = some id → id < unigrams
  finish : ∀ id, x.finish = some id → id < unigrams

theorem Lexicon.Named.sound {x : Lexicon} {phones unigrams phones' unigrams' : Nat} (named : x.Named phones unigrams)
    (made : x.Sound phones' unigrams') : x.Sound phones unigrams :=
  ⟨fun w mem => ⟨(made.phones w mem).1, named.phones w mem⟩, named.numbers, named.start, named.finish⟩

namespace Ngram
variable {α : Type} [Score α] {m : Ngram α} {entries : List (Entry α)}

theorem Holds.pairInside (holds : m.Holds entries) {i j : Nat} {x : α × α}
    (found : m.bigrams.lookup (i, j) = some x) : i < m.unigrams.size ∧ j < m.unigrams.size := by
  rw [holds.bigrams] at found
  obtain ⟨before, behind, table, _⟩ := List.lookup_eq_some_iff.mp found
  have mem : ((i, j), x) ∈ tableOf m.pair? Entry.values entries := by simp [table]
  obtain ⟨e, _, keyed⟩ := List.mem_filterMap.mp mem
  obtain ⟨k, key, same⟩ := Option.map_eq_some_iff.mp keyed
  cases same
  obtain ⟨a, b, _, first, last⟩ := pairIs.mp key
  exact ⟨idInside holds.paired first, idInside holds.paired last⟩

omit [Score α] in
theorem unigramInside {word : Nat} {s : α} (scored : m.checkedUnigram word = .ok s) : word < m.unigrams.size := by
  obtain ⟨entry, there, _⟩ := Outcome.bindOk scored
  simpa using Guarded.knownIff.mp ⟨entry, there⟩

omit [Score α] in
theorem backoffInside {word : Nat} {s : α} (scored : m.checkedBackoff word = .ok s) : word < m.unigrams.size := by
  obtain ⟨entry, there, _⟩ := Outcome.bindOk scored
  simpa using Guarded.knownIff.mp ⟨entry, there⟩

theorem Holds.bigramInside (holds : m.Holds entries) {last word : Nat} {s : α}
    (scored : m.checkedBigram last word = .ok s) : last < m.unigrams.size ∧ word < m.unigrams.size := by
  unfold checkedBigram at scored
  split at scored
  · rename_i found
    exact holds.pairInside found
  · obtain ⟨weight, behind, scored⟩ := Outcome.bindOk scored
    obtain ⟨score, here, _⟩ := Outcome.bindOk scored
    exact ⟨backoffInside behind, unigramInside here⟩

/-- A score behind one word at most asks for unigrams that are there. -/
theorem Holds.scoreInside (holds : m.Holds entries) {word : Nat} {last : Option Nat} {s : α}
    (scored : m.checkedScore word ⟨last, none⟩ = .ok s) :
    word < m.unigrams.size ∧ (2 ≤ m.order → ∀ id, last = some id → id < m.unigrams.size) := by
  cases last with
  | none => exact ⟨unigramInside scored, fun _ id none => by cases none⟩
  | some last =>
    change (if 2 ≤ m.order then m.checkedBigram last word else m.checkedUnigram word) = .ok s at scored
    split at scored
    · obtain ⟨behind, here⟩ := holds.bigramInside scored
      exact ⟨here, fun _ id same => Option.some.inj same ▸ behind⟩
    · exact ⟨unigramInside scored, fun two => absurd two ‹_›⟩

end Ngram

end Model

namespace Search
variable {α : Type} [Score α] {phones : Model.PhoneSet}

theorem PhoneModel.madeIff {id : Nat} :
    (∃ p : PhoneModel α, PhoneModel.checkedMake phones id = .ok p) ↔ id < phones.phones.length := by
  unfold PhoneModel.checkedMake
  rw [Guarded.thenOk, Guarded.knownIff, Model.PhoneSet.phone?]
  simp

theorem WordModel.madeIff {ids : List Nat} :
    (∃ w : WordModel α, WordModel.checkedMake phones ids = .ok w) ↔ ∀ id ∈ ids, id < phones.phones.length := by
  unfold WordModel.checkedMake
  rw [Guarded.thenOk, Guarded.eachOk]
  exact forall₂_congr fun id _ => PhoneModel.madeIff

theorem Knowledge.numberScored {k : Knowledge α} {word id : Nat} {w : Model.LexiconWord} {h : Model.History}
    {r : α × Model.History} (listed : k.lexicon.words[word]? = some w) (normal : w.kind = .normal)
    (numbered : w.languageId = some id) (entered : k.checkedEnter word h = .ok r) :
    ∃ s, k.language.checkedScore id h = .ok s := by
  unfold checkedEnter at entered
  rw [listed, Guarded.knownSome, Guarded.okBind, normal, numbered] at entered
  obtain ⟨s, scored, _⟩ := Outcome.bindOk entered
  exact ⟨s, scored⟩

namespace Engine
variable {k : Knowledge α}

theorem madeIff : (∃ e, checkedMake k = .ok e) ↔
    ∀ w ∈ k.lexicon.words, ∀ id ∈ w.phones, id < k.phones.phones.length := by
  unfold checkedMake
  rw [Guarded.thenOk, Guarded.eachOk]
  simp only [Array.mem_toList_iff]
  exact forall₂_congr fun w _ => WordModel.madeIff

/-- A search that starts enters every word behind the start of a sentence. -/
theorem startEnters {look : Frame α → Nat → Guarded α} {e : Engine α} (run : checkedRun look k [.start] = .ok e)
    {word : Nat} (inside : word < k.lexicon.words.size) : ∃ r, k.checkedEnter word k.startHistory = .ok r := by
  obtain ⟨made, making, run⟩ := Outcome.bindOk run
  obtain ⟨words, each, same⟩ := Outcome.bindOk making
  have size : words.length = k.lexicon.words.size := (Guarded.mapMade each).length_eq.symm.trans Array.length_toList
  cases same
  rw [List.foldlM_cons] at run
  obtain ⟨next, call, _⟩ := Outcome.bindOk run
  obtain ⟨r, performed, _⟩ := Outcome.bindOk call
  -- no word is active yet, so that clearing leaves the slots as they were made
  obtain ⟨_, cleared, performed⟩ := Outcome.bindOk performed
  cases cleared
  obtain ⟨queued, offered, _⟩ := Outcome.bindOk performed
  obtain ⟨exit, root, offered⟩ := Outcome.bindOk offered
  cases root
  have mem : word ∈ List.range (words.map fun w => (⟨w, false⟩ : Slot α)).toArray.size := by simpa [size] using inside
  obtain ⟨before, behind, offer⟩ := Guarded.foldReached offered word mem
  obtain ⟨slot, _, offer⟩ := Outcome.bindOk offer
  obtain ⟨entered, enter, _⟩ := Outcome.bindOk offer
  exact ⟨entered, enter⟩

end Engine

end Search

namespace Models
open Model (PhoneSet Transitions Scorer Ngram Lexicon Dictionary Mixture Gaussians Weights)
open Search.Engine (checkedMake checkedRun Safe onePhoneText oneWordText)

/-- What is compared: every phone has its matrix and its senones, and the scorer takes the features. -/
structure Fitted (m : Models) : Prop where
  states : m.knowledge.transitions.states = m.knowledge.phones.states
  matrices : ∀ p ∈ m.knowledge.phones.phones, ∃ held, m.knowledge.transitions.count = .ok held ∧ p.matrix < held
  senones : ∀ p ∈ m.knowledge.phones.phones, ∀ x ∈ p.senones, x < m.knowledge.scorer.senones
  dimension : m.knowledge.scorer.dimension = m.features.dimension

section
variable [Elementary] {text spoken foreign : String} {number number' : List Char → Option Float32} {config : Config}
  {phones stranger : PhoneSet} {transitions : Transitions Float32} {scorer : Scorer Float32}
  {language elsewhere : Ngram Float32} {dictionary : Dictionary} {lexicon : Lexicon} {m : Models}

theorem ofPartsFitted (sound : phones.Sound)
    (made : ofParts config phones transitions scorer language lexicon = .ok m) : m.Fitted := by
  obtain ⟨features, params, _, checked, rfl⟩ := ofPartsMade made
  obtain ⟨matrices, states, senones, dimension⟩ := checkFits checked
  refine ⟨states, fun p mem => ?_, fun p mem x inside => ?_, dimension⟩
  · have some : transitions.states * (transitions.states + 1) ≠ 0 := by
      rw [states]
      exact Nat.ne_of_gt (Nat.mul_pos sound.emits (Nat.succ_pos _))
    exact ⟨_, if_neg some, Nat.lt_of_lt_of_le (sound.phones p mem).1 matrices⟩
  · exact Nat.lt_of_lt_of_le ((sound.phones p mem).2.2 x inside) senones

/-- The vocabulary does not change whether parts are accepted. -/
theorem ofPartsAnyWords (made : ofParts config phones transitions scorer language lexicon = .ok m)
    (language' : Ngram Float32) (lexicon' : Lexicon) :
    ∃ m', ofParts config phones transitions scorer language' lexicon' = .ok m' := by
  obtain ⟨features, accepted, made⟩ := Outcome.bindOk made
  obtain ⟨params, searched, made⟩ := Outcome.bindOk made
  obtain ⟨_, checked, _⟩ := Outcome.bindOk made
  have again : check features { params, phones, transitions, scorer, language := language', lexicon := lexicon' } =
    .ok () := checked
  exact ⟨_, by simp only [ofParts, accepted, searched, again, bind, Except.bind]; rfl⟩

/-- Parts that are accepted, with a vocabulary made for other phones and another language model: it is not compared, and
words are made where their phones are there. A search that starts needs their numbers, and that of the start where the
model looks behind it; where all that the vocabulary names is there, nothing is read outside. -/
theorem acceptedParts (read : PhoneSet.ofText text = .ok phones) (heard : Ngram.ofText number spoken = .ok language)
    (parsed : dictionary.Parsed stranger) (other : Ngram.ofText number' foreign = .ok elsewhere)
    (built : Lexicon.build dictionary elsewhere = .ok lexicon)
    (made : ofParts config phones transitions scorer language lexicon = .ok m) :
    m.Fitted ∧
    (∀ language' lexicon', ∃ m', ofParts config phones transitions scorer language' lexicon' = .ok m') ∧
    ((∃ e, checkedMake m.knowledge = .ok e) ↔ ∀ w ∈ lexicon.words, ∀ id ∈ w.phones, id < phones.phones.length) ∧
    (∀ look e, checkedRun look m.knowledge [.start] = .ok e →
      (∀ w ∈ lexicon.words, ∀ id, w.languageId = some id → id < language.words.size) ∧
      (2 ≤ language.order → ∀ id, lexicon.start = some id → id < language.words.size)) ∧
    (∀ codebooks densities means variances floor weights mixture,
      Mixture.ofParts (Gaussians.ofMoments codebooks densities scorer.dimension means variances floor) weights =
        .ok mixture → scorer = mixture.scorer → means.length = codebooks * densities * scorer.dimension →
      variances.length = codebooks * densities * scorer.dimension → scorer.Accepts mixture.checkedScore) ∧
    (lexicon.Named phones.phones.length language.words.size → ∀ look, scorer.Accepts look →
      Safe m.knowledge look) := by
  have fitted := ofPartsFitted (PhoneSet.ofTextSound read) made
  have others := ofPartsAnyWords made
  obtain ⟨entries, holds⟩ : ∃ entries, language.Holds entries := by
    obtain ⟨entries, read⟩ := Ngram.ofTextMade heard
    exact ⟨entries, read.holds⟩
  have words := Lexicon.buildSound (Ngram.ofTextPaired other) parsed built
  have normal := (Lexicon.buildMatches parsed.spelled built).normal
  have numbered := Lexicon.buildNumbered built
  obtain ⟨features, params, accepted, checked, rfl⟩ := ofPartsMade made
  obtain ⟨matrices, states, senones, dimension⟩ := checkFits checked
  refine ⟨fitted, others, Search.Engine.madeIff, fun look e run => ?_, ?_, fun named look accepts => ?_⟩
  · have each : ∀ w ∈ lexicon.words, ∀ id, w.languageId = some id → id < language.unigrams.size ∧
        (2 ≤ language.order → ∀ id, lexicon.start = some id → id < language.unigrams.size) := by
      intro w mem id known
      obtain ⟨word, listed⟩ := Array.getElem?_of_mem mem
      obtain ⟨r, entered⟩ := Search.Engine.startEnters run (Array.getElem?_eq_some_iff.mp listed).1
      have spoken := (normal word w listed).mpr (Option.isSome_of_eq_some known)
      obtain ⟨s, scored⟩ := Search.Knowledge.numberScored listed spoken known entered
      exact holds.scoreInside scored
    rw [holds.paired]
    obtain ⟨w, mem, id, known⟩ := numbered
    exact ⟨fun w mem id known => (each w mem id known).1, (each w mem id known).2⟩
  · intro codebooks densities means variances floor weights mixture mixed same mean variance
    have some : 0 < scorer.dimension := by
      rw [show scorer.dimension = features.dimension from dimension]
      exact Feature.Settings.dimensionPositive accepted
    have sound := Mixture.ofPartsSound (Gaussians.ofMomentsSound some mean variance floor) mixed
    rw [same]
    exact sound.accepts
  · have named : lexicon.Named phones.phones.length language.unigrams.size := holds.paired ▸ named
    exact Search.Engine.soundSafe
      ⟨PhoneSet.ofTextSound read, states, matrices, senones, named.sound words⟩ accepts

end

def twoPhoneText : String :=
  "0.3\n2 n_base\n0 n_tri\n4 n_state_map\n2 n_tied_state\n2 n_tied_ci_state\n1 n_tied_tmat\n" ++
  "A - - - n/a 0 0 N\nB - - - n/a 0 1 N\n"

def twoWordText : String := "\\data\\\nngram 1=2\n\\1-grams:\n-1 a\n-1 b\n\\end\\\n"

/-- One density, of no means and variances. -/
def hollow [Elementary] : Gaussians := .ofMoments 1 1 39 [] [] 0

set_option maxRecDepth 10000 in
/-- A word of a phone and a number that are not there, and a scorer that reads outside, are accepted. -/
theorem strangersAccepted :
    let _ := Elementary.system
    ∃ phones stranger language elsewhere dictionary lexicon mixture m, PhoneSet.ofText onePhoneText = .ok phones ∧
      PhoneSet.ofText twoPhoneText = .ok stranger ∧ Ngram.ofText Ngram.decimalLog oneWordText = .ok language ∧
      Ngram.ofText Ngram.decimalLog twoWordText = .ok elsewhere ∧
      Dictionary.addText {} false stranger "d" "b B\n" = .ok dictionary ∧
      Lexicon.build dictionary elsewhere = .ok lexicon ∧
      Mixture.ofParts hollow (.ofCounts 1 [1] 0) = .ok mixture ∧
      ofParts {} phones ⟨1, #[-1, -1]⟩ mixture.scorer language lexicon = .ok m ∧
      (¬ ∃ e, checkedMake m.knowledge = .ok e) ∧
      ∀ frame, mixture.checkedScore frame 0 = .error (.outside .moments 39) := by
  intro _
  let phones : PhoneSet := ⟨[⟨"A", false, 0, [0]⟩], 0, 1, 1, 1⟩
  let stranger : PhoneSet := ⟨[⟨"A", false, 0, [0]⟩, ⟨"B", false, 0, [1]⟩], 0, 1, 2, 1⟩
  have read : PhoneSet.ofText onePhoneText = .ok phones := by decide +kernel
  have strange : PhoneSet.ofText twoPhoneText = .ok stranger := by decide +kernel
  let mixture : Mixture := ⟨hollow, .ofCounts 1 [1] 0, true⟩
  have known : ((Dictionary.addText {} false stranger "d" "b B\n").map fun dictionary =>
      ((Ngram.ofText Ngram.decimalLog oneWordText).map fun language =>
        ((Ngram.ofText Ngram.decimalLog twoWordText).map fun elsewhere =>
          ((Lexicon.build dictionary elsewhere).map fun lexicon =>
            ((ofParts {} phones ⟨1, #[-1, -1]⟩ mixture.scorer language lexicon).map fun _ =>
              lexicon.words.toList.map Model.LexiconWord.phones).toOption).toOption).toOption).toOption).toOption =
        some (some (some (some (some [[1]])))) := by decide +kernel
  obtain ⟨dictionary, added, known⟩ := Outcome.mapOk known
  obtain ⟨language, heard, known⟩ := Outcome.mapOk known
  obtain ⟨elsewhere, other, known⟩ := Outcome.mapOk known
  obtain ⟨lexicon, built, known⟩ := Outcome.mapOk known
  obtain ⟨m, made, words⟩ := Outcome.mapOk known
  obtain ⟨_, _, making, _⟩ := acceptedParts read heard (Dictionary.Parsed.empty.text added) other built made
  refine ⟨phones, stranger, language, elsewhere, dictionary, lexicon, mixture, m, read, strange, heard, other, added,
    built, rfl, made, fun ended => ?_, fun frame => by with_unfolding_all rfl⟩
  have here : [1] ∈ lexicon.words.toList.map Model.LexiconWord.phones := by rw [words]; exact List.mem_singleton_self _
  obtain ⟨w, mem, spelled⟩ := List.mem_map.mp here
  have beyond := making.mp ended w (Array.mem_toList_iff.mp mem) 1 (by rw [spelled]; exact List.mem_singleton_self _)
  exact absurd beyond (by decide)

end Models

end SpeechDecoder
