import SpeechDecoder.Model.Lexicon
import SpeechDecoder.Proofs.Model.Dictionary

/-! The words of a vocabulary that are no fillers, and they alone, are known to the language model by their base
spellings. -/
namespace SpeechDecoder.Model.Lexicon

def Consistent (x : Lexicon) : Prop :=
  ∀ (word : Nat) (w : LexiconWord), x.words[word]? = some w → w.kind = .normal → w.languageId.isSome = true

def Fillerless (x : Lexicon) : Prop :=
  ∀ (word : Nat) (w : LexiconWord), x.words[word]? = some w → w.kind = .normal

theorem ofWordIs {α : Type} {m : Ngram α} {d : DictionaryWord} {w : LexiconWord} (made : ofWord m d = some w) :
    w.base = d.base ∧ w.phones = d.phones ∧ (w.kind = .normal ↔ w.languageId.isSome = true) ∧
      ∀ id, w.languageId = some id → m.id? w.base = some id := by
  unfold ofWord at made
  dsimp only at made
  split at made
  · cases made
  · rename_i silent
    cases made
    exact ⟨rfl, rfl, ⟨fun normal => (by cases silent.symm.trans normal), fun known => (by cases known)⟩,
      fun id known => by cases known⟩
  · rename_i filler
    cases made
    exact ⟨rfl, rfl, ⟨fun normal => (by cases filler.symm.trans normal), fun known => (by cases known)⟩,
      fun id known => by cases known⟩
  · rename_i normal
    obtain ⟨id, found, rfl⟩ := Option.map_eq_some_iff.mp made
    refine ⟨rfl, rfl, ⟨fun _ => rfl, fun _ => normal⟩, fun id' same => ?_⟩
    cases same
    exact found

theorem buildMade {α : Type} {m : Ngram α} {d : Dictionary} {x : Lexicon} (built : build d m = .ok x) :
    x.start = m.id? sentenceStart ∧ x.finish = m.id? sentenceEnd ∧
      ∀ (word : Nat) (w : LexiconWord), x.words[word]? = some w → ∃ entry ∈ d.words, ofWord m entry = some w := by
  unfold build at built
  dsimp only at built
  split at built
  · cases built
    exact ⟨rfl, rfl, fun word w found => Array.mem_filterMap.mp (Array.mem_of_getElem? found)⟩
  · cases built

theorem buildNumbered {α : Type} {m : Ngram α} {d : Dictionary} {x : Lexicon} (built : build d m = .ok x) :
    ∃ w ∈ x.words, ∃ id, w.languageId = some id := by
  unfold build at built
  dsimp only at built
  split at built
  · rename_i some
    cases built
    obtain ⟨word, inside, numbered⟩ := Array.any_eq_true.mp some
    exact ⟨_, Array.getElem_mem inside, Option.isSome_iff_exists.mp numbered⟩
  · cases built

theorem buildConsistent {α : Type} {m : Ngram α} {d : Dictionary} {x : Lexicon} (built : build d m = .ok x) :
    x.Consistent := by
  intro word w found normal
  obtain ⟨entry, _, made⟩ := (buildMade built).2.2 word w found
  exact (ofWordIs made).2.2.1.mp normal

structure Matches {α : Type} (x : Lexicon) (m : Ngram α) : Prop where
  normal : ∀ (word : Nat) (w : LexiconWord), x.words[word]? = some w →
    (w.kind = .normal ↔ w.languageId.isSome = true)
  known : ∀ (word id : Nat) (w : LexiconWord), x.words[word]? = some w → w.languageId = some id →
    m.id? w.base = some id
  spelled : ∀ (word : Nat) (w : LexiconWord), x.words[word]? = some w → Text.IsField w.base.toList
  start : x.start = m.id? sentenceStart

theorem buildMatches {α : Type} {m : Ngram α} {d : Dictionary} {x : Lexicon} (spelled : d.Spelled)
    (built : build d m = .ok x) : x.Matches m := by
  obtain ⟨start, _, words⟩ := buildMade built
  refine ⟨fun word w found => ?_, fun word id w found same => ?_, fun word w found => ?_, start⟩
  · obtain ⟨entry, _, made⟩ := words word w found
    exact (ofWordIs made).2.2.1
  · obtain ⟨entry, _, made⟩ := words word w found
    exact (ofWordIs made).2.2.2 id same
  · obtain ⟨entry, mem, made⟩ := words word w found
    rw [(ofWordIs made).1]
    exact spelled entry mem

end SpeechDecoder.Model.Lexicon
