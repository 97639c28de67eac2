import SpeechDecoder.Proofs.Bounds.Words

/-! Vocabularies that are watched while words are made of them, entered and left. Where the parts of what a search goes
by fit one another, nothing is read that is not there, and histories name unigrams alone. -/
namespace SpeechDecoder

open Guarded (known Gives)

variable {α : Type}

namespace Model

def History.Within (size : Nat) (h : History) : Prop :=
  (∀ id, h.last = some id → id < size) ∧ ∀ id, h.before = some id → id < size

theorem History.Within.push {size id : Nat} {h : History} (inside : h.Within size) (new : id < size) :
    (h.push id).Within size := by
  refine ⟨fun other same => ?_, inside.1⟩
  cases same
  exact new

namespace Ngram
variable [Score α]

def checkedUnigram (m : Ngram α) (word : Nat) : Guarded α := do
  let entry ← known .unigrams word m.unigrams[word]?
  .ok entry.1

def checkedBackoff (m : Ngram α) (word : Nat) : Guarded α := do
  let entry ← known .unigrams word m.unigrams[word]?
  .ok entry.2

def checkedBigram (m : Ngram α) (last word : Nat) : Guarded α :=
  match m.bigrams.lookup (last, word) with
  | some (score, _) => .ok score
  | none => do
    let weight ← m.checkedBackoff last
    let score ← m.checkedUnigram word
    .ok (weight + score)

def checkedTrigram (m : Ngram α) (before last word : Nat) : Guarded α :=
  match m.trigrams.lookup (before, last, word) with
  | some score => .ok score
  | none => do
    let weight := match m.bigrams.lookup (before, last) with
      | some (_, weight) => weight
      | none => Score.zero
    let score ← m.checkedBigram last word
    .ok (weight + score)

def checkedScore (m : Ngram α) (word : Nat) (h : History) : Guarded α :=
  match h.last, h.before with
  | some last, some before =>
    if 3 ≤ m.order then m.checkedTrigram before last word
    else if 2 ≤ m.order then m.checkedBigram last word
    else m.checkedUnigram word
  | some last, none => if 2 ≤ m.order then m.checkedBigram last word else m.checkedUnigram word
  | none, _ => m.checkedUnigram word

variable {m : Ngram α} {word : Nat}

theorem checkedUnigramOk (inside : word < m.unigrams.size) : m.checkedUnigram word = .ok (m.unigram word) := by
  unfold checkedUnigram unigram
  rw [Array.getElem?_eq_getElem inside]
  rfl

theorem checkedBackoffOk (inside : word < m.unigrams.size) : m.checkedBackoff word = .ok (m.backoff word) := by
  unfold checkedBackoff backoff
  rw [Array.getElem?_eq_getElem inside]
  rfl

theorem checkedBigramOk {last : Nat} (behind : last < m.unigrams.size) (inside : word < m.unigrams.size) :
    m.checkedBigram last word = .ok (m.bigram last word) := by
  unfold checkedBigram bigram
  cases m.bigrams.lookup (last, word) with
  | some entry => rfl
  | none =>
    dsimp only
    rw [checkedBackoffOk behind, Guarded.okBind, checkedUnigramOk inside]
    rfl

theorem checkedTrigramOk {last : Nat} (before : Nat) (behind : last < m.unigrams.size)
    (inside : word < m.unigrams.size) : m.checkedTrigram before last word = .ok (m.trigram before last word) := by
  unfold checkedTrigram trigram
  cases m.trigrams.lookup (before, last, word) with
  | some score => rfl
  | none =>
    dsimp only
    rw [checkedBigramOk behind inside]
    rfl

theorem checkedScoreOk {h : History} (within : h.Within m.unigrams.size) (inside : word < m.unigrams.size) :
    m.checkedScore word h = .ok (m.score word h) := by
  obtain ⟨last, before⟩ := h
  unfold checkedScore score
  cases last with
  | none => exact checkedUnigramOk inside
  | some last =>
    have behind := within.1 last rfl
    cases before with
    | none =>
      dsimp only
      split
      · exact checkedBigramOk behind inside
      · exact checkedUnigramOk inside
    | some before =>
      dsimp only
      split
      · exact checkedTrigramOk before behind inside
      · split
        · exact checkedBigramOk behind inside
        · exact checkedUnigramOk inside

end Ngram

/-- Phones with a matrix of so many and, for each of their states, a senone of so many. -/
structure PhoneSet.Sound (s : PhoneSet) : Prop where
  emits : 0 < s.states
  phones : ∀ p ∈ s.phones, p.matrix < s.matrices ∧ p.senones.length = s.states ∧ ∀ x ∈ p.senones, x < s.senones

/-- Words of at least one phone, all of them listed, with numbers that the language model has. -/
structure Lexicon.Sound (x : Lexicon) (phones unigrams : Nat) : Prop where
  phones : ∀ w ∈ x.words, 0 < w.phones.length ∧ ∀ id ∈ w.phones, id < phones
  numbers : ∀ w ∈ x.words, ∀ id, w.languageId = some id → id < unigrams
  start : ∀ id, x.start = some id → id < unigrams
  finish : ∀ id, x.finish = some id → id < unigrams

end Model

namespace Search

open Model (PhoneSet History)

namespace Knowledge

structure Sound (k : Knowledge α) : Prop where
  phones : k.phones.Sound
  square : k.transitions.states = k.phones.states
  matrices : k.phones.matrices ≤ k.transitions.values.size / (k.transitions.states * (k.transitions.states + 1))
  senones : k.phones.senones ≤ k.scorer.senones
  words : k.lexicon.Sound k.phones.phones.length k.language.unigrams.size

def checkedEnterBound (k : Knowledge α) (word : Nat) : Guarded α := do
  let w ← known .words word k.lexicon.words[word]?
  match w.kind with
  | .normal => .ok k.params.wordPenalty
  | .silence => .ok k.params.silencePenalty
  | _ => .ok k.params.fillerPenalty

variable {k : Knowledge α} {word : Nat} {h : History}

theorem checkedEnterBoundOk (inside : word < k.lexicon.words.size) :
    k.checkedEnterBound word = .ok (k.enterBound word) := by
  unfold checkedEnterBound Knowledge.enterBound
  rw [Guarded.knownArray _ inside, Guarded.okBind, Array.getElem?_eq_getElem inside, Option.map_some]
  cases k.lexicon.words[word].kind <;> rfl

theorem Sound.startHistory (sound : k.Sound) : k.startHistory.Within k.language.unigrams.size :=
  ⟨fun id known => sound.words.start id known, fun id none => by cases none⟩

variable [Score α]

def checkedEnter (k : Knowledge α) (word : Nat) (h : History) : Guarded (α × History) := do
  let w ← known .words word k.lexicon.words[word]?
  match w.kind, w.languageId with
  | .normal, some id =>
    let score ← k.language.checkedScore id h
    .ok (k.params.languageWeight * score + k.params.wordPenalty, h.push id)
  | .silence, _ => .ok (k.params.silencePenalty, h)
  | _, _ => .ok (k.params.fillerPenalty, h)

def checkedLeave (k : Knowledge α) (h : History) : Guarded α :=
  match k.lexicon.finish with
  | some id => do
    let score ← k.language.checkedScore id h
    .ok (k.params.languageWeight * score)
  | none => .ok Score.zero

theorem Sound.enter (sound : k.Sound) (inside : word < k.lexicon.words.size)
    (within : h.Within k.language.unigrams.size) :
    Gives (fun r => r.2.Within k.language.unigrams.size) (k.checkedEnter word h) (k.enter word h) := by
  have listed := Array.getElem?_eq_getElem inside
  have numbers := sound.words.numbers _ (Array.getElem_mem inside)
  unfold checkedEnter Knowledge.enter
  rw [Guarded.knownArray _ inside, Guarded.okBind, listed]
  generalize k.lexicon.words[word] = w at numbers
  obtain ⟨_, _, number, kind, _⟩ := w
  cases kind with
  | normal =>
    cases number with
    | none => exact .ok within
    | some id =>
      have new := numbers id rfl
      dsimp only
      rw [Model.Ngram.checkedScoreOk within new, Guarded.okBind]
      exact .ok (within.push new)
  | _ => exact .ok within

theorem Sound.leave (sound : k.Sound) (within : h.Within k.language.unigrams.size) :
    k.checkedLeave h = .ok (k.leave h) := by
  have finish := sound.words.finish
  unfold checkedLeave Knowledge.leave
  cases known : k.lexicon.finish with
  | none => rfl
  | some id =>
    dsimp only
    rw [Model.Ngram.checkedScoreOk within (finish id known)]
    rfl

theorem Sound.makePhone [Score.Ordered α] (sound : k.Sound) (origins : Nat) {id : Nat}
    (inside : id < k.phones.phones.length) :
    Gives (PhoneModel.Fits k.transitions k.scorer.senones origins) (PhoneModel.checkedMake k.phones id)
      (PhoneModel.make k.phones id) := by
  obtain ⟨matrix, paired, below⟩ := sound.phones.phones _ (List.getElem_mem inside)
  have found : k.phones.phone? id = some k.phones.phones[id] := List.getElem?_eq_getElem inside
  unfold PhoneModel.checkedMake PhoneModel.make
  rw [found]
  refine .ok ⟨⟨Nat.lt_of_lt_of_le matrix sound.matrices, ?_, paired.trans sound.square.symm, fun s mem => ?_⟩,
    fun s mem => ?_, Token.deadFrom origins⟩
  · rw [List.length_replicate, sound.square]
  · exact Nat.lt_of_lt_of_le (below s mem) sound.senones
  · rw [List.eq_of_mem_replicate mem]
    exact Token.deadFrom origins

theorem Sound.makeWord [Score.Ordered α] (sound : k.Sound) (origins : Nat) {w : Model.LexiconWord}
    (listed : w ∈ k.lexicon.words) :
    Gives (WordModel.Fits k.transitions k.scorer.senones origins) (WordModel.checkedMake k.phones w.phones)
      (WordModel.make k.phones w.phones) := by
  obtain ⟨long, inside⟩ := sound.words.phones w listed
  have each (id : Nat) (mem : id ∈ w.phones) := sound.makePhone origins (inside id mem)
  unfold WordModel.checkedMake WordModel.make
  rw [Guarded.mapOk fun id mem => (each id mem).same]
  refine .ok ⟨by rw [List.length_map]; exact long, fun p mem => ?_⟩
  obtain ⟨id, inside, rfl⟩ := List.mem_map.mp mem
  exact (each id inside).good

end Knowledge

end Search

end SpeechDecoder
