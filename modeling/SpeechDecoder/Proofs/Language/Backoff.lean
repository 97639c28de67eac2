import SpeechDecoder.Proofs.Bounds.Vocabulary
import SpeechDecoder.Proofs.Language.Listing

/-! Scores of words by the entries of a text: of the histories of a word, the longest that the word is listed behind
decides, and each longer one adds the weight it is listed with. The tables of a model, its numbers of words and the
turned order of its histories leave these scores as they are. -/
namespace SpeechDecoder.Model

/-- The words of a history, latest first; the one before an unknown word is not reached. -/
def History.words (h : History) : List Nat :=
  match h.last with
  | none => []
  | some last => last :: h.before.toList

namespace Ngram

section
variable {β γ : Type}

theorem Entry.readMapped (number : List Char → Option β) (f : β → γ) (n : Nat) (line : List Char) :
    Entry.read? (fun s => (number s).map f) n line = (Entry.read? number n line).map (Entry.map f) := by
  unfold Entry.read?
  split
  · rfl
  · rename_i score rest fields
    dsimp only
    split
    · rfl
    · split
      · cases number score <;> rfl
      · rename_i weight last
        cases number score with
        | none => rfl
        | some x => cases number weight <;> rfl
      · rfl

theorem entriesMapped (number : List Char → Option β) (f : β → γ) (text : String) :
    entries? (fun s => (number s).map f) text = (entries? number text).map (List.map (Entry.map f)) := by
  unfold entries?
  induction listed text with
  | nil => rfl
  | cons line rest ih =>
    simp only [readAll?, List.mapM_cons, Entry.readMapped] at ih ⊢
    rw [ih]
    cases Entry.read? number line.1 line.2 with
    | none => rfl
    | some e => cases rest.mapM fun line => Entry.read? number line.1 line.2 <;> rfl

theorem wordsMapped (f : β → γ) (entries : List (Entry β)) :
    ((entries.map (Entry.map f)).filter fun e => e.words.length = 1).flatMap Entry.words =
      (entries.filter fun e => e.words.length = 1).flatMap Entry.words := by
  rw [List.filter_map, List.flatMap_map]
  rfl

end

variable {α : Type}

def spelling (m : Ngram α) (id : Nat) : String := m.words.getD id ""

/-- The words of a history that the order of a model reaches, oldest first. -/
def context (m : Ngram α) (h : History) : List Nat := (h.words.take (m.order - 1)).reverse

variable [Score α]

/-- The weight that words are listed with, zero where they are not listed or listed without one. -/
def weightOf (entries : List (Entry α)) (words : List String) : α :=
  ((latest? entries words).bind Entry.weight).getD Score.zero

/-- The score of a word behind others, oldest first, by the entries of a text. -/
def backedOff? (entries : List (Entry α)) (word : String) : List String → Option α
  | [] => (latest? entries [word]).map Entry.score
  | oldest :: others =>
    match latest? entries (oldest :: others ++ [word]) with
    | some e => some e.score
    | none => (backedOff? entries word others).map (weightOf entries (oldest :: others) + ·)

namespace Holds
variable {m : Ngram α} {entries : List (Entry α)} {word last before : Nat}

theorem spelled (holds : m.Holds entries) (inside : word < m.words.size) :
    m.id? (m.spelling word) = some word := by
  refine holds.numbers word _ ?_
  rw [spelling, Array.getD_eq_getD_getElem?, Array.getElem?_eq_getElem inside, Option.getD_some]

theorem alone (holds : m.Holds entries) (inside : word < m.words.size) :
    ∃ e, latest? entries [m.spelling word] = some e ∧ m.unigrams[word]? = some e.values := by
  have there := holds.unigrams _ _ (holds.spelled inside)
  cases listed : latest? entries [m.spelling word] with
  | some e => exact ⟨e, rfl, by rw [there, listed, Option.map_some]⟩
  | none =>
    rw [listed, Option.map_none, Array.getElem?_eq_none_iff, ← holds.paired] at there
    omega

theorem behindOne (holds : m.Holds entries) (behind : last < m.words.size) (inside : word < m.words.size) :
    m.bigrams.lookup (last, word) = (latest? entries [m.spelling last, m.spelling word]).map Entry.values := by
  rw [holds.bigrams]
  exact tableLookup pairApart (pairIs.mpr ⟨_, _, rfl, holds.spelled behind, holds.spelled inside⟩)

theorem behindTwo (holds : m.Holds entries) (first : before < m.words.size) (behind : last < m.words.size)
    (inside : word < m.words.size) : m.trigrams.lookup (before, last, word) =
      (latest? entries [m.spelling before, m.spelling last, m.spelling word]).map Entry.score := by
  rw [holds.trigrams]
  exact tableLookup tripleApart
    (tripleIs.mpr ⟨_, _, _, rfl, holds.spelled first, holds.spelled behind, holds.spelled inside⟩)

theorem unigramListed (holds : m.Holds entries) (inside : word < m.words.size) :
    backedOff? entries (m.spelling word) [] = some (m.unigram word) := by
  obtain ⟨e, listed, found⟩ := holds.alone inside
  simp only [backedOff?, listed, Option.map_some, Ngram.unigram, found, Entry.values]

theorem backoffListed (holds : m.Holds entries) (inside : word < m.words.size) :
    weightOf entries [m.spelling word] = m.backoff word := by
  obtain ⟨e, listed, found⟩ := holds.alone inside
  simp only [weightOf, listed, Option.bind_some, backoff, found, Entry.values]

theorem bigramListed (holds : m.Holds entries) (behind : last < m.words.size) (inside : word < m.words.size) :
    backedOff? entries (m.spelling word) [m.spelling last] = some (m.bigram last word) := by
  unfold backedOff? bigram
  rw [holds.behindOne behind inside, List.cons_append, List.nil_append]
  cases latest? entries [m.spelling last, m.spelling word] with
  | some e => rfl
  | none =>
    dsimp only [Option.map_none]
    rw [holds.unigramListed inside, holds.backoffListed behind, Option.map_some]

theorem trigramListed (holds : m.Holds entries) (first : before < m.words.size) (behind : last < m.words.size)
    (inside : word < m.words.size) :
    backedOff? entries (m.spelling word) [m.spelling before, m.spelling last] = some (m.trigram before last word) := by
  unfold backedOff? trigram
  rw [holds.behindTwo first behind inside, holds.behindOne first behind, List.cons_append, List.cons_append,
    List.nil_append]
  cases latest? entries [m.spelling before, m.spelling last, m.spelling word] with
  | some e => rfl
  | none =>
    dsimp only [Option.map_none]
    rw [holds.bigramListed behind inside, Option.map_some, weightOf]
    cases latest? entries [m.spelling before, m.spelling last] <;> rfl

theorem scoreListed (holds : m.Holds entries) {h : History} (inside : word < m.words.size)
    (within : h.Within m.words.size) :
    backedOff? entries (m.spelling word) ((m.context h).map m.spelling) = some (m.score word h) := by
  obtain ⟨last, before⟩ := h
  obtain ⟨lasts, befores⟩ := within
  unfold context History.words score
  cases last with
  | none => simpa using holds.unigramListed inside
  | some last =>
    have behind := lasts last rfl
    by_cases two : 2 ≤ m.order
    · cases before with
      | none =>
        obtain ⟨rest, order⟩ : ∃ rest, m.order - 1 = rest + 1 := ⟨m.order - 2, by omega⟩
        simpa [order, two] using holds.bigramListed behind inside
      | some before =>
        by_cases three : 3 ≤ m.order
        · obtain ⟨rest, order⟩ : ∃ rest, m.order - 1 = rest + 2 := ⟨m.order - 3, by omega⟩
          simpa [order, three] using holds.trigramListed (befores before rfl) behind inside
        · have order : m.order - 1 = 1 := by omega
          simpa [order, two, three] using holds.bigramListed behind inside
    · have order : m.order - 1 = 0 := by omega
      have short : ¬ 3 ≤ m.order := by omega
      cases before <;> simpa [order, two, short] using holds.unigramListed inside

end Holds

/-- Nothing is read that is not there, and the score is the one that the entries of the text give, with their numbers
made natural logarithms. -/
theorem backsOff [Elementary] {text : String} {m : Ngram Float32} (read : ofText decimalLog text = .ok m) :
    ∃ entries, entries? Text.float32? text = some entries ∧
      m.words.toList = (entries.filter fun e => e.words.length = 1).flatMap Entry.words ∧
      ∀ (word : Nat) (h : History), word < m.words.size → h.Within m.words.size →
        m.checkedScore word h = .ok (m.score word h) ∧
        backedOff? (entries.map (Entry.map (· * ln10))) (m.spelling word) ((m.context h).map m.spelling) =
          some (m.score word h) := by
  obtain ⟨scaled, made⟩ := ofTextMade read
  have listed : (entries? Text.float32? text).map (List.map (Entry.map (· * ln10))) = some scaled :=
    (entriesMapped _ _ _).symm.trans made.listed
  obtain ⟨entries, found, rfl⟩ := Option.map_eq_some_iff.mp listed
  refine ⟨entries, found, made.holds.words.trans (wordsMapped _ _), fun word h inside within => ?_⟩
  have paired := made.holds.paired
  exact ⟨checkedScoreOk (paired ▸ within) (paired ▸ inside), made.holds.scoreListed inside within⟩

theorem backsOffTwice :
    let _ := Elementary.system
    ∃ m entries, ofText decimalLog twiceText = .ok m ∧ m.words = #["a", "b"] ∧ m.order = 3 ∧
      entries? Text.float32? twiceText = some entries ∧
      m.checkedScore 1 ⟨some 1, some 0⟩ = .ok (m.score 1 ⟨some 1, some 0⟩) ∧
      backedOff? (entries.map (Entry.map (· * ln10))) "b" ["a", "b"] = some (m.score 1 ⟨some 1, some 0⟩) := by
  intro _
  have known : ((ofText decimalLog twiceText).map fun m => (m.words, m.order)).toOption = some (#["a", "b"], 3) := by
    decide +kernel
  obtain ⟨m, read, same⟩ := Outcome.mapOk known
  obtain ⟨words, order⟩ := Prod.mk.inj same
  obtain ⟨entries, listed, _, scores⟩ := backsOff read
  have reached : (m.context ⟨some 1, some 0⟩).map m.spelling = ["a", "b"] := by
    simp [context, History.words, spelling, order, words]
  obtain ⟨inside, backed⟩ := scores 1 ⟨some 1, some 0⟩ (by simp [words]) ⟨by simp [words], by simp [words]⟩
  rw [reached, show m.spelling 1 = "b" by simp [spelling, words]] at backed
  exact ⟨m, entries, read, words, order, listed, inside, backed⟩

end Ngram

end SpeechDecoder.Model
