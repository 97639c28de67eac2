import Mathlib.Data.Finset.Card
import Mathlib.Data.List.NodupEquivFin
import SpeechDecoder.Proofs.Language.Listing

/-! Counts that a text declares against the entries that it lists. A model counts what it holds, so that of longer
entries a repeated one counts once, and the later numbers stand for it; words alone are not repeated. -/
namespace SpeechDecoder.Model.Ngram

section
variable {β γ κ : Type}

/-- What the entries of so many words list, in the order of the text. -/
def listings (n : Nat) (entries : List (Entry β)) : List (List String) :=
  (entries.filter fun e => e.words.length = n).map Entry.words

theorem erasedNodup [BEq κ] [LawfulBEq κ] (keys : List κ) : keys.eraseDups.Nodup :=
  match keys with
  | [] => by simp
  | k :: rest => by
    rw [List.eraseDups_cons]
    refine List.nodup_cons.mpr ⟨fun again => ?_, erasedNodup _⟩
    simpa using List.mem_eraseDups.mp again
termination_by keys.length
decreasing_by exact Nat.lt_succ_of_le (List.length_filter_le _ _)

theorem distinctIs [BEq κ] [LawfulBEq κ] [DecidableEq κ] (table : List (κ × γ)) :
    distinct table = (table.map Prod.fst).toFinset.card := by
  rw [distinct, ← List.toFinset_card_of_nodup (erasedNodup _)]
  congr 1
  ext k
  simp only [List.mem_toFinset, List.mem_eraseDups]

theorem tableCount [BEq κ] [LawfulBEq κ] [DecidableEq κ] {key : List String → Option κ} {value : Entry β → γ}
    {entries : List (Entry β)} {n : Nat} (apart : ∀ {x y k}, key x = some k → key y = some k → x = y)
    (keyed : ∀ e ∈ entries, (key e.words).isSome ↔ e.words.length = n) :
    distinct (tableOf key value entries) = (listings n entries).toFinset.card := by
  have known : ∀ words ∈ listings n entries, ∃ k, key words = some k := by
    intro words mem
    obtain ⟨e, kept, rfl⟩ := List.mem_map.mp mem
    obtain ⟨inside, size⟩ := List.mem_filter.mp kept
    exact Option.isSome_iff_exists.mp ((keyed e inside).mpr (by simpa using size))
  have keys : ((tableOf key value entries).map Prod.fst).toFinset.image some =
      (listings n entries).toFinset.image key := by
    ext k
    simp only [Finset.mem_image, List.mem_toFinset, List.mem_map, tableOf, List.mem_filterMap, List.mem_reverse,
      listings, List.mem_filter, decide_eq_true_eq, Option.map_eq_some_iff]
    constructor
    · rintro ⟨_, ⟨_, ⟨e, inside, k, found, rfl⟩, rfl⟩, rfl⟩
      exact ⟨e.words, ⟨e, ⟨inside, (keyed e inside).mp (Option.isSome_of_eq_some found)⟩, rfl⟩, found⟩
    · rintro ⟨_, ⟨e, ⟨inside, size⟩, rfl⟩, rfl⟩
      obtain ⟨k, found⟩ := Option.isSome_iff_exists.mp ((keyed e inside).mpr size)
      exact ⟨k, ⟨(k, value e), ⟨e, inside, k, found, rfl⟩, rfl⟩, found.symm⟩
  rw [distinctIs, ← Finset.card_image_of_injective _ (Option.some_injective κ), keys, Finset.card_image_of_injOn]
  intro x here y there same
  obtain ⟨k, found⟩ := known x (by simpa using here)
  exact apart found (same ▸ found)

end

variable {α : Type} [Score α] {m : Ngram α} {entries : List (Entry α)}

theorem Holds.wordsNodup (holds : m.Holds entries) : m.words.toList.Nodup := by
  rw [List.nodup_iff_getElem?_ne_getElem?]
  intro i j less inside same
  have last : m.words[j]? = some m.words.toList[j] := by
    rw [← Array.getElem?_toList, List.getElem?_eq_getElem inside]
  have first : m.words[i]? = some m.words.toList[j] := by
    rw [← Array.getElem?_toList, same, List.getElem?_eq_getElem inside]
  have equal := (holds.numbers i _ first).symm.trans (holds.numbers j _ last)
  exact Nat.ne_of_lt less (Option.some.inj equal)

omit [Score α] in
theorem alonesOf {entries : List (Entry α)} (alone : ∀ e ∈ entries, e.words.length = 1) :
    entries.map Entry.words = (entries.flatMap Entry.words).map fun w => [w] := by
  induction entries with
  | nil => rfl
  | cons e rest ih =>
    obtain ⟨w, one⟩ := List.length_eq_one_iff.mp (alone e List.mem_cons_self)
    rw [List.map_cons, List.flatMap_cons, List.map_append, one, ih fun f mem => alone f (List.mem_cons_of_mem e mem)]
    rfl

theorem Holds.alones (holds : m.Holds entries) : listings 1 entries = m.words.toList.map fun w => [w] := by
  rw [holds.words]
  exact alonesOf fun e kept => by simpa using (List.mem_filter.mp kept).2

theorem Holds.alonesNodup (holds : m.Holds entries) : (listings 1 entries).Nodup := by
  rw [holds.alones]
  exact holds.wordsNodup.map fun _ _ same => List.singleton_injective same

theorem Holds.pairKeyed (holds : m.Holds entries) :
    ∀ e ∈ entries, (m.pair? e.words).isSome ↔ e.words.length = 2 := by
  intro e inside
  constructor
  · intro keyed
    obtain ⟨k, found⟩ := Option.isSome_iff_exists.mp keyed
    obtain ⟨a, b, two, _⟩ := pairIs.mp found
    rw [two]
    rfl
  · intro size
    obtain ⟨a, b, two⟩ := List.length_eq_two.mp size
    obtain ⟨i, first⟩ := Option.isSome_iff_exists.mp (holds.known e inside a (by simp [two]))
    obtain ⟨j, last⟩ := Option.isSome_iff_exists.mp (holds.known e inside b (by simp [two]))
    have found : m.pair? e.words = some (i, j) := pairIs.mpr ⟨a, b, two, first, last⟩
    exact Option.isSome_of_eq_some found

theorem Holds.tripleKeyed (holds : m.Holds entries) :
    ∀ e ∈ entries, (m.triple? e.words).isSome ↔ e.words.length = 3 := by
  intro e inside
  constructor
  · intro keyed
    obtain ⟨k, found⟩ := Option.isSome_iff_exists.mp keyed
    obtain ⟨a, b, c, three, _⟩ := tripleIs.mp found
    rw [three]
    rfl
  · intro size
    obtain ⟨a, b, c, three⟩ := List.length_eq_three.mp size
    obtain ⟨i, first⟩ := Option.isSome_iff_exists.mp (holds.known e inside a (by simp [three]))
    obtain ⟨j, second⟩ := Option.isSome_iff_exists.mp (holds.known e inside b (by simp [three]))
    obtain ⟨l, last⟩ := Option.isSome_iff_exists.mp (holds.known e inside c (by simp [three]))
    have found : m.triple? e.words = some (i, j, l) := tripleIs.mpr ⟨a, b, c, three, first, second, last⟩
    exact Option.isSome_of_eq_some found

theorem Holds.sizeCounts (holds : m.Holds entries) {n : Nat} (some : 1 ≤ n) (few : n ≤ 3) :
    m.sizeOf n = (listings n entries).toFinset.card := by
  obtain rfl | rfl | rfl : n = 1 ∨ n = 2 ∨ n = 3 := by omega
  · rw [List.toFinset_card_of_nodup holds.alonesNodup, holds.alones, List.length_map, Array.length_toList, holds.paired]
    rfl
  · change distinct m.bigrams = _
    rw [holds.bigrams]
    exact tableCount pairApart holds.pairKeyed
  · change distinct m.trigrams = _
    rw [holds.trigrams]
    exact tableCount tripleApart holds.tripleKeyed

theorem onceIff {words : List (List String)} : words.length = words.toFinset.card ↔ words.Nodup := by
  rw [List.card_toFinset]
  constructor
  · intro same
    exact List.dedup_eq_self.mp ((List.dedup_sublist words).eq_of_length same.symm)
  · intro once
    rw [List.dedup_eq_self.mpr once]

/-- A text that is read declares how many different entries of each order it lists. It lists as many lines as it
declares where none of them repeats another. -/
theorem countsDifferent {number : List Char → Option α} {text : String} (read : ofText number text = .ok m) :
    ∃ entries, entries? number text = some entries ∧ (listings 1 entries).Nodup ∧
      (declared text).map Prod.fst = List.range' 1 m.order ∧
      ∀ n count, (n, count) ∈ declared text →
        count = (listings n entries).toFinset.card ∧ count ≤ (listings n entries).length ∧
        ((listings n entries).length = count ↔ (listings n entries).Nodup) := by
  obtain ⟨entries, made⟩ := ofTextMade read
  refine ⟨entries, made.listed, made.holds.alonesNodup, made.orders, fun n count declares => ?_⟩
  have order : n ∈ List.range' 1 m.order := made.orders ▸ List.mem_map_of_mem declares
  obtain ⟨some, top⟩ := List.mem_range'_1.mp order
  have few : n ≤ 3 := by
    have most := made.few.2
    omega
  have counted : count = (listings n entries).toFinset.card :=
    (made.sizes _ declares).symm.trans (made.holds.sizeCounts some few)
  rw [counted]
  exact ⟨rfl, List.toFinset_card_le _, onceIff⟩

theorem countsOfTwice :
    let _ := Elementary.system
    ∃ m entries, ofText decimalLog twiceText = .ok m ∧ entries? decimalLog twiceText = some entries ∧
      (2, 1) ∈ declared twiceText ∧ listings 2 entries = [["a", "b"], ["a", "b"]] ∧
      1 = (listings 2 entries).toFinset.card ∧ ¬ (listings 2 entries).Nodup := by
  intro _
  have known : ((ofText decimalLog twiceText).map fun _ => ()).toOption = some () := by decide +kernel
  obtain ⟨m, read, _⟩ := Outcome.mapOk known
  obtain ⟨entries, lists, _, _, counts⟩ := countsDifferent read
  have declares : (2, 1) ∈ declared twiceText := by decide +kernel
  have pairs : (entries? decimalLog twiceText).map (listings 2) = some [["a", "b"], ["a", "b"]] := by decide +kernel
  rw [lists, Option.map_some, Option.some.injEq] at pairs
  obtain ⟨counted, _, once⟩ := counts 2 1 declares
  exact ⟨m, entries, read, lists, declares, pairs, counted, by rw [← once, pairs]; decide⟩

end SpeechDecoder.Model.Ngram
