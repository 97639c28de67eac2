import Mathlib.Data.List.Forall2
import Mathlib.Data.List.Induction
import SpeechDecoder.Model.Ngram
import SpeechDecoder.Proofs.Outcome

/-! What the text of a language model lists: counts behind the mark of the data, and then, in sections of one order,
entries with a number, their words, and a weight that may be left out. A model that was read from a text holds its
entries, and of several entries of the same words the last. -/
namespace SpeechDecoder.Model.Ngram

open Outcome (bindOk checkOk)

/-- An entry, with its numbers as a reader of numbers finds them. -/
structure Entry (β : Type) where
  words : List String
  score : β
  weight : Option β
  deriving DecidableEq, Repr

/-! ### Texts -/

def contentLines (text : String) : List (List Char) :=
  ((Text.lines text.toList).map Text.trim).filter (!·.isEmpty)

/-- The lines behind the mark of the data. -/
def dataOf (text : String) : List (List Char) := ((contentLines text).dropWhile (· ≠ dataMark)).drop 1

def isCount (line : List Char) : Bool := (Text.after? "ngram ".toList line).isSome

def countOfLine? (line : List Char) : Option (Nat × Nat) := (Text.after? "ngram ".toList line).bind countOf?

/-- The orders that a text declares, each with a number of entries. -/
def declared (text : String) : List (Nat × Nat) := ((dataOf text).takeWhile isCount).filterMap countOfLine?

/-- The lines of sections, each with the order of its section. A line that begins with a backslash is the heading of
the next section, or the mark behind the last one. -/
def inSections (order : Option Nat) : List (List Char) → List (Nat × List Char)
  | [] => []
  | line :: rest =>
    if line.head? = some '\\' then
      if line = endMark then [] else inSections (sectionOrder? line) rest
    else (order.map (·, line)).toList ++ inSections order rest

def listed (text : String) : List (Nat × List Char) := inSections none ((dataOf text).dropWhile isCount)

section
variable {β γ : Type}

/-- The entry of a line in a section of order `n`: a number, `n` words, and perhaps one more number. -/
def Entry.read? (number : List Char → Option β) (n : Nat) (line : List Char) : Option (Entry β) :=
  match Text.fields line with
  | [] => none
  | score :: rest =>
    let words := (rest.take n).map String.ofList
    if words.length ≠ n then none
    else
      match rest.drop n with
      | [] => (number score).map fun score => ⟨words, score, none⟩
      | [weight] => do some ⟨words, ← number score, some (← number weight)⟩
      | _ => none

def readAll? (number : List Char → Option β) (lines : List (Nat × List Char)) : Option (List (Entry β)) :=
  lines.mapM fun (n, line) => Entry.read? number n line

def entries? (number : List Char → Option β) (text : String) : Option (List (Entry β)) :=
  readAll? number (listed text)

def Entry.map (f : β → γ) (e : Entry β) : Entry γ := ⟨e.words, f e.score, e.weight.map f⟩

def latest? (entries : List (Entry β)) (words : List String) : Option (Entry β) :=
  entries.reverse.find? (·.words == words)

theorem latestSnoc (entries : List (Entry β)) (e : Entry β) (words : List String) :
    latest? (entries ++ [e]) words = if e.words = words then some e else latest? entries words := by
  simp only [latest?, List.reverse_append, List.reverse_singleton, List.singleton_append, List.find?_cons]
  by_cases same : e.words = words
  · simp [same]
  · rw [if_neg same, beq_eq_false_iff_ne.mpr same]

/-! ### Tables -/

variable {κ : Type} {key : List String → Option κ} {value : Entry β → γ} {entries : List (Entry β)}

/-- The entries that have a key, latest first. -/
def tableOf (key : List String → Option κ) (value : Entry β → γ) (entries : List (Entry β)) : List (κ × γ) :=
  entries.reverse.filterMap fun e => (key e.words).map (·, value e)

theorem tableMore {e : Entry β} {k : κ} (known : key e.words = some k) :
    tableOf key value (entries ++ [e]) = (k, value e) :: tableOf key value entries := by
  simp [tableOf, known]

theorem tableSame {e : Entry β} (other : key e.words = none) :
    tableOf key value (entries ++ [e]) = tableOf key value entries := by
  simp [tableOf, other]

theorem tableAlike {key' : List String → Option κ} (same : ∀ e ∈ entries, key e.words = key' e.words) :
    tableOf key value entries = tableOf key' value entries :=
  List.filterMap_congr fun e mem => by rw [same e (List.mem_reverse.mp mem)]

theorem tableLookup [BEq κ] [LawfulBEq κ] (apart : ∀ {x y k}, key x = some k → key y = some k → x = y)
    {words : List String} {k : κ} (known : key words = some k) :
    (tableOf key value entries).lookup k = (latest? entries words).map value := by
  induction entries using List.reverseRecOn with
  | nil => rfl
  | append_singleton entries e ih =>
    rw [latestSnoc]
    cases here : key e.words with
    | none =>
      have other : e.words ≠ words := by
        rintro rfl
        cases here.symm.trans known
      rw [tableSame here, ih, if_neg other]
    | some k' =>
      rw [tableMore here, List.lookup_cons]
      by_cases same : k = k'
      · subst same
        rw [beq_self_eq_true, if_pos (apart here known)]
        rfl
      · have other : e.words ≠ words := by
          rintro rfl
          exact same (Option.some.inj (known.symm.trans here))
        rw [beq_eq_false_iff_ne.mpr same, if_neg other]
        exact ih

end

/-! ### What a model holds -/

section
variable {α : Type}

def pair? (m : Ngram α) : List String → Option (Nat × Nat)
  | [a, b] => do some (← m.id? a, ← m.id? b)
  | _ => none

def triple? (m : Ngram α) : List String → Option (Nat × Nat × Nat)
  | [a, b, c] => do some (← m.id? a, ← m.id? b, ← m.id? c)
  | _ => none

theorem idApart {m : Ngram α} {v w : String} {id : Nat} (first : m.id? v = some id) (last : m.id? w = some id) :
    v = w := by
  obtain ⟨_, same, _⟩ := Array.findIdx?_eq_some_iff_getElem.mp first
  obtain ⟨_, same', _⟩ := Array.findIdx?_eq_some_iff_getElem.mp last
  exact (beq_iff_eq.mp same).symm.trans (beq_iff_eq.mp same')

theorem pairIs {m : Ngram α} {words : List String} {k : Nat × Nat} :
    m.pair? words = some k ↔ ∃ a b, words = [a, b] ∧ m.id? a = some k.1 ∧ m.id? b = some k.2 := by
  obtain ⟨i, j⟩ := k
  unfold pair?
  split
  · simp [Option.bind_eq_some_iff]
  · rename_i other
    simp only [reduceCtorEq, false_iff, not_exists, not_and]
    intro a b two
    exact absurd two (other a b)

theorem tripleIs {m : Ngram α} {words : List String} {k : Nat × Nat × Nat} :
    m.triple? words = some k ↔
      ∃ a b c, words = [a, b, c] ∧ m.id? a = some k.1 ∧ m.id? b = some k.2.1 ∧ m.id? c = some k.2.2 := by
  obtain ⟨i, j, l⟩ := k
  unfold triple?
  split
  · simp [Option.bind_eq_some_iff]
  · rename_i other
    simp only [reduceCtorEq, false_iff, not_exists, not_and]
    intro a b c three
    exact absurd three (other a b c)

theorem pairApart {m : Ngram α} {x y : List String} {k : Nat × Nat} (first : m.pair? x = some k)
    (last : m.pair? y = some k) : x = y := by
  obtain ⟨a, b, rfl, i, j⟩ := pairIs.mp first
  obtain ⟨c, d, rfl, i', j'⟩ := pairIs.mp last
  rw [idApart i i', idApart j j']

theorem tripleApart {m : Ngram α} {x y : List String} {k : Nat × Nat × Nat} (first : m.triple? x = some k)
    (last : m.triple? y = some k) : x = y := by
  obtain ⟨a, b, c, rfl, i, j, l⟩ := tripleIs.mp first
  obtain ⟨d, e, f, rfl, i', j', l'⟩ := tripleIs.mp last
  rw [idApart i i', idApart j j', idApart l l']

variable [Score α]

def Entry.values (e : Entry α) : α × α := (e.score, e.weight.getD Score.zero)

/-- The words that are listed alone have an unigram each. The tables of longer entries hold the latest first. -/
structure Holds (m : Ngram α) (entries : List (Entry α)) : Prop where
  words : m.words.toList = (entries.filter fun e => e.words.length = 1).flatMap Entry.words
  paired : m.words.size = m.unigrams.size
  numbers : ∀ (id : Nat) (w : String), m.words[id]? = some w → m.id? w = some id
  known : ∀ e ∈ entries, ∀ w ∈ e.words, (m.id? w).isSome
  unigrams : ∀ (w : String) (id : Nat), m.id? w = some id →
    m.unigrams[id]? = (latest? entries [w]).map Entry.values
  bigrams : m.bigrams = tableOf m.pair? Entry.values entries
  trigrams : m.trigrams = tableOf m.triple? Entry.score entries

/-- What an entry adds to a model that knows its words, or knows its only word not yet. -/
inductive Added (m : Ngram α) (e : Entry α) : Ngram α → Prop where
  | unigram {w : String} (alone : e.words = [w]) (new : m.id? w = none) :
    Added m e { m with words := m.words.push w, unigrams := m.unigrams.push e.values }
  | bigram {a b : String} {i j : Nat} (two : e.words = [a, b]) (first : m.id? a = some i) (last : m.id? b = some j) :
    Added m e { m with bigrams := ((i, j), e.values) :: m.bigrams }
  | trigram {a b c : String} {i j l : Nat} (three : e.words = [a, b, c]) (first : m.id? a = some i)
    (second : m.id? b = some j) (last : m.id? c = some l) :
    Added m e { m with trigrams := ((i, j, l), e.score) :: m.trigrams }

omit [Score α] in
theorem idPushed (m : Ngram α) (w x : String) (entry : α × α) :
    ({ m with words := m.words.push w, unigrams := m.unigrams.push entry } : Ngram α).id? x =
      (m.id? x).or (if w = x then some m.words.size else none) := by
  simp only [id?, Array.findIdx?_push, beq_iff_eq]

theorem startHolds (order : Nat) : ({ order } : Ngram α).Holds [] where
  words := rfl
  paired := rfl
  numbers _ _ none := by simp at none
  known _ none := absurd none List.not_mem_nil
  unigrams w id none := by simp [id?] at none
  bigrams := rfl
  trigrams := rfl

/-- A new unigram leaves the numbers of the other words alone, and so the tables of longer entries. -/
theorem Holds.unigram {m : Ngram α} {entries : List (Entry α)} (holds : m.Holds entries) {e : Entry α} {w : String}
    (alone : e.words = [w]) (new : m.id? w = none) :
    ({ m with words := m.words.push w, unigrams := m.unigrams.push e.values } : Ngram α).Holds (entries ++ [e]) := by
  let m' : Ngram α := { m with words := m.words.push w, unigrams := m.unigrams.push e.values }
  have stays {f : Entry α} (mem : f ∈ entries) {x : String} (inside : x ∈ f.words) : m'.id? x = m.id? x := by
    obtain ⟨id, known⟩ := Option.isSome_iff_exists.mp (holds.known f mem x inside)
    rw [idPushed, known, Option.some_or]
  have pairs : ∀ f ∈ entries, m.pair? f.words = m'.pair? f.words := by
    intro f mem
    unfold pair?
    split
    · rename_i a b two
      rw [stays mem (x := a) (by simp [two]), stays mem (x := b) (by simp [two])]
    · rfl
  have triples : ∀ f ∈ entries, m.triple? f.words = m'.triple? f.words := by
    intro f mem
    unfold triple?
    split
    · rename_i a b c three
      rw [stays mem (x := a) (by simp [three]), stays mem (x := b) (by simp [three]),
        stays mem (x := c) (by simp [three])]
    · rfl
  have noPair : m'.pair? e.words = none := by rw [alone]; rfl
  have noTriple : m'.triple? e.words = none := by rw [alone]; rfl
  refine ⟨by simp [holds.words, alone], by simp [holds.paired], fun id x here => ?_, fun f mem x inside => ?_,
    fun x id known => ?_,
    (holds.bigrams.trans (tableAlike pairs)).trans (tableSame noPair).symm,
    (holds.trigrams.trans (tableAlike triples)).trans (tableSame noTriple).symm⟩
  · rw [idPushed]
    rcases Nat.lt_trichotomy id m.words.size with old | rfl | beyond
    · rw [Array.getElem?_push_lt old, ← Array.getElem?_eq_getElem old] at here
      rw [holds.numbers id x here, Option.some_or]
    · rw [Array.getElem?_push_size] at here
      cases here
      rw [new, Option.none_or, if_pos rfl]
    · rw [Array.getElem?_eq_none (by rw [Array.size_push]; omega)] at here
      cases here
  · rcases List.mem_append.mp mem with old | last
    · exact (congrArg Option.isSome (stays old inside)).trans (holds.known f old x inside)
    · rw [List.mem_singleton.mp last, alone, List.mem_singleton] at inside
      rw [inside, idPushed, if_pos rfl]
      simp
  · rw [idPushed] at known
    rw [latestSnoc, alone]
    cases before : m.id? x with
    | some id' =>
      have other : w ≠ x := by
        rintro rfl
        cases new.symm.trans before
      rw [before, Option.some_or] at known
      cases known
      have inside : id < m.unigrams.size := holds.paired ▸ (Array.findIdx?_eq_some_iff_getElem.mp before).1
      rw [if_neg (by simpa using other), ← holds.unigrams x id before]
      exact (Array.getElem?_push_lt inside).trans (Array.getElem?_eq_getElem inside).symm
    | none =>
      rw [before, Option.none_or] at known
      obtain ⟨rfl, same⟩ := Option.ite_none_right_eq_some.mp known
      cases same
      rw [if_pos rfl, holds.paired, Array.getElem?_push_size]
      rfl

theorem Holds.added {m m' : Ngram α} {entries : List (Entry α)} (holds : m.Holds entries) {e : Entry α}
    (added : Added m e m') : m'.Holds (entries ++ [e]) := by
  have more {x : Ngram α} (same : ∀ w, x.id? w = m.id? w) (said : ∀ w ∈ e.words, (m.id? w).isSome) :
      ∀ f ∈ entries ++ [e], ∀ w ∈ f.words, (x.id? w).isSome := by
    intro f mem w inside
    rw [same]
    rcases List.mem_append.mp mem with old | new
    · exact holds.known f old w inside
    · exact said w (List.mem_singleton.mp new ▸ inside)
  cases added with
  | unigram alone new => exact holds.unigram alone new
  | @bigram a b i j two first last =>
    have known : m.pair? e.words = some (i, j) := pairIs.mpr ⟨a, b, two, first, last⟩
    have other : m.triple? e.words = none := by rw [two]; rfl
    refine ⟨by simp [holds.words, two], holds.paired, holds.numbers, more (fun _ => rfl) fun w inside => ?_,
      fun w id found => ?_, (congrArg (_ :: ·) holds.bigrams).trans (tableMore known).symm,
      holds.trigrams.trans (tableSame other).symm⟩
    · rw [two] at inside
      rcases List.mem_pair.mp inside with rfl | rfl
      · exact Option.isSome_of_eq_some first
      · exact Option.isSome_of_eq_some last
    · rw [latestSnoc, if_neg (by simp [two])]
      exact holds.unigrams w id found
  | @trigram a b c i j l three first second last =>
    have known : m.triple? e.words = some (i, j, l) := tripleIs.mpr ⟨a, b, c, three, first, second, last⟩
    have other : m.pair? e.words = none := by rw [three]; rfl
    refine ⟨by simp [holds.words, three], holds.paired, holds.numbers, more (fun _ => rfl) fun w inside => ?_,
      fun w id found => ?_, holds.bigrams.trans (tableSame other).symm,
      (congrArg (_ :: ·) holds.trigrams).trans (tableMore known).symm⟩
    · rw [three] at inside
      simp only [List.mem_cons, List.not_mem_nil, or_false] at inside
      rcases inside with rfl | rfl | rfl
      · exact Option.isSome_of_eq_some first
      · exact Option.isSome_of_eq_some second
      · exact Option.isSome_of_eq_some last
    · rw [latestSnoc, if_neg (by simp [three])]
      exact holds.unigrams w id found

/-! ### Reading -/

omit [Score α] in
theorem readNumberOk {number : List Char → Option α} {line field : List Char} {x : α}
    (read : readNumber number line field = .ok x) : number field = some x := by
  unfold readNumber at read
  split at read
  · cases read
    assumption
  · cases read

omit [Score α] in
theorem lookupWordsOk {m : Ngram α} {line : List Char} {words : List String} {ids : List Nat}
    (found : m.lookupWords line words = .ok ids) : List.Forall₂ (m.id? · = some ·) words ids := by
  induction words generalizing ids with
  | nil =>
    cases found
    exact .nil
  | cons w rest ih =>
    unfold lookupWords at found
    split at found
    · cases found
    · rename_i id known
      obtain ⟨others, later, found⟩ := bindOk found
      cases found
      exact .cons known (ih later)

theorem Entry.readMade {number : List Char → Option α} {n : Nat} {line : List Char} {score weight : α}
    (wide : ¬ ((Text.fields line).length < n + 1 ∨ n + 2 < (Text.fields line).length))
    (scored : number ((Text.fields line).headD []) = some score)
    (weighed : match (Text.fields line)[n + 1]? with
      | some field => number field = some weight
      | none => weight = Score.zero) :
    ∃ e, Entry.read? number n line = some e ∧ e.words = (((Text.fields line).drop 1).take n).map String.ofList ∧
      e.words.length = n ∧ e.values = (score, weight) := by
  unfold Entry.read?
  cases fields : Text.fields line with
  | nil => simp [fields] at wide
  | cons first rest =>
    simp only [fields, List.length_cons, List.headD_cons, List.getElem?_cons_succ] at wide scored weighed
    have size : ((rest.take n).map String.ofList).length = n := by
      rw [List.length_map, List.length_take]
      omega
    simp only [size, ne_eq, not_true, if_false, List.drop_succ_cons, List.drop_zero]
    by_cases more : n < rest.length
    · have only : rest.drop n = [rest[n]] := by
        rw [List.drop_eq_getElem_cons more, List.drop_eq_nil_iff.mpr (by omega)]
      rw [List.getElem?_eq_getElem more] at weighed
      refine ⟨⟨(rest.take n).map String.ofList, score, some weight⟩, ?_, rfl, size, rfl⟩
      simp only [only, scored, weighed, Option.bind_eq_bind, Option.bind_some]
    · rw [List.getElem?_eq_none (by omega)] at weighed
      refine ⟨⟨(rest.take n).map String.ofList, score, none⟩, ?_, rfl, size, by rw [values, weighed]; rfl⟩
      simp only [List.drop_eq_nil_iff.mpr (show rest.length ≤ n by omega), scored, Option.map_some]

theorem addEntryMade {number : List Char → Option α} {m m' : Ngram α} {n : Nat} {line : List Char}
    (added : addEntry number m n line = .ok m') :
    ∃ e, Entry.read? number n line = some e ∧ e.words.length = n ∧ Added m e m' := by
  unfold addEntry at added
  obtain ⟨wide, added⟩ := checkOk added
  obtain ⟨score, scored, added⟩ := bindOk added
  extract_lets words enter at added
  obtain ⟨weight, weighed, added⟩ : ∃ weight : α, (match (Text.fields line)[n + 1]? with
      | some field => number field = some weight
      | none => weight = Score.zero) ∧ enter weight = .ok m' := by
    cases found : (Text.fields line)[n + 1]? with
    | some field =>
      rw [found] at added
      obtain ⟨weight, read, added⟩ := bindOk added
      exact ⟨weight, readNumberOk read, added⟩
    | none =>
      rw [found] at added
      exact ⟨_, rfl, added⟩
  obtain ⟨e, read, same, size, values⟩ := Entry.readMade wide (readNumberOk scored) weighed
  refine ⟨e, read, size, ?_⟩
  unfold enter at added
  change e.words = words at same
  rw [← same] at added
  split at added
  · rename_i w alone
    split at added
    · cases added
    · rename_i new
      cases added
      rw [← values]
      exact .unigram alone (by simpa using new)
  · obtain ⟨ids, found, added⟩ := bindOk added
    have known := lookupWordsOk found
    generalize said : e.words = names at known
    split at added
    · cases added
      obtain _ | ⟨first, _ | ⟨last, _ | _⟩⟩ := known
      rw [← values]
      exact .bigram said first last
    · cases added
      obtain _ | ⟨first, _ | ⟨second, _ | ⟨last, _ | _⟩⟩⟩ := known
      rw [show score = e.score from (congrArg Prod.fst values).symm]
      exact .trigram said first second last
    · cases added

theorem Added.order {m m' : Ngram α} {e : Entry α} (added : Added m e m') : m'.order = m.order := by
  cases added <;> rfl

omit [Score α] in
theorem headingBegins {line : List Char} {n : Nat} (heading : sectionOrder? line = some n) :
    line.head? = some '\\' := by
  unfold sectionOrder? at heading
  obtain ⟨rest, marked, _⟩ := Option.bind_eq_some_iff.mp heading
  cases line with
  | nil => cases marked
  | cons c _ =>
    obtain ⟨same, _⟩ := Option.ite_none_right_eq_some.mp marked
    rw [same]
    rfl

/-- Sections that were read: every line of theirs is an entry of their order, and the model holds it. -/
theorem readSectionsMade {number : List Char → Option α} {m m' : Ngram α} {entries : List (Entry α)}
    (holds : m.Holds entries) {current : Option Nat} (within : ∀ n, current = some n → 1 ≤ n ∧ n ≤ m.order)
    {lines : List (List Char)} (read : readSections number m current lines = .ok m') :
    ∃ more, readAll? number (inSections current lines) = some more ∧ m'.Holds (entries ++ more) ∧
      m'.order = m.order ∧ ∀ e ∈ more, 1 ≤ e.words.length ∧ e.words.length ≤ m.order := by
  induction lines generalizing m current entries with
  | nil =>
    cases read
    exact ⟨[], rfl, by rwa [List.append_nil], rfl, by simp⟩
  | cons line rest ih =>
    unfold readSections at read
    unfold inSections
    split at read
    · rename_i n plain
      split at read
      · rename_i next added
        obtain ⟨e, entry, size, added⟩ := addEntryMade added
        have same := added.order
        obtain ⟨more, others, last, order, lengths⟩ := ih (holds.added added) (by rwa [same]) read
        refine ⟨e :: more, ?_, by simpa using last, order.trans same, fun f mem => ?_⟩
        · rw [if_neg (by simpa using plain)]
          simp only [readAll?] at others
          simp [readAll?, List.mapM_cons, entry, others]
        · rcases List.mem_cons.mp mem with rfl | later
          · rw [size]
            exact within n rfl
          · exact same ▸ lengths f later
      · cases read
    · split at read
      · rename_i ends
        cases read
        rw [if_pos (by rw [ends]; rfl), if_pos ends]
        exact ⟨[], rfl, by rwa [List.append_nil], rfl, by simp⟩
      · rename_i going
        split at read
        · cases read
        · rename_i n heading
          split at read
          · cases read
          · rename_i inside
            rw [if_pos (headingBegins heading), if_neg going, heading]
            refine ih holds (fun k same => ?_) read
            cases same
            omega

theorem dataLinesIs {lines rest : List (List Char)} (found : dataLines? lines = some rest) :
    rest = (lines.dropWhile (· ≠ dataMark)).drop 1 := by
  induction lines with
  | nil => cases found
  | cons line more ih =>
    unfold dataLines? at found
    split at found
    · rename_i mark
      cases found
      simp [mark]
    · rename_i other
      simpa [List.dropWhile_cons, other] using ih found

theorem readCountsMade {counts all : List Nat} {lines rest : List (List Char)}
    (read : readCounts counts lines = .ok (all, rest)) :
    let said := (lines.takeWhile isCount).filterMap countOfLine?
    rest = lines.dropWhile isCount ∧ all = counts ++ said.map Prod.snd ∧
      said.map Prod.fst = List.range' (counts.length + 1) said.length := by
  induction lines generalizing counts with
  | nil =>
    cases read
    exact ⟨rfl, by simp, rfl⟩
  | cons line more ih =>
    unfold readCounts at read
    split at read
    · rename_i none
      have other : isCount line = false := by rw [isCount, none]; rfl
      cases read
      simp [other]
    · rename_i spec marked
      split at read
      · cases read
      · rename_i order count said
        split at read
        · rename_i next
          have line' : isCount line = true := by rw [isCount, marked]; rfl
          have here : countOfLine? line = some (order, count) := by
            unfold countOfLine?
            rw [marked, Option.bind_some, said]
          obtain ⟨rfl, rfl, orders⟩ := ih read
          rw [List.length_append, List.length_singleton] at orders
          simp [line', here, orders, next, List.range'_succ]
        · cases read

omit [Score α] in
theorem checkCountsOk {m : Ngram α} {order : Nat} {said : List (Nat × Nat)}
    (orders : said.map Prod.fst = List.range' order said.length)
    (checked : m.checkCounts order (said.map Prod.snd) = .ok ()) : ∀ x ∈ said, m.sizeOf x.1 = x.2 := by
  induction said generalizing order with
  | nil => simp
  | cons x rest ih =>
    rw [List.map_cons, List.length_cons, List.range'_succ, List.cons.injEq] at orders
    rw [List.map_cons] at checked
    unfold checkCounts at checked
    split at checked
    · rename_i same
      intro y mem
      rcases List.mem_cons.mp mem with rfl | later
      · rw [orders.1]
        exact same
      · exact ih orders.2 checked y later
    · cases checked

/-- A model and the entries of the text that it was read from. -/
structure Made (number : List Char → Option α) (text : String) (m : Ngram α) (entries : List (Entry α)) :
    Prop where
  listed : entries? number text = some entries
  holds : m.Holds entries
  orders : (declared text).map Prod.fst = List.range' 1 m.order
  few : 1 ≤ m.order ∧ m.order ≤ 3
  lengths : ∀ e ∈ entries, 1 ≤ e.words.length ∧ e.words.length ≤ m.order
  sizes : ∀ x ∈ declared text, m.sizeOf x.1 = x.2

theorem ofTextMade {number : List Char → Option α} {text : String} {m : Ngram α}
    (read : ofText number text = .ok m) : ∃ entries, Made number text m entries := by
  unfold ofText at read
  dsimp only at read
  split at read
  · rename_i lines found
    obtain ⟨⟨counts, rest⟩, counted, read⟩ := bindOk read
    obtain ⟨some, read⟩ := checkOk read
    obtain ⟨few, read⟩ := checkOk read
    obtain ⟨m', sections, read⟩ := bindOk read
    obtain ⟨_, checked, read⟩ := bindOk read
    cases read
    obtain rfl : lines = dataOf text := dataLinesIs found
    obtain ⟨rfl, rfl, orders⟩ := readCountsMade counted
    rw [List.nil_append] at some few checked sections
    obtain ⟨entries, all, holds, order, lengths⟩ :=
      readSectionsMade (startHolds _) (fun n none => by cases none) sections
    have counted : m.order = (declared text).length := order.trans (List.length_map _)
    refine ⟨entries, all, holds, counted ▸ orders, ⟨?_, ?_⟩, fun e mem => order ▸ lengths e mem,
      checkCountsOk orders checked⟩
    · rw [order]
      exact List.length_pos_iff.mpr (mt List.isEmpty_iff.mpr some)
    · rw [order]
      exact Nat.le_of_not_lt few
  · cases read

end

/-- A pair of words is listed twice. -/
def twiceText : String :=
  "\\data\\\nngram 1=2\nngram 2=1\nngram 3=1\n\\1-grams:\n-1 a -0.5\n-2 b\n" ++
  "\\2-grams:\n-0.3 a b -0.2\n-0.4 a b -0.1\n\\3-grams:\n-0.1 a b a\n\\end\\\n"

end SpeechDecoder.Model.Ngram
