import SpeechDecoder.Proofs.Bounds.Vocabulary
import SpeechDecoder.Proofs.Acceptance
import SpeechDecoder.Proofs.Language.Listing

/-! Parts that are sound because they were parsed: phones whose matrices and senones their header counts, language
models with a unigram for each of their words, and words whose phones were looked up. -/
namespace SpeechDecoder.Model

open Outcome (bindOk checkOk)

namespace PhoneSet

theorem readSenonesOk {line : String} {limit : Nat} {fields : List (List Char)} {ids : List Nat}
    (read : readSenones line limit fields = .ok ids) : ids.length = fields.length ∧ ∀ id ∈ ids, id < limit := by
  induction fields generalizing ids with
  | nil =>
    cases read
    exact ⟨rfl, fun id none => by cases none⟩
  | cons field rest ih =>
    unfold readSenones at read
    split at read
    · cases read
    · rename_i id _
      split at read
      · cases read
      · rename_i less
        obtain ⟨others, later, same⟩ := bindOk read
        cases same
        obtain ⟨size, below⟩ := ih later
        refine ⟨congrArg (· + 1) size, fun x mem => ?_⟩
        rcases List.mem_cons.mp mem with rfl | later
        · exact Nat.lt_of_not_le less
        · exact below x ‹_›

theorem readMatrixOk {line : String} {matrices id : Nat} {field : List Char}
    (read : readMatrix line matrices field = .ok id) : id < matrices := by
  unfold readMatrix at read
  split at read
  · cases read
  · split at read
    · cases read
    · cases read
      exact Nat.lt_of_not_le ‹_›

theorem wordOk {n m : Nat} (known : orFault (checkedWord n) = .ok m) : m = n := by
  unfold checkedWord at known
  split at known <;> cases known
  rfl

theorem readRowOk {states matrices limit : Nat} {line : List Char} {r : Row}
    (read : readRow states matrices limit line = .ok r) :
    r.matrix < matrices ∧ r.senones.length = states ∧ ∀ id ∈ r.senones, id < limit := by
  obtain ⟨width, counted, read⟩ := bindOk read
  obtain ⟨full, read⟩ := checkOk read
  have wide := wordOk counted
  have size : (Text.fields line).length = 6 + states + 1 := wide ▸ Decidable.not_not.mp full
  split at read
  · rename_i fields
    rw [fields] at size
    obtain ⟨filler, _, read⟩ := bindOk read
    obtain ⟨matrix, matrixRead, read⟩ := bindOk read
    obtain ⟨senones, senonesRead, read⟩ := bindOk read
    obtain ⟨_, read⟩ := checkOk read
    cases read
    obtain ⟨length, below⟩ := readSenonesOk senonesRead
    refine ⟨readMatrixOk matrixRead, ?_, below⟩
    simp only [List.length_cons] at size
    rw [length, List.length_take]
    omega
  · cases read

theorem statesOk {h : Header} {states : Nat} (counted : h.states = .ok states) :
    0 < states ∧ h.phoneSenones ≤ h.senones := by
  unfold Header.states at counted
  obtain ⟨consistent, counted⟩ := checkOk counted
  obtain ⟨rows, _, counted⟩ := bindOk counted
  obtain ⟨rest, _, counted⟩ := bindOk counted
  obtain ⟨mapped, _, counted⟩ := bindOk counted
  obtain ⟨whole, counted⟩ := checkOk counted
  cases counted
  simp only [not_or] at consistent whole
  omega

/-- What the rows of a file add to keeps the counts of its header. -/
structure Counted (h : Header) (s : PhoneSet) : Prop where
  senones : s.senones = h.senones
  matrices : s.matrices = h.matrices
  sound : s.Sound

theorem addPhoneCounted {h : Header} {s s' : PhoneSet} (counted : s.Counted h) {line : String} {r : Row}
    (matrix : r.matrix < h.matrices) (paired : r.senones.length = s.states) (below : ∀ id ∈ r.senones, id < h.senones)
    (added : s.addPhone line r = .ok s') : s'.Counted h := by
  unfold addPhone at added
  split at added
  · cases added
  · split at added
    · cases added
    · cases added
      refine ⟨counted.senones, counted.matrices, counted.sound.emits, fun p mem => ?_⟩
      rcases List.mem_append.mp mem with old | new
      · exact counted.sound.phones p old
      · rw [List.mem_singleton.mp new]
        exact ⟨counted.matrices ▸ matrix, paired, fun x inside => counted.senones ▸ below x inside⟩

theorem addTriphoneCounted {h : Header} {s s' : PhoneSet} (counted : s.Counted h) {line : String} {r : Row}
    (added : s.addTriphone line r = .ok s') : s'.Counted h := by
  obtain ⟨_, _, added⟩ := bindOk added
  obtain ⟨_, _, added⟩ := bindOk added
  obtain ⟨_, _, added⟩ := bindOk added
  obtain ⟨_, added⟩ := checkOk added
  obtain ⟨_, added⟩ := checkOk added
  cases added
  exact ⟨counted.senones, counted.matrices, counted.sound.emits, counted.sound.phones⟩

theorem readRowsCounted {h : Header} (few : h.phoneSenones ≤ h.senones) {s s' : PhoneSet} (counted : s.Counted h)
    {done left : Nat} {lines : List (List Char)} (read : readRows h s done left lines = .ok s') : s'.Counted h := by
  induction left generalizing s done lines with
  | zero =>
    cases read
    exact counted
  | succ left ih =>
    cases lines with
    | nil => cases read
    | cons line rest =>
      obtain ⟨r, row, read⟩ := bindOk read
      obtain ⟨matrix, paired, below⟩ := readRowOk row
      split at read
      · rename_i first
        obtain ⟨next, added, read⟩ := bindOk read
        rw [if_pos first] at below
        have less (id : Nat) (mem : id ∈ r.senones) := Nat.lt_of_lt_of_le (below id mem) few
        exact ih (addPhoneCounted counted matrix paired less added) read
      · obtain ⟨next, added, read⟩ := bindOk read
        exact ih (addTriphoneCounted counted added) read

theorem ofTextSound {text : String} {s : PhoneSet} (read : ofText text = .ok s) : s.Sound := by
  unfold ofText ofLines at read
  split at read
  · cases read
  · obtain ⟨_, read⟩ := checkOk read
    obtain ⟨⟨h, rest⟩, _, read⟩ := bindOk read
    obtain ⟨states, counted, read⟩ := bindOk read
    obtain ⟨_, _, read⟩ := bindOk read
    obtain ⟨emits, few⟩ := statesOk counted
    exact (readRowsCounted few ⟨rfl, rfl, emits, fun p none => by cases none⟩ read).sound

theorem loadSound {files : FileTree} {path : String} {s : PhoneSet} (loaded : load files path = .ok s) : s.Sound := by
  obtain ⟨_, _, loaded⟩ := bindOk loaded
  exact ofTextSound (Outcome.mapErrorOk loaded)

theorem idInside {s : PhoneSet} {name : String} {id : Nat} (found : s.id? name = some id) : id < s.phones.length :=
  (List.findIdx?_eq_some_iff_getElem.mp found).1

end PhoneSet

namespace Ngram
variable {α : Type}

/-- A unigram for each word. -/
def Paired (m : Ngram α) : Prop := m.words.size = m.unigrams.size

theorem idInside {m : Ngram α} (paired : m.Paired) {word : String} {id : Nat} (found : m.id? word = some id) :
    id < m.unigrams.size :=
  paired ▸ (Array.findIdx?_eq_some_iff_getElem.mp found).1

variable [Score α] {number : List Char → Option α}

theorem ofTextPaired {text : String} {m : Ngram α} (read : ofText number text = .ok m) : m.Paired := by
  obtain ⟨_, made⟩ := ofTextMade read
  exact made.holds.paired

theorem loadPaired [Elementary] {files : FileTree} {path : String} {m : Ngram Float32}
    (loaded : load files path = .ok m) : m.Paired := by
  obtain ⟨_, _, loaded⟩ := bindOk loaded
  split at loaded
  · cases loaded
  · exact ofTextPaired (Outcome.mapErrorOk loaded)

end Ngram

theorem mapsInside {phones : PhoneSet} {names : List String} {ids : List Nat}
    (found : names.mapM phones.id? = some ids) : ids.length = names.length ∧ ∀ id ∈ ids, id < phones.phones.length := by
  induction names generalizing ids with
  | nil =>
    cases found
    exact ⟨rfl, fun id none => by cases none⟩
  | cons name rest ih =>
    rw [List.mapM_cons] at found
    obtain ⟨first, known, found⟩ := Option.bind_eq_some_iff.mp found
    obtain ⟨others, later, found⟩ := Option.bind_eq_some_iff.mp found
    cases found
    obtain ⟨length, inside⟩ := ih later
    refine ⟨congrArg (· + 1) length, fun id mem => ?_⟩
    rcases List.mem_cons.mp mem with rfl | behind
    · exact PhoneSet.idInside known
    · exact inside id behind

namespace Dictionary
variable {phones : PhoneSet}

theorem readLineListed {d : Dictionary} {filler : Bool} {line : List Char} {w : DictionaryWord}
    (read : d.readLine filler phones line = some w) :
    0 < w.phones.length ∧ ∀ id ∈ w.phones, id < phones.phones.length := by
  unfold readLine at read
  simp only [Option.bind_eq_bind, Option.bind_none, Option.ite_none_left_eq_some] at read
  obtain ⟨_, read⟩ := read
  split at read
  · obtain ⟨ids, found, read⟩ := Option.bind_eq_some_iff.mp read
    obtain ⟨_, read⟩ := Option.ite_none_left_eq_some.mp read
    cases read
    obtain ⟨length, inside⟩ := mapsInside found
    exact ⟨length ▸ Nat.succ_pos _, inside⟩
  · cases read

theorem Parsed.listed {d : Dictionary} (parsed : Parsed phones d) :
    ∀ w ∈ d.words, 0 < w.phones.length ∧ ∀ id ∈ w.phones, id < phones.phones.length := by
  refine parsed.each (fun _ _ _ _ read => readLineListed read) fun silence found => ⟨Nat.one_pos, fun id mem => ?_⟩
  rw [List.mem_singleton.mp mem]
  exact PhoneSet.idInside found

end Dictionary

theorem Lexicon.buildSound {α : Type} {m : Ngram α} {d : Dictionary} {phones : PhoneSet} {x : Lexicon}
    (paired : m.Paired) (parsed : d.Parsed phones) (built : build d m = .ok x) :
    x.Sound phones.phones.length m.unigrams.size := by
  obtain ⟨start, finish, words⟩ := buildMade built
  refine ⟨fun w mem => ?_, fun w mem id known => ?_, fun id known => ?_, fun id known => ?_⟩
  · obtain ⟨word, found⟩ := Array.getElem?_of_mem mem
    obtain ⟨entry, listed, made⟩ := words word w found
    rw [(ofWordIs made).2.1]
    exact parsed.listed entry listed
  · obtain ⟨word, found⟩ := Array.getElem?_of_mem mem
    obtain ⟨entry, _, made⟩ := words word w found
    exact Ngram.idInside paired ((ofWordIs made).2.2.2 id known)
  · exact Ngram.idInside paired (start ▸ known)
  · exact Ngram.idInside paired (finish ▸ known)

end SpeechDecoder.Model
