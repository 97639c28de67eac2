import Mathlib.Data.List.Nodup
import SpeechDecoder.Proofs.Bounds.Parsed

/-! A dictionary after texts and silences in any order. It holds the first listing of each spelling, in the order of the
listings; the table of places says where. A text that a dictionary refuses would have added nothing. -/
namespace SpeechDecoder.Model

theorem basePrefix (spelling : List Char) : baseOf spelling <+: spelling := by
  unfold baseOf
  split
  · split
    · rename_i marked before cut
      split
      · exact List.prefix_rfl
      · have whole := congrArg List.reverse (Text.cutIs cut)
        rw [List.reverse_reverse, List.reverse_append, List.reverse_cons, List.append_assoc] at whole
        exact whole ▸ List.prefix_append _ _
    · exact List.prefix_rfl
  · exact List.prefix_rfl

structure DictionaryWord.Sound (phones : PhoneSet) (w : DictionaryWord) : Prop where
  some : 0 < w.phones.length
  inside : ∀ id ∈ w.phones, id < phones.phones.length
  base : Text.IsField w.base.toList
  begins : w.base.toList <+: w.spelling.toList

namespace Dictionary

inductive Call where
  | text (filler : Bool) (source text : String)
  | silence

def call (phones : PhoneSet) (d : Dictionary) : Call → Outcome Dictionary
  | .text filler source text => d.addText filler phones source text
  | .silence => .ok (d.ensureSilence phones)

/-- A call that fails adds nothing. -/
def after (phones : PhoneSet) (d : Dictionary) (calls : List Call) : Dictionary :=
  calls.foldl (fun d c => (d.call phones c).toOption.getD d) d

/-- What a call lists, whatever is known already. -/
def Call.listed (phones : PhoneSet) : Call → List DictionaryWord
  | .text filler _ contents => (Text.lines contents.toList).filterMap (({} : Dictionary).readLine filler phones)
  | .silence => (phones.id? silencePhone).toList.map fun id => ⟨silenceWord, silenceWord, [id], .silence⟩

def offer (d : Dictionary) (w : DictionaryWord) : Dictionary :=
  if (d.id? w.spelling).isSome then d else d.push w

/-- The table of places is the inverse of the order of the words. -/
def Indexed (d : Dictionary) : Prop :=
  ∀ spelling place, d.id? spelling = some place ↔ ∃ w, d.words[place]? = some w ∧ w.spelling = spelling

variable {phones : PhoneSet} {d : Dictionary} {w : DictionaryWord}

/-! ### One listing -/

theorem emptyIndexed : ({} : Dictionary).Indexed := by
  intro spelling place
  simp [id?]

theorem Indexed.unknown (indexed : d.Indexed) {spelling : String} (new : d.id? spelling = none) :
    ∀ v ∈ d.words, v.spelling ≠ spelling := by
  intro v mem same
  obtain ⟨place, found⟩ := Array.getElem?_of_mem mem
  have known := (indexed spelling place).mpr ⟨v, found, same⟩
  rw [new] at known
  cases known

theorem Indexed.lookup (indexed : d.Indexed) (spelling : String) :
    (d.id? spelling).bind (fun place => d.words[place]?) = d.words.toList.find? fun v => v.spelling == spelling := by
  cases known : d.id? spelling with
  | none =>
    refine (List.find?_eq_none.mpr fun v mem same => ?_).symm
    exact indexed.unknown known v (Array.mem_toList_iff.mp mem) (beq_iff_eq.mp same)
  | some place =>
    obtain ⟨w, found, same⟩ := (indexed spelling place).mp known
    have mem : w ∈ d.words.toList := Array.mem_toList_iff.mpr (Array.mem_of_getElem? found)
    cases first : d.words.toList.find? fun v => v.spelling == spelling with
    | none => exact absurd (beq_iff_eq.mpr same) (List.find?_eq_none.mp first w mem)
    | some v =>
      obtain ⟨place', there⟩ := Array.getElem?_of_mem (Array.mem_toList_iff.mp (List.mem_of_find?_eq_some first))
      have spelled : (v.spelling == spelling) = true := by simpa using List.find?_some first
      have other := (indexed spelling place').mpr ⟨v, there, beq_iff_eq.mp spelled⟩
      rw [known] at other
      cases other
      exact there

theorem Indexed.apart (indexed : d.Indexed) : (d.words.toList.map DictionaryWord.spelling).Nodup := by
  refine List.nodup_iff_getElem?_ne_getElem?.mpr fun i j less inside same => ?_
  rw [List.length_map, Array.length_toList] at inside
  rw [List.getElem?_map, List.getElem?_map, Array.getElem?_toList, Array.getElem?_toList,
    Array.getElem?_eq_getElem inside, Option.map_some] at same
  obtain ⟨v, found, spelled⟩ := Option.map_eq_some_iff.mp same
  have first := (indexed _ i).mpr ⟨v, found, spelled⟩
  have second := (indexed _ j).mpr ⟨d.words[j], Array.getElem?_eq_getElem inside, rfl⟩
  rw [second] at first
  cases first
  exact Nat.lt_irrefl _ less

theorem pushIndexed (indexed : d.Indexed) (new : d.id? w.spelling = none) : (d.push w).Indexed := by
  intro spelling place
  have later : (d.push w).id? spelling = if spelling = w.spelling then some d.words.size else d.id? spelling := by
    rw [id?, push, List.lookup_cons]
    by_cases same : spelling = w.spelling
    · simp [same]
    · simp [same, beq_eq_false_iff_ne.mpr same, id?]
  have found : (d.push w).words[place]? = if place = d.words.size then some w else d.words[place]? :=
    Array.getElem?_push
  rw [later, found]
  by_cases same : spelling = w.spelling
  · rw [if_pos same]
    constructor
    · rintro here
      cases here
      exact ⟨w, if_pos rfl, same.symm⟩
    · rintro ⟨v, here, spelled⟩
      split at here
      · rename_i last
        rw [last]
      · exact absurd (spelled.trans same) (indexed.unknown new v (Array.mem_of_getElem? here))
  · rw [if_neg same, indexed spelling place]
    constructor
    · rintro ⟨v, here, spelled⟩
      obtain ⟨inside, _⟩ := Array.getElem?_eq_some_iff.mp here
      exact ⟨v, by rw [if_neg (Nat.ne_of_lt inside), here], spelled⟩
    · rintro ⟨v, here, spelled⟩
      split at here
      · cases here
        exact absurd spelled.symm same
      · exact ⟨v, here, spelled⟩

theorem offerIndexed (indexed : d.Indexed) (w : DictionaryWord) : (d.offer w).Indexed := by
  unfold offer
  split
  · exact indexed
  · rename_i new
    exact pushIndexed indexed (Option.not_isSome_iff_eq_none.mp new)

/-- The first word of a spelling stays the first. -/
theorem offerFirst (indexed : d.Indexed) (w : DictionaryWord) (spelling : String) :
    (d.offer w).words.toList.find? (fun v => v.spelling == spelling) =
      (d.words.toList ++ [w]).find? fun v => v.spelling == spelling := by
  unfold offer
  split
  · rename_i known
    obtain ⟨place, known⟩ := Option.isSome_iff_exists.mp known
    obtain ⟨v, found, same⟩ := (indexed w.spelling place).mp known
    rw [List.find?_append]
    cases first : d.words.toList.find? (fun v => v.spelling == spelling) with
    | some _ => rfl
    | none =>
      have other := List.find?_eq_none.mp first v (Array.mem_toList_iff.mpr (Array.mem_of_getElem? found))
      rw [same] at other
      simp [other]
  · rw [push, Array.toList_push]

theorem offerMore (d : Dictionary) (w : DictionaryWord) :
    ∃ added, (d.offer w).words.toList = d.words.toList ++ added ∧ ∀ v ∈ added, v = w := by
  unfold offer
  split
  · exact ⟨[], (List.append_nil _).symm, by simp⟩
  · exact ⟨[w], Array.toList_push, by simp⟩

/-! ### Many listings -/

theorem offerEachIndexed (indexed : d.Indexed) (listed : List DictionaryWord) : (listed.foldl offer d).Indexed := by
  induction listed generalizing d with
  | nil => exact indexed
  | cons w rest ih => exact ih (offerIndexed indexed w)

theorem offerEachFirst (indexed : d.Indexed) (listed : List DictionaryWord) (spelling : String) :
    (listed.foldl offer d).words.toList.find? (fun v => v.spelling == spelling) =
      (d.words.toList ++ listed).find? fun v => v.spelling == spelling := by
  induction listed generalizing d with
  | nil => rw [List.append_nil, List.foldl_nil]
  | cons w rest ih =>
    rw [List.foldl_cons, ih (offerIndexed indexed w), List.find?_append, offerFirst indexed, ← List.find?_append,
      List.append_assoc, List.singleton_append]

theorem offerEachMore (d : Dictionary) (listed : List DictionaryWord) :
    ∃ added, (listed.foldl offer d).words.toList = d.words.toList ++ added ∧ ∀ v ∈ added, v ∈ listed := by
  induction listed generalizing d with
  | nil => exact ⟨[], (List.append_nil _).symm, by simp⟩
  | cons w rest ih =>
    obtain ⟨first, begun, only⟩ := d.offerMore w
    obtain ⟨later, ended, others⟩ := ih (d.offer w)
    refine ⟨first ++ later, by rw [List.foldl_cons, ended, begun, List.append_assoc], fun v mem => ?_⟩
    rcases List.mem_append.mp mem with here | behind
    · exact only v here ▸ List.mem_cons_self
    · exact List.mem_cons_of_mem w (others v behind)

theorem offerEachEmpty (indexed : d.Indexed) {listed : List DictionaryWord}
    (none : (listed.foldl offer d).words = #[]) : listed.foldl offer d = d := by
  cases listed with
  | nil => rfl
  | cons w rest =>
    have first := offerEachFirst indexed (w :: rest) w.spelling
    rw [none, List.find?_nil] at first
    have absent := List.find?_eq_none.mp first.symm w (List.mem_append_right _ List.mem_cons_self)
    exact absurd (beq_self_eq_true w.spelling) absent

/-! ### Texts and silences -/

theorem readLineIs (d : Dictionary) (filler : Bool) (line : List Char) :
    d.readLine filler phones line =
      (({} : Dictionary).readLine filler phones line).filter fun w => (d.id? w.spelling).isNone := by
  unfold readLine
  by_cases remark : isRemark (Text.trim line) = true
  · simp [remark]
  · simp only [remark, Bool.false_eq_true, if_false]
    cases (Text.fields line).map String.ofList with
    | nil => rfl
    | cons spelling names =>
      cases names with
      | nil => rfl
      | cons first more =>
        dsimp only
        cases (first :: more).mapM phones.id? with
        | none => rfl
        | some ids =>
          have unknown : ({} : Dictionary).id? spelling = none := rfl
          cases known : d.id? spelling <;> simp [Option.filter, known, unknown]

theorem addLineIs (d : Dictionary) (filler : Bool) (line : List Char) :
    addLine filler phones d line =
      match ({} : Dictionary).readLine filler phones line with
      | some w => d.offer w
      | none => d := by
  rw [addLine, readLineIs]
  cases ({} : Dictionary).readLine filler phones line with
  | none => rfl
  | some w => cases known : d.id? w.spelling <;> simp [Option.filter, offer, known]

theorem addLinesAre (d : Dictionary) (filler : Bool) (lines : List (List Char)) :
    lines.foldl (addLine filler phones) d =
      (lines.filterMap (({} : Dictionary).readLine filler phones)).foldl offer d := by
  rw [List.foldl_filterMap]
  congr 1
  funext d line
  rw [addLineIs]
  cases ({} : Dictionary).readLine filler phones line <;> rfl

theorem ensureSilenceIs (d : Dictionary) : d.ensureSilence phones = (Call.silence.listed phones).foldl offer d := by
  unfold ensureSilence Call.listed
  cases phones.id? silencePhone with
  | none =>
    split <;> rfl
  | some id => rfl

theorem addTextIs (indexed : d.Indexed) (filler : Bool) (source text : String) :
    (d.addText filler phones source text).toOption.getD d =
      (Text.lines text.toList).foldl (addLine filler phones) d := by
  unfold addText
  dsimp only
  split
  · rename_i fails
    have none : ((Text.lines text.toList).foldl (addLine filler phones) d).words = #[] := by
      simpa using (Bool.and_eq_true_iff.mp fails).1
    rw [addLinesAre] at none ⊢
    exact (offerEachEmpty indexed none).symm
  · rfl

theorem callIs (indexed : d.Indexed) (c : Call) :
    (d.call phones c).toOption.getD d = (c.listed phones).foldl offer d := by
  cases c with
  | text filler source text => exact (addTextIs indexed filler source text).trans (d.addLinesAre filler _)
  | silence => exact d.ensureSilenceIs

theorem afterIs (indexed : d.Indexed) (calls : List Call) :
    d.after phones calls = (calls.flatMap (Call.listed phones)).foldl offer d := by
  induction calls generalizing d with
  | nil => rfl
  | cons c rest ih =>
    change (Dictionary.after phones ((d.call phones c).toOption.getD d) rest) = _
    rw [callIs indexed, ih (offerEachIndexed indexed _), List.flatMap_cons, List.foldl_append]

theorem listedSound (c : Call) : ∀ w ∈ c.listed phones, w.Sound phones := by
  intro w mem
  cases c with
  | text filler source text =>
    obtain ⟨line, _, read⟩ := List.mem_filterMap.mp mem
    obtain ⟨some, inside⟩ := readLineListed read
    exact ⟨some, inside, readLineSpelled read, (readLineBase read).2 ▸ basePrefix _⟩
  | silence =>
    obtain ⟨id, known, rfl⟩ := List.mem_map.mp mem
    have found := Option.mem_toList.mp known
    refine ⟨Nat.one_pos, fun id' mem => ?_, silenceIsField, List.prefix_rfl⟩
    rw [List.mem_singleton.mp mem]
    exact PhoneSet.idInside found

/-- A dictionary is what was listed, of each spelling the first, and says where each is; later calls only add to it. A
text fails exactly if it is no filler text and leaves the dictionary empty, and then it leaves it as it was. -/
theorem firstListings (phones : PhoneSet) (calls : List Call) :
    let d := ({} : Dictionary).after phones calls
    (d.words.toList.map DictionaryWord.spelling).Nodup ∧
    (∀ spelling place, d.id? spelling = some place ↔ ∃ w, d.words[place]? = some w ∧ w.spelling = spelling) ∧
    (∀ spelling, (d.id? spelling).bind (fun place => d.words[place]?) =
      (calls.flatMap (Call.listed phones)).find? fun w => w.spelling == spelling) ∧
    (∀ w ∈ d.words, w.Sound phones) ∧
    (∀ more, ∃ added, (d.after phones more).words.toList = d.words.toList ++ added) ∧
    ∀ filler source text, let left := (Text.lines text.toList).foldl (addLine filler phones) d
      ((d.addText filler phones source text).isOk = false ↔ filler = false ∧ left.words = #[]) ∧
        (left.words = #[] → left = d) ∧ (d.addText filler phones source text).toOption.getD d = left := by
  intro d
  have same : d = (calls.flatMap (Call.listed phones)).foldl offer {} := afterIs emptyIndexed calls
  have indexed : d.Indexed := same ▸ offerEachIndexed emptyIndexed _
  refine ⟨indexed.apart, indexed, fun spelling => ?_, fun w mem => ?_, fun more => ?_, fun filler source text => ?_⟩
  · rw [indexed.lookup, same]
    exact offerEachFirst emptyIndexed _ spelling
  · obtain ⟨added, whole, listed⟩ := offerEachMore {} (calls.flatMap (Call.listed phones))
    rw [← same] at whole
    obtain ⟨c, _, mem⟩ := List.mem_flatMap.mp (listed w (by simpa [whole] using Array.mem_toList_iff.mpr mem))
    exact listedSound c w mem
  · obtain ⟨added, whole, _⟩ := offerEachMore d (more.flatMap (Call.listed phones))
    exact ⟨added, (afterIs indexed more).symm ▸ whole⟩
  · intro left
    refine ⟨?_, fun none => ?_, addTextIs indexed filler source text⟩
    · have known : (left.words.isEmpty && !filler) = true ↔ filler = false ∧ left.words = #[] := by
        rw [Bool.and_eq_true_iff, Bool.not_eq_true', and_comm, Array.isEmpty_iff]
      rw [← known, addText]
      split
      · rename_i fails
        exact iff_of_true rfl fails
      · rename_i passes
        exact iff_of_false (by simp [Except.isOk, Except.toBool]) passes
    · have whole : left = _ := d.addLinesAre filler _
      rw [whole] at none ⊢
      exact offerEachEmpty indexed none

def threePhones : PhoneSet :=
  ⟨[⟨"SIL", true, 0, [0]⟩, ⟨"AA", false, 0, [1]⟩, ⟨"BB", false, 0, [2]⟩], 0, 1, 3, 1⟩

def someCalls : List Call :=
  [.text false "words" "a AA\na BB\n;; b BB\nb(2) BB AA\nc XX\nd\n", .silence, .text true "fillers" "<sil> AA\n"]

theorem fewListings : let d := ({} : Dictionary).after threePhones someCalls
    d.words.toList.map (fun w => (w.spelling, w.base, w.phones)) =
      [("a", "a", [1]), ("b(2)", "b", [2, 1]), ("<sil>", "<sil>", [0])] ∧
    (d.words.toList.map DictionaryWord.spelling).Nodup ∧
    (d.id? "a").bind (fun place => d.words[place]?) =
      (someCalls.flatMap (Call.listed threePhones)).find? (fun w => w.spelling == "a") ∧
    (∃ w ∈ d.words, w.Sound threePhones) ∧
    (∃ added, (d.after threePhones [.silence]).words.toList = d.words.toList ++ added) ∧
    let left := (Text.lines "c XX\n".toList).foldl (addLine false threePhones) {}
    left.words = #[] ∧ left = {} ∧ (({} : Dictionary).addText false threePhones "words" "c XX\n").isOk = false := by
  have held : (({} : Dictionary).after threePhones someCalls).words.toList.map
      (fun w => (w.spelling, w.base, w.phones)) = [("a", "a", [1]), ("b(2)", "b", [2, 1]), ("<sil>", "<sil>", [0])] := by
    decide +kernel
  obtain ⟨apart, _, first, sound, more, _⟩ := firstListings threePhones someCalls
  obtain ⟨_, _, _, _, _, texts⟩ := firstListings threePhones []
  obtain ⟨fails, empty, _⟩ := texts false "words" "c XX\n"
  have none : ((Text.lines "c XX\n".toList).foldl (addLine false threePhones) {}).words = #[] := by
    decide +kernel
  have some : 0 < (({} : Dictionary).after threePhones someCalls).words.size := by decide +kernel
  exact ⟨held, apart, first "a", ⟨_, Array.getElem_mem some, sound _ (Array.getElem_mem some)⟩, more [.silence], none,
    empty none, fails.mpr ⟨rfl, none⟩⟩

end Dictionary

end SpeechDecoder.Model
