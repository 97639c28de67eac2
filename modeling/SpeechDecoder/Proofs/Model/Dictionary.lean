import SpeechDecoder.Proofs.Fields
import SpeechDecoder.Proofs.Outcome
import SpeechDecoder.Model.Files

/-! The base spellings of a dictionary that is read from texts are fields: they have characters and no blanks. -/
namespace SpeechDecoder

theorem Text.cutIs {c : Char} {s l r : List Char} (found : Text.cut? c s = some (l, r)) : s = l ++ c :: r := by
  induction s generalizing l with
  | nil => cases found
  | cons d s ih =>
    unfold Text.cut? at found
    split at found
    · rename_i same
      cases found
      rw [same, List.nil_append]
    · obtain ⟨⟨l', r'⟩, later, same⟩ := Option.map_eq_some_iff.mp found
      cases same
      rw [ih later, List.cons_append]

namespace Model

open Text (IsField)

theorem baseIsField {spelling : List Char} (field : IsField spelling) : IsField (baseOf spelling) := by
  unfold baseOf
  split
  · split
    · rename_i marked before cut
      split
      · exact field
      · rename_i more
        refine ⟨by simpa using more, fun c mem => field.solid c ?_⟩
        have whole := Text.cutIs cut
        have inside : c ∈ spelling.reverse := by
          rw [whole]
          exact List.mem_append_right _ (List.mem_cons_of_mem _ (List.mem_reverse.mp mem))
        exact List.mem_reverse.mp inside
    · exact field
  · exact field

namespace Dictionary

def Spelled (d : Dictionary) : Prop := ∀ w ∈ d.words, IsField w.base.toList

variable {phones : PhoneSet}

theorem pushEach {holds : DictionaryWord → Prop} {d : Dictionary} (each : ∀ w ∈ d.words, holds w)
    {w : DictionaryWord} (new : holds w) : ∀ v ∈ (d.push w).words, holds v := by
  intro v mem
  rcases Array.mem_push.mp mem with old | rfl
  · exact each v old
  · exact new

/-- What holds of each line that is read, and of the words so far, holds of all words. -/
theorem addTextEach {holds : DictionaryWord → Prop} {d d' : Dictionary} {filler : Bool} {source text : String}
    (lines : ∀ (d : Dictionary) line w, d.readLine filler phones line = some w → holds w)
    (each : ∀ w ∈ d.words, holds w) (added : d.addText filler phones source text = .ok d') :
    ∀ w ∈ d'.words, holds w := by
  have every (rest : List (List Char)) {d : Dictionary} (each : ∀ w ∈ d.words, holds w) :
      ∀ w ∈ (rest.foldl (addLine filler phones) d).words, holds w := by
    induction rest generalizing d with
    | nil => exact each
    | cons line rest ih =>
      refine ih ?_
      unfold addLine
      split
      · rename_i read
        exact pushEach each (lines _ _ _ read)
      · exact each
  unfold addText at added
  dsimp only at added
  split at added
  · cases added
  · cases added
    exact every _ each

theorem ensureSilenceEach {holds : DictionaryWord → Prop} {d : Dictionary} (each : ∀ w ∈ d.words, holds w)
    (silent : ∀ id, phones.id? silencePhone = some id → holds ⟨silenceWord, silenceWord, [id], .silence⟩) :
    ∀ w ∈ (d.ensureSilence phones).words, holds w := by
  unfold ensureSilence
  split
  · exact each
  · split
    · rename_i id found
      exact pushEach each (silent id found)
    · exact each

theorem readLineBase {d : Dictionary} {filler : Bool} {line : List Char} {w : DictionaryWord}
    (read : d.readLine filler phones line = some w) :
    IsField w.spelling.toList ∧ w.base.toList = baseOf w.spelling.toList := by
  unfold readLine at read
  simp only [Option.bind_eq_bind, Option.bind_none, Option.ite_none_left_eq_some] at read
  obtain ⟨_, read⟩ := read
  split at read
  · rename_i spelling _ _ fields
    obtain ⟨ids, _, read⟩ := Option.bind_eq_some_iff.mp read
    obtain ⟨_, read⟩ := Option.ite_none_left_eq_some.mp read
    cases read
    have mem : spelling ∈ (Text.fields line).map String.ofList := by
      rw [fields]
      exact List.mem_cons_self
    obtain ⟨f, inside, rfl⟩ := List.mem_map.mp mem
    rw [String.toList_ofList, String.toList_ofList]
    exact ⟨Text.fieldsAre line f inside, rfl⟩
  · cases read

theorem readLineSpelled {d : Dictionary} {filler : Bool} {line : List Char} {w : DictionaryWord}
    (read : d.readLine filler phones line = some w) : IsField w.base.toList := by
  obtain ⟨field, same⟩ := readLineBase read
  exact same ▸ baseIsField field

theorem silenceIsField : IsField silenceWord.toList := by
  have solid : (silenceWord.toList.all fun c => !Text.isBlank c) = true := by decide
  refine ⟨by decide, fun c mem => ?_⟩
  simpa using List.all_eq_true.mp solid c mem

/-- What comes of texts that are read for these phones. -/
inductive Parsed (phones : PhoneSet) : Dictionary → Prop where
  | empty : Parsed phones {}
  | text {d d' : Dictionary} {filler : Bool} {source text : String} (before : Parsed phones d)
      (added : d.addText filler phones source text = .ok d') : Parsed phones d'
  | silence {d : Dictionary} (before : Parsed phones d) : Parsed phones (d.ensureSilence phones)

theorem Parsed.each {holds : DictionaryWord → Prop} {d : Dictionary} (parsed : Parsed phones d)
    (lines : ∀ (d : Dictionary) filler line w, d.readLine filler phones line = some w → holds w)
    (silent : ∀ id, phones.id? silencePhone = some id → holds ⟨silenceWord, silenceWord, [id], .silence⟩) :
    ∀ w ∈ d.words, holds w := by
  induction parsed with
  | empty => exact fun w mem => by cases Array.not_mem_empty w mem
  | text _ added ih => exact addTextEach (fun d => lines d _) ih added
  | silence _ ih => exact ensureSilenceEach ih silent

theorem Parsed.spelled {d : Dictionary} (parsed : Parsed phones d) : d.Spelled :=
  parsed.each (fun _ _ _ _ read => readLineSpelled read) fun _ _ => silenceIsField

theorem loadParsed (files : FileTree) (path : String) (fillers : Option String) (phones : PhoneSet) :
    Outcome.Ensures (Dictionary.load files path fillers phones) (Parsed phones) := by
  refine Outcome.ensuresBind fun text _ => Outcome.ensuresBind fun d added => ?_
  have parsed := Parsed.empty.text added
  cases fillers with
  | none => exact Outcome.ensuresOk parsed.silence
  | some path =>
    refine Outcome.ensuresBind fun text _ => Outcome.ensuresBind fun d added => ?_
    exact Outcome.ensuresOk (parsed.text added).silence

end Dictionary

end Model

end SpeechDecoder
