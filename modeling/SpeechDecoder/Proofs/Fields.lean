import SpeechDecoder.Text.Blank

/-! Fields of a text have characters and no blanks, and fields that are joined with blanks are found again. -/
namespace SpeechDecoder.Text

structure IsField (s : List Char) : Prop where
  some : s ≠ []
  solid : ∀ c ∈ s, isBlank c = false

instance (s : List Char) : Decidable (IsField s) :=
  decidable_of_iff (s ≠ [] ∧ s.all (!isBlank ·) = true)
    ⟨fun held => ⟨held.1, by simpa using held.2⟩, fun field => ⟨field.some, by simpa using field.solid⟩⟩

theorem closedAre {open_ : List Char} (solid : ∀ c ∈ open_, isBlank c = false) {rest : List (List Char)}
    (others : ∀ f ∈ rest, IsField f) : ∀ f ∈ if open_.isEmpty then rest else open_.reverse :: rest, IsField f := by
  intro f mem
  split at mem
  · exact others f mem
  · rename_i begun
    rcases List.mem_cons.mp mem with rfl | later
    · exact ⟨by simpa using begun, fun c inside => solid c (List.mem_reverse.mp inside)⟩
    · exact others f later

theorem fieldsFromAre {open_ s : List Char} (solid : ∀ c ∈ open_, isBlank c = false) :
    ∀ f ∈ fieldsFrom open_ s, IsField f := by
  induction s generalizing open_ with
  | nil => exact closedAre solid fun f mem => absurd mem List.not_mem_nil
  | cons c rest ih =>
    unfold fieldsFrom
    split
    · exact closedAre solid (ih fun c mem => absurd mem List.not_mem_nil)
    · rename_i more
      refine ih fun d mem => ?_
      rcases List.mem_cons.mp mem with rfl | before
      · exact Bool.eq_false_iff.mpr more
      · exact solid d before

theorem fieldsAre (s : List Char) : ∀ f ∈ fields s, IsField f :=
  fieldsFromAre fun _ mem => absurd mem List.not_mem_nil

/-- What stands before the next blank belongs to the field that is being read. -/
theorem fieldsFromSolid {f : List Char} (solid : ∀ c ∈ f, isBlank c = false) (open_ rest : List Char) :
    fieldsFrom open_ (f ++ rest) = fieldsFrom (f.reverse ++ open_) rest := by
  induction f generalizing open_ with
  | nil => rfl
  | cons c f ih =>
    have first : isBlank c = false := solid c List.mem_cons_self
    rw [List.cons_append, fieldsFrom, if_neg (by simp [first]), ih fun d mem => solid d (List.mem_cons_of_mem c mem),
      List.reverse_cons, List.append_assoc]
    rfl

theorem fieldsJoined {all : List (List Char)} (each : ∀ f ∈ all, IsField f) :
    fields ([' '].intercalate all) = all := by
  induction all with
  | nil => rfl
  | cons f rest ih =>
    have field : IsField f := each f List.mem_cons_self
    have begun : ¬ (f.reverse ++ []).isEmpty = true := by simpa using field.some
    cases rest with
    | nil =>
      have whole := fieldsFromSolid field.solid [] []
      rw [List.append_nil] at whole
      rw [List.intercalate_singleton, fields, whole, fieldsFrom, if_neg begun]
      simp
    | cons g rest =>
      have later := ih fun f mem => each f (List.mem_cons_of_mem _ mem)
      rw [List.intercalate_cons_cons, List.append_assoc, fields, fieldsFromSolid field.solid, List.singleton_append,
        fieldsFrom, if_pos (by decide), if_neg begun]
      rw [fields] at later
      rw [later]
      simp

end SpeechDecoder.Text
