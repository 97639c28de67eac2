import SpeechDecoder.Proofs.Arithmetic
import SpeechDecoder.Proofs.Outcome
import SpeechDecoder.Model.Transitions

/-! Loaded transition matrices lead no phone back to an earlier state. -/
namespace SpeechDecoder.Model.Transitions

/-- No transition of a phone with that many states goes back to an earlier one. -/
def Forward {α : Type} [Score α] (t : Transitions α) (states : Nat) : Prop :=
  ∀ matrix source target, source < states → target < source → Score.isLive (t.get matrix source target) = false

variable [Elementary]

theorem scoreOfBack {floor p x : Float32} {states place : Nat}
    (scored : scoreOf floor states place p = .ok x)
    (back : place % (states + 1) < place / (states + 1) % states) : x = Single.impossible := by
  unfold scoreOf checkedMod at scored
  by_cases none : states = 0
  · rw [if_pos none] at scored
    cases scored
  · rw [if_neg none] at scored
    dsimp only at scored
    split at scored
    · cases scored
    · split at scored
      · cases scored
      · exact (Except.ok.inj scored).symm

theorem scoresFromAt {floor : Float32} {states place : Nat} {probabilities values : List Float32}
    (scored : scoresFrom floor states place probabilities = .ok values) {i : Nat} {x : Float32}
    (found : values[i]? = some x) : ∃ p, scoreOf floor states (place + i) p = .ok x := by
  induction probabilities generalizing place values i with
  | nil =>
    cases scored
    cases found
  | cons p rest ih =>
    obtain ⟨y, first, scored⟩ := Outcome.bindOk scored
    obtain ⟨ys, others, same⟩ := Outcome.bindOk scored
    cases same
    cases i with
    | zero =>
      cases found
      exact ⟨p, first⟩
    | succ n =>
      obtain ⟨q, later⟩ := ih others found
      exact ⟨q, by rw [← later]; congr 1; omega⟩

theorem loadedForward {states : Nat} {probabilities : List Float32} {floor : Float32} {t : Transitions Float32}
    (loaded : ofProbabilities states probabilities floor = .ok t) : t.Forward states := by
  intro matrix source target inside back
  obtain ⟨values, scored, same⟩ := Outcome.bindOk loaded
  cases same
  have dead : Score.isLive Single.impossible = false := Score.Ordered.impossibleNotLive
  unfold get
  rw [Array.getD_eq_getD_getElem?, List.getElem?_toArray]
  cases found : values[(matrix * states + source) * (states + 1) + target]? with
  | none => exact dead
  | some x =>
    obtain ⟨p, scored⟩ := scoresFromAt scored found
    have row : (0 + ((matrix * states + source) * (states + 1) + target)) / (states + 1) % states = source := by
      rw [Nat.zero_add, Nat.mul_comm, Nat.mul_add_div (by omega), Nat.div_eq_of_lt (by omega), Nat.add_zero,
        Nat.mul_comm, Nat.mul_add_mod, Nat.mod_eq_of_lt inside]
    have column : (0 + ((matrix * states + source) * (states + 1) + target)) % (states + 1) = target := by
      rw [Nat.zero_add, Nat.mul_comm, Nat.mul_add_mod, Nat.mod_eq_of_lt (by omega)]
    have least := scoreOfBack scored (by rw [row, column]; exact back)
    rw [Option.getD_some, least]
    exact dead

end SpeechDecoder.Model.Transitions
