import SpeechDecoder.Proofs.Search.Served
import SpeechDecoder.Proofs.Search.Simulation
import SpeechDecoder.Proofs.Outcome

/-! A search that is reset. Tokens of an utterance that was left stay in the words until the next one starts, but
nothing that is asked of the search tells them from none: it answers and shows what a new one does. -/
namespace SpeechDecoder.Search

variable {α : Type} [Score α]

namespace Plain

/-- The search without the tokens that were left behind, where no utterance is going on. -/
def rested (p : Plain α) : Plain α :=
  if p.phase = .active then p else { p with words := p.words.map WordModel.clear }

theorem performRested (p : Plain α) (op : Op α) :
    (p.rested.perform op).map rested = (p.perform op).map rested := by
  by_cases active : p.phase = .active
  · rw [rested, if_pos active]
  · rw [show p.rested = { p with words := p.words.map WordModel.clear } from if_neg active]
    have twice : (p.words.map WordModel.clear).map WordModel.clear = p.words.map WordModel.clear := by
      simp only [List.map_map, Function.comp_def, WordModel.clearClear]
    cases op with
    | start => simp only [perform, start, twice]
    | advance frame => simp only [perform, advance, ne_eq, active, not_false_eq_true, if_true]
    | finish => simp only [perform, finish, ne_eq, active, not_false_eq_true, if_true]
    | reset =>
      change Except.ok (rested { p.reset with words := p.words.map WordModel.clear }) = Except.ok (rested p.reset)
      simp [rested, reset, WordModel.clearClear]

theorem restedSeen (p : Plain α) : p.rested.seen = p.seen := by
  unfold rested
  split <;> rfl

theorem offerAllSize (k : Knowledge α) (threshold : α) (exits : Array (Exit α)) (words : List (WordModel α))
    (origin : Nat) : (offerAll k threshold exits words origin).length = words.length := by
  unfold offerAll
  split
  · rfl
  · exact List.length_mapIdx

theorem offerEachSize (k : Knowledge α) (threshold : α) (exits : Array (Exit α)) (origins : List Nat)
    (words : List (WordModel α)) :
    (origins.foldl (offerAll k threshold exits) words).length = words.length := by
  induction origins generalizing words with
  | nil => rfl
  | cons origin rest ih => exact (ih _).trans (offerAllSize k threshold exits words origin)

theorem performSize {p p' : Plain α} {op : Op α} (done : p.perform op = .ok p') :
    p'.words.length = p.words.length := by
  cases op with
  | start =>
    change p.start = .ok p' at done
    unfold start at done
    split at done
    · cases done
    · cases done
      simp only [offerAllSize, List.length_map]
  | advance frame =>
    change p.advance frame = .ok p' at done
    unfold advance at done
    split at done
    · cases done
    · split at done
      · cases done
      · cases done
        simp only [step, offerEachSize, survive, limited, move, List.length_map, List.length_mapIdx]
  | finish =>
    change p.finish = .ok p' at done
    unfold finish at done
    split at done <;> cases done
    rfl
  | reset =>
    cases done
    rfl

theorem Shaped.alike {k : Knowledge α} {words others : List (WordModel α)} (shape : Shaped k words)
    (other : Shaped k others) (size : words.length = others.length) :
    words.map WordModel.clear = others.map WordModel.clear := by
  refine List.ext_getElem? fun word => ?_
  rw [List.getElem?_map, List.getElem?_map]
  by_cases inside : word < words.length
  · have bound : word < others.length := size ▸ inside
    rw [List.getElem?_eq_getElem inside, List.getElem?_eq_getElem bound, Option.map_some, Option.map_some]
    refine congrArg (fun phones => some (WordModel.mk phones)) (List.ext_getElem? fun phone => ?_)
    have same := (shape word phone).trans (other word phone).symm
    simpa only [phoneAt, List.getElem?_eq_getElem inside, List.getElem?_eq_getElem bound, Option.bind_some,
      List.getElem?_map] using same
  · rw [List.getElem?_eq_none (Nat.le_of_not_lt inside), List.getElem?_eq_none (by omega)]

theorem resetRested [Score.Ordered α] (k : Knowledge α) (before : List (Op α)) :
    ((make k).after before).reset.rested = (make k).rested := by
  have served := afterServed k before
  let complete (p : Plain α) : Prop := p.words.length = (make k).words.length
  have size : complete ((make k).after before) :=
    afterKeeps (fun _ _ _ kept done => (performSize done).trans kept) before rfl
  have words := served.shape.alike (makeShaped k) size
  change Plain.mk ((make k).after before).knowledge .idle (((make k).after before).words.map WordModel.clear) #[] 0
    none = Plain.mk k .idle ((make k).words.map WordModel.clear) #[] 0 none
  rw [served.knowledge, words]

end Plain

namespace Engine

/-- Searches that differ at most in what no call can tell. -/
def Resembles (e e' : Engine α) : Prop :=
  ∃ p p', Follows e p ∧ Follows e' p' ∧ p.rested = p'.rested

theorem Resembles.seen {e e' : Engine α} (same : e.Resembles e') : e.seen = e'.seen := by
  obtain ⟨p, p', first, second, alike⟩ := same
  rw [first.seen, second.seen, ← p.restedSeen, ← p'.restedSeen, alike]

variable [Score.Ordered α]

theorem Resembles.perform {e e' : Engine α} (same : e.Resembles e') (op : Op α) :
    Outcome.Both Resembles (e.perform op) (e'.perform op) := by
  obtain ⟨p, p', first, second, alike⟩ := same
  have rest : (p.perform op).map Plain.rested = (p'.perform op).map Plain.rested := by
    rw [← p.performRested, ← p'.performRested, alike]
  have left := first.perform op
  have right := second.perform op
  generalize e.perform op = one, p.perform op = plain at left rest
  generalize e'.perform op = other, p'.perform op = plain' at right rest
  cases left with
  | problem problem =>
    cases right with
    | problem again =>
      cases rest
      exact .failed problem
    | follows _ => cases rest
  | follows after =>
    cases right with
    | problem _ => cases rest
    | follows after' => exact .made ⟨_, _, after, after', Except.ok.inj rest⟩

theorem Resembles.after {e e' : Engine α} (same : e.Resembles e') (ops : List (Op α)) :
    (e.after ops).Resembles (e'.after ops) := by
  induction ops generalizing e e' with
  | nil => exact same
  | cons op rest ih =>
    refine ih ?_
    change ((e.perform op).toOption.getD e).Resembles ((e'.perform op).toOption.getD e')
    have both := same.perform op
    generalize e.perform op = one, e'.perform op = other at both
    cases both with
    | failed _ => exact same
    | made next => exact next

theorem Resembles.problem {e e' : Engine α} (same : e.Resembles e') (op : Op α) :
    e.problem? op = e'.problem? op := by
  unfold problem?
  have both := same.perform op
  generalize e.perform op = one, e'.perform op = other at both
  cases both <;> rfl

theorem resetResembles (k : Knowledge α) (before : List (Op α)) :
    ((make k).after before).reset.Resembles (make k) :=
  ⟨_, _, ((makeFollows k).after before).reset, makeFollows k, Plain.resetRested k before⟩

end Engine

end SpeechDecoder.Search
