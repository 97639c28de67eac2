import SpeechDecoder.Proofs.Search.Plain

/-! What a frame does to a phone: each of its states takes the best of what comes from the states before the frame,
although they are updated where they are. -/
namespace SpeechDecoder.Search

open Model (Transitions PhoneSet)
open Score (Monotone)

variable {α : Type} [Score α]

namespace Token

theorem betterIs (held offered : Token α) : held.better offered = held ∨ held.better offered = offered := by
  unfold better
  split
  · exact .inr rfl
  · exact .inl rfl

theorem betterAtLeast [Monotone α] (held offered : Token α) :
    Score.atMost held.score (held.better offered).score = true ∧
      Score.atMost offered.score (held.better offered).score = true := by
  unfold better
  cases less : Score.below held.score offered.score with
  | true => exact ⟨Score.belowAtMost less, Score.atMostRefl _⟩
  | false => exact ⟨Score.atMostRefl _, Score.notBelow.mp less⟩

end Token

namespace PhoneModel

def scored (compute : Nat → α) (p : PhoneModel α) (state : Nat) (token : Token α) : Token α :=
  if token.isLive then token.add (compute (p.senones.getD state 0)) else token

def moved (t : Transitions α) (compute : Nat → α) (p : PhoneModel α) : PhoneModel α :=
  { p with
    states := (List.range p.states.length).map fun state => scored compute p state (incoming t p p.states state)
    entry := Token.dead }

theorem arrivalCons [Score.Ordered α] (t : Transitions α) (matrix target : Nat) (best : Token α) (source : Nat)
    (rest : List Nat) (states : List (Token α)) :
    (∃ held, states[source]? = some held ∧ held.isLive = true ∧
      arrival t matrix target best (source :: rest) states =
        arrival t matrix target (best.better (held.add (t.get matrix source target))) rest states) ∨
    (∀ held, states[source]? = some held → held.isLive = false) ∧
      arrival t matrix target best (source :: rest) states = arrival t matrix target best rest states := by
  have next : arrival t matrix target best (source :: rest) states = arrival t matrix target
      (if (states.getD source Token.dead).isLive then
        best.better ((states.getD source Token.dead).add (t.get matrix source target)) else best) rest states := rfl
  rw [next, List.getD_eq_getElem?_getD]
  cases found : states[source]? with
  | none =>
    refine .inr ⟨fun held missing => (nomatch missing), ?_⟩
    rw [Option.getD_none, Token.deadNotLive]
    rfl
  | some held =>
    rw [Option.getD_some]
    cases live : held.isLive with
    | true => exact .inl ⟨held, rfl, live, rfl⟩
    | false =>
      refine .inr ⟨fun other same => ?_, rfl⟩
      cases same
      exact live

theorem arrivalFrom [Score.Ordered α] (t : Transitions α) (matrix target : Nat) (best : Token α)
    (sources : List Nat) (states : List (Token α)) : arrival t matrix target best sources states = best ∨
      ∃ source ∈ sources, ∃ held, states[source]? = some held ∧ held.isLive = true ∧
        arrival t matrix target best sources states = held.add (t.get matrix source target) := by
  induction sources generalizing best with
  | nil => exact .inl rfl
  | cons source rest ih =>
    rcases arrivalCons t matrix target best source rest states with ⟨held, found, live, next⟩ | ⟨_, next⟩
    · rw [next]
      rcases ih (best.better (held.add (t.get matrix source target))) with first | ⟨other, mem, last⟩
      · rw [first]
        rcases best.betterIs (held.add (t.get matrix source target)) with old | new
        · exact .inl old
        · exact .inr ⟨source, List.mem_cons_self, held, found, live, new⟩
      · exact .inr ⟨other, List.mem_cons_of_mem source mem, last⟩
    · rw [next]
      rcases ih best with first | ⟨other, mem, last⟩
      · exact .inl first
      · exact .inr ⟨other, List.mem_cons_of_mem source mem, last⟩

theorem arrivalAtLeast [Monotone α] (t : Transitions α) (matrix target : Nat) (best : Token α)
    (sources : List Nat) (states : List (Token α)) :
    Score.atMost best.score (arrival t matrix target best sources states).score = true ∧
      ∀ source ∈ sources, ∀ held, states[source]? = some held → held.isLive = true →
        Score.atMost (held.score + t.get matrix source target)
          (arrival t matrix target best sources states).score = true := by
  induction sources generalizing best with
  | nil => exact ⟨Score.atMostRefl _, fun source mem => absurd mem List.not_mem_nil⟩
  | cons source rest ih =>
    rcases arrivalCons t matrix target best source rest states with ⟨held, found, _, next⟩ | ⟨dead, next⟩
    · obtain ⟨first, others⟩ := ih (best.better (held.add (t.get matrix source target)))
      obtain ⟨old, new⟩ := best.betterAtLeast (held.add (t.get matrix source target))
      rw [next]
      refine ⟨Monotone.atMostTrans _ _ _ old first, fun other mem token at' live => ?_⟩
      rcases List.mem_cons.mp mem with rfl | later
      · cases found.symm.trans at'
        exact Monotone.atMostTrans _ _ _ new first
      · exact others other later token at' live
    · obtain ⟨first, others⟩ := ih best
      rw [next]
      refine ⟨first, fun other mem token at' live => ?_⟩
      rcases List.mem_cons.mp mem with rfl | later
      · rw [dead token at'] at live
        cases live
      · exact others other later token at' live

theorem arrivalSet (t : Transitions α) (matrix target : Nat) (best : Token α) {sources : List Nat}
    (states : List (Token α)) {place : Nat} (away : ∀ source ∈ sources, source ≠ place) (token : Token α) :
    arrival t matrix target best sources (states.set place token) =
      arrival t matrix target best sources states := by
  induction sources generalizing best with
  | nil => rfl
  | cons source rest ih =>
    have other : place ≠ source := (away source List.mem_cons_self).symm
    have same : (states.set place token).getD source Token.dead = states.getD source Token.dead := by
      simp only [List.getD_eq_getElem?_getD, List.getElem?_set_ne other]
    simp only [arrival, List.foldl_cons, same]
    exact ih _ fun s mem => away s (List.mem_cons_of_mem source mem)

theorem incomingSet (t : Transitions α) (p : PhoneModel α) (states : List (Token α)) {target place : Nat}
    (before : target < place) (token : Token α) :
    incoming t p (states.set place token) target = incoming t p states target :=
  arrivalSet t p.matrix target _ states (fun source mem => by have := List.mem_range.mp mem; omega) token

theorem sweepAt (t : Transitions α) (compute : Nat → α) (p : PhoneModel α) (count : Nat)
    (states : List (Token α)) (best : α) (place : Nat) :
    (sweep t (direct compute) p count states best ()).1[place]? =
      if place < count then states[place]?.map fun _ => scored compute p place (incoming t p states place)
      else states[place]? := by
  induction count generalizing states best with
  | zero => rfl
  | succ state ih =>
    have emitted : (emit (direct compute) p state (incoming t p states state) best ()).1 =
        scored compute p state (incoming t p states state) := by
      unfold emit scored
      cases (incoming t p states state).isLive <;> rfl
    simp only [sweep]
    rw [ih, emitted]
    by_cases here : place = state
    · subst here
      simp only [Nat.lt_irrefl, if_false, Nat.lt_succ_self, if_true, List.getElem?_set_self']
      cases states[place]? <;> rfl
    · rw [List.getElem?_set_ne fun h => here h.symm]
      by_cases before : place < state
      · rw [if_pos before, if_pos (Nat.lt_succ_of_lt before), incomingSet t p states before]
      · rw [if_neg before, if_neg (by omega)]

theorem advanceMoved (t : Transitions α) (compute : Nat → α) (p : PhoneModel α) (best : α) :
    (p.advance t (direct compute) best ()).1 = p.moved t compute := by
  have states : (sweep t (direct compute) p p.states.length p.states best ()).1 =
      (List.range p.states.length).map fun state => scored compute p state (incoming t p p.states state) := by
    refine List.ext_getElem? fun place => ?_
    rw [sweepAt, List.getElem?_map]
    by_cases inside : place < p.states.length
    · simp [inside]
    · simp [inside]
  simp only [advance, moved, states]

theorem movedAt {t : Transitions α} {compute : Nat → α} {p : PhoneModel α} {place : Nat}
    (inside : place < p.states.length) :
    (p.moved t compute).states[place]? = some (scored compute p place (incoming t p p.states place)) := by
  simp [moved, inside]

theorem movedSize (t : Transitions α) (compute : Nat → α) (p : PhoneModel α) :
    (p.moved t compute).states.length = p.states.length := by
  simp [moved]

theorem movedClear (t : Transitions α) (compute : Nat → α) (p : PhoneModel α) :
    (p.moved t compute).clear = p.clear := by
  simp only [clear, moved, List.map_map, PhoneModel.mk.injEq, true_and, and_true]
  exact List.ext_getElem (by simp) (by simp)

/-- A live token has come from the entry or from a live token of a state that is not behind, and has added the
acoustic score. -/
theorem movedFrom [Score.Ordered α] {t : Transitions α} {compute : Nat → α} {p : PhoneModel α} {place : Nat}
    {token : Token α} (found : (p.moved t compute).states[place]? = some token) (live : token.isLive = true) :
    place < p.states.length ∧
      ((place = 0 ∧ p.entry.isLive = true ∧ token = p.entry.add (compute (p.senones.getD place 0))) ∨
        ∃ source, source ≤ place ∧ ∃ held, p.states[source]? = some held ∧ held.isLive = true ∧
          (held.add (t.get p.matrix source place)).isLive = true ∧
          token = (held.add (t.get p.matrix source place)).add (compute (p.senones.getD place 0))) := by
  have inside : place < p.states.length := by
    rw [← movedSize t compute]
    exact (List.getElem?_eq_some_iff.mp found).1
  rw [movedAt inside] at found
  have known := Option.some.inj found
  have reached : (incoming t p p.states place).isLive = true := by
    cases dead : (incoming t p p.states place).isLive with
    | true => rfl
    | false =>
      rw [scored, dead] at known
      rw [← known] at live
      exact dead.symm.trans live
  rw [scored, if_pos reached] at known
  refine ⟨inside, ?_⟩
  rcases arrivalFrom t p.matrix place (if place = 0 then p.entry else Token.dead) (List.range (place + 1))
    p.states with entered | ⟨source, mem, held, found, alive, came⟩
  · have origin : incoming t p p.states place = if place = 0 then p.entry else Token.dead := entered
    rw [origin] at known reached
    by_cases first : place = 0
    · rw [if_pos first] at known reached
      exact .inl ⟨first, reached, known.symm⟩
    · rw [if_neg first, Token.deadNotLive] at reached
      cases reached
  · have origin : incoming t p p.states place = held.add (t.get p.matrix source place) := came
    rw [origin] at known reached
    exact .inr ⟨source, Nat.lt_succ_iff.mp (List.mem_range.mp mem), held, found, alive, reached, known.symm⟩

theorem leavingFrom [Score.Ordered α] {t : Transitions α} {p : PhoneModel α} (live : (p.leaving t).isLive = true) :
    ∃ (source : Nat) (held : Token α), p.states[source]? = some held ∧ held.isLive = true ∧
      p.leaving t = held.add (t.get p.matrix source p.states.length) := by
  rcases arrivalFrom t p.matrix p.states.length Token.dead (List.range p.states.length) p.states with
    none | ⟨source, _, held, found, alive, came⟩
  · have dead : p.leaving t = Token.dead := none
    rw [dead, Token.deadNotLive] at live
    cases live
  · exact ⟨source, held, found, alive, came⟩

variable [Monotone α]

theorem movedAtLeast (t : Transitions α) (compute : Nat → α) {p : PhoneModel α} {place : Nat}
    (inside : place < p.states.length) {a : α} (reached : Score.atMost a (incoming t p p.states place).score = true)
    (live : Score.isLive a = true) : ∃ token, (p.moved t compute).states[place]? = some token ∧
      Score.atMost (a + compute (p.senones.getD place 0)) token.score = true := by
  refine ⟨_, movedAt inside, ?_⟩
  have alive : (incoming t p p.states place).isLive = true := Score.liveAtMost live reached
  rw [scored, if_pos alive]
  exact Monotone.addMonotone _ _ _ reached

theorem incomingEntry (t : Transitions α) (p : PhoneModel α) :
    Score.atMost p.entry.score (incoming t p p.states 0).score = true :=
  (arrivalAtLeast t p.matrix 0 p.entry (List.range 1) p.states).1

theorem incomingState (t : Transitions α) (p : PhoneModel α) {source target : Nat} (forward : source ≤ target)
    {held : Token α} (found : p.states[source]? = some held) (live : held.isLive = true) :
    Score.atMost (held.score + t.get p.matrix source target) (incoming t p p.states target).score = true :=
  (arrivalAtLeast t p.matrix target _ (List.range (target + 1)) p.states).2 source
    (List.mem_range.mpr (Nat.lt_succ_of_le forward)) held found live

theorem leavingAtLeast (t : Transitions α) (p : PhoneModel α) {source : Nat} {held : Token α}
    (found : p.states[source]? = some held) (live : held.isLive = true) :
    Score.atMost (held.score + t.get p.matrix source p.states.length) (p.leaving t).score = true :=
  (arrivalAtLeast t p.matrix p.states.length Token.dead (List.range p.states.length) p.states).2 source
    (List.mem_range.mpr (List.getElem?_eq_some_iff.mp found).1) held found live

end PhoneModel

end SpeechDecoder.Search
