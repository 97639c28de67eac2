import SpeechDecoder.Proofs.Arithmetic
import SpeechDecoder.Search.WordModel

/-! What of a word decides how it goes on: its live tokens and what waits at its entries. Tokens that are not
live are as good as dead ones, also when their scores are no numbers. -/
namespace SpeechDecoder.Search

open Model (Transitions PhoneSet)
open Score (Ordered Held)

variable {α : Type} [Score α]

namespace Token

def settled (t : Token α) : Token α := if t.isLive then t else dead

theorem settledDead : (dead : Token α).settled = dead := by
  simp [settled]

theorem deadNotLive [Ordered α] : (dead : Token α).isLive = false := Ordered.impossibleNotLive

theorem settledLive [Ordered α] (t : Token α) : t.settled.isLive = t.isLive := by
  unfold settled
  cases live : t.isLive with
  | true => simp [live]
  | false => simp [deadNotLive]

end Token

namespace PhoneModel

def settled (p : PhoneModel α) : PhoneModel α := { p with states := p.states.map Token.settled }

theorem settledEq {p q : PhoneModel α} : p.settled = q.settled ↔ p.matrix = q.matrix ∧
    p.senones = q.senones ∧ p.states.map Token.settled = q.states.map Token.settled ∧ p.entry = q.entry := by
  simp only [settled, mk.injEq]

/-- Who answers gives what `compute` says, whatever is remembered, as long as `valid` holds of it. -/
def Answers {σ : Type} (ask : Nat → σ → α × σ) (compute : Nat → α) (valid : σ → Prop) : Prop :=
  ∀ senone memory, valid memory → (ask senone memory).1 = compute senone ∧ valid (ask senone memory).2

def direct (compute : Nat → α) (senone : Nat) (memory : Unit) : α × Unit := (compute senone, memory)

theorem getSettled (states : List (Token α)) (place : Nat) :
    (states.map Token.settled).getD place Token.dead = (states.getD place Token.dead).settled := by
  simp only [List.getD_eq_getElem?_getD, List.getElem?_map]
  cases states[place]? with
  | none => exact Token.settledDead.symm
  | some t => rfl

theorem arrivalSettled [Ordered α] (t : Transitions α) (matrix target : Nat) (best : Token α) (sources : List Nat)
    (states : List (Token α)) :
    arrival t matrix target best sources (states.map Token.settled) =
      arrival t matrix target best sources states := by
  induction sources generalizing best with
  | nil => rfl
  | cons source rest ih =>
    simp only [arrival, List.foldl_cons] at ih ⊢
    rw [ih, getSettled, Token.settledLive]
    cases live : (states.getD source Token.dead).isLive with
    | true => simp only [if_true, Token.settled, live]
    | false => rfl

theorem incomingAlike [Ordered α] {p q : PhoneModel α} (t : Transitions α) {states others : List (Token α)}
    (kind : p.matrix = q.matrix) (entry : p.entry = q.entry)
    (same : states.map Token.settled = others.map Token.settled) (target : Nat) :
    incoming t p states target = incoming t q others target := by
  unfold incoming
  rw [← arrivalSettled, same, arrivalSettled, kind, entry]

theorem clearSettled (p : PhoneModel α) : p.settled.clear = p.clear := by
  simp only [clear, settled, List.map_map]
  rfl

theorem clearIsSettled (p : PhoneModel α) : p.clear.settled = p.clear := by
  simp only [clear, settled, List.map_map, PhoneModel.mk.injEq, List.map_inj_left, true_and, and_true]
  intro t _
  exact Token.settledDead

theorem makeClear (phones : PhoneSet) (id : Nat) : (make phones id : PhoneModel α).clear = make phones id := by
  unfold make clear
  cases phones.phone? id <;> simp only [List.map_replicate]

theorem pruneSettled (threshold : α) (p : PhoneModel α) :
    (p.settled.prune threshold).settled = (p.prune threshold).settled := by
  simp only [prune, settled, List.map_map, PhoneModel.mk.injEq, List.map_inj_left, true_and, and_true]
  intro t _
  simp only [Function.comp_apply]
  cases live : t.isLive with
  | true => simp only [Token.settled, live, if_true]
  | false =>
    have known : t.settled = Token.dead := by simp only [Token.settled, live, Bool.false_eq_true, if_false]
    rw [known]
    split <;> split <;> simp only [Token.settledDead, known]

theorem clearStates (p : PhoneModel α) : ∀ x ∈ p.clear.states, x = Token.dead := by
  simp [clear]

theorem clearClear (p : PhoneModel α) : p.clear.clear = p.clear := by
  simp only [clear, List.map_map]
  rfl

variable {σ : Type} {ask : Nat → σ → α × σ} {compute : Nat → α} {valid : σ → Prop}

theorem emitAnswers (answers : Answers ask compute valid) {p q : PhoneModel α}
    (senones : p.senones = q.senones) (state : Nat) (token : Token α) (best : α) {memory : σ}
    (held : valid memory) : ∃ memory', valid memory' ∧ emit ask p state token best memory =
      ((emit (direct compute) q state token best ()).1, (emit (direct compute) q state token best ()).2.1,
        memory') := by
  obtain ⟨said, still⟩ := answers (q.senones.getD state 0) memory held
  unfold emit
  cases token.isLive with
  | true => exact ⟨_, still, by simp only [if_true, direct, senones, said]⟩
  | false => exact ⟨memory, held, rfl⟩

variable [Ordered α]

theorem sweepAlike (answers : Answers ask compute valid) {p q : PhoneModel α} (t : Transitions α)
    (kind : p.matrix = q.matrix) (senones : p.senones = q.senones) (entry : p.entry = q.entry)
    (count : Nat) {states others : List (Token α)}
    (same : states.map Token.settled = others.map Token.settled) (best : α) {memory : σ}
    (held : valid memory) : ∃ states' memory', valid memory' ∧
      sweep t ask p count states best memory =
        (states', (sweep t (direct compute) q count others best ()).2.1, memory') ∧
      states'.map Token.settled =
        (sweep t (direct compute) q count others best ()).1.map Token.settled := by
  induction count generalizing states others best memory with
  | zero => exact ⟨states, memory, held, rfl, same⟩
  | succ state ih =>
    obtain ⟨memory', held', given⟩ := emitAnswers answers senones state (incoming t p states state) best held
    rw [incomingAlike t kind entry same state] at given
    simp only [sweep, incomingAlike t kind entry same state, given]
    refine ih ?_ _ held'
    simp only [List.map_set, same]

/-- Phones that differ in tokens that are not live move alike. -/
theorem advanceAlike (answers : Answers ask compute valid) {p q : PhoneModel α} (t : Transitions α)
    (same : p.settled = q.settled) (best : α) {memory : σ} (held : valid memory) :
    ∃ p' memory', valid memory' ∧ p.advance t ask best memory =
        (p', (q.advance t (direct compute) best ()).2.1, memory') ∧
      p'.settled = (q.advance t (direct compute) best ()).1.settled := by
  obtain ⟨kind, senones, tokens, entry⟩ := settledEq.mp same
  have size : p.states.length = q.states.length := by simpa using congrArg List.length tokens
  obtain ⟨states', memory', held', moved, alike⟩ :=
    sweepAlike answers t kind senones entry q.states.length tokens best held
  refine ⟨{ p with states := states', entry := Token.dead }, memory', held', ?_, ?_⟩
  · simp only [advance, size, moved]
  · simp only [advance, settled, kind, senones, alike]

theorem leavingSettled (t : Transitions α) (p : PhoneModel α) : p.settled.leaving t = p.leaving t := by
  simp only [leaving, settled, List.length_map, arrivalSettled]

theorem arrivalDead (t : Transitions α) (matrix target : Nat) (best : Token α) (sources : List Nat)
    {states : List (Token α)} (dead : ∀ x ∈ states, x = Token.dead) :
    arrival t matrix target best sources states = best := by
  have held (place : Nat) : (states.getD place Token.dead).isLive = false := by
    rw [List.getD_eq_getElem?_getD]
    cases found : states[place]? with
    | none => exact Token.deadNotLive
    | some x =>
      rw [dead x (List.mem_of_getElem? found)]
      exact Token.deadNotLive
  induction sources with
  | nil => rfl
  | cons source rest ih =>
    simpa only [arrival, List.foldl_cons, held source, Bool.false_eq_true, if_false] using ih

theorem sweepDead (t : Transitions α) (ask : Nat → σ → α × σ) (p : PhoneModel α) (count : Nat)
    {states : List (Token α)} (dead : ∀ x ∈ states, x = Token.dead) (entry : p.entry = Token.dead)
    (best : α) (memory : σ) : sweep t ask p count states best memory = (states, best, memory) := by
  induction count with
  | zero => rfl
  | succ state ih =>
    have none : incoming t p states state = Token.dead := by
      rw [incoming, arrivalDead t p.matrix state _ _ dead]
      split
      · exact entry
      · rfl
    have same : states.set state Token.dead = states := by
      refine List.ext_getElem (by simp) ?_
      intro place inside _
      rw [List.getElem_set]
      split
      · exact (dead _ (List.getElem_mem _)).symm
      · rfl
    simp only [sweep, emit, none, Token.deadNotLive, Bool.false_eq_true, if_false, same, ih]

theorem advanceClear (t : Transitions α) (ask : Nat → σ → α × σ) (p : PhoneModel α) (best : α) (memory : σ) :
    p.clear.advance t ask best memory = (p.clear, best, memory) := by
  simp only [advance, sweepDead t ask p.clear _ (clearStates p) rfl]
  rfl

theorem leavingClear (t : Transitions α) (p : PhoneModel α) : p.clear.leaving t = Token.dead :=
  arrivalDead t _ _ _ _ (clearStates p)

end PhoneModel

namespace WordModel

def settled (w : WordModel α) : WordModel α := ⟨w.phones.map PhoneModel.settled⟩

def Idle (w : WordModel α) : Prop := w.settled = w.clear

def scores (w : WordModel α) : List α := (w.phones.flatMap PhoneModel.states).map Token.score

theorem clearSettled (w : WordModel α) : w.settled.clear = w.clear := by
  simp only [clear, settled, List.map_map]
  congr 1
  exact List.map_congr_left fun p _ => p.clearSettled

theorem clearIsSettled (w : WordModel α) : w.clear.settled = w.clear := by
  simp only [clear, settled, List.map_map, Function.comp_def, PhoneModel.clearIsSettled]

theorem clearClear (w : WordModel α) : w.clear.clear = w.clear := by
  simp only [clear, List.map_map, Function.comp_def, PhoneModel.clearClear]

theorem clearIdle (w : WordModel α) : w.clear.Idle := by
  unfold Idle
  rw [clearIsSettled, clearClear]

theorem makeClear (phones : PhoneSet) (ids : List Nat) :
    (make phones ids : WordModel α).clear = make phones ids := by
  simp only [make, clear, List.map_map, Function.comp_def, PhoneModel.makeClear]

theorem makeIdle (phones : PhoneSet) (ids : List Nat) : (make phones ids : WordModel α).Idle := by
  rw [← makeClear]
  exact clearIdle _

theorem Idle.of {w v : WordModel α} (idle : w.Idle) (same : w.settled = v.settled) : v.Idle := by
  unfold Idle at *
  rw [← same, idle, ← clearSettled, same, clearSettled]

theorem acceptsSettled (w : WordModel α) (token : Token α) : w.settled.accepts token = w.accepts token := by
  unfold accepts entry settled
  cases w.phones <;> rfl

theorem offerSettled (w : WordModel α) (token : Token α) : (w.offer token).settled = w.settled.offer token := by
  cases w with
  | mk phones => cases phones <;> rfl

theorem pruneSettled (threshold : α) (w : WordModel α) :
    (w.settled.prune threshold).settled = (w.prune threshold).settled := by
  simp only [prune, settled, List.map_map]
  congr 1
  exact List.map_congr_left fun p _ => p.pruneSettled threshold

theorem advancePhonesEntries {σ : Type} (t : Transitions α) (ask : Nat → σ → α × σ) (phones : List (PhoneModel α))
    (best : α) (memory : σ) :
    ∀ p ∈ (advancePhones t ask phones best memory).1, p.entry = Token.dead := by
  induction phones generalizing best memory with
  | nil => simp [advancePhones]
  | cons p rest ih =>
    intro q mem
    rcases List.mem_cons.mp mem with rfl | later
    · rfl
    · exact ih _ _ q later

theorem advanceEntries {σ : Type} (t : Transitions α) (ask : Nat → σ → α × σ) (w : WordModel α) (memory : σ) :
    ∀ p ∈ (w.advance t ask memory).1.phones, p.entry = Token.dead :=
  advancePhonesEntries t ask w.phones _ memory

theorem Idle.prune {w : WordModel α} (idle : w.Idle) (threshold : α) :
    (w.prune threshold).settled = w.settled := by
  rw [← pruneSettled, idle]
  have same : w.clear.prune threshold = w.clear := by
    simp only [WordModel.prune, clear, List.map_map, Function.comp_def, PhoneModel.prune, PhoneModel.clear,
      ite_self]
    rfl
  rw [same, clearIsSettled]

theorem crossPhonesStates (t : Transitions α) (penalty threshold : α) (offered : Option (Token α))
    (phones : List (PhoneModel α)) :
    (crossPhones t penalty threshold offered phones).map PhoneModel.states = phones.map PhoneModel.states := by
  induction phones generalizing offered with
  | nil => rfl
  | cons p rest ih =>
    simp only [crossPhones, List.map_cons, ih]
    cases offered <;> rfl

theorem crossBestScore (t : Transitions α) (penalty threshold : α) (w : WordModel α) :
    (w.cross t penalty threshold).bestScore = w.bestScore := by
  simp only [bestScore, cross, List.flatMap_def, crossPhonesStates]

section
variable [Ordered α]

theorem crossingSettled (t : Transitions α) (penalty threshold : α) (p : PhoneModel α) :
    crossing? t penalty threshold p.settled = crossing? t penalty threshold p := by
  simp only [crossing?, PhoneModel.leavingSettled]

theorem crossPhonesSettled (t : Transitions α) (penalty threshold : α) (offered : Option (Token α))
    (phones : List (PhoneModel α)) :
    (crossPhones t penalty threshold offered phones).map PhoneModel.settled =
      crossPhones t penalty threshold offered (phones.map PhoneModel.settled) := by
  induction phones generalizing offered with
  | nil => rfl
  | cons p rest ih =>
    simp only [crossPhones, List.map_cons, ih, crossingSettled]
    cases offered <;> rfl

theorem crossSettled (t : Transitions α) (penalty threshold : α) (w : WordModel α) :
    (w.cross t penalty threshold).settled = w.settled.cross t penalty threshold := by
  simp only [cross, settled, crossPhonesSettled]

theorem leavingSettled (t : Transitions α) (threshold : α) (w : WordModel α) :
    w.settled.leaving? t threshold = w.leaving? t threshold := by
  simp only [leaving?, settled, List.getLast?_map]
  cases w.phones.getLast? with
  | none => rfl
  | some p => simp only [Option.map_some, PhoneModel.leavingSettled]

theorem liveSettled (states : List (Token α)) :
    ((states.map Token.settled).map Token.score).filter Score.isLive =
      (states.map Token.score).filter Score.isLive := by
  induction states with
  | nil => rfl
  | cons t rest ih =>
    have same : Score.isLive t.settled.score = Score.isLive t.score := t.settledLive
    simp only [List.map_cons, List.filter_cons, same, ih]
    cases live : Score.isLive t.score with
    | true =>
      have known : t.settled = t := if_pos live
      rw [known]
    | false => rfl

theorem bestScoreSettled (w : WordModel α) : w.settled.bestScore = w.bestScore := by
  unfold bestScore
  rw [← Score.largestFilter, ← Score.largestFilter ((w.phones.flatMap _).map _)]
  congr 1
  simp only [settled]
  induction w.phones with
  | nil => rfl
  | cons p rest ih =>
    simp only [List.map_cons, List.flatMap_cons, List.map_append, List.filter_append, ih]
    congr 1
    exact liveSettled p.states

theorem bestScoreLive (w : WordModel α) :
    Score.isLive w.bestScore = w.phones.any fun p => p.states.any Token.isLive := by
  rw [bestScore, Score.largestLive, List.any_map, List.any_flatMap]
  rfl

theorem idleOfBest {w : WordModel α} (entries : ∀ p ∈ w.phones, p.entry = Token.dead)
    (dead : Score.isLive w.bestScore = false) : w.Idle := by
  rw [bestScoreLive, List.any_eq_false] at dead
  unfold Idle settled clear
  congr 1
  refine List.map_congr_left fun p mem => ?_
  have states := dead p mem
  rw [List.any_eq_true] at states
  simp only [PhoneModel.settled, PhoneModel.clear, entries p mem, PhoneModel.mk.injEq, true_and, and_true]
  refine List.map_congr_left fun t held => ?_
  exact if_neg fun live => states ⟨t, held, live⟩

variable {σ : Type} {ask : Nat → σ → α × σ} {compute : Nat → α} {valid : σ → Prop}

open PhoneModel (Answers direct)

theorem advancePhonesAlike (answers : Answers ask compute valid) (t : Transitions α)
    {phones others : List (PhoneModel α)}
    (same : phones.map PhoneModel.settled = others.map PhoneModel.settled) (best : α) {memory : σ}
    (held : valid memory) : ∃ phones' memory', valid memory' ∧
      advancePhones t ask phones best memory =
        (phones', (advancePhones t (direct compute) others best ()).2.1, memory') ∧
      phones'.map PhoneModel.settled =
        (advancePhones t (direct compute) others best ()).1.map PhoneModel.settled := by
  induction phones generalizing others best memory with
  | nil =>
    cases others with
    | nil => exact ⟨[], memory, held, rfl, rfl⟩
    | cons q rest => cases same
  | cons p rest ih =>
    cases others with
    | nil => cases same
    | cons q others =>
      simp only [List.map_cons, List.cons.injEq] at same
      obtain ⟨p', memory', held', moved, alike⟩ := PhoneModel.advanceAlike answers t same.1 best held
      obtain ⟨rest', memory'', held'', moved', alikes⟩ := ih same.2 (q.advance t (direct compute) best ()).2.1 held'
      refine ⟨p' :: rest', memory'', held'', ?_, ?_⟩
      · simp only [advancePhones, moved, moved']
      · simp only [advancePhones, List.map_cons, alike, alikes]

theorem advanceAlike (answers : Answers ask compute valid) (t : Transitions α) {w v : WordModel α}
    (same : w.settled = v.settled) {m : σ} (held : valid m) :
    ∃ w' memory', valid memory' ∧
      w.advance t ask m = (w', (v.advance t (direct compute) ()).2.1, memory') ∧
      w'.settled = (v.advance t (direct compute) ()).1.settled := by
  obtain ⟨phones, memory', held', moved, alike⟩ :=
    advancePhonesAlike answers t (WordModel.mk.inj same) Score.impossible held
  refine ⟨⟨phones⟩, memory', held', ?_, ?_⟩
  · simp only [advance, moved]
  · simp only [advance, settled, alike]

theorem advancePhonesClear (t : Transitions α) (ask : Nat → σ → α × σ) (phones : List (PhoneModel α))
    (best : α) (memory : σ) : advancePhones t ask (phones.map PhoneModel.clear) best memory =
      (phones.map PhoneModel.clear, best, memory) := by
  induction phones with
  | nil => rfl
  | cons p rest ih => simp only [List.map_cons, advancePhones, PhoneModel.advanceClear, ih]

theorem Idle.advance {w : WordModel α} (idle : w.Idle) (t : Transitions α) (compute : Nat → α) :
    (w.advance t (direct compute) ()).1.settled = w.settled ∧
      (w.advance t (direct compute) ()).2.1 = Score.impossible := by
  have answers : Answers (direct compute) compute fun _ => True := fun _ _ _ => ⟨rfl, trivial⟩
  have same : w.clear.settled = w.settled := by rw [clearIsSettled, idle]
  obtain ⟨w', _, _, moved, alike⟩ := advanceAlike answers t same (m := ()) trivial
  have still : w.clear.advance t (direct compute) () = (w.clear, Score.impossible, ()) := by
    simp only [WordModel.advance, clear, advancePhonesClear]
  rw [still, Prod.mk.injEq, Prod.mk.injEq] at moved
  obtain ⟨rfl, reached, _⟩ := moved
  exact ⟨alike.symm.trans same, reached.symm⟩

theorem crossPhonesClear (t : Transitions α) (penalty threshold : α) (phones : List (PhoneModel α)) :
    crossPhones t penalty threshold none (phones.map PhoneModel.clear) = phones.map PhoneModel.clear := by
  induction phones with
  | nil => rfl
  | cons p rest ih =>
    have none : crossing? t penalty threshold p.clear = none := by
      simp only [crossing?, PhoneModel.leavingClear, Token.deadNotLive, Bool.false_and, Bool.false_eq_true,
        if_false]
    simp only [List.map_cons, crossPhones, none, ih]

theorem Idle.cross {w : WordModel α} (idle : w.Idle) (t : Transitions α) (penalty threshold : α) :
    (w.cross t penalty threshold).settled = w.settled := by
  rw [crossSettled, idle]
  simp only [WordModel.cross, clear, crossPhonesClear]

theorem Idle.leaving {w : WordModel α} (idle : w.Idle) (t : Transitions α) (threshold : α) :
    w.leaving? t threshold = none := by
  rw [← leavingSettled, idle]
  simp only [leaving?, clear, List.getLast?_map]
  cases w.phones.getLast? with
  | none => rfl
  | some p =>
    simp only [Option.map_some, PhoneModel.leavingClear, Token.deadNotLive, Bool.false_and,
      Bool.false_eq_true, if_false]

theorem Idle.bestScore {w : WordModel α} (idle : w.Idle) : Score.isLive w.bestScore = false := by
  rw [← bestScoreSettled, idle, bestScoreLive, List.any_eq_false]
  intro p mem live
  obtain ⟨q, _, rfl⟩ := List.mem_map.mp mem
  obtain ⟨t, held, live⟩ := List.any_eq_true.mp live
  rw [q.clearStates t held, Token.deadNotLive] at live
  cases live

theorem Idle.notLive {w : WordModel α} (idle : w.Idle) : w.isLive = false := by
  have phones := List.map_inj_left.mp (WordModel.mk.inj idle)
  have states := idle.bestScore
  rw [bestScoreLive, List.any_eq_false] at states
  refine List.any_eq_false.mpr fun p mem live => ?_
  have entry : p.entry = Token.dead := congrArg PhoneModel.entry (phones p mem)
  rw [PhoneModel.isLive, entry, Token.deadNotLive, Bool.or_false] at live
  exact states p mem live

theorem isLiveOfBest {w : WordModel α} (live : Score.isLive w.bestScore = true) : w.isLive = true := by
  rw [bestScoreLive, List.any_eq_true] at live
  obtain ⟨p, mem, live⟩ := live
  refine List.any_eq_true.mpr ⟨p, mem, ?_⟩
  simp only [PhoneModel.isLive, live, Bool.true_or]

end

end WordModel

end SpeechDecoder.Search
