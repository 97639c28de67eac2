import SpeechDecoder.Proofs.Decimal.Order
import SpeechDecoder.Proofs.Model.Transitions
import SpeechDecoder.Proofs.Search.Alignment

/-! A frame moves all states of a word together. The states of a phone are updated where they are, and look only at
those that are not behind them; with matrices that lead nowhere back this is an update of all states from a copy, which
looks at all of them. -/
namespace SpeechDecoder.Search

open Model (Transitions)
open Score (Ordered Held)
open Float.Model (UnpackedFloat)

/-! ### The update from a copy -/

section
variable {α : Type} [Score α]

namespace Token

def isTop (tokens : List (Token α)) (x : Token α) : Bool := tokens.all fun y => !Score.below x.score y.score

/-- The first token that none is above. -/
def foremost (tokens : List (Token α)) : Token α := (tokens.find? (isTop tokens)).getD dead

end Token

namespace PhoneModel

/-- What may come into a state: what waits at the entry, for the first one, and live tokens from all states. -/
def candidates (t : Transitions α) (p : PhoneModel α) (target : Nat) : List (Token α) :=
  (if target = 0 then p.entry else Token.dead) ::
    ((List.range p.states.length).map fun source =>
      (p.states.getD source Token.dead).add (t.get p.matrix source target)).filter Token.isLive

def together (t : Transitions α) (compute : Nat → α) (p : PhoneModel α) : PhoneModel α :=
  { p with
    states := (List.range p.states.length).map fun target =>
      let token := Token.foremost (candidates t p target)
      if token.isLive then token.add (compute (p.senones.getD target 0)) else token
    entry := Token.dead }

end PhoneModel

def WordModel.together (t : Transitions α) (compute : Nat → α) (w : WordModel α) : WordModel α :=
  ⟨w.phones.map (PhoneModel.together t compute)⟩

end

/-! ### What is asked, and the best score -/

section
variable {α σ : Type} [Score α] {ask : Nat → σ → α × σ} {compute : Nat → α} {valid : σ → Prop}

namespace PhoneModel

theorem sweepAnswers (answers : Answers ask compute valid) (t : Transitions α) (p : PhoneModel α) (count : Nat)
    (states : List (Token α)) (best : α) {memory : σ} (held : valid memory) : ∃ memory', valid memory' ∧
      sweep t ask p count states best memory = ((sweep t (direct compute) p count states best ()).1,
        (sweep t (direct compute) p count states best ()).2.1, memory') := by
  induction count generalizing states best memory with
  | zero => exact ⟨memory, held, rfl⟩
  | succ state ih =>
    obtain ⟨memory', held', given⟩ := emitAnswers answers (p := p) rfl state (incoming t p states state) best held
    simp only [sweep, given]
    exact ih _ _ held'

theorem sweepBest [Ordered α] (t : Transitions α) (p : PhoneModel α) (count : Nat) (states : List (Token α))
    {best : α} (number : Held best) : Held (sweep t (direct compute) p count states best ()).2.1 ∧
      (sweep t (direct compute) p count states best ()).2.1 = (((List.range count).map fun state =>
        scored compute p state (incoming t p states state)).map Token.score).reverse.foldl Score.larger best := by
  induction count generalizing states best with
  | zero => exact ⟨number, rfl⟩
  | succ state ih =>
    have emitted : emit (direct compute) p state (incoming t p states state) best () =
        (scored compute p state (incoming t p states state),
          Score.larger best (scored compute p state (incoming t p states state)).score, ()) := by
      unfold emit scored
      cases live : (incoming t p states state).isLive with
      | true => rfl
      | false => exact congrArg (_, ·, ()) (Ordered.largerNotLive best _ number live).symm
    have earlier : (List.range state).map (fun s => scored compute p s (incoming t p
        (states.set state (scored compute p state (incoming t p states state))) s)) =
        (List.range state).map fun s => scored compute p s (incoming t p states s) :=
      List.map_congr_left fun s mem => by rw [incomingSet t p states (List.mem_range.mp mem)]
    simp only [sweep, emitted]
    obtain ⟨number', same⟩ := ih (states.set state _) (Ordered.largerHeld best _ number)
    refine ⟨number', same.trans ?_⟩
    rw [earlier, List.range_succ]
    simp only [List.map_append, List.reverse_append, List.map_cons, List.map_nil, List.reverse_singleton,
      List.singleton_append, List.foldl_cons]

end PhoneModel

namespace WordModel

theorem advancePhonesAnswers (answers : PhoneModel.Answers ask compute valid) (t : Transitions α)
    (phones : List (PhoneModel α)) (best : α) {memory : σ} (held : valid memory) : ∃ memory', valid memory' ∧
      advancePhones t ask phones best memory = ((advancePhones t (PhoneModel.direct compute) phones best ()).1,
        (advancePhones t (PhoneModel.direct compute) phones best ()).2.1, memory') := by
  induction phones generalizing best memory with
  | nil => exact ⟨memory, held, rfl⟩
  | cons p rest ih =>
    obtain ⟨memory', held', given⟩ := PhoneModel.sweepAnswers answers t p p.states.length p.states best held
    simp only [advancePhones, PhoneModel.advance, given]
    obtain ⟨last, held', given⟩ := ih _ held'
    exact ⟨last, held', by rw [given]⟩

theorem advancePhonesBest [Ordered α] (t : Transitions α) (phones : List (PhoneModel α)) {best : α}
    (number : Held best) : (advancePhones t (PhoneModel.direct compute) phones best ()).2.1 =
      (phones.flatMap fun p => ((p.moved t compute).states.map Token.score).reverse).foldl Score.larger best := by
  induction phones generalizing best with
  | nil => rfl
  | cons p rest ih =>
    obtain ⟨number', swept⟩ := @PhoneModel.sweepBest α _ compute _ t p p.states.length p.states best number
    simp only [advancePhones, PhoneModel.advance, List.flatMap_cons, List.foldl_append]
    rw [ih number', swept]
    rfl

end WordModel

end

/-! ### Singles -/

section
variable [Elementary]

/-- The largest of the scores that are live, if there are any. -/
def Largest (scores : List Float32) (best : Float32) : Prop :=
  (∀ x ∈ scores, Score.isLive x = true → x ≤ best) ∧
    (best ∈ scores ∧ Score.isLive best = true ∨
      best = Single.impossible ∧ ∀ x ∈ scores, Score.isLive x = false)

theorem addedRight {x y : Float32} (live : Score.isLive (x + y) = true) : Score.isLive y = true :=
  decide_eq_true (Single.liveAdded (of_decide_eq_true live))

omit [Elementary] in
theorem leastAdded {u : UnpackedFloat} (least : u = .notANumber ∨ u = .infinity .negative) (v : UnpackedFloat) :
    u.add .binary32 v = .notANumber ∨ u.add .binary32 v = .infinity .negative := by
  rcases least with rfl | rfl
  · exact .inl rfl
  · cases v with
    | notANumber => exact .inl rfl
    | infinity s =>
      cases s with
      | negative => exact .inr rfl
      | positive => exact .inl rfl
    | _ => exact .inr rfl

theorem addedLeft {x y : Float32} (live : Score.isLive (x + y) = true) : Score.isLive x = true := by
  obtain ⟨number, more⟩ := (Single.impossibleLt _).mp (of_decide_eq_true live)
  refine decide_eq_true ((Single.impossibleLt x).mpr (not_or.mp fun least => ?_))
  rw [Single.addUnpacked] at number more
  rcases leastAdded least (Single.unpacked y) with nan | least
  · rw [nan] at number
    exact number rfl
  · rw [least] at more
    exact more rfl

theorem notBelowDead {x y : Float32} (dead : Score.isLive y = false) : Score.below x y = false :=
  decide_eq_false fun less => of_decide_eq_false dead (Single.ltLive less)

theorem liveNumber {x : Float32} (live : Score.isLive x = true) : x.isNaN = false :=
  Single.ltNumber (of_decide_eq_true live)

theorem foldLargest (xs : List Float32) {best : Float32} (number : best.isNaN = false) :
    best ≤ xs.foldl Score.larger best ∧ (∀ x ∈ xs, Score.isLive x = true → x ≤ xs.foldl Score.larger best) ∧
      (xs.foldl Score.larger best = best ∨
        xs.foldl Score.larger best ∈ xs ∧ Score.isLive (xs.foldl Score.larger best) = true) := by
  induction xs generalizing best with
  | nil =>
    exact ⟨Binary.singleAtMost.mpr ⟨number, number, Int.le_refl _⟩, fun x mem => absurd mem List.not_mem_nil, .inl rfl⟩
  | cons y rest ih =>
    have next : (y :: rest).foldl Score.larger best = rest.foldl Score.larger (if best < y then y else best) :=
      congrArg (rest.foldl Score.larger) (Single.largerNumber number y)
    rw [next]
    by_cases less : best < y
    · obtain ⟨above, others, reached⟩ := ih (Single.ltNumber less)
      rw [if_pos less]
      refine ⟨Binary.singleTrans (Binary.singleWeaken less) above, ?_, ?_⟩
      · intro x mem live
        rcases List.mem_cons.mp mem with rfl | later
        · exact above
        · exact others x later live
      · rcases reached with same | ⟨later, live⟩
        · rw [same]
          exact .inr ⟨List.mem_cons_self, decide_eq_true (Single.ltLive less)⟩
        · exact .inr ⟨List.mem_cons_of_mem y later, live⟩
    · obtain ⟨above, others, reached⟩ := ih number
      rw [if_neg less]
      refine ⟨above, ?_, reached.imp_right fun ⟨later, live⟩ => ⟨List.mem_cons_of_mem y later, live⟩⟩
      intro x mem live
      rcases List.mem_cons.mp mem with rfl | later
      · exact Binary.singleTrans ((Binary.singleNotLess less).mpr ⟨number, liveNumber live⟩) above
      · exact others x later live

theorem foldedLargest {scores xs : List Float32} (same : ∀ x, x ∈ scores ↔ x ∈ xs) :
    Largest scores (xs.foldl Score.larger Single.impossible) := by
  obtain ⟨-, others, reached⟩ := foldLargest xs Single.impossibleNumber
  refine ⟨fun x mem => others x ((same x).mp mem), ?_⟩
  rcases reached with none | ⟨mem, live⟩
  · refine .inr ⟨none, fun x mem => Bool.eq_false_iff.mpr fun live => ?_⟩
    have le := others x ((same x).mp mem) live
    rw [none, Single.leImpossible] at le
    exact ((Single.impossibleLt x).mp (of_decide_eq_true live)).2 le
  · exact .inl ⟨(same _).mpr mem, live⟩

/-! ### The best of what comes in -/

namespace Token

theorem isTopIff {tokens : List (Token Float32)} {x : Token Float32} :
    isTop tokens x = true ↔ ∀ y ∈ tokens, ¬ x.score < y.score := by
  simp [isTop, Score.below]

theorem foremostOffered {best x : Token Float32} (less : best.score < x.score) (rest : List (Token Float32)) :
    foremost (best :: x :: rest) = foremost (x :: rest) := by
  have passed : ¬ isTop (best :: x :: rest) best = true := fun top => isTopIff.mp top x (by simp) less
  rw [foremost, foremost, List.find?_cons_of_neg passed]
  congr 1
  refine List.find?_congr fun y _ => Bool.eq_iff_iff.mpr ?_
  simp only [isTopIff, List.forall_mem_cons]
  exact and_iff_right_of_imp fun top more => top.1 (Binary.singleBefore more (Binary.singleWeaken less))

theorem foremostKept {best x : Token Float32} (less : ¬ best.score < x.score) (number : x.score.isNaN = false)
    (rest : List (Token Float32)) : foremost (best :: x :: rest) = foremost (best :: rest) := by
  by_cases top : isTop (best :: rest) best = true
  · have still : isTop (best :: x :: rest) best = true := by
      rw [isTopIff] at top ⊢
      simp only [List.forall_mem_cons] at top ⊢
      exact ⟨top.1, less, top.2⟩
    rw [foremost, foremost, List.find?_cons_of_pos top, List.find?_cons_of_pos still]
  · obtain ⟨y, mem, above⟩ : ∃ y ∈ rest, best.score < y.score := by
      rw [isTopIff] at top
      push Not at top
      obtain ⟨y, mem, above⟩ := top
      rcases List.mem_cons.mp mem with rfl | mem
      · exact absurd above (Binary.singleIrrefl _)
      · exact ⟨y, mem, above⟩
    -- what is above the best is above the offered one too, which is no better
    have behind : x.score ≤ best.score :=
      (Binary.singleNotLess less).mpr ⟨(Binary.singleLess.mp above).1, number⟩
    have passed : ¬ isTop (best :: x :: rest) best = true := fun top => isTopIff.mp top y (by simp [mem]) above
    have passed' : ¬ isTop (best :: x :: rest) x = true := fun top =>
      isTopIff.mp top y (by simp [mem]) (Binary.singleBelow behind above)
    rw [foremost, foremost, List.find?_cons_of_neg top, List.find?_cons_of_neg passed,
      List.find?_cons_of_neg passed']
    congr 1
    refine List.find?_congr fun z _ => Bool.eq_iff_iff.mpr ?_
    simp only [isTopIff, List.forall_mem_cons]
    refine and_congr_right fun low => and_iff_right_of_imp fun _ more => low ?_
    exact Binary.singleBefore more behind

theorem foldForemost (best : Token Float32) {rest : List (Token Float32)} (live : ∀ x ∈ rest, x.isLive = true) :
    rest.foldl better best = foremost (best :: rest) := by
  induction rest generalizing best with
  | nil =>
    have top : isTop [best] best = true := isTopIff.mpr (List.forall_mem_singleton.mpr (Binary.singleIrrefl _))
    rw [foremost, List.find?_cons_of_pos top]
    rfl
  | cons x rest ih =>
    have later : ∀ y ∈ rest, y.isLive = true := fun y mem => live y (List.mem_cons_of_mem x mem)
    by_cases less : best.score < x.score
    · have next : best.better x = x := if_pos (decide_eq_true less)
      rw [List.foldl_cons, next, ih x later, foremostOffered less]
    · have next : best.better x = best := if_neg (by simpa [Score.below] using less)
      rw [List.foldl_cons, next, ih best later, foremostKept less (liveNumber (live x List.mem_cons_self))]

/-- A token that is added to is as good as none where the sum is not live. -/
theorem betterAdded (best held : Token Float32) (x : Float32) :
    (if held.isLive then best.better (held.add x) else best) =
      if (held.add x).isLive then best.better (held.add x) else best := by
  cases live : (held.add x).isLive with
  | true => exact if_pos (addedLeft live)
  | false =>
    have same : best.better (held.add x) = best := by
      rw [better, notBelowDead live]
      rfl
    rw [same, ite_self, ite_self]

end Token

namespace PhoneModel

theorem arrivalFiltered (t : Transitions Float32) (matrix target : Nat) (best : Token Float32)
    (sources : List Nat) (states : List (Token Float32)) :
    arrival t matrix target best sources states =
      ((sources.map fun source => (states.getD source Token.dead).add (t.get matrix source target)).filter
        Token.isLive).foldl Token.better best := by
  rw [List.foldl_filter, List.foldl_map]
  unfold arrival
  congr 1
  funext best source
  exact Token.betterAdded best _ _

theorem incomingForemost {t : Transitions Float32} {states : Nat} (forward : t.Forward states)
    {p : PhoneModel Float32} (fits : p.states.length ≤ states) {target : Nat} (inside : target < p.states.length) :
    incoming t p p.states target = Token.foremost (candidates t p target) := by
  have split : List.range p.states.length =
      List.range (target + 1) ++ (List.range (p.states.length - (target + 1))).map (target + 1 + ·) := by
    rw [← List.range_add]
    congr 1
    omega
  -- nothing live comes from the states behind the target
  have none : (((List.range (p.states.length - (target + 1))).map (target + 1 + ·)).map fun source =>
      (p.states.getD source Token.dead).add (t.get p.matrix source target)).filter Token.isLive = [] := by
    rw [List.filter_eq_nil_iff]
    intro token mem live
    simp only [List.map_map, List.mem_map, List.mem_range, Function.comp_apply] at mem
    obtain ⟨more, few, rfl⟩ := mem
    have back := forward p.matrix (target + 1 + more) target (by omega) (by omega)
    rw [addedRight live] at back
    cases back
  rw [incoming, arrivalFiltered, Token.foldForemost _ fun x mem => (List.mem_filter.mp mem).2, candidates, split,
    List.map_append, List.filter_append, none, List.append_nil]

theorem movedTogether {t : Transitions Float32} {states : Nat} (forward : t.Forward states)
    {p : PhoneModel Float32} (fits : p.states.length ≤ states) (compute : Nat → Float32) :
    p.moved t compute = p.together t compute := by
  have same : (List.range p.states.length).map (fun state => scored compute p state (incoming t p p.states state)) =
      (List.range p.states.length).map fun state =>
        scored compute p state (Token.foremost (candidates t p state)) :=
    List.map_congr_left fun state mem => by rw [incomingForemost forward fits (List.mem_range.mp mem)]
  rw [moved, same]
  rfl

end PhoneModel

namespace WordModel

/-- Moving the tokens of a word in place, a state after the other, is moving all of them at once, as transitions that
are loaded lead only forward. What waited at the entries is used up, and the best score is given. -/
theorem advancedTogether {σ : Type} {states : Nat} {probabilities : List Float32} {floor : Float32}
    {t : Transitions Float32} (loaded : Transitions.ofProbabilities states probabilities floor = .ok t)
    {ask : Nat → σ → Float32 × σ} {compute : Nat → Float32} {valid : σ → Prop}
    (answers : PhoneModel.Answers ask compute valid) {memory : σ} (held : valid memory) (w : WordModel Float32)
    (fits : ∀ p ∈ w.phones, p.states.length ≤ states) :
    (w.advance t ask memory).1 = w.together t compute ∧
      (∀ p ∈ (w.advance t ask memory).1.phones, p.entry = Token.dead) ∧
      Largest (w.advance t ask memory).1.scores (w.advance t ask memory).2.1 := by
  have entries := advanceEntries t ask w memory
  have forward := Transitions.loadedForward loaded
  have phones : w.phones.map (PhoneModel.moved t compute) = w.phones.map (PhoneModel.together t compute) :=
    List.map_congr_left fun p mem => PhoneModel.movedTogether forward (fits p mem) compute
  obtain ⟨memory', -, given⟩ := advancePhonesAnswers answers t w.phones Score.impossible held
  have best := @advancePhonesBest _ _ compute _ t w.phones Score.impossible Score.Ordered.impossibleHeld
  rw [advancePhonesMoved, phones] at given
  have moved : (w.advance t ask memory).1 = w.together t compute := by
    simp only [advance, given, together]
  refine ⟨moved, entries, ?_⟩
  have reached : (w.advance t ask memory).2.1 = (w.phones.flatMap fun p =>
      ((p.moved t compute).states.map Token.score).reverse).foldl Score.larger Single.impossible := by
    simp only [advance, given]
    exact best
  rw [moved, reached]
  -- the scores of a phone are met from the last state to the first
  refine foldedLargest fun x => ?_
  have there : w.together t compute = ⟨w.phones.map (PhoneModel.moved t compute)⟩ := congrArg mk phones.symm
  rw [there]
  simp only [scores, List.mem_map, List.mem_flatMap, List.mem_reverse]
  constructor
  · rintro ⟨token, ⟨_, ⟨p, mem, rfl⟩, found⟩, rfl⟩
    exact ⟨p, mem, token, found, rfl⟩
  · rintro ⟨p, mem, token, found, rfl⟩
    exact ⟨token, ⟨_, ⟨p, mem, rfl⟩, found⟩, rfl⟩

end WordModel

end

/-- The natural logarithm at a half and at one. -/
@[reducible] def halfLogarithm : Elementary :=
  { Elementary.system with ln32 := fun p => if p < 1 then Float32.ofBits 0xBF317218 else 0 }

/-- What comes into either state ties: what waits at the entry wins, and the earlier state. -/
theorem WordModel.advancedOfTies :
    let _ := halfLogarithm
    let half : Float32 := Elementary.ln32 0.5
    let compute : Nat → Float32 := fun senone => if senone = 0 then -3 else -4
    let w : WordModel Float32 := ⟨[⟨0, [0, 1], [⟨-2, 7⟩, ⟨-2, 8⟩], ⟨-2 + half, 9⟩⟩]⟩
    ∃ t, Transitions.ofProbabilities 2 [0.5, 0.5, 0, 0, 0.5, 0.5] 0.0001 = .ok t ∧
      PhoneModel.Answers (PhoneModel.direct compute) compute (fun _ => True) ∧
      (∀ p ∈ w.phones, p.states.length ≤ 2) ∧
      ((w.advance t (PhoneModel.direct compute) ()).1 = w.together t compute ∧
        (∀ p ∈ (w.advance t (PhoneModel.direct compute) ()).1.phones, p.entry = Token.dead) ∧
        Largest (w.advance t (PhoneModel.direct compute) ()).1.scores
          (w.advance t (PhoneModel.direct compute) ()).2.1) ∧
      (w.together t compute).phones.map PhoneModel.states = [[⟨-2 + half + -3, 9⟩, ⟨-2 + half + -4, 7⟩]] ∧
      (w.advance t (PhoneModel.direct compute) ()).2.1 = -2 + half + -3 := by
  intro _ half compute w
  have known : ((Transitions.ofProbabilities 2 [0.5, 0.5, 0, 0, 0.5, 0.5] 0.0001).map fun t =>
      decide ((w.together t compute).phones.map PhoneModel.states = [[⟨-2 + half + -3, 9⟩, ⟨-2 + half + -4, 7⟩]] ∧
        (w.advance t (PhoneModel.direct compute) ()).2.1 = -2 + half + -3)).toOption = some true := by
    decide +kernel
  obtain ⟨t, loaded, facts⟩ := Outcome.mapOk known
  have answers : PhoneModel.Answers (PhoneModel.direct compute) compute fun _ => True := fun _ _ _ => ⟨rfl, trivial⟩
  have fits : ∀ p ∈ w.phones, p.states.length ≤ 2 := by decide
  exact ⟨t, loaded, answers, fits, WordModel.advancedTogether loaded answers trivial w fits, of_decide_eq_true facts⟩

end SpeechDecoder.Search
