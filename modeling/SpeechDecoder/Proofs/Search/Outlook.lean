import SpeechDecoder.Search.Alternatives
import SpeechDecoder.Proofs.Search.Completion

/-! The outlook of an exit is at least what any way from there gains before the language scores of its words, and
it never promises less than the way over the next exit. -/
namespace SpeechDecoder.Search.Lattice

variable {α : Type}

/-! ### Exits that follow -/

def starting (l : Lattice α) (places : List Nat) : Array (List Nat) :=
  places.foldr (fun place starting =>
    match l.exit? place with
    | none => starting
    | some e => starting.modify e.startFrame (place :: ·)) (Array.replicate (l.frames + 1) [])

theorem startingSize (l : Lattice α) (places : List Nat) : (l.starting places).size = l.frames + 1 := by
  induction places with
  | nil => simp [starting]
  | cons first rest ih =>
    change (match l.exit? first with
      | none => l.starting rest
      | some e => (l.starting rest).modify e.startFrame (first :: ·)).size = _
    cases l.exit? first with
    | none => exact ih
    | some e => simpa using ih

theorem startingAt (l : Lattice α) (places : List Nat) {t : Nat} (within : t ≤ l.frames) (place : Nat) :
    place ∈ (l.starting places).getD t [] ↔ place ∈ places ∧ ∃ e, l.exit? place = some e ∧ e.startFrame = t := by
  induction places with
  | nil => simp [starting, Array.getD_eq_getD_getElem?, Nat.lt_succ_of_le within]
  | cons first rest ih =>
    have inside : t < (l.starting rest).size := by
      rw [startingSize]
      omega
    have held : (l.starting rest)[t]? = some ((l.starting rest).getD t []) := by
      rw [Array.getD_eq_getD_getElem?, Array.getElem?_eq_getElem inside, Option.getD_some]
    have unfolded : l.starting (first :: rest) = (match l.exit? first with
      | none => l.starting rest
      | some e => (l.starting rest).modify e.startFrame (first :: ·)) := rfl
    rw [unfolded]
    cases found : l.exit? first with
    | none =>
      rw [ih, List.mem_cons]
      refine and_congr_left ?_
      rintro ⟨e, known, _⟩
      refine ⟨.inr, fun mem => mem.resolve_left ?_⟩
      rintro rfl
      cases found.symm.trans known
    | some e =>
      dsimp only
      rw [Array.getD_eq_getD_getElem?, Array.getElem?_modify, held]
      by_cases here : e.startFrame = t
      · rw [if_pos here, Option.map_some, Option.getD_some, List.mem_cons, ih, List.mem_cons]
        constructor
        · rintro (rfl | ⟨mem, known⟩)
          · exact ⟨.inl rfl, e, found, here⟩
          · exact ⟨.inr mem, known⟩
        · rintro ⟨same | mem, known⟩
          · exact .inl same
          · exact .inr ⟨mem, known⟩
      · rw [if_neg here, Option.getD_some, ih, List.mem_cons]
        refine and_congr_left ?_
        rintro ⟨e', known, there⟩
        refine ⟨.inr, fun mem => mem.resolve_left ?_⟩
        rintro rfl
        cases found.symm.trans known
        exact here there

theorem memSuccessors [Score α] (l : Lattice α) {t : Nat} (within : t ≤ l.frames) (place : Nat) :
    place ∈ l.successors.getD t [] ↔ 0 < place ∧ ∃ e, l.exit? place = some e ∧ e.startFrame = t := by
  have same : l.successors = l.starting ((List.range l.exits.size).drop 1) := rfl
  rw [same, startingAt l _ within]
  refine and_congr_left ?_
  rintro ⟨e, found, _⟩
  have inside : place < l.exits.size := (Array.getElem?_eq_some_iff.mp found).1
  rw [List.range_eq_range', List.drop_range', List.mem_range'_1]
  omega

theorem memLatest (l : Lattice α) (place : Nat) : place ∈ l.latestFirst ↔ place < l.exits.size := by
  rw [latestFirst, List.mem_mergeSort, List.mem_range]

/-- The order of exits depends on where they end. -/
theorem latestOfEnds {l : Lattice α} {ends : Array Nat} (same : l.exits.map Exit.endFrame = ends) :
    l.latestFirst = (List.range ends.size).mergeSort fun a b => decide (ends.getD b 0 ≤ ends.getD a 0) := by
  have ends (place : Nat) : l.endOf place = ends.getD place 0 := by
    unfold endOf exit?
    rw [← same, Array.getD_eq_getD_getElem?, Array.getElem?_map]
    cases l.exits[place]? <;> rfl
  have size : l.exits.size = _ := Array.size_map.symm.trans (congrArg Array.size same)
  unfold latestFirst
  simp only [ends, size]

/-! ### Looking ahead -/

variable [Score α]

theorem aheadHere {outlook : Array α} {place : Nat} (inside : place < outlook.size) (x : α) :
    ahead (outlook.set! place x) place = x := by
  unfold ahead
  rw [Array.set!_eq_setIfInBounds, Array.getD_eq_getD_getElem?, Array.getElem?_setIfInBounds_self_of_lt inside,
    Option.getD_some]

theorem aheadApart {outlook : Array α} {place other : Nat} (apart : place ≠ other) (x : α) :
    ahead (outlook.set! place x) other = ahead outlook other := by
  unfold ahead
  rw [Array.set!_eq_setIfInBounds, Array.getD_eq_getD_getElem?, Array.getElem?_setIfInBounds_ne apart,
    Array.getD_eq_getD_getElem?]

theorem markSize (outlook : Array α) (finals : List (Nat × α)) :
    (markEnds outlook finals).size = outlook.size := by
  induction finals generalizing outlook with
  | nil => rfl
  | cons f rest ih => exact (ih (outlook.set! f.1 Score.zero)).trans (by simp)

theorem endSize (l : Lattice α) : l.atEnd.size = l.exits.size := by
  rw [atEnd, markSize, Array.size_replicate]

theorem markZero {finals : List (Nat × α)} {place : Nat} {outlook : Array α} (inside : place < outlook.size)
    (zero : (∃ score, (place, score) ∈ finals) ∨ ahead outlook place = Score.zero) :
    ahead (markEnds outlook finals) place = Score.zero := by
  induction finals generalizing outlook with
  | nil =>
    rcases zero with ⟨_, mem⟩ | zero
    · cases mem
    · exact zero
  | cons f rest ih =>
    refine ih (by simpa using inside) ?_
    by_cases here : f.1 = place
    · subst here
      exact .inr (aheadHere inside _)
    · rcases zero with ⟨score, mem⟩ | zero
      · rcases List.mem_cons.mp mem with same | later
        · rw [← same] at here
          exact absurd rfl here
        · exact .inl ⟨score, later⟩
      · exact .inr ((aheadApart here _).trans zero)

/-- What an outlook has once it keeps when it grows. -/
def Upward (good : α → Prop) : Prop := ∀ x y, Score.below x y = true → good x → good y

structure Improved (place : Nat) (before after : Array α) : Prop where
  size : after.size = before.size
  others : ∀ other, other ≠ place → ahead after other = ahead before other
  more : ∀ good, Upward good → good (ahead before place) → good (ahead after place)

variable {k : Knowledge α} {l : Lattice α}

theorem Improved.refl (place : Nat) (outlook : Array α) : Improved place outlook outlook :=
  ⟨rfl, fun _ _ => rfl, fun _ _ => id⟩

theorem Improved.trans {place : Nat} {a b c : Array α} (first : Improved place a b) (second : Improved place b c) :
    Improved place a c :=
  ⟨second.size.trans first.size, fun other apart => (second.others other apart).trans (first.others other apart),
    fun good up => second.more good up ∘ first.more good up⟩

theorem improveImproved (k : Knowledge α) (l : Lattice α) (place : Nat) (outlook : Array α) (next : Nat)
    (inside : place < outlook.size) : Improved place outlook (l.improve k place outlook next) := by
  unfold improve
  dsimp only
  split
  · exact .refl place outlook
  · split
    · exact .refl place outlook
    · split
      · exact .refl place outlook
      · split
        · rename_i less
          refine ⟨by simp, fun other apart => aheadApart (Ne.symm apart) _, fun good up had => ?_⟩
          rw [aheadHere inside]
          exact up _ _ less had
        · exact .refl place outlook

/-- What the larger of any outlook and the gain of a way is. -/
def Taken (gain : α) (good : α → Prop) : Prop := ∀ x, good (if Score.below x gain = true then gain else x)

theorem improveTakes {place next word : Nat} {outlook : Array α} {e : Exit α} {good : α → Prop}
    (inside : place < outlook.size) (found : l.exit? next = some e) (named : e.word = some word)
    (possible : Score.isImpossible (ahead outlook next) = false)
    (taken : Taken (e.acousticScore + k.enterBound word + ahead outlook next) good) :
    good (ahead (l.improve k place outlook next) place) := by
  have larger := taken (ahead outlook place)
  simp only [improve, found, named, possible, Bool.false_eq_true, if_false]
  split
  · rename_i less
    rw [if_pos less] at larger
    rwa [aheadHere inside]
  · rename_i less
    rwa [if_neg less] at larger

theorem eachImproved (k : Knowledge α) (l : Lattice α) {place : Nat} (nexts : List Nat) {outlook : Array α}
    (inside : place < outlook.size) : Improved place outlook (nexts.foldl (l.improve k place) outlook) := by
  induction nexts generalizing outlook with
  | nil => exact .refl place outlook
  | cons next rest ih =>
    have first := improveImproved k l place outlook next inside
    exact first.trans (ih (by rw [first.size]; exact inside))

theorem eachTakes {place next word : Nat} {nexts : List Nat} {outlook : Array α} {e : Exit α} {good : α → Prop}
    (inside : place < outlook.size) (mem : next ∈ nexts) (apart : next ≠ place) (found : l.exit? next = some e)
    (named : e.word = some word) (possible : Score.isImpossible (ahead outlook next) = false) (up : Upward good)
    (taken : Taken (e.acousticScore + k.enterBound word + ahead outlook next) good) :
    good (ahead (nexts.foldl (l.improve k place) outlook) place) := by
  induction nexts generalizing outlook with
  | nil => cases mem
  | cons x rest ih =>
    have first := improveImproved k l place outlook x inside
    have inside' : place < (l.improve k place outlook x).size := by
      rw [first.size]
      exact inside
    rcases List.mem_cons.mp mem with rfl | later
    · exact (eachImproved k l rest inside').more good up (improveTakes inside found named possible taken)
    · have same := first.others next apart
      rw [← same] at possible taken
      exact ih inside' later possible taken

theorem lookImproved (k : Knowledge α) (l : Lattice α) (next : Array (List Nat)) {outlook : Array α} {place : Nat}
    (inside : place < outlook.size) : Improved place outlook (l.look k next outlook place) := by
  unfold look
  split
  · exact .refl place outlook
  · exact eachImproved k l _ inside

theorem lookEach (k : Knowledge α) (l : Lattice α) (next : Array (List Nat)) (outlook : Array α)
    (places : List Nat) (inside : ∀ place ∈ places, place < outlook.size) :
    let after := places.foldl (l.look k next) outlook
    after.size = outlook.size ∧ (∀ other, other ∉ places → ahead after other = ahead outlook other) ∧
      ∀ other good, Upward good → good (ahead outlook other) → good (ahead after other) := by
  induction places generalizing outlook with
  | nil => exact ⟨rfl, fun _ _ => rfl, fun _ _ _ => id⟩
  | cons place rest ih =>
    have first := lookImproved k l next (inside place List.mem_cons_self)
    obtain ⟨size, others, more⟩ := ih (l.look k next outlook place) fun p mem => by
      rw [first.size]
      exact inside p (List.mem_cons_of_mem place mem)
    refine ⟨size.trans first.size, fun other out => ?_, fun other good up had => more other good up ?_⟩
    · rw [List.mem_cons, not_or] at out
      exact (others other out.2).trans (first.others other out.1)
    · by_cases same : other = place
      · rw [same] at had ⊢
        exact first.more good up had
      · rwa [first.others other same]

/-! ### The whole outlook -/

theorem outlookFinal (formed : l.Formed) {place : Nat} {e : Exit α} (found : l.exit? place = some e)
    (final : isFinal l.frames e = true) {good : α → Prop} (up : Upward good) (zero : good Score.zero) :
    good (ahead (l.outlook k) place) := by
  have inside : place < l.exits.size := (Array.getElem?_eq_some_iff.mp found).1
  have first : ahead l.atEnd place = Score.zero :=
    markZero (by simpa using inside) (.inl ((formed.finals place).mpr ⟨e, found, final⟩))
  rw [← first] at zero
  exact (lookEach k l l.successors l.atEnd l.latestFirst fun p mem => by
    rw [endSize]
    exact (l.memLatest p).mp mem).2.2 place good up zero

theorem outlookNext (formed : l.Formed) {place next word : Nat} {before e : Exit α}
    (here : l.exit? place = some before) (there : l.exit? next = some e) (named : e.word = some word)
    (joined : e.startFrame = before.endFrame)
    (possible : Score.isImpossible (ahead (l.outlook k) next) = false) {good : α → Prop} (up : Upward good)
    (taken : Taken (e.acousticScore + k.enterBound word + ahead (l.outlook k) next) good) :
    good (ahead (l.outlook k) place) := by
  have inside : place < l.exits.size := (Array.getElem?_eq_some_iff.mp here).1
  obtain ⟨less, within⟩ := formed.timed next e word there named
  have endPlace : l.endOf place = before.endFrame := by rw [endOf, here]; rfl
  have endNext : l.endOf next = e.endFrame := by rw [endOf, there]; rfl
  have sorted : l.latestFirst.Pairwise fun a b => decide (l.endOf b ≤ l.endOf a) = true :=
    List.pairwise_mergeSort (fun a b c ab bc => by simp only [decide_eq_true_eq] at ab bc ⊢; omega)
      (fun a b => by simp only [Bool.or_eq_true, decide_eq_true_eq]; omega) _
  have nodup : l.latestFirst.Nodup := (List.mergeSort_perm _ _).nodup_iff.mpr List.nodup_range
  obtain ⟨a, b, split⟩ := List.append_of_mem ((l.memLatest place).mpr inside)
  have places (p : Nat) : p ∈ a ++ place :: b → p < l.exits.size := fun mem => (l.memLatest p).mp (split ▸ mem)
  rw [split] at sorted nodup
  have once : place ∉ b := (List.nodup_cons.mp (List.nodup_append.mp nodup).2.1).1
  -- the next exit ends later, so its outlook was complete before this one was looked at
  have earlier : next ∉ place :: b := by
    intro mem
    rcases List.mem_cons.mp mem with same | later
    · rw [same] at endNext
      omega
    · have order := (List.pairwise_cons.mp (List.pairwise_append.mp sorted).2.1).1 next later
      rw [decide_eq_true_eq] at order
      omega
  rw [List.mem_cons, not_or] at earlier
  let first := a.foldl (l.look k l.successors) l.atEnd
  obtain ⟨size, _⟩ := lookEach k l l.successors l.atEnd a fun p mem => by
    rw [endSize]
    exact places p (List.mem_append_left _ mem)
  have inside' : place < first.size := by rwa [size, endSize]
  have now := lookImproved k l l.successors inside'
  obtain ⟨_, later, _⟩ := lookEach k l l.successors (l.look k l.successors first place) b fun p mem => by
    rw [now.size, size, endSize]
    exact places p (List.mem_append_right _ (List.mem_cons_of_mem _ mem))
  have whole : l.outlook k = b.foldl (l.look k l.successors) (l.look k l.successors first place) := by
    rw [outlook, split, List.foldl_append, List.foldl_cons]
  have same : ahead (l.outlook k) next = ahead first next := by
    rw [whole, later next earlier.2, now.others next earlier.1]
  rw [same] at possible taken
  rw [whole, later place once, look, if_neg (by omega), endPlace]
  exact eachTakes inside' ((l.memSuccessors (by omega) next).mpr ⟨formed.afterRoot there named, e, there, joined⟩)
    earlier.1 there named possible up taken

end SpeechDecoder.Search.Lattice

/-! ### Along a path -/

namespace SpeechDecoder.Search.Lattice

open Relation (ReflTransGen)
open Score (Exact Possible)

variable {α : Type} [Score α] {k : Knowledge α} {l : Lattice α}

def promise (k : Knowledge α) (l : Lattice α) (w : Walk α) : α := w.score + ahead (l.outlook k) w.last

/-- No sum of an outlook is too low to be told from the impossible. -/
def Clear (k : Knowledge α) (l : Lattice α) : Prop :=
  ∀ (place : Nat) (e : Exit α) (word : Nat), l.exit? place = some e → e.word = some word →
    Score.isImpossible (ahead (l.outlook k) place) = false →
    Score.isLive (e.acousticScore + k.enterBound word + ahead (l.outlook k) place) = true

theorem aheadPossible [Possible α] (formed : l.Formed) (clear : l.Clear k) {w w' : Walk α}
    (on : ReflTransGen (l.Goes k) w w') (completes : l.Completes k w') :
    Score.isImpossible (ahead (l.outlook k) w.last) = false := by
  have up : Upward fun x : α => Score.isImpossible x = false := fun x y less _ => Possible.belowPossible x y less
  induction on using ReflTransGen.head_induction_on with
  | refl =>
    obtain ⟨e, found, final⟩ := completes.final
    exact outlookFinal formed found final up Possible.zeroPossible
  | head goes _ possible =>
    cases goes with
    | @on before e place word here there named joined =>
      refine outlookNext formed here there named joined possible up fun x => ?_
      have live := clear place e word there named possible
      split
      · exact Possible.belowPossible _ _ live
      · rename_i above
        exact Bool.eq_false_of_not_eq_true fun dead => above (Possible.impossibleBelow x _ dead live)

variable [Exact α]

theorem Sound.clear (sound : l.Sound k) : l.Clear k := by
  intro place e word found named possible
  rw [Score.impossibleDead, Bool.not_eq_false'] at possible
  exact Exact.addLive _ _ (sound.live place e word found named) possible

theorem upwardAtMost (x : α) : Upward fun y => Score.atMost x y = true :=
  fun _ _ less le => Score.Monotone.atMostTrans _ _ _ le (Score.belowAtMost less)

theorem takenAtMost (gain : α) : Taken gain fun y => Score.atMost gain y = true := by
  intro x
  cases less : Score.below x gain with
  | true => exact Score.atMostRefl gain
  | false => exact Score.notBelow.mp less

theorem promiseFalls (sound : l.Sound k) (consistent : k.lexicon.Consistent) (falling : k.Falling) {w w' : Walk α}
    (goes : l.Goes k w w') (possible : Score.isImpossible (ahead (l.outlook k) w'.last) = false) :
    Score.atMost (l.promise k w') (l.promise k w) = true := by
  cases goes with
  | @on before e place word here there named joined =>
    let entry := (k.enter word w.history).1
    let outlook := ahead (l.outlook k) place
    have next := outlookNext sound.toFormed here there named joined possible (upwardAtMost _) (takenAtMost _)
    have bound := Score.Monotone.addMonotone _ _ (e.acousticScore + outlook)
      (k.enterAtMost consistent falling word w.history)
    have rest : k.enterBound word + (e.acousticScore + outlook) =
        e.acousticScore + k.enterBound word + outlook := by
      rw [← Exact.addAssoc, Exact.addComm (k.enterBound word)]
    have whole : l.promise k (w.extend k place word e.acousticScore) =
        w.score + (entry + (e.acousticScore + outlook)) := by
      change w.score + entry + e.acousticScore + outlook = _
      rw [Exact.addAssoc, Exact.addAssoc]
    -- the outlook enters the word without a history, which bounds the score under the history of the path
    rw [whole]
    rw [rest] at bound
    exact Score.addAtMost _ (Score.Monotone.atMostTrans _ _ _ bound next)

theorem totalPromised (sound : l.Sound k) (consistent : k.lexicon.Consistent) (falling : k.Falling) {w w' : Walk α}
    (on : ReflTransGen (l.Goes k) w w') (completes : l.Completes k w') :
    Score.atMost (w'.total k) (l.promise k w) = true := by
  induction on using ReflTransGen.head_induction_on with
  | refl =>
    obtain ⟨e, found, final⟩ := completes.final
    have ahead := outlookFinal (k := k) sound.toFormed found final (upwardAtMost _) (Score.atMostRefl _)
    exact Score.addAtMost _ (Score.Monotone.atMostTrans _ _ _ (k.leaveAtMost falling _) ahead)
  | head goes on ih =>
    exact Score.Monotone.atMostTrans _ _ _ ih
      (promiseFalls sound consistent falling goes (aheadPossible sound.toFormed sound.clear on completes))

end SpeechDecoder.Search.Lattice
