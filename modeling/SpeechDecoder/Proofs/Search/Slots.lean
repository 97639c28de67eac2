import Mathlib.Data.List.Sort
import SpeechDecoder.Proofs.Search.Plain

/-! Slots of words that stand for the words of the plain search, though only some of them are active: the others
are idle, so that whatever all words do, the active ones alone do it. -/
namespace SpeechDecoder.Search

theorem filterActive {active : List Nat} (ordered : active.Pairwise (· < ·)) {f : Nat → Bool}
    {n : Nat} (outside : ∀ w, w ∉ active → f w = false) (beyond : ∀ w, n ≤ w → f w = false) :
    active.filter f = (List.range n).filter f := by
  refine (ordered.sublist List.filter_sublist).eq_of_mem_iff
    (List.pairwise_lt_range.sublist List.filter_sublist) fun w => ?_
  simp only [List.mem_filter, List.mem_range]
  constructor
  · rintro ⟨_, is⟩
    refine ⟨Nat.lt_of_not_le fun far => ?_, is⟩
    rw [beyond w far] at is
    cases is
  · rintro ⟨_, is⟩
    refine ⟨Classical.byContradiction fun out => ?_, is⟩
    rw [outside w out] at is
    cases is

/-- What is nothing outside an ordered list of places may be collected from all places. -/
theorem collectActive {β : Type} {active : List Nat} (ordered : active.Pairwise (· < ·)) {f : Nat → Option β}
    {n : Nat} (outside : ∀ w, w ∉ active → f w = none) (beyond : ∀ w, n ≤ w → f w = none) :
    active.filterMap f = (List.range n).filterMap f := by
  have given (l : List Nat) : l.filterMap f = (l.filter fun w => (f w).isSome).filterMap f := by
    rw [List.filterMap_filter]
    refine List.filterMap_congr fun w _ => ?_
    cases f w <;> rfl
  rw [given active, given (List.range n)]
  congr 1
  refine filterActive ordered ?_ ?_
  · intro w out
    simp only [outside w out, Option.isSome_none]
  · intro w far
    simp only [beyond w far, Option.isSome_none]

theorem sortOnce {places : List Nat} (once : places.Nodup) : (places.mergeSort (· ≤ ·)).Pairwise (· < ·) := by
  have sorted : (places.mergeSort (· ≤ ·)).Pairwise fun a b => decide (a ≤ b) = true :=
    List.pairwise_mergeSort (fun a b c => by simpa using Nat.le_trans) (fun a b => by simpa using Nat.le_total a b)
      places
  have distinct : (places.mergeSort (· ≤ ·)).Nodup := (List.mergeSort_perm _ _).nodup_iff.mpr once
  exact (sorted.and distinct).imp fun h => Nat.lt_of_le_of_ne (of_decide_eq_true h.1) h.2

theorem collectAll {β γ : Type} (f : β → γ) (xs : List β) :
    ((List.range xs.length).filterMap fun i => xs[i]?.map f) = xs.map f := by
  induction xs with
  | nil => rfl
  | cons x rest ih =>
    simpa [List.range_succ_eq_map, List.filterMap_map, Function.comp_def] using ih

variable {α : Type}

namespace AcousticCache

def Upto (stamp : Nat) (c : AcousticCache α) : Prop :=
  ∀ (senone frame : Nat) (x : α), c.held[senone]? = some (frame, x) → frame ≤ stamp

/-- No score is of a later frame, and those of this frame are right. -/
def Holds (compute : Nat → α) (stamp : Nat) (c : AcousticCache α) : Prop :=
  ∀ (senone frame : Nat) (x : α), c.held[senone]? = some (frame, x) →
    frame ≤ stamp ∧ (frame = stamp → x = compute senone)

theorem getAnswers (compute : Nat → α) (stamp : Nat) :
    PhoneModel.Answers (get compute stamp) compute (Holds compute stamp) := by
  intro senone c holds
  unfold get
  cases found : c.held[senone]? with
  | none => exact ⟨rfl, holds⟩
  | some entry =>
    obtain ⟨frame, x⟩ := entry
    by_cases fresh : frame = stamp
    · simp only [if_pos fresh]
      exact ⟨(holds senone frame x found).2 fresh, holds⟩
    · simp only [if_neg fresh, true_and]
      intro other frame' y held
      rw [Array.set!_eq_setIfInBounds, Array.getElem?_setIfInBounds] at held
      split at held
      · rename_i same
        subst same
        split at held
        · cases held
          exact ⟨le_rfl, fun _ => rfl⟩
        · cases held
      · exact holds other frame' y held

theorem fillHolds {compute : Nat → α} {stamp : Nat} (senones : List Nat) {c : AcousticCache α}
    (holds : c.Holds compute stamp) :
    (senones.foldl (fun c s => (c.get compute stamp s).2) c).Holds compute stamp := by
  induction senones generalizing c with
  | nil => exact holds
  | cons s rest ih => exact ih (getAnswers compute stamp s c holds).2

theorem uptoHolds {compute : Nat → α} {stamp : Nat} {c : AcousticCache α} (upto : c.Upto stamp) :
    c.Holds compute (stamp + 1) := by
  intro senone frame x found
  have before := upto senone frame x found
  exact ⟨by omega, fun same => by omega⟩

theorem holdsUpto {compute : Nat → α} {stamp : Nat} {c : AcousticCache α} (holds : c.Holds compute stamp) :
    c.Upto stamp :=
  fun senone frame x found => (holds senone frame x found).1

theorem clearUpto (c : AcousticCache α) (stamp : Nat) : c.clear.Upto stamp := by
  intro senone frame x found
  simp only [clear, Array.getElem?_map] at found
  obtain ⟨entry, _, same⟩ := Option.map_eq_some_iff.mp found
  cases same
  exact Nat.zero_le stamp

end AcousticCache

namespace Engine

theorem setHere {slots : Array (Slot α)} {v : Nat} {s : Slot α} (found : slots[v]? = some s) (t : Slot α) :
    (slots.set! v t)[v]? = some t := by
  have inside := (Array.getElem?_eq_some_iff.mp found).1
  simp [Array.set!_eq_setIfInBounds, inside]

theorem setOther (slots : Array (Slot α)) (t : Slot α) {v w : Nat} (other : w ≠ v) :
    (slots.set! v t)[w]? = slots[w]? := by
  rw [Array.set!_eq_setIfInBounds, Array.getElem?_setIfInBounds_ne fun h => other h.symm]

theorem onSlotsAt (f : Slot α → Slot α) {words : List Nat} (once : words.Nodup) (slots : Array (Slot α))
    (w : Nat) : (onSlots f words slots)[w]? = if w ∈ words then slots[w]?.map f else slots[w]? := by
  induction words generalizing slots with
  | nil => rfl
  | cons v rest ih =>
    obtain ⟨apart, once⟩ := List.nodup_cons.mp once
    simp only [onSlots, List.foldl_cons] at ih ⊢
    rw [ih once, Array.getElem?_modify]
    by_cases same : v = w
    · subst same
      simp [apart]
    · have other : ¬ w = v := fun h => same h.symm
      simp [same, other]

def Unqueued (slots : Array (Slot α)) : Prop := ∀ (w : Nat) (s : Slot α), slots[w]? = some s → s.queued = false

theorem onSlotsUnqueued {f : Slot α → Slot α} (keeps : ∀ s, s.queued = false → (f s).queued = false)
    (words : List Nat) {slots : Array (Slot α)} (unqueued : Unqueued slots) :
    Unqueued (onSlots f words slots) := by
  induction words generalizing slots with
  | nil => exact unqueued
  | cons v rest ih =>
    refine ih fun w s found => ?_
    rw [Array.getElem?_modify] at found
    split at found
    · obtain ⟨t, held, rfl⟩ := Option.map_eq_some_iff.mp found
      exact keeps t (unqueued w t held)
    · exact unqueued w s found

variable [Score α]

/-- Each slot holds the word of the plain search, but for tokens that are not live. -/
def Shows (slots : Array (Slot α)) (words : List (WordModel α)) : Prop :=
  ∀ w : Nat, (slots[w]?.map fun s => s.word.settled) = words[w]?.map WordModel.settled

structure Paired (active : List Nat) (slots : Array (Slot α)) (words : List (WordModel α)) : Prop where
  shows : Shows slots words
  idle : ∀ w x, w ∉ active → words[w]? = some x → x.Idle
  ordered : active.Pairwise (· < ·)

theorem Shows.size {slots : Array (Slot α)} {words : List (WordModel α)} (shows : Shows slots words) :
    slots.size = words.length := by
  have here (w : Nat) : slots.size ≤ w ↔ words.length ≤ w := by
    have same := shows w
    rw [← Array.getElem?_eq_none_iff, ← List.getElem?_eq_none_iff]
    cases found : slots[w]? <;> cases held : words[w]? <;> simp [found, held] at same ⊢
  have left := (here slots.size).mp le_rfl
  have right := (here words.length).mpr le_rfl
  omega

theorem Shows.found {slots : Array (Slot α)} {words : List (WordModel α)} (shows : Shows slots words)
    {w : Nat} {s : Slot α} (found : slots[w]? = some s) :
    ∃ x, words[w]? = some x ∧ s.word.settled = x.settled := by
  have same := shows w
  rw [found, Option.map_some] at same
  obtain ⟨x, held, alike⟩ := Option.map_eq_some_iff.mp same.symm
  exact ⟨x, held, alike.symm⟩

theorem Shows.missing {slots : Array (Slot α)} {words : List (WordModel α)} (shows : Shows slots words)
    {w : Nat} (missing : slots[w]? = none) : words[w]? = none := by
  have same := shows w
  rw [missing] at same
  exact Option.map_eq_none_iff.mp same.symm

/-- What all words do and idle ones do not feel may be done by the active ones alone. -/
theorem Paired.map {active : List Nat} {slots : Array (Slot α)} {words : List (WordModel α)}
    (paired : Paired active slots words) {f : WordModel α → WordModel α}
    (respects : ∀ x y : WordModel α, x.settled = y.settled → (f x).settled = (f y).settled)
    (still : ∀ x : WordModel α, x.Idle → (f x).settled = x.settled) :
    Paired active (onSlots (fun s => { s with word := f s.word }) active slots) (words.map f) := by
  refine ⟨fun w => ?_, fun w x out found => ?_, paired.ordered⟩
  · rw [onSlotsAt _ (paired.ordered.imp Nat.ne_of_lt), List.getElem?_map]
    have same := paired.shows w
    by_cases mem : w ∈ active
    · rw [if_pos mem]
      cases found : slots[w]? with
      | none => rw [paired.shows.missing found]; rfl
      | some s =>
        obtain ⟨x, held, alike⟩ := paired.shows.found found
        rw [held]
        exact congrArg some (respects _ _ alike)
    · rw [if_neg mem, same]
      cases held : words[w]? with
      | none => rfl
      | some x => exact congrArg some (still x (paired.idle w x mem held)).symm
  · rw [List.getElem?_map] at found
    obtain ⟨y, held, rfl⟩ := Option.map_eq_some_iff.mp found
    have idle := paired.idle w y out held
    exact idle.of (still y idle).symm

theorem clearShows {slots : Array (Slot α)} {words : List (WordModel α)} (shows : Shows slots words)
    {dropped : List Nat} (once : dropped.Nodup) : Shows (onSlots Slot.clear dropped slots)
      (words.mapIdx fun w x => if w ∈ dropped then x.clear else x) := by
  intro w
  rw [onSlotsAt _ once, List.getElem?_mapIdx, Option.map_map]
  by_cases mem : w ∈ dropped
  · simp only [if_pos mem, Option.map_map]
    cases found : slots[w]? with
    | none => rw [shows.missing found]; rfl
    | some s =>
      obtain ⟨x, held, alike⟩ := shows.found found
      rw [held]
      have same : s.word.clear = x.clear := by
        rw [← WordModel.clearSettled, alike, WordModel.clearSettled]
      simp only [Option.map_some, Function.comp_apply, Slot.clear, same]
  · simp only [if_neg mem]
    exact shows w

variable [Score.Ordered α]

theorem moveFold {k : Knowledge α} {compute : Nat → α} {stamp : Nat} {pending : List Nat}
    (once : pending.Nodup) {slots : Array (Slot α)} {words : List (WordModel α)}
    (alike : ∀ w ∈ pending, (slots[w]?.map fun s => s.word.settled) = words[w]?.map WordModel.settled)
    (best : α) {cache : AcousticCache α} (holds : cache.Holds compute stamp) :
    let moved (x : WordModel α) := x.advance k.transitions (PhoneModel.direct compute) ()
    ∃ slots' cache', pending.foldl (advanceWord k compute stamp) (slots, best, cache) =
        (slots', (pending.filterMap fun w => words[w]?.map fun x => (moved x).2.1).foldl Score.larger best,
          cache') ∧ cache'.Holds compute stamp ∧ (Unqueued slots → Unqueued slots') ∧
      ∀ w, (slots'[w]?.map fun s => s.word.settled) = if w ∈ pending then
        words[w]?.map fun x => (moved x).1.settled else slots[w]?.map fun s => s.word.settled := by
  intro moved
  induction pending generalizing slots best cache with
  | nil => exact ⟨slots, cache, rfl, holds, id, fun w => rfl⟩
  | cons v rest ih =>
    obtain ⟨apart, once⟩ := List.nodup_cons.mp once
    have head := alike v List.mem_cons_self
    cases found : slots[v]? with
    | none =>
      rw [found] at head
      have missing : words[v]? = none := Option.map_eq_none_iff.mp head.symm
      obtain ⟨slots', cache', folded, holds', still, shows⟩ :=
        ih once (fun w mem => alike w (List.mem_cons_of_mem v mem)) best holds
      refine ⟨slots', cache', ?_, holds', still, fun w => ?_⟩
      · simpa [advanceWord, found, missing] using folded
      · rw [shows w]
        by_cases same : w = v
        · subst same
          simp [apart, found, missing]
        · simp [same]
    | some s =>
      rw [found] at head
      obtain ⟨x, held, settled⟩ := Option.map_eq_some_iff.mp head.symm
      obtain ⟨w', cache₁, holds₁, advanced, settled'⟩ :=
        WordModel.advanceAlike (AcousticCache.getAnswers compute stamp) k.transitions settled.symm holds
      have elsewhere (w : Nat) (other : w ≠ v) := setOther slots { s with word := w' } other
      have here := setHere found { s with word := w' }
      have alike' : ∀ w ∈ rest, ((slots.set! v { s with word := w' })[w]?.map fun s => s.word.settled) =
          words[w]?.map WordModel.settled := by
        intro w mem
        rw [elsewhere w fun h => apart (h ▸ mem)]
        exact alike w (List.mem_cons_of_mem v mem)
      obtain ⟨slots', cache', folded, holds', still, shows⟩ :=
        ih once alike' (Score.larger best (moved x).2.1) holds₁
      refine ⟨slots', cache', ?_, holds', fun unqueued => still fun w t at' => ?_, fun w => ?_⟩
      · simpa [advanceWord, found, held, advanced] using folded
      · by_cases same : w = v
        · subst same
          rw [here] at at'
          cases at'
          exact unqueued w s found
        · rw [elsewhere w same] at at'
          exact unqueued w t at'
      · rw [shows w]
        by_cases same : w = v
        · subst same
          rw [if_neg apart, here, if_pos List.mem_cons_self, held]
          exact congrArg some settled'
        · rw [elsewhere w same]
          simp only [List.mem_cons, same, false_or]

theorem movePaired {e : Engine α} {words : List (WordModel α)} (paired : Paired e.active e.slots words)
    (unqueued : Unqueued e.slots) (upto : e.cache.Upto e.frames) (frame : Frame α) :
    let best := (Plain.move e.knowledge frame words).2
    ∃ slots cache, e.move frame = (slots, best, cache) ∧ Unqueued slots ∧
      Paired e.active slots (Plain.move e.knowledge frame words).1 ∧
      cache.Upto (e.frames + 1) := by
  intro best
  let k := e.knowledge
  let compute := k.scorer.score frame
  let moved (x : WordModel α) := x.advance k.transitions (PhoneModel.direct compute) ()
  have filled : AcousticCache.Holds compute (e.frames + 1)
      (if k.params.scoreAll then
        (List.range k.scorer.senones).foldl (fun c s => (c.get compute (e.frames + 1) s).2) e.cache
      else e.cache) := by
    split
    · exact AcousticCache.fillHolds _ (AcousticCache.uptoHolds upto)
    · exact AcousticCache.uptoHolds upto
  obtain ⟨slots, cache, folded, holds', still, shows⟩ :=
    moveFold (k := k) (paired.ordered.imp Nat.ne_of_lt) (fun w _ => paired.shows w) Score.impossible filled
  have reached : (e.active.filterMap fun w => words[w]?.map fun x => (moved x).2.1).foldl Score.larger
      Score.impossible = best := by
    change Score.largest _ = Score.largest ((words.map moved).map fun m => m.2.1)
    rw [← Score.largestFilter, ← Score.largestFilter ((words.map moved).map _), List.map_map,
      ← collectAll, List.filter_filterMap, List.filter_filterMap]
    refine congrArg Score.largest (collectActive paired.ordered (fun w out => ?_) fun w far => ?_)
    · cases held : words[w]? with
      | none => rfl
      | some x =>
        have none : (moved x).2.1 = Score.impossible := ((paired.idle w x out held).advance _ compute).2
        simp [none, Score.Ordered.impossibleNotLive]
    · rw [List.getElem?_eq_none far]
      rfl
  refine ⟨slots, cache, ?_, still unqueued, ⟨fun w => ?_, fun w x out found => ?_, paired.ordered⟩,
    AcousticCache.holdsUpto holds'⟩
  · rw [← reached]
    exact folded
  · change _ = ((words.map moved).map Prod.fst)[w]?.map _
    rw [shows w, List.getElem?_map, List.getElem?_map, Option.map_map, Option.map_map]
    split
    · rfl
    · rename_i out
      rw [paired.shows w]
      cases held : words[w]? with
      | none => rfl
      | some x => exact congrArg some ((paired.idle w x out held).advance _ compute).1.symm
  · change ((words.map moved).map Prod.fst)[w]? = some x at found
    rw [List.getElem?_map, List.getElem?_map, Option.map_map] at found
    obtain ⟨y, held, rfl⟩ := Option.map_eq_some_iff.mp found
    have idle := paired.idle w y out held
    exact idle.of (idle.advance _ compute).1.symm

theorem Shows.bestScore {slots : Array (Slot α)} {words : List (WordModel α)} (shows : Shows slots words) :
    bestScore slots = Plain.bestScore words := by
  funext w
  have same := shows w
  unfold Engine.bestScore Plain.bestScore
  cases found : slots[w]? with
  | none =>
    rw [shows.missing found]
    rfl
  | some s =>
    obtain ⟨x, held, alike⟩ := shows.found found
    rw [held]
    change s.word.bestScore = x.bestScore
    rw [← WordModel.bestScoreSettled, alike, WordModel.bestScoreSettled]

/-- The live ones of all words are active. -/
theorem Paired.live {active : List Nat} {slots : Array (Slot α)} {words : List (WordModel α)}
    (paired : Paired active slots words) :
    active.filter (fun w => Score.isLive (bestScore slots w)) =
      (List.range words.length).filter fun w => Score.isLive (Plain.bestScore words w) := by
  rw [paired.shows.bestScore]
  refine filterActive paired.ordered (fun w out => ?_) fun w far => ?_
  · unfold Plain.bestScore
    cases held : words[w]? with
    | none => exact Score.Ordered.impossibleNotLive
    | some x => exact (paired.idle w x out held).bestScore
  · unfold Plain.bestScore
    rw [List.getElem?_eq_none far]
    exact Score.Ordered.impossibleNotLive

theorem limitPaired {k : Knowledge α} {active : List Nat} {slots : Array (Slot α)}
    {words : List (WordModel α)} (paired : Paired active slots words)
    (entries : ∀ x ∈ words, ∀ p ∈ x.phones, p.entry = Token.dead) :
    let parts := cap (bestScore slots) k.params.maxActive
      (active.filter fun w => Score.isLive (bestScore slots w))
    let kept := parts.1.mergeSort (· ≤ ·)
    Paired kept (onSlots Slot.clear parts.2 slots) (Plain.limited k words) ∧
      ∀ w ∈ kept, Score.isLive (Plain.bestScore (Plain.limited k words) w) = true := by
  intro parts kept
  have same := paired.shows.bestScore
  have all := paired.live
  have perm := capPerm (bestScore slots) k.params.maxActive
    (active.filter fun w => Score.isLive (bestScore slots w))
  have once : (parts.1 ++ parts.2).Nodup :=
    perm.nodup_iff.mpr ((paired.ordered.imp Nat.ne_of_lt).sublist List.filter_sublist)
  obtain ⟨once, once', apart⟩ := List.nodup_append.mp once
  have split (w : Nat) : (w ∈ kept ∨ w ∈ parts.2) ↔
      w ∈ active ∧ Score.isLive (Plain.bestScore words w) = true := by
    rw [List.mem_mergeSort, ← List.mem_append, perm.mem_iff, List.mem_filter, same]
  have limited : Plain.limited k words = words.mapIdx fun w x => if w ∈ parts.2 then x.clear else x := by
    unfold Plain.limited
    rw [← all, ← same]
  rw [limited]
  refine ⟨⟨clearShows paired.shows once', fun w x out found => ?_, ?_⟩, fun w mem => ?_⟩
  · rw [List.getElem?_mapIdx] at found
    obtain ⟨y, held, rfl⟩ := Option.map_eq_some_iff.mp found
    by_cases gone : w ∈ parts.2
    · rw [if_pos gone]
      exact y.clearIdle
    · rw [if_neg gone]
      by_cases mem : w ∈ active
      · refine WordModel.idleOfBest (entries y (List.mem_of_getElem? held)) ?_
        refine Bool.eq_false_iff.mpr fun live => ?_
        have here := (split w).mpr ⟨mem, by rw [Plain.bestScore, held]; exact live⟩
        exact here.elim out gone
      · exact paired.idle w y mem held
  · exact sortOnce once
  · have live := ((split w).mp (.inl mem)).2
    have gone : w ∉ parts.2 := fun other => apart w (List.mem_mergeSort.mp mem) w other rfl
    unfold Plain.bestScore at live ⊢
    rw [List.getElem?_mapIdx]
    cases held : words[w]? with
    | none => rw [held] at live; exact live
    | some x =>
      rw [held] at live
      simpa [gone] using live

end Engine

end SpeechDecoder.Search
