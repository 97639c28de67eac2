import SpeechDecoder.Proofs.Search.Limit

/-! The limits of a frame. Of the words with a live state, and of what leaves the words that stay, those go on that
score best, and of equals the earlier; the others have nothing more to do with the frame. A limit that is not
passed makes no difference. -/
namespace SpeechDecoder.Search

section
variable {α β : Type} [Score α]

/-- An item scores better than another, or as well and is of an earlier word. -/
def Ahead (score : β → α) (word : β → Nat) (a b : β) : Prop :=
  Score.order (score a) (score b) = .gt ∨ Score.order (score a) (score b) = .eq ∧ word a < word b

/-- The chosen are the first of all items in their rank, as many as the limit allows. -/
def Leading (score : β → α) (word : β → Nat) (limit : Option Nat) (items chosen : List β) : Prop :=
  ∃ ranked : List β, ranked.Perm items ∧ ranked.Pairwise (Ahead score word) ∧
    chosen.Perm (ranked.take (limit.getD items.length))

def Passed (limit : Option Nat) (count : Nat) : Prop := ∃ n, limit = some n ∧ n < count

/-- Two limits choose alike among so many items. -/
def SameLimit (count : Nat) (limit limit' : Option Nat) : Prop :=
  limit = limit' ∨ ¬ Passed limit count ∧ ¬ Passed limit' count

namespace Engine
variable {score : β → α} {word : β → Nat} {items : List β}

def ranking (score : β → α) (a b : β) : Bool := (Score.order (score b) (score a)).isLE

theorem capWithin {limit : Option Nat} (within : ¬ Passed limit items.length) :
    cap score limit items = (items, []) := by
  cases limit with
  | none => rfl
  | some n => exact if_pos (Nat.le_of_not_lt fun less => within ⟨n, rfl, less⟩)

theorem capPassed {n : Nat} (more : n < items.length) :
    cap score (some n) items = (items.mergeSort (ranking score)).splitAt n :=
  if_neg (Nat.not_le_of_lt more)

theorem capSame {limit limit' : Option Nat} (same : SameLimit items.length limit limit') :
    cap score limit items = cap score limit' items := by
  rcases same with rfl | ⟨within, within'⟩
  · rfl
  · rw [capWithin within, capWithin within']

theorem notAhead {a b : β} (level : Score.order (score a) (score b) = .eq) (later : word b ≤ word a) :
    ¬ Ahead score word a b := by
  rintro (more | ⟨_, less⟩)
  · cases level.symm.trans more
  · exact Nat.not_le_of_lt less later

theorem aheadOfNot {a b : β} (rank : ranking score b a = false) : Ahead score word a b := by
  unfold ranking at rank
  cases compared : Score.order (score a) (score b) with
  | gt => exact .inl compared
  | lt => simp [compared] at rank
  | eq => simp [compared] at rank

theorem firstOfTwo {a b : β} {chosen : List β} (leading : Leading score word (some 1) [a, b] chosen)
    (behind : ¬ Ahead score word b a) : chosen = [a] := by
  obtain ⟨ranked, perm, ahead, first⟩ := leading
  obtain ⟨x, y, rfl⟩ := List.length_eq_two.mp perm.length_eq
  have mem : x ∈ [a, b] := perm.mem_iff.mp List.mem_cons_self
  rcases List.mem_pair.mp mem with rfl | rfl
  · exact List.perm_singleton.mp first
  · have other := List.perm_singleton.mp (perm.trans (.swap _ _ _)).cons_inv
    rw [List.singleton_inj.mp other] at ahead
    exact absurd (List.pairwise_pair.mp ahead) behind

variable [Std.TransCmp (Score.order (α := α))]

theorem orderSwap (x y : α) : Score.order x y = (Score.order y x).swap := Std.OrientedCmp.eq_swap

theorem rankingTrans (score : β → α) (a b c : β) : ranking score a b → ranking score b c → ranking score a c :=
  fun first second => Std.TransCmp.isLE_trans second first

theorem rankingTotal (score : β → α) (a b : β) : ranking score a b || ranking score b a := by
  unfold ranking
  rw [orderSwap (score a)]
  cases Score.order (score b) (score a) <;> rfl

theorem aheadOf {a b : β} (rank : ranking score a b = true) (earlier : word a < word b) : Ahead score word a b := by
  unfold Ahead
  rw [orderSwap (score a)]
  unfold ranking at rank
  cases compared : Score.order (score b) (score a) with
  | lt => exact .inl rfl
  | eq => exact .inr ⟨rfl, earlier⟩
  | gt => simp [compared] at rank

/-- Sorting by score keeps the order of what scores the same. -/
theorem sortedAhead (score : β → α) (ordered : items.Pairwise fun a b => word a < word b) :
    (items.mergeSort (ranking score)).Pairwise (Ahead score word) := by
  induction items with
  | nil => simp
  | cons a rest ih =>
    -- the first item goes behind those that score better, and so before all that score the same
    obtain ⟨first, ordered⟩ := List.pairwise_cons.mp ordered
    obtain ⟨better, others, sorted, before, above⟩ :=
      List.mergeSort_cons (rankingTrans score) (rankingTotal score) a rest
    have ranked := List.pairwise_mergeSort (rankingTrans score) (rankingTotal score) (a :: rest)
    rw [sorted, List.pairwise_append] at ranked
    have below := (List.pairwise_cons.mp ranked.2.1).1
    have ahead := ih ordered
    rw [before, List.pairwise_append] at ahead
    obtain ⟨ahead, ahead', across⟩ := ahead
    rw [sorted, List.pairwise_append, List.pairwise_cons]
    refine ⟨ahead, ⟨fun c mem => ?_, ahead'⟩, fun b mem c mem' => ?_⟩
    · have inside : c ∈ rest := by
        rw [← (List.mergeSort_perm rest (ranking score)).mem_iff, before]
        exact List.mem_append_right _ mem
      exact aheadOf (below c mem) (first c inside)
    · rcases List.mem_cons.mp mem' with rfl | later
      · exact aheadOfNot (by simpa using above b mem)
      · exact across b mem c later

theorem capLeading (score : β → α) (ordered : items.Pairwise fun a b => word a < word b) (limit : Option Nat) :
    Leading score word limit items (cap score limit items).1 ∧
      (Passed limit items.length → (cap score limit items).1.Pairwise (Ahead score word)) := by
  have ranked := sortedAhead score ordered
  have perm := List.mergeSort_perm items (ranking score)
  by_cases passed : Passed limit items.length
  · obtain ⟨n, rfl, more⟩ := passed
    rw [capPassed more, List.splitAt_eq]
    exact ⟨⟨_, perm, ranked, .refl _⟩, fun _ => ranked.sublist (List.take_sublist n _)⟩
  · have all : (items.mergeSort (ranking score)).length ≤ limit.getD items.length := by
      rw [perm.length_eq]
      cases limit with
      | none => exact Nat.le_refl _
      | some n => exact Nat.le_of_not_lt fun less => passed ⟨n, rfl, less⟩
    rw [capWithin passed]
    refine ⟨⟨_, perm, ranked, ?_⟩, fun more => absurd more passed⟩
    rw [List.take_of_length_le all]
    exact perm.symm

end Engine

end

variable {α : Type} [Score α]

def Knowledge.limitedTo (k : Knowledge α) (words exits : Option Nat) : Knowledge α :=
  { k with params := { k.params with maxActive := words, maxExits := exits } }

def Slot.cross (k : Knowledge α) (threshold : α) (s : Slot α) : Slot α :=
  { s with word := s.word.cross k.transitions k.params.phonePenalty threshold }

attribute [ext] Engine

namespace Engine

/-- The best score that a frame gives to a state. -/
def peak (e : Engine α) (frame : Frame α) : α := (e.move frame).2.1

/-- The words after a frame, without the states that are below the beam. -/
def pruned (e : Engine α) (frame : Frame α) : Array (Slot α) :=
  onSlots (fun s => { s with word := s.word.prune (e.peak frame + e.knowledge.params.beam) }) e.active
    (e.move frame).1

def live (e : Engine α) (frame : Frame α) : List Nat :=
  (List.range (e.pruned frame).size).filter fun w => Score.isLive (bestScore (e.pruned frame) w)

/-- The words that stay, with all slots as these leave them. -/
def stayed (e : Engine α) (frame : Frame α) : Array (Slot α) × List Nat :=
  survive e.knowledge (e.peak frame) e.active (e.move frame).1

/-- What leaves any word within the beam for words. -/
def leavers (e : Engine α) (frame : Frame α) : List (Nat × Token α) :=
  leavingTokens e.knowledge (e.peak frame + e.knowledge.params.wordBeam) (e.stayed frame).1
    (List.range (e.stayed frame).1.size)

def limitedTo (e : Engine α) (words exits : Option Nat) : Engine α :=
  { e with knowledge := e.knowledge.limitedTo words exits }

/-- What a frame of a search makes of its words and of the exits before. -/
structure Selected (e : Engine α) (frame : Frame α) (exits : Array (Exit α)) : Prop where
  kept : Leading (bestScore (e.pruned frame)) id e.knowledge.params.maxActive (e.live frame) (e.stayed frame).2
  ordered : (e.stayed frame).2.Pairwise (· < ·)
  crossed : ∀ w ∈ (e.stayed frame).2, (e.stayed frame).1[w]? = (e.pruned frame)[w]?.map (Slot.cross e.knowledge
    (e.peak frame + e.knowledge.params.phoneBeam))
  others : ∀ (w : Nat) (s : Slot α), (e.stayed frame).1[w]? = some s → w ∉ (e.stayed frame).2 →
    s.word.isLive = false
  leaving : ∀ x ∈ e.leavers frame, x.1 ∈ (e.stayed frame).2
  recorded : ∃ chosen new,
    Leading (fun x => x.2.score) Prod.fst e.knowledge.params.maxExits (e.leavers frame) chosen ∧
    (¬ Passed e.knowledge.params.maxExits (e.leavers frame).length → chosen = e.leavers frame) ∧
    (Passed e.knowledge.params.maxExits (e.leavers frame).length →
      chosen.Pairwise (Ahead (fun x => x.2.score) Prod.fst)) ∧
    List.Forall₂ (fun x exit => ∃ before, e.exits[x.2.origin]? = some before ∧
      exit = before.after e.knowledge x.2.origin x.1 (e.frames + 1) x.2.score) chosen new ∧
    exits.toList = e.exits.toList ++ new

theorem leavingOrdered {kept : List Nat} (ordered : kept.Pairwise (· < ·)) (k : Knowledge α) (threshold : α)
    (slots : Array (Slot α)) :
    (leavingTokens k threshold slots kept).Pairwise (fun x y => x.1 < y.1) ∧
      ∀ x ∈ leavingTokens k threshold slots kept, x.1 ∈ kept := by
  have named {w : Nat} {x : Nat × Token α} (from' : (do
      let slot ← slots[w]?
      let token ← slot.word.leaving? k.transitions threshold
      some (w, token)) = some x) : x.1 = w := by
    simp only [Option.bind_eq_bind, Option.bind_eq_some_iff] at from'
    obtain ⟨_, _, _, _, same⟩ := from'
    exact (congrArg Prod.fst (Option.some.inj same)).symm
  refine ⟨?_, fun x mem => ?_⟩
  · refine List.Pairwise.filterMap _ (fun w w' less x from' y from'' => ?_) ordered
    rw [named from', named from'']
    exact less
  · obtain ⟨w, mem, from'⟩ := List.mem_filterMap.mp mem
    rwa [named from']

theorem advancedBy {e e' : Engine α} {frame : Frame α} (advanced : e.advance frame = .ok e') :
    e.phase = .active ∧ e' = e.step frame := by
  unfold advance at advanced
  split at advanced
  · cases advanced
  · split at advanced
    · cases advanced
    · exact ⟨Decidable.not_not.mp ‹_›, (Except.ok.inj advanced).symm⟩

theorem recordedEach {k : Knowledge α} {stamp : Nat} {exits : Array (Exit α)} {leaving : List (Nat × Token α)}
    (known : ∀ x ∈ leaving, ∃ before, exits[x.2.origin]? = some before) :
    List.Forall₂ (fun x exit => ∃ before, exits[x.2.origin]? = some before ∧
      exit = before.after k x.2.origin x.1 stamp x.2.score) leaving (recorded k stamp exits leaving) := by
  induction leaving with
  | nil => exact .nil
  | cons x rest ih =>
    obtain ⟨before, found⟩ := known x List.mem_cons_self
    have head : recorded k stamp exits (x :: rest) =
        before.after k x.2.origin x.1 stamp x.2.score :: recorded k stamp exits rest := by
      simp [recorded, found]
    rw [head]
    exact .cons ⟨before, found, rfl⟩ (ih fun y mem => known y (List.mem_cons_of_mem x mem))

theorem stepExits (e : Engine α) (frame : Frame α) : (e.step frame).exits =
    recordAll e.knowledge (e.frames + 1) e.exits (leavingTokens e.knowledge
      (e.peak frame + e.knowledge.params.wordBeam) (e.stayed frame).1 (e.stayed frame).2) := rfl

theorem crossedOf (k : Knowledge α) (best : α) {active : List Nat} (once : active.Nodup) (slots : Array (Slot α))
    {w : Nat} (kept : w ∈ (survive k best active slots).2) :
    (survive k best active slots).1[w]? =
      (onSlots (fun s => { s with word := s.word.prune (best + k.params.beam) }) active slots)[w]?.map
        (Slot.cross k (best + k.params.phoneBeam)) := by
  let pruned := onSlots (fun s => { s with word := s.word.prune (best + k.params.beam) }) active slots
  let parts := cap (bestScore pruned) k.params.maxActive
    (active.filter fun w => Score.isLive (bestScore pruned w))
  have apart : (parts.1 ++ parts.2).Nodup := (capPerm _ _ _).nodup_iff.mpr (once.filter _)
  obtain ⟨stay, gone, apart⟩ := List.nodup_append.mp apart
  have mem : w ∈ parts.1 := List.mem_mergeSort.mp kept
  have out : w ∉ parts.2 := fun other => apart w mem w other rfl
  change (onSlots (Slot.cross k (best + k.params.phoneBeam)) (parts.1.mergeSort (· ≤ ·))
    (onSlots Slot.clear parts.2 pruned))[w]? = _
  rw [onSlotsAt _ ((List.mergeSort_perm _ _).nodup_iff.mpr stay), if_pos (List.mem_mergeSort.mpr mem),
    onSlotsAt _ gone, if_neg out]

theorem surviveSame (k : Knowledge α) {words : Option Nat} (exits : Option Nat) (best : α) (active : List Nat)
    (slots : Array (Slot α)) (same : let pruned := onSlots (fun s =>
        { s with word := s.word.prune (best + k.params.beam) }) active slots
      SameLimit (active.filter fun w => Score.isLive (bestScore pruned w)).length k.params.maxActive words) :
    survive (k.limitedTo words exits) best active slots = survive k best active slots := by
  unfold survive
  dsimp only [Knowledge.limitedTo]
  rw [← capSame same]

theorem recordSame (k : Knowledge α) (words : Option Nat) {exits : Option Nat} (stamp : Nat)
    (table : Array (Exit α)) {leaving : List (Nat × Token α)}
    (same : SameLimit leaving.length k.params.maxExits exits) :
    recordAll (k.limitedTo words exits) stamp table leaving = recordAll k stamp table leaving := by
  unfold recordAll
  dsimp only [Knowledge.limitedTo]
  rw [← capSame same]
  rfl

theorem stepQueues (e : Engine α) (frame : Frame α) : ((e.step frame).slots, (e.step frame).active) =
    ((addedPlaces e.exits (e.step frame).exits).foldl (offerAll e.knowledge
        (e.peak frame + e.knowledge.params.beam) (e.step frame).exits)
      ((e.stayed frame).2.foldl queueLive ⟨(e.stayed frame).1, []⟩)).finish := rfl

/-- Limits that choose alike in a frame have it make the same of a search. -/
theorem limitedStep {e : Engine α} {frame : Frame α} {words exits : Option Nat}
    (sameWords : SameLimit (e.active.filter fun w => Score.isLive (bestScore (e.pruned frame) w)).length
      e.knowledge.params.maxActive words)
    (sameExits : SameLimit (leavingTokens e.knowledge (e.peak frame + e.knowledge.params.wordBeam)
      (e.stayed frame).1 (e.stayed frame).2).length e.knowledge.params.maxExits exits) :
    (e.limitedTo words exits).step frame = (e.step frame).limitedTo words exits := by
  have stayed : (e.limitedTo words exits).stayed frame = e.stayed frame :=
    surviveSame e.knowledge exits (e.peak frame) e.active (e.move frame).1 sameWords
  have recorded : ((e.limitedTo words exits).step frame).exits = (e.step frame).exits := by
    rw [stepExits, stepExits, stayed]
    exact recordSame e.knowledge words (e.frames + 1) e.exits sameExits
  have queues : (((e.limitedTo words exits).step frame).slots, ((e.limitedTo words exits).step frame).active) =
      ((e.step frame).slots, (e.step frame).active) := by
    rw [stepQueues, stepQueues, stayed, recorded]
    rfl
  exact Engine.ext rfl rfl (congrArg Prod.fst queues) (congrArg Prod.snd queues) recorded rfl rfl rfl

theorem performLimited (e : Engine α) (op : Op α) (words exits : Option Nat)
    (same : ∀ frame e', op = .advance frame → e.advance frame = .ok e' →
      (e.limitedTo words exits).step frame = e'.limitedTo words exits) :
    (e.limitedTo words exits).perform op = (e.perform op).map (limitedTo · words exits) := by
  cases op with
  | start =>
    change (e.limitedTo words exits).start = e.start.map _
    unfold start
    rw [show (e.limitedTo words exits).phase = e.phase from rfl]
    split <;> rfl
  | advance frame =>
    change (e.limitedTo words exits).advance frame = (e.advance frame).map _
    unfold advance
    rw [show (e.limitedTo words exits).phase = e.phase from rfl,
      show (e.limitedTo words exits).knowledge.scorer = e.knowledge.scorer from rfl]
    split
    · rfl
    · split
      · rfl
      · rename_i active size
        rw [same frame (e.step frame) rfl (by rw [advance, if_neg active, if_neg size])]
        rfl
  | finish =>
    change (e.limitedTo words exits).finish = e.finish.map _
    unfold finish
    rw [show (e.limitedTo words exits).phase = e.phase from rfl]
    split <;> rfl
  | reset => rfl

/-- Limits that choose alike in each frame of a search make no difference to it. -/
theorem limitedRun (k : Knowledge α) {words exits : Option Nat} (ops : List (Op α))
    (same : ∀ before frame later e', ops = before ++ .advance frame :: later →
      ((make k).after before).advance frame = .ok e' →
      (((make k).after before).limitedTo words exits).step frame = e'.limitedTo words exits) :
    (make (k.limitedTo words exits)).after ops = ((make k).after ops).limitedTo words exits := by
  induction ops using List.reverseRecOn with
  | nil => rfl
  | append_singleton ops op ih =>
    have before := ih fun before frame later e' whole =>
      same before frame (later ++ [op]) e' (by rw [whole, List.append_assoc]; rfl)
    have performed := performLimited ((make k).after ops) op words exits
      fun frame e' now => same ops frame [] e' (by rw [now])
    simp only [after, List.foldl_append, List.foldl_cons, List.foldl_nil] at before performed ⊢
    rw [before, performed]
    generalize List.foldl _ (make k) ops = e
    cases e.perform op <;> rfl

variable [Score.Ordered α]

/-- Only words that stay have anything that leaves them. -/
theorem leavingOnly {kept : List Nat} {slots : Array (Slot α)} {words : List (WordModel α)}
    (paired : Paired kept slots words) (k : Knowledge α) (threshold : α) :
    leavingTokens k threshold slots (List.range slots.size) = leavingTokens k threshold slots kept := by
  refine (collectActive paired.ordered (fun w out => ?_) fun w far => ?_).symm
  · cases found : slots[w]? with
    | none => rfl
    | some s =>
      obtain ⟨x, held, alike⟩ := paired.shows.found found
      have none := ((paired.idle w x out held).of alike.symm).leaving k.transitions threshold
      simp [none]
  · simp [far]

/-- A frame leaves the words of the plain search, those that are not looked at being idle. -/
theorem Follows.frame {e : Engine α} {p : Plain α} (follows : Follows e p) (active : e.phase = .active)
    (frame : Frame α) :
    e.peak frame = (Plain.move e.knowledge frame p.words).2 ∧
      Paired e.active (e.pruned frame) ((Plain.move e.knowledge frame p.words).1.map
        (WordModel.prune (e.peak frame + e.knowledge.params.beam))) ∧
      Paired (e.stayed frame).2 (e.stayed frame).1
        (Plain.survive e.knowledge (e.peak frame) (Plain.move e.knowledge frame p.words).1) := by
  obtain ⟨paired, upto⟩ := follows.searching active
  obtain ⟨slots, cache, moved, unqueued, paired, _⟩ := movePaired paired follows.unqueued upto frame
  have same : (e.move frame).1 = slots := by rw [moved]
  have pruned := paired.prune (e.peak frame + e.knowledge.params.beam)
  have stay := survivePaired paired unqueued (moveEntries e.knowledge frame p.words) e.knowledge (e.peak frame)
  rw [← same] at pruned stay
  exact ⟨by rw [peak, moved], pruned, stay.1⟩

theorem Follows.live {e : Engine α} {p : Plain α} (follows : Follows e p) (active : e.phase = .active)
    (frame : Frame α) :
    (e.active.filter fun w => Score.isLive (bestScore (e.pruned frame) w)) = e.live frame := by
  have pruned := (follows.frame active frame).2.1
  rw [Engine.live, pruned.live, pruned.shows.size, pruned.shows.bestScore]

theorem Follows.leavers {e : Engine α} {p : Plain α} (follows : Follows e p) (active : e.phase = .active)
    (frame : Frame α) : e.leavers frame = leavingTokens e.knowledge
      (e.peak frame + e.knowledge.params.wordBeam) (e.stayed frame).1 (e.stayed frame).2 :=
  leavingOnly (follows.frame active frame).2.2 e.knowledge _

/-- What leaves a word in a frame began at an exit of the table. -/
theorem leaverKnown (k : Knowledge α) (ops : List (Op α)) (active : ((make k).after ops).phase = .active)
    (frame : Frame α) : ∀ x ∈ ((make k).after ops).leavers frame,
      ∃ before, ((make k).after ops).exits[x.2.origin]? = some before := by
  have follows := (makeFollows k).after ops
  have served := Plain.afterServed k ops
  generalize (make k).after ops = e, (Plain.make k).after ops = p at *
  obtain ⟨_, frames, size, traced⟩ := served.searching (follows.phase ▸ active)
  obtain ⟨_, _, stay⟩ := follows.frame active frame
  have now : (frames ++ [frame])[p.frames]? = some frame := by simp [← size]
  have known : e.knowledge = k := follows.knowledge.trans served.knowledge
  have after := ((((traced.append [frame]).move now).prune (e.peak frame + k.params.beam)).limit).cross
    (e.peak frame + k.params.phoneBeam)
  intro x mem
  rw [follows.leavers active, leavingPaired stay, known] at mem
  rw [follows.exits]
  obtain ⟨_, before, found, _⟩ := after.leaving mem
  exact ⟨before, found⟩

variable [Std.TransCmp (Score.order (α := α))]

theorem advanceSelected (k : Knowledge α) (ops : List (Op α)) {frame : Frame α} {e' : Engine α}
    (advanced : ((make k).after ops).advance frame = .ok e') : Selected ((make k).after ops) frame e'.exits := by
  obtain ⟨active, rfl⟩ := advancedBy advanced
  have known := leaverKnown k ops active frame
  have follows := (makeFollows k).after ops
  generalize (make k).after ops = e, (Plain.make k).after ops = p at *
  obtain ⟨_, _, stay⟩ := follows.frame active frame
  have liveActive := follows.live active frame
  have leaving := follows.leavers active frame
  have once : e.active.Nodup := (follows.searching active).1.ordered.imp Nat.ne_of_lt
  obtain ⟨increasing, kept⟩ := leavingOrdered stay.ordered e.knowledge
    (e.peak frame + e.knowledge.params.wordBeam) (e.stayed frame).1
  rw [← leaving] at increasing kept
  refine ⟨?_, stay.ordered, fun w mem => crossedOf _ _ once _ mem, fun w s found out => ?_, kept, ?_⟩
  · have ordered : (e.live frame).Pairwise fun v w => id v < id w :=
      List.pairwise_lt_range.sublist List.filter_sublist
    obtain ⟨ranked, perm, ahead, first⟩ :=
      (capLeading (bestScore (e.pruned frame)) ordered e.knowledge.params.maxActive).1
    rw [← liveActive] at first
    exact ⟨ranked, perm, ahead, (List.mergeSort_perm _ _).trans (liveActive ▸ first)⟩
  · obtain ⟨x, held, alike⟩ := stay.shows.found found
    exact ((stay.idle w x out held).of alike.symm).notLive
  · obtain ⟨leading, ranked⟩ :=
      capLeading (fun x => x.2.score) increasing e.knowledge.params.maxExits
    refine ⟨_, _, leading, fun within => ?_, ranked, recordedEach fun x mem => known x (capMem mem), ?_⟩
    · rw [capWithin within]
    · rw [stepExits, ← leaving]
      exact recordAllIs known

/-- In each frame the words and the exits that go on are those that score best, as many as the limits allow. Limits
that are not passed are none. -/
theorem bestGoOn [Elementary] (k : Knowledge Float32) (ops : List (Op Float32)) :
    ((make k).after ops).knowledge = k ∧
    (∀ frame e', ((make k).after ops).advance frame = .ok e' → Selected ((make k).after ops) frame e'.exits) ∧
    ∀ words exits, (∀ before frame later e', ops = before ++ .advance frame :: later →
        ((make k).after before).advance frame = .ok e' →
        SameLimit (((make k).after before).live frame).length k.params.maxActive words ∧
        SameLimit (((make k).after before).leavers frame).length k.params.maxExits exits) →
      (make (k.limitedTo words exits)).after ops = ((make k).after ops).limitedTo words exits := by
  have knowledge (ops : List (Op Float32)) : ((make k).after ops).knowledge = k :=
    ((makeFollows k).after ops).knowledge.trans (Plain.afterServed k ops).knowledge
  refine ⟨knowledge ops, fun frame e' => advanceSelected k ops, fun words exits same => ?_⟩
  refine limitedRun k ops fun before frame later e' whole advanced => ?_
  obtain ⟨active, rfl⟩ := advancedBy advanced
  obtain ⟨sameWords, sameExits⟩ := same before frame later _ whole advanced
  have follows := (makeFollows k).after before
  refine limitedStep ?_ ?_
  · rw [follows.live active, knowledge before]
    exact sameWords
  · rw [← follows.leavers active, knowledge before]
    exact sameExits

/-! ### Two words that sound the same -/

@[reducible] local instance ofSystem : Elementary := Elementary.system

def begun (words exits : Option Nat) : Engine Float32 := (make (evenWords.limitedTo words exits)).after [.start]

def begunPlain (words exits : Option Nat) : Plain Float32 :=
  (Plain.make (evenWords.limitedTo words exits)).after [.start]

section
variable {words exits : Option Nat}

theorem begunFollows : Follows (begun words exits) (begunPlain words exits) := (makeFollows _).after [.start]

theorem begunAdvances : (begun words exits).advance ⟨0, [0]⟩ = .ok ((begun words exits).step ⟨0, [0]⟩) := rfl

theorem begunMoved : (Plain.move evenWords ⟨0, [0]⟩ (begunPlain none none).words).2 = 0 ∧
    let moved := (Plain.move evenWords ⟨0, [0]⟩ (begunPlain none none).words).1.map
      (WordModel.prune (0 + evenWords.params.beam))
    ((List.range moved.length).filter fun w => Score.isLive (Plain.bestScore moved w)) = [0, 1] ∧
    Score.order (Plain.bestScore moved 1) (Plain.bestScore moved 0) = .eq ∧
    Plain.leavingTokens evenWords (0 + evenWords.params.wordBeam) (Plain.survive evenWords 0
      (Plain.move evenWords ⟨0, [0]⟩ (begunPlain none none).words).1) = [(0, ⟨0, 0⟩), (1, ⟨0, 0⟩)] := by
  decide +kernel

theorem begunLive : (begun words exits).live ⟨0, [0]⟩ = [0, 1] ∧
    ¬ Ahead (bestScore ((begun words exits).pruned ⟨0, [0]⟩)) id 1 0 := by
  have follows : Follows (begun words exits) (begunPlain words exits) := begunFollows
  obtain ⟨peak, pruned, _⟩ := follows.frame rfl ⟨0, [0]⟩
  have level : (begun words exits).peak ⟨0, [0]⟩ = 0 := peak.trans begunMoved.1
  rw [level] at pruned
  rw [← follows.live rfl, pruned.live, pruned.shows.bestScore]
  exact ⟨begunMoved.2.1, notAhead begunMoved.2.2.1 (by decide)⟩

theorem begunLeavers (exits : Option Nat) : (begun none exits).leavers ⟨0, [0]⟩ = [(0, ⟨0, 0⟩), (1, ⟨0, 0⟩)] := by
  have follows : Follows (begun none exits) (begunPlain none exits) := begunFollows
  obtain ⟨peak, _, stay⟩ := follows.frame rfl ⟨0, [0]⟩
  have level : (begun none exits).peak ⟨0, [0]⟩ = 0 := peak.trans begunMoved.1
  rw [level] at stay
  rw [follows.leavers rfl, level, leavingPaired stay]
  exact begunMoved.2.2.2

end

/-- Of two words that score the same the first stays, and its exit. -/
theorem firstGoesOn :
    (∃ e', (begun (some 1) none).advance ⟨0, [0]⟩ = .ok e' ∧ (begun (some 1) none).live ⟨0, [0]⟩ = [0, 1] ∧
      ((begun (some 1) none).stayed ⟨0, [0]⟩).2 = [0]) ∧
    (∃ e', (begun none (some 1)).advance ⟨0, [0]⟩ = .ok e' ∧
      ((begun none (some 1)).leavers ⟨0, [0]⟩).map Prod.fst = [0, 1] ∧
      e'.exits.toList.map Exit.word = [none, some 0]) ∧
    (make (evenWords.limitedTo (some 2) (some 2))).after [.start, .advance ⟨0, [0]⟩] =
      ((make evenWords).after [.start, .advance ⟨0, [0]⟩]).limitedTo (some 2) (some 2) := by
  refine ⟨⟨_, begunAdvances, begunLive.1, ?_⟩, ⟨_, begunAdvances, by rw [begunLeavers]; rfl, ?_⟩, ?_⟩
  · have kept := ((bestGoOn (evenWords.limitedTo (some 1) none) [.start]).2.1 _ _ begunAdvances).kept
    change Leading _ _ (some 1) ((begun (some 1) none).live ⟨0, [0]⟩) _ at kept
    rw [begunLive.1] at kept
    exact firstOfTwo kept begunLive.2
  · obtain ⟨chosen, new, leading, _, _, recorded, more⟩ :=
      ((bestGoOn (evenWords.limitedTo none (some 1)) [.start]).2.1 _ _ begunAdvances).recorded
    change Leading _ _ (some 1) ((begun none (some 1)).leavers ⟨0, [0]⟩) _ at leading
    rw [begunLeavers] at leading
    cases firstOfTwo leading (notAhead (by decide +kernel) (by decide))
    obtain ⟨exit, rest, ⟨before, _, rfl⟩, none, rfl⟩ := List.forall₂_cons_left_iff.mp recorded
    cases List.forall₂_nil_left_iff.mp none
    rw [more]
    rfl
  · refine (bestGoOn evenWords [.start, .advance ⟨0, [0]⟩]).2.2 _ _ fun before frame later e' whole _ => ?_
    rcases before with _ | ⟨op, _ | ⟨op', rest⟩⟩
    · cases whole
    · cases whole
      change SameLimit ((begun none none).live ⟨0, [0]⟩).length none (some 2) ∧
        SameLimit ((begun none none).leavers ⟨0, [0]⟩).length none (some 2)
      rw [begunLive.1, begunLeavers]
      exact ⟨.inr ⟨by simp [Passed], by simp [Passed]⟩, .inr ⟨by simp [Passed], by simp [Passed]⟩⟩
    · simp at whole

end Engine

end SpeechDecoder.Search
