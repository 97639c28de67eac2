import SpeechDecoder.Proofs.Search.Tracing
import SpeechDecoder.Proofs.Model.Transitions

/-! Where an alignment that keeps within the beams leads, the search has a token at least as good. -/
namespace SpeechDecoder.Search

open Model (History Transitions)
open Score (Monotone)

variable {α : Type} [Score α]

/-- The search holds at a place a score that is at least `a`. -/
def Shown (words : List (WordModel α)) (exits : Array (Exit α)) (t : Nat) (place : Place) (a : α) : Prop :=
  match place with
  | .entry word phone => ∃ m, phoneAt words word phone = some m ∧ Score.atMost a m.entry.score = true
  | .state word phone state => ∃ m x, phoneAt words word phone = some m ∧ m.states[state]? = some x ∧
      Score.atMost a x.score = true
  | .exit word => ∃ (i : Nat) (e : Exit α), exits[i]? = some e ∧ e.word = some word ∧ e.endFrame = t ∧
      Score.atMost a e.score = true

def Dominates (k : Knowledge α) (frames : List (Frame α)) (allowed : Nat → Place → α → Prop) (t : Nat)
    (words : List (WordModel α)) (exits : Array (Exit α)) : Prop :=
  ∀ place h a, Path k frames allowed t place h a → Score.isLive a = true → Shown words exits t place a

def Grows (words words' : List (WordModel α)) : Prop :=
  ∀ word phone m, phoneAt words word phone = some m → ∃ m', phoneAt words' word phone = some m' ∧
    m'.states = m.states ∧ Score.atMost m.entry.score m'.entry.score = true

variable {k : Knowledge α} {frames : List (Frame α)} {allowed : Nat → Place → α → Prop} {t : Nat}
  {words : List (WordModel α)} {exits : Array (Exit α)}

theorem Grows.state {words' : List (WordModel α)} (grows : Grows words words') {word phone state : Nat} {a : α}
    (shown : Shown words exits t (.state word phone state) a) :
    Shown words' exits t (.state word phone state) a := by
  obtain ⟨m, x, found, held, le⟩ := shown
  obtain ⟨m', found', states, _⟩ := grows word phone m found
  exact ⟨m', x, found', by rw [states]; exact held, le⟩

theorem limitedNone (allWords : k.params.maxActive = none) (words : List (WordModel α)) :
    Plain.limited k words = words := by
  unfold Plain.limited
  rw [allWords]
  exact List.ext_getElem? fun i => by simp [Engine.cap]

variable [Monotone α]

theorem growsRefl (words : List (WordModel α)) : Grows words words :=
  fun _ _ m found => ⟨m, found, rfl, Score.atMostRefl _⟩

theorem Grows.trans {words words' words'' : List (WordModel α)} (first : Grows words words')
    (second : Grows words' words'') : Grows words words'' := by
  intro word phone m found
  obtain ⟨m', found', states, entry⟩ := first word phone m found
  obtain ⟨m'', found'', states', entry'⟩ := second word phone m' found'
  exact ⟨m'', found'', states'.trans states, Monotone.atMostTrans _ _ _ entry entry'⟩

theorem Grows.entry {words' : List (WordModel α)} (grows : Grows words words') {word phone : Nat} {a : α}
    (shown : Shown words exits t (.entry word phone) a) : Shown words' exits t (.entry word phone) a := by
  obtain ⟨m, found, le⟩ := shown
  obtain ⟨m', found', _, entry⟩ := grows word phone m found
  exact ⟨m', found', Monotone.atMostTrans _ _ _ le entry⟩

theorem crossGrows (threshold : α) (words : List (WordModel α)) :
    Grows words (words.map (WordModel.cross k.transitions k.params.phonePenalty threshold)) := by
  intro word phone m found
  rw [Plain.crossAt, found]
  refine ⟨_, rfl, ?_⟩
  cases Plain.crossingTo k threshold words word phone with
  | none => exact ⟨rfl, Score.atMostRefl _⟩
  | some token => exact ⟨rfl, (m.entry.betterAtLeast token).1⟩

theorem offerGrows (threshold : α) (words : List (WordModel α)) (origin : Nat) :
    Grows words (Plain.offerAll k threshold exits words origin) := by
  intro word phone m found
  unfold Plain.offerAll
  cases exits[origin]? with
  | none => exact ⟨m, found, rfl, Score.atMostRefl _⟩
  | some e =>
    rw [Plain.offerAt, found]
    refine ⟨_, rfl, ?_⟩
    split
    · split
      · exact ⟨rfl, Score.atMostRefl _⟩
      · exact ⟨rfl, (m.entry.betterAtLeast _).1⟩
    · exact ⟨rfl, Score.atMostRefl _⟩

theorem offerEachGrows (threshold : α) (origins : List Nat) (words : List (WordModel α)) :
    Grows words (origins.foldl (Plain.offerAll k threshold exits) words) := by
  induction origins generalizing words with
  | nil => exact growsRefl words
  | cons origin rest ih => exact (offerGrows threshold words origin).trans (ih _)

theorem offerEachShown {threshold : α} {origins : List Nat} {origin : Nat} (mem : origin ∈ origins) {e : Exit α}
    (known : exits[origin]? = some e) {word : Nat} {m : PhoneModel α} (first : phoneAt words word 0 = some m)
    {a : α}
    (le : Score.atMost a (e.score + (k.enter word e.history).1) = true)
    (high : Score.atMost threshold (e.score + (k.enter word e.history).1) = true) :
    Shown (origins.foldl (Plain.offerAll k threshold exits) words) exits t (.entry word 0) a := by
  induction origins generalizing words m with
  | nil => exact absurd mem List.not_mem_nil
  | cons o rest ih =>
    rcases List.mem_cons.mp mem with rfl | later
    · refine (offerEachGrows threshold rest _).entry ?_
      unfold Plain.offerAll
      rw [known]
      refine ⟨m.offer ⟨e.score + (k.enter word e.history).1, origin⟩, ?_, ?_⟩
      · rw [Plain.offerAt, first]
        simp only [Option.map_some, if_true, Score.notBelow.mpr high, Bool.false_eq_true, if_false]
      · exact Monotone.atMostTrans _ _ _ le (m.entry.betterAtLeast ⟨_, origin⟩).2
    · have grown : Grows words (Plain.offerAll k threshold exits words o) := offerGrows threshold words o
      obtain ⟨m', first', _⟩ := grown word 0 m first
      exact ih later first'

theorem Dominates.move (dominates : Dominates k frames allowed t words exits)
    (traced : Traced k frames t words exits) (forward : k.transitions.Forward k.phones.states) {frame : Frame α}
    (now : frames[t]? = some frame) {word phone state : Nat} {h : History} {a : α}
    (path : Path k frames allowed (t + 1) (.state word phone state) h a) (live : Score.isLive a = true) :
    Shown (Plain.move k frame words).1 exits (t + 1) (.state word phone state) a ∧
      allowed (t + 1) (.state word phone state) a := by
  cases path with
  | @enter _ _ _ _ b frame' m before now' here inside may =>
    cases now.symm.trans now'
    refine ⟨?_, may⟩
    obtain ⟨p, found, le⟩ := dominates _ _ _ before (Score.liveOfAdd live).1
    have shape := here.symm.trans (traced.phone found)
    cases Option.some.inj shape
    have size : 0 < p.states.length := by simpa [PhoneModel.clear] using inside
    obtain ⟨token, held, high⟩ := PhoneModel.movedAtLeast k.transitions (k.scorer.score frame) size
      (Monotone.atMostTrans _ _ _ le (PhoneModel.incomingEntry k.transitions p)) (Score.liveOfAdd live).1
    refine ⟨_, token, ?_, held, high⟩
    rw [Plain.moveAt, found]
    rfl
  | @go _ _ _ source _ _ b frame' m before now' here inside may =>
    cases now.symm.trans now'
    refine ⟨?_, may⟩
    have came := (Score.liveOfAdd live).1
    obtain ⟨p, x, found, held, le⟩ := dominates _ _ _ before (Score.liveOfAdd came).1
    have shape := here.symm.trans (traced.phone found)
    cases Option.some.inj shape
    have size : state < p.states.length := by simpa [PhoneModel.clear] using inside
    have order : source ≤ state := by
      refine Nat.le_of_not_lt fun back => ?_
      have bound : source < k.phones.states := by
        rw [← k.phoneStates here]
        simpa [PhoneModel.clear] using (List.getElem?_eq_some_iff.mp held).1
      have dead := forward p.clear.matrix source state bound back
      rw [(Score.liveOfAdd came).2] at dead
      cases dead
    have alive : x.isLive = true := Score.liveAtMost (Score.liveOfAdd came).1 le
    obtain ⟨token, held, high⟩ := PhoneModel.movedAtLeast k.transitions (k.scorer.score frame) size
      (Monotone.atMostTrans _ _ _ (Monotone.addMonotone _ _ _ le)
        (PhoneModel.incomingState k.transitions p order held alive)) came
    refine ⟨_, token, ?_, held, high⟩
    rw [Plain.moveAt, found]
    rfl

theorem pruneShown {threshold : α} {word phone state : Nat} {a : α}
    (shown : Shown words exits t (.state word phone state) a) (high : Score.atMost threshold a = true) :
    Shown (words.map (WordModel.prune threshold)) exits t (.state word phone state) a := by
  obtain ⟨m, x, found, held, le⟩ := shown
  have kept : Score.below x.score threshold = false :=
    Score.notBelow.mpr (Monotone.atMostTrans _ _ _ high le)
  refine ⟨m.prune threshold, x, ?_, ?_, le⟩
  · exact (phoneAtMap (PhoneModel.prune threshold) words word phone).trans (by rw [found]; rfl)
  · simp only [PhoneModel.prune, List.getElem?_map, held, Option.map_some, kept, Bool.false_eq_true, if_false]

theorem crossShown (traced : Traced k frames t words exits)
    (states : ∀ {word phone state h a}, Path k frames allowed t (.state word phone state) h a →
      Score.isLive a = true → Shown words exits t (.state word phone state) a)
    {threshold : α}
    (within : ∀ word phone a, allowed t (.entry word (phone + 1)) a → Score.atMost threshold a = true)
    {word phone : Nat} {h : History} {a : α}
    (path : Path k frames allowed t (.entry word (phone + 1)) h a) (live : Score.isLive a = true) :
    Shown (words.map (WordModel.cross k.transitions k.params.phonePenalty threshold)) exits t
      (.entry word (phone + 1)) a := by
  cases path with
  | @cross _ _ _ source _ b m next before here further may =>
    have came := (Score.liveOfAdd live).1
    obtain ⟨p, x, found, held, le⟩ := states before (Score.liveOfAdd came).1
    have shape := here.symm.trans (traced.phone found)
    cases Option.some.inj shape
    have alive : x.isLive = true := Score.liveAtMost (Score.liveOfAdd came).1 le
    have size : p.clear.states.length = p.states.length := by simp [PhoneModel.clear]
    rw [size] at came live may ⊢
    have left := Monotone.atMostTrans _ _ _ (Monotone.addMonotone _ _ (k.transitions.get p.matrix source
      p.states.length) le) (PhoneModel.leavingAtLeast k.transitions p held alive)
    have high := Monotone.addMonotone _ _ k.params.phonePenalty left
    have crossing : Plain.crossingTo k threshold words word (phone + 1) =
        some ((p.leaving k.transitions).add k.params.phonePenalty) := by
      change (phoneAt words word phone).bind _ = _
      rw [found, Option.bind_some]
      exact if_pos (Bool.and_eq_true_iff.mpr ⟨Score.liveAtMost came left,
        Monotone.atMostTrans _ _ _ (within _ _ _ may) high⟩)
    have known := traced.shape word (phone + 1)
    rw [further] at known
    obtain ⟨q, there, _⟩ := Option.map_eq_some_iff.mp known
    refine ⟨_, (Plain.crossAt k threshold words word (phone + 1)).trans (by rw [there, crossing]; rfl), ?_⟩
    exact Monotone.atMostTrans _ _ _ high
      (q.entry.betterAtLeast ((p.leaving k.transitions).add k.params.phonePenalty)).2

theorem exitShown (traced : Traced k frames t words exits) (allExits : k.params.maxExits = none)
    (states : ∀ {word phone state h a}, Path k frames allowed t (.state word phone state) h a →
      Score.isLive a = true → Shown words exits t (.state word phone state) a)
    (threshold : α) (within : ∀ word a, allowed t (.exit word) a → Score.atMost threshold a = true)
    {word : Nat} {h : History} {a : α} (path : Path k frames allowed t (.exit word) h a)
    (live : Score.isLive a = true) :
    ∃ e ∈ recorded k t exits
      (Engine.cap (fun x => x.2.score) k.params.maxExits (Plain.leavingTokens k threshold words)).1,
      e.word = some word ∧ e.endFrame = t ∧ Score.atMost a e.score = true := by
  cases path with
  | @leave _ _ phone source h b m before here last may =>
    have came := (Score.liveOfAdd live).1
    obtain ⟨p, x, found, held, le⟩ := states before came
    have shape := here.symm.trans (traced.phone found)
    cases Option.some.inj shape
    have alive : x.isLive = true := Score.liveAtMost came le
    have size : p.clear.states.length = p.states.length := by simp [PhoneModel.clear]
    rw [size] at live may ⊢
    have left := Monotone.atMostTrans _ _ _ (Monotone.addMonotone _ _ (k.transitions.get p.matrix source
      p.states.length) le) (PhoneModel.leavingAtLeast k.transitions p held alive)
    have none : phoneAt words word (phone + 1) = none := by
      have known := traced.shape word (phone + 1)
      rw [last] at known
      exact Option.map_eq_none_iff.mp known
    have mem : (word, p.leaving k.transitions) ∈ Plain.leavingTokens k threshold words :=
      Plain.memLeaving.mpr ⟨phone, p, found, none, Score.liveAtMost live left,
        Monotone.atMostTrans _ _ _ (within _ _ may) left, rfl⟩
    obtain ⟨_, origin, known, _⟩ := traced.leaving mem
    refine ⟨origin.after k (p.leaving k.transitions).origin word t (p.leaving k.transitions).score, ?_, rfl, rfl,
      left⟩
    refine List.mem_filterMap.mpr ⟨(word, p.leaving k.transitions), ?_, ?_⟩
    · rw [allExits]
      exact mem
    · rw [known]
      rfl

theorem Dominates.step {p : Plain α} (unigram : p.knowledge.language.order = 1)
    (allWords : p.knowledge.params.maxActive = none) (allExits : p.knowledge.params.maxExits = none)
    (forward : p.knowledge.transitions.Forward p.knowledge.phones.states) {best : Nat → α}
    (dominates : Dominates p.knowledge frames (withinBeams p.knowledge best) p.frames p.words p.exits)
    (traced : Traced p.knowledge frames p.frames p.words p.exits) {frame : Frame α}
    (now : frames[p.frames]? = some frame)
    (top : best (p.frames + 1) = (Plain.move p.knowledge frame p.words).2) :
    Dominates p.knowledge frames (withinBeams p.knowledge best) (p.step frame).frames (p.step frame).words
      (p.step frame).exits := by
  let k := p.knowledge
  let moved := Plain.move k frame p.words
  let pruned := moved.1.map (WordModel.prune (moved.2 + k.params.beam))
  have stay : Plain.survive k moved.2 moved.1 =
      pruned.map (WordModel.cross k.transitions k.params.phonePenalty (moved.2 + k.params.phoneBeam)) := by
    unfold Plain.survive
    rw [limitedNone allWords]
  have tracedPruned : Traced k frames (p.frames + 1) pruned p.exits := (traced.move now).prune _
  have states {word phone state : Nat} {h : History} {a : α}
      (path : Path k frames (withinBeams k best) (p.frames + 1) (.state word phone state) h a)
      (live : Score.isLive a = true) : Shown pruned p.exits (p.frames + 1) (.state word phone state) a := by
    obtain ⟨shown, may⟩ := dominates.move traced forward now path live
    refine pruneShown shown ?_
    rw [← top]
    exact may
  let crossed := pruned.map (WordModel.cross k.transitions k.params.phonePenalty (moved.2 + k.params.phoneBeam))
  have tracedCrossed : Traced k frames (p.frames + 1) crossed p.exits := tracedPruned.cross _
  have grows : Grows pruned crossed := crossGrows _ pruned
  have left {word : Nat} {h : History} {a : α}
      (path : Path k frames (withinBeams k best) (p.frames + 1) (.exit word) h a) (live : Score.isLive a = true) :=
    exitShown tracedCrossed allExits (fun path live => grows.state (states path live))
      (moved.2 + k.params.wordBeam) (fun word a may => by rw [← top]; exact may) path live
  obtain ⟨_, _, added⟩ := addedExits (tracedCrossed.recorded (moved.2 + k.params.wordBeam))
  let exits := Engine.recordAll k (p.frames + 1) p.exits
    (Plain.leavingTokens k (moved.2 + k.params.wordBeam) crossed)
  let words := (addedPlaces p.exits exits).foldl (Plain.offerAll k (moved.2 + k.params.beam) exits) crossed
  have offered : Grows crossed words := offerEachGrows _ _ _
  have result : (p.step frame).words = words ∧ (p.step frame).exits = exits := by
    unfold Plain.step
    dsimp only
    rw [stay]
    exact ⟨rfl, rfl⟩
  rw [result.1, result.2]
  intro place h a path live
  cases place with
  | state word phone state => exact offered.state (grows.state (states path live))
  | exit word =>
    obtain ⟨e, mem, named, here, le⟩ := left path live
    obtain ⟨origin, _, known⟩ := added e mem
    exact ⟨origin, e, known, named, here, le⟩
  | entry word phone =>
    cases phone with
    | succ before =>
      refine offered.entry ?_
      exact crossShown tracedPruned states (fun word phone a may => by rw [← top]; exact may) path live
    | zero =>
      cases path with
      | @next _ before _ h b m path first may =>
        -- the exit that is held may have another history than the path, which no score of a word depends on
        obtain ⟨e, mem, _, _, le⟩ := left path (Score.liveOfAdd live).1
        obtain ⟨origin, mem, known⟩ := added e mem
        have known' := tracedCrossed.shape word 0
        rw [first] at known'
        obtain ⟨q, there, _⟩ := Option.map_eq_some_iff.mp known'
        have same := k.enterUnigram unigram word h e.history
        have high := Monotone.addMonotone _ _ (k.enter word h).1 le
        rw [same] at high
        refine offerEachShown mem known there (by rw [same]; exact high) ?_
        refine Monotone.atMostTrans _ _ _ ?_ high
        rw [← same, ← top]
        exact may

end SpeechDecoder.Search
