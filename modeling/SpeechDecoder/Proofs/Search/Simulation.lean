import SpeechDecoder.Proofs.Search.Entering

/-! The search that keeps a list of active words, and remembers acoustic scores, does what the plain search does.
-/
namespace SpeechDecoder.Search

namespace Engine
variable {α : Type} [Score α]

theorem moveEntries (k : Knowledge α) (frame : Frame α) (words : List (WordModel α)) :
    ∀ x ∈ (Plain.move k frame words).1, ∀ p ∈ x.phones, p.entry = Token.dead := by
  intro x mem
  obtain ⟨m, all, rfl⟩ := List.mem_map.mp mem
  obtain ⟨y, _, rfl⟩ := List.mem_map.mp all
  exact WordModel.advanceEntries _ _ y ()

theorem pruneEntries {words : List (WordModel α)} (entries : ∀ x ∈ words, ∀ p ∈ x.phones, p.entry = Token.dead)
    (threshold : α) : ∀ x ∈ words.map (WordModel.prune threshold), ∀ p ∈ x.phones, p.entry = Token.dead := by
  intro x mem p inside
  obtain ⟨y, before, rfl⟩ := List.mem_map.mp mem
  obtain ⟨q, within, rfl⟩ := List.mem_map.mp inside
  exact entries y before q within

/-- What the two searches have in common, in whatever order they are asked. -/
structure Follows (e : Engine α) (p : Plain α) : Prop where
  knowledge : e.knowledge = p.knowledge
  phase : e.phase = p.phase
  exits : e.exits = p.exits
  frames : e.frames = p.frames
  result : e.result = p.result
  unqueued : Unqueued e.slots
  resting : e.phase ≠ .active → e.active = [] ∧ Shows e.slots (p.words.map WordModel.clear)
  searching : e.phase = .active → Paired e.active e.slots p.words ∧ e.cache.Upto e.frames

inductive Answer : Except Problem (Engine α) → Except Problem (Plain α) → Prop where
  | problem (p : Problem) : Answer (.error p) (.error p)
  | follows {e : Engine α} {p : Plain α} (follows : Follows e p) : Answer (.ok e) (.ok p)

theorem makeFollows (k : Knowledge α) : Follows (make k) (Plain.make k) := by
  refine ⟨rfl, rfl, rfl, rfl, rfl, fun w s found => ?_, fun _ => ⟨rfl, fun w => ?_⟩, fun active => ?_⟩
  · simp only [make, Array.getElem?_map] at found
    obtain ⟨_, _, rfl⟩ := Option.map_eq_some_iff.mp found
    rfl
  · simp only [make, Plain.make, Array.getElem?_map, List.getElem?_map, Array.getElem?_toList, Option.map_map]
    cases k.lexicon.words[w]? with
    | none => rfl
    | some word =>
      simp only [Option.map_some, Function.comp_apply, WordModel.clearIsSettled]
      exact congrArg some (WordModel.makeIdle k.phones word.phones)
  · cases active

theorem Follows.seen {e : Engine α} {p : Plain α} (follows : Follows e p) : e.seen = p.seen := by
  have others : e.alternatives = p.alternatives := by
    funext wanted
    cases searched : p.result with
    | none => simp only [alternatives, Plain.alternatives, follows.result, searched]
    | some r => simp only [alternatives, Plain.alternatives, follows.result, follows.knowledge, searched]
  simp only [Engine.seen, Plain.seen, follows.phase, follows.exits, follows.frames, follows.result, others]

theorem Follows.clearActive {e : Engine α} {p : Plain α} (follows : Follows e p) :
    Shows e.clearActive.slots (p.words.map WordModel.clear) ∧ Unqueued e.clearActive.slots := by
  refine ⟨fun w => ?_, onSlotsUnqueued (fun _ _ => rfl) e.active follows.unqueued⟩
  by_cases active : e.phase = .active
  · have paired := (follows.searching active).1
    change (onSlots Slot.clear e.active e.slots)[w]?.map _ = _
    rw [onSlotsAt _ (paired.ordered.imp Nat.ne_of_lt), List.getElem?_map]
    cases found : e.slots[w]? with
    | none =>
      rw [paired.shows.missing found]
      split <;> rfl
    | some s =>
      obtain ⟨x, held, alike⟩ := paired.shows.found found
      rw [held]
      have same : s.word.clear = x.clear := by
        rw [← WordModel.clearSettled, alike, WordModel.clearSettled]
      split
      · simp only [Option.map_some, Slot.clear, same]
      · rename_i out
        have idle : x.settled = x.clear := paired.idle w x out held
        simp only [Option.map_some, WordModel.clearIsSettled, alike, idle]
  · obtain ⟨none, shows⟩ := follows.resting active
    have same : e.clearActive.slots = e.slots := by
      rw [Engine.clearActive, none]
      rfl
    rw [same]
    exact shows w

theorem Follows.start {e : Engine α} {p : Plain α} (follows : Follows e p) : Answer e.start p.start := by
  unfold Engine.start Plain.start
  rw [follows.phase]
  by_cases idle : p.phase ≠ .idle
  · rw [if_pos idle, if_pos idle]
    exact .problem _
  · rw [if_neg idle, if_neg idle]
    obtain ⟨shows, unqueued⟩ := follows.clearActive
    have paired : Paired [] e.clearActive.slots (p.words.map WordModel.clear) :=
      ⟨shows, fun w x _ found => by
        obtain ⟨y, _, rfl⟩ := List.mem_map.mp (List.mem_of_getElem? found)
        exact y.clearIdle, List.Pairwise.nil⟩
    have entered := ((queueingOf paired unqueued).offerAll e.knowledge Score.impossible
      #[Exit.root e.knowledge] 0).finish
    refine .follows ⟨follows.knowledge, rfl, ?_, rfl, rfl, entered.2, fun rest => absurd rfl rest, fun _ => ?_⟩
    · exact congrArg (fun k => #[Exit.root k]) follows.knowledge
    · refine ⟨?_, AcousticCache.clearUpto _ _⟩
      rw [← follows.knowledge]
      exact entered.1

theorem Follows.finish {e : Engine α} {p : Plain α} (follows : Follows e p) : Answer e.finish p.finish := by
  unfold Engine.finish Plain.finish
  rw [follows.phase, follows.knowledge, follows.exits, follows.frames]
  by_cases active : p.phase ≠ .active
  · rw [if_pos active, if_pos active]
    exact .problem _
  · rw [if_neg active, if_neg active]
    obtain ⟨shows, unqueued⟩ := follows.clearActive
    exact .follows ⟨follows.knowledge, rfl, rfl, follows.frames, rfl, unqueued, fun _ => ⟨rfl, shows⟩,
      fun searching => by cases searching⟩

theorem Follows.reset {e : Engine α} {p : Plain α} (follows : Follows e p) : Follows e.reset p.reset := by
  obtain ⟨shows, unqueued⟩ := follows.clearActive
  exact ⟨follows.knowledge, rfl, rfl, rfl, rfl, unqueued, fun _ => ⟨rfl, shows⟩,
    fun searching => by cases searching⟩

theorem Paired.prune {active : List Nat} {slots : Array (Slot α)} {words : List (WordModel α)}
    (paired : Paired active slots words) (threshold : α) :
    Paired active (onSlots (fun s => { s with word := s.word.prune threshold }) active slots)
      (words.map (WordModel.prune threshold)) :=
  paired.map (fun x y alike => by rw [← WordModel.pruneSettled, alike, WordModel.pruneSettled])
    fun _ idle => idle.prune threshold

variable [Score.Ordered α]

theorem leavingPaired {active : List Nat} {slots : Array (Slot α)} {words : List (WordModel α)}
    (paired : Paired active slots words) (k : Knowledge α) (threshold : α) :
    leavingTokens k threshold slots active = Plain.leavingTokens k threshold words := by
  let leave (w : Nat) (x : WordModel α) : Option (Nat × Token α) :=
    (x.leaving? k.transitions threshold).bind fun token => some (w, token)
  have each : (fun w => slots[w]?.bind fun s => leave w s.word) = fun w => words[w]?.bind (leave w) := by
    funext w
    cases found : slots[w]? with
    | none =>
      rw [paired.shows.missing found]
      rfl
    | some s =>
      obtain ⟨x, held, alike⟩ := paired.shows.found found
      have same : s.word.leaving? k.transitions threshold = x.leaving? k.transitions threshold := by
        rw [← WordModel.leavingSettled, alike, WordModel.leavingSettled]
      simp only [held, Option.bind_some, leave, same]
  change active.filterMap (fun w => slots[w]?.bind fun s => leave w s.word) =
    (List.range words.length).filterMap fun w => words[w]?.bind (leave w)
  rw [each]
  refine collectActive paired.ordered (fun w out => ?_) fun w far => ?_
  · cases held : words[w]? with
    | none => rfl
    | some x =>
      simp only [Option.bind_some, leave, (paired.idle w x out held).leaving, Option.bind_none]
  · rw [List.getElem?_eq_none far]
    rfl

theorem survivePaired {active : List Nat} {slots : Array (Slot α)} {words : List (WordModel α)}
    (paired : Paired active slots words) (unqueued : Unqueued slots)
    (entries : ∀ x ∈ words, ∀ p ∈ x.phones, p.entry = Token.dead) (k : Knowledge α) (best : α) :
    Paired (survive k best active slots).2 (survive k best active slots).1 (Plain.survive k best words) ∧
      Unqueued (survive k best active slots).1 ∧
      ∀ w ∈ (survive k best active slots).2, ∃ s,
        (survive k best active slots).1[w]? = some s ∧ s.word.isLive = true := by
  have pruned := paired.prune (best + k.params.beam)
  obtain ⟨limited, live⟩ := limitPaired (k := k) pruned (pruneEntries entries _)
  have crossed := limited.map (f := WordModel.cross k.transitions k.params.phonePenalty
    (best + k.params.phoneBeam)) (fun x y alike => by
      rw [WordModel.crossSettled, alike, WordModel.crossSettled]) fun x idle => idle.cross _ _ _
  refine ⟨crossed, ?_, fun w mem => ?_⟩
  · refine onSlotsUnqueued ?_ _ (onSlotsUnqueued ?_ _ (onSlotsUnqueued ?_ _ unqueued))
    · exact fun s same => same
    · exact fun s _ => rfl
    · exact fun s same => same
  · have alive := live w mem
    unfold Plain.bestScore at alive
    cases held : (Plain.limited k (words.map (WordModel.prune (best + k.params.beam))))[w]? with
    | none =>
      rw [held, Option.elim_none, Score.Ordered.impossibleNotLive] at alive
      cases alive
    | some y =>
      have shown := crossed.shows w
      rw [List.getElem?_map, held] at shown
      obtain ⟨s, found, alike⟩ := Option.map_eq_some_iff.mp shown
      refine ⟨s, found, WordModel.isLiveOfBest ?_⟩
      rw [← WordModel.bestScoreSettled, alike, WordModel.bestScoreSettled, WordModel.crossBestScore]
      rw [held] at alive
      exact alive

theorem stepPaired {e : Engine α} {p : Plain α} (knowledge : e.knowledge = p.knowledge)
    (paired : Paired e.active e.slots p.words) (unqueued : Unqueued e.slots)
    (upto : e.cache.Upto e.frames) (frames : e.frames = p.frames) (exits : e.exits = p.exits)
    (frame : Frame α) :
    Paired (e.step frame).active (e.step frame).slots (p.step frame).words ∧
      Unqueued (e.step frame).slots ∧ (e.step frame).exits = (p.step frame).exits ∧
      (e.step frame).cache.Upto (e.step frame).frames := by
  obtain ⟨slots, cache, moved, unqueued, paired, upto⟩ := movePaired paired unqueued upto frame
  let k := e.knowledge
  let best := (Plain.move k frame p.words).2
  obtain ⟨stay, unqueued, live⟩ := survivePaired paired unqueued (moveEntries k frame p.words) k best
  have leaving := leavingPaired stay k (best + k.params.wordBeam)
  have queued := (queueingOf stay unqueued).queueLive (stay.ordered.imp Nat.ne_of_lt)
    (fun w _ => List.not_mem_nil) live
  have offered := fun exits origins => (queued.offerEach k (best + k.params.beam) exits origins).finish
  unfold Engine.step Plain.step
  simp only [moved, ← knowledge, ← frames, ← exits]
  rw [leaving]
  exact ⟨(offered _ _).1, (offered _ _).2, rfl, upto⟩

theorem Follows.advance {e : Engine α} {p : Plain α} (follows : Follows e p) (frame : Frame α) :
    Answer (e.advance frame) (p.advance frame) := by
  unfold Engine.advance Plain.advance
  rw [follows.phase, follows.knowledge]
  by_cases active : p.phase ≠ .active
  · rw [if_pos active, if_pos active]
    exact .problem _
  · rw [if_neg active, if_neg active]
    by_cases size : frame.values.length ≠ p.knowledge.scorer.dimension
    · rw [if_pos size, if_pos size]
      exact .problem _
    · rw [if_neg size, if_neg size]
      have now : e.phase = .active := follows.phase.trans (Decidable.not_not.mp active)
      obtain ⟨paired, upto⟩ := follows.searching now
      obtain ⟨paired', unqueued, exits, upto'⟩ :=
        stepPaired follows.knowledge paired follows.unqueued upto follows.frames follows.exits frame
      exact .follows ⟨follows.knowledge, follows.phase, exits, congrArg (· + 1) follows.frames, follows.result,
        unqueued, fun rest => absurd now rest, fun _ => ⟨paired', upto'⟩⟩

theorem Follows.perform {e : Engine α} {p : Plain α} (follows : Follows e p) (op : Op α) :
    Answer (e.perform op) (p.perform op) := by
  cases op with
  | start => exact follows.start
  | advance frame => exact follows.advance frame
  | finish => exact follows.finish
  | reset => exact .follows follows.reset

theorem Follows.after {e : Engine α} {p : Plain α} (follows : Follows e p) (ops : List (Op α)) :
    Follows (e.after ops) (p.after ops) := by
  induction ops generalizing e p with
  | nil => exact follows
  | cons op rest ih =>
    refine ih ?_
    change Follows ((e.perform op).toOption.getD e) ((p.perform op).toOption.getD p)
    have answer := follows.perform op
    generalize e.perform op = left, p.perform op = right at answer
    cases answer with
    | problem _ => exact follows
    | follows next => exact next

theorem Follows.problem {e : Engine α} {p : Plain α} (follows : Follows e p) (op : Op α) :
    e.problem? op = p.problem? op := by
  unfold problem? Plain.problem?
  have answer := follows.perform op
  generalize e.perform op = left, p.perform op = right at answer
  cases answer <;> rfl

end Engine

section
variable {α : Type} [Score α]

namespace Plain

def scoring (p : Plain α) (scoreAll : Bool) : Plain α := { p with knowledge := p.knowledge.scoring scoreAll }

theorem performScoring (p : Plain α) (scoreAll : Bool) (op : Op α) :
    (p.scoring scoreAll).perform op = (p.perform op).map (scoring · scoreAll) := by
  cases op with
  | start =>
    change (p.scoring scoreAll).start = (p.start).map (scoring · scoreAll)
    unfold start
    by_cases other : p.phase ≠ .idle
    · rw [if_pos other, if_pos (show (p.scoring scoreAll).phase ≠ .idle from other)]
      rfl
    · rw [if_neg other, if_neg (show ¬ (p.scoring scoreAll).phase ≠ .idle from other)]
      rfl
  | advance frame =>
    change (p.scoring scoreAll).advance frame = (p.advance frame).map (scoring · scoreAll)
    unfold advance
    by_cases other : p.phase ≠ .active
    · rw [if_pos other, if_pos (show (p.scoring scoreAll).phase ≠ .active from other)]
      rfl
    · rw [if_neg other, if_neg (show ¬ (p.scoring scoreAll).phase ≠ .active from other)]
      change (if frame.values.length ≠ p.knowledge.scorer.dimension then _ else _) = _
      split <;> rfl
  | finish =>
    change (p.scoring scoreAll).finish = (p.finish).map (scoring · scoreAll)
    unfold finish
    by_cases other : p.phase ≠ .active
    · rw [if_pos other, if_pos (show (p.scoring scoreAll).phase ≠ .active from other)]
      rfl
    · rw [if_neg other, if_neg (show ¬ (p.scoring scoreAll).phase ≠ .active from other)]
      rfl
  | reset => rfl

theorem afterScoring (p : Plain α) (scoreAll : Bool) (ops : List (Op α)) :
    (p.scoring scoreAll).after ops = (p.after ops).scoring scoreAll := by
  induction ops generalizing p with
  | nil => rfl
  | cons op rest ih =>
    change Plain.after (((p.scoring scoreAll).perform op).toOption.getD (p.scoring scoreAll)) rest = _
    rw [performScoring]
    change _ = (Plain.after ((p.perform op).toOption.getD p) rest).scoring scoreAll
    rw [← ih]
    cases p.perform op <;> rfl

end Plain

namespace Alternatives

def Setting.scoring (c : Setting α) (scoreAll : Bool) : Setting α :=
  { c with knowledge := c.knowledge.scoring scoreAll }

theorem runScoring (c : Setting α) (scoreAll : Bool) (wanted count : Nat) (s : State α) :
    run (c.scoring scoreAll) wanted count s = run c wanted count s := by
  induction count generalizing s with
  | zero => rfl
  | succ n ih =>
    have same (s : State α) (next : Candidate α) : serve (c.scoring scoreAll) s next = serve c s next := rfl
    simp only [run, ih, same]

end Alternatives

theorem Lattice.alternativesScoring (k : Knowledge α) (scoreAll : Bool) (l : Lattice α) (wanted : Nat) :
    l.alternatives (k.scoring scoreAll) wanted = l.alternatives k wanted := by
  have setting : Alternatives.Setting.ofLattice (k.scoring scoreAll) l =
      (Alternatives.Setting.ofLattice k l).scoring scoreAll := rfl
  unfold alternatives explore
  rw [setting]
  simp only [Alternatives.runScoring]
  rfl

theorem Plain.seenScoring (p : Plain α) (scoreAll : Bool) : (p.scoring scoreAll).seen = p.seen := by
  have same : (p.scoring scoreAll).alternatives = p.alternatives := by
    funext wanted
    have known : (p.scoring scoreAll).result = p.result := rfl
    cases searched : p.result with
    | none => simp only [Plain.alternatives, known, searched]
    | some r =>
      simp only [Plain.alternatives, known, searched]
      exact r.lattice.alternativesScoring p.knowledge scoreAll wanted
  simp only [seen, same]
  rfl

end

/-- Whatever is asked of a search, and whether or not all acoustic scores are computed, it shows what the plain
search shows, and refuses what that one refuses. -/
theorem Engine.plainSame [Elementary] (k : Knowledge Float32) (scoreAll : Bool) (ops : List (Op Float32)) :
    let e := (Engine.make (k.scoring scoreAll)).after ops
    let p := (Plain.make k).after ops
    e.seen = p.seen ∧ ∀ op, e.problem? op = p.problem? op := by
  intro e p
  have follows : Follows e (p.scoring scoreAll) := by
    have after := (makeFollows (k.scoring scoreAll)).after ops
    have same : Plain.make (k.scoring scoreAll) = (Plain.make k).scoring scoreAll := rfl
    rw [same, Plain.afterScoring] at after
    exact after
  refine ⟨follows.seen.trans (p.seenScoring scoreAll), fun op => ?_⟩
  rw [follows.problem, Plain.problem?, Plain.performScoring, Plain.problem?]
  cases p.perform op <;> rfl

end SpeechDecoder.Search
