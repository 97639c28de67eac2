import SpeechDecoder.Proofs.Search.Limit

/-! The alternatives of an utterance for any language model, and also where the search for them gave up: the search
stops by itself, and what it has found are records of complete paths by falling score. The record of a path is said
here of the exits alone, from the first word to the last. -/
namespace SpeechDecoder.Search

open Model (History)

variable {α : Type} [Score α]

/-! ### Paths from left to right -/

/-- One word more: the history behind it, and the sum with the score of entering it and its acoustic score. -/
def Knowledge.pass (k : Knowledge α) (before : History × α) (e : Exit α) : History × α :=
  let (entry, history) := k.enter (e.word.getD 0) before.1
  (history, before.2 + entry + e.acousticScore)

/-- The sum along a path to the end of the utterance. -/
def Knowledge.sum (k : Knowledge α) (path : List (Exit α)) : α :=
  let (history, sum) := path.foldl k.pass (k.startHistory, Score.zero)
  sum + k.leave history

/-- The segments of a path behind a history: its words but fillers, each with the score of entering it there. -/
def Knowledge.say (k : Knowledge α) (h : History) : List (Exit α) → List (Segment α)
  | [] => []
  | e :: rest =>
    let (entry, history) := k.enter (e.word.getD 0) h
    let segment? : Option (Segment α) := do
      let word ← k.lexicon.words[← e.word]?
      if word.isFiller then none
      some ⟨word.base, e.startFrame, e.endFrame - 1, e.acousticScore, entry⟩
    segment?.toList ++ k.say history rest

/-- Words in a row, from one frame to another. -/
inductive Lattice.Spans (l : Lattice α) : Nat → List (Exit α) → Nat → Prop where
  | none (t : Nat) : l.Spans t [] t
  | word {t : Nat} {place word : Nat} {e : Exit α} {rest : List (Exit α)} {t' : Nat} (found : l.exit? place = some e)
      (named : e.word = some word) (starts : e.startFrame = t) (on : l.Spans e.endFrame rest t') :
      l.Spans t (e :: rest) t'

structure Knowledge.Records (k : Knowledge α) (path : List (Exit α)) (a : Alternative α) : Prop where
  segments : a.segments = k.say k.startHistory path
  text : a.hypothesis.text = " ".intercalate (a.segments.map Segment.word)
  score : a.hypothesis.score = k.sum path

/-- At most so many records of complete paths, by falling score and with different texts. -/
structure Lattice.Listed (k : Knowledge α) (l : Lattice α) (wanted : Nat) (found : List (Alternative α)) : Prop where
  few : found.length ≤ wanted
  ranks : found.map Alternative.rank = List.range found.length
  falling : found.Pairwise fun a b => (Score.order b.hypothesis.score a.hypothesis.score).isLE
  distinct : (found.map fun a => a.hypothesis.text).Nodup
  each : ∀ a ∈ found, ∃ path, path ≠ [] ∧ l.Spans 0 path l.frames ∧ k.Records path a
  ordered : ∀ a ∈ found, a.segments.Pairwise fun s s' => s.endFrame < s'.startFrame
  inside : ∀ a ∈ found, ∀ s ∈ a.segments, s.startFrame ≤ s.endFrame ∧ s.endFrame < l.frames

namespace Lattice
variable {k : Knowledge α} {l : Lattice α}

omit [Score α] in
theorem Spans.snoc {t t' : Nat} {path : List (Exit α)} (spans : l.Spans t path t') {place word : Nat} {e : Exit α}
    (found : l.exit? place = some e) (named : e.word = some word) (starts : e.startFrame = t') :
    l.Spans t (path ++ [e]) e.endFrame := by
  induction spans with
  | none t => exact .word found named starts (.none _)
  | word found' named' starts' _ ih => exact .word found' named' starts' (ih starts)

theorem saySnoc (h : History) (sum : α) (path : List (Exit α)) (e : Exit α) :
    k.say h (path ++ [e]) = k.say h path ++ k.say (path.foldl k.pass (h, sum)).1 [e] := by
  induction path generalizing h sum with
  | nil => rfl
  | cons first rest ih =>
    rw [List.cons_append]
    unfold Knowledge.say
    dsimp only
    rw [ih _ (k.pass (h, sum) first).2, List.append_assoc]
    rfl

omit [Score α] in
theorem segmentsSnoc (steps : List (Nat × α)) (place : Nat) (score : α) :
    l.segments k (steps ++ [(place, score)]) = l.segments k steps ++ (l.segment? k place score).toList := by
  unfold segments
  rw [List.filterMap_append]
  congr 1

theorem Leads.along (formed : l.Formed) {w : Walk α} (leads : l.Leads k w) :
    ∃ path e, l.exit? w.last = some e ∧ l.Spans 0 path e.endFrame ∧
      l.segments k w.steps.reverse = k.say k.startHistory path ∧
      path.foldl k.pass (k.startHistory, Score.zero) = (w.history, w.score) := by
  induction leads with
  | refl =>
    obtain ⟨e, found, _, zero⟩ := formed.root
    exact ⟨[], e, found, zero ▸ .none _, rfl, rfl⟩
  | @tail w _ _ goes ih =>
    cases goes with
    | @on before e place word here there named joined =>
      obtain ⟨path, before', found, spans, segments, passed⟩ := ih
      cases here.symm.trans found
      have latest : (l.segment? k place (k.enter word w.history).1).toList = k.say w.history [e] := by
        simp [Knowledge.say, segment?, there, named]
      refine ⟨path ++ [e], e, there, spans.snoc there named joined, ?_, ?_⟩
      · rw [saySnoc _ Score.zero, passed, ← segments, ← latest]
        exact (congrArg (l.segments k) List.reverse_cons).trans (segmentsSnoc _ _ _)
      · rw [List.foldl_append, passed]
        simp [Knowledge.pass, Walk.extend, named]

theorem Completes.along (formed : l.Formed) {w : Walk α} (completes : l.Completes k w) {a : Alternative α}
    (records : l.Records k w a) : ∃ path, path ≠ [] ∧ l.Spans 0 path l.frames ∧ k.Records path a := by
  obtain ⟨path, e, found, spans, segments, passed⟩ := completes.leads.along formed
  obtain ⟨e', found', final⟩ := completes.final
  cases found.symm.trans found'
  simp only [isFinal, Bool.and_eq_true, decide_eq_true_eq, beq_iff_eq] at final
  obtain ⟨⟨some, _⟩, last⟩ := final
  rw [last] at spans
  refine ⟨path, ?_, spans, records.segments.trans segments, ?_, ?_⟩
  · rintro rfl
    generalize l.frames = t at some spans
    cases spans
    exact some rfl
  · rw [records.text, records.segments]
    rfl
  · rw [records.score, Knowledge.sum, passed]
    rfl

theorem saysOne (k : Knowledge α) (h : History) (e : Exit α) (rest : List (Exit α)) :
    let others := k.say (k.enter (e.word.getD 0) h).2 rest
    k.say h (e :: rest) = others ∨
      ∃ s, s.startFrame = e.startFrame ∧ s.endFrame = e.endFrame - 1 ∧ k.say h (e :: rest) = s :: others := by
  intro others
  unfold Knowledge.say
  cases named : e.word with
  | none => exact .inl (by simp [others, named])
  | some word =>
    cases listed : k.lexicon.words[word]? with
    | none => exact .inl (by simp [listed, others, named])
    | some w =>
      cases filler : w.isFiller with
      | true => exact .inl (by simp [listed, filler, others, named])
      | false =>
        exact .inr ⟨⟨w.base, e.startFrame, e.endFrame - 1, e.acousticScore, (k.enter word h).1⟩, rfl, rfl,
          by simp [listed, filler, others, named]⟩

omit [Score α] in
theorem Spans.forward (formed : l.Formed) {t t' : Nat} {path : List (Exit α)} (spans : l.Spans t path t') :
    t ≤ t' := by
  induction spans with
  | none t => exact Nat.le_refl t
  | @word t place word e _ _ found named starts _ ih =>
    have less := (formed.timed place e word found named).1
    omega

theorem Spans.ordered (formed : l.Formed) {t t' : Nat} {path : List (Exit α)} (spans : l.Spans t path t')
    (h : History) : (k.say h path).Pairwise (fun s s' => s.endFrame < s'.startFrame) ∧
      ∀ s ∈ k.say h path, t ≤ s.startFrame ∧ s.startFrame ≤ s.endFrame ∧ s.endFrame < t' := by
  induction spans generalizing h with
  | none t => exact ⟨.nil, fun s mem => absurd mem List.not_mem_nil⟩
  | @word t place word e rest t' found named starts on ih =>
    obtain ⟨less, _⟩ := formed.timed place e word found named
    have later := on.forward formed
    obtain ⟨apart, within⟩ := ih (k.enter (e.word.getD 0) h).2
    have behind (s : Segment α) (mem : s ∈ k.say (k.enter (e.word.getD 0) h).2 rest) :
        t ≤ s.startFrame ∧ s.startFrame ≤ s.endFrame ∧ s.endFrame < t' := by
      obtain ⟨after, forward, before⟩ := within s mem
      exact ⟨by omega, forward, before⟩
    rcases saysOne k h e rest with same | ⟨s, starts', ends, same⟩
    · rw [same]
      exact ⟨apart, behind⟩
    · rw [same]
      refine ⟨List.pairwise_cons.mpr ⟨fun s' mem => ?_, apart⟩, fun s' mem => ?_⟩
      · have := (within s' mem).1
        omega
      · rcases List.mem_cons.mp mem with rfl | old
        · omega
        · exact behind s' old

end Lattice

namespace Alternatives
variable {k : Knowledge α} {l : Lattice α}

/-! ### The end of the search -/

theorem runStopped {c : Setting α} {wanted : Nat} {s : State α} (stopped : s.Stopped wanted) (count : Nat) :
    run c wanted count s = s := by
  cases count with
  | zero => rfl
  | succ n =>
    unfold run
    cases popped : s.queue.pop? Candidate.before with
    | none => rfl
    | some pair =>
      rcases stopped with empty | past
      · have items := Queue.popItems popped
        rw [empty] at items
        exact absurd items.symm (List.cons_ne_nil _ _ ·.eq_nil)
      · exact if_pos past

theorem runGoing {c : Setting α} {wanted : Nat} {s : State α} {x : Candidate α} {queue : Queue (Candidate α)}
    (popped : s.queue.pop? Candidate.before = some (x, queue))
    (going : ¬ (wanted ≤ s.found.length ∨ expansionLimit ≤ s.expansions)) (count : Nat) :
    run c wanted (count + 1) s = run c wanted count (serve c { s with queue } x) := by
  rw [run, popped]
  exact if_neg going

theorem runMore {c : Setting α} {wanted : Nat} (count more : Nat) (s : State α) :
    run c wanted (count + more) s = run c wanted more (run c wanted count s) := by
  induction count generalizing s with
  | zero =>
    rw [Nat.zero_add]
    rfl
  | succ n ih =>
    by_cases stopped : s.Stopped wanted
    · simp only [runStopped stopped]
    · obtain ⟨waiting, going⟩ := not_or.mp stopped
      cases popped : s.queue.pop? Candidate.before with
      | none => exact absurd (Queue.popEmpty popped) waiting
      | some pair => rw [Nat.add_right_comm, runGoing popped going, runGoing popped going, ih]

theorem exploreStops (formed : l.Formed) (wanted : Nat) :
    (l.explore k wanted).found.length ≤ wanted ∧ (l.explore k wanted).Stopped wanted :=
  runStops formed wanted (2 * expansionLimit + 1) (startRecorded k l) (Nat.zero_le wanted) (Nat.le_refl _)

/-- No number of steps beyond the limit's makes a difference. -/
theorem exploreEnds (formed : l.Formed) (wanted : Nat) {count : Nat} (enough : 2 * expansionLimit + 1 ≤ count) :
    run (.ofLattice k l) wanted count (start (.ofLattice k l)) = l.explore k wanted := by
  obtain ⟨more, rfl⟩ := Nat.exists_eq_add_of_le enough
  rw [runMore]
  exact runStopped (exploreStops formed wanted).2 more

theorem exploreRecorded (formed : l.Formed) (wanted : Nat) : Recorded k l (l.explore k wanted) [] := by
  have step : ∀ s x queue, Recorded k l s [] → s.expansions < expansionLimit →
      s.queue.pop? Candidate.before = some (x, queue) → Recorded k l (serve (.ofLattice k l) { s with queue } x) [] :=
    fun s x queue kept _ popped => (kept.pop popped).served formed
  exact runKeeps step _ (startRecorded k l)

/-! ### By rank -/

theorem rankedSame {found : List (Alternative α)} {a : Alternative α} (mem : a ∈ ranked found) :
    ∃ b ∈ found, b.hypothesis = a.hypothesis ∧ b.segments = a.segments := by
  obtain ⟨rank, inside, rfl⟩ := List.mem_mapIdx.mp mem
  exact ⟨_, (List.mergeSort_perm _ _).mem_iff.mp (List.getElem_mem inside), rfl, rfl⟩

theorem rankedRanks (found : List (Alternative α)) :
    (ranked found).map Alternative.rank = List.range (ranked found).length :=
  List.ext_getElem (by simp) fun i _ _ => by simp [ranked]

theorem rankedFalling [Std.TransCmp (Score.order (α := α))] (found : List (Alternative α)) :
    (ranked found).Pairwise fun a b => (Score.order b.hypothesis.score a.hypothesis.score).isLE := by
  have sorted : ((ranked found).map Alternative.hypothesis).Pairwise fun a b => (Score.order b.score a.score).isLE := by
    rw [rankedHypotheses, List.pairwise_map]
    have through (a b c : Alternative α) (first : (Score.order b.hypothesis.score a.hypothesis.score).isLE)
        (second : (Score.order c.hypothesis.score b.hypothesis.score).isLE) :
        (Score.order c.hypothesis.score a.hypothesis.score).isLE := Std.TransCmp.isLE_trans second first
    refine List.pairwise_mergeSort through (fun a b => ?_) found
    have swap : Score.order b.hypothesis.score a.hypothesis.score =
        (Score.order a.hypothesis.score b.hypothesis.score).swap := Std.OrientedCmp.eq_swap
    rw [swap]
    cases Score.order a.hypothesis.score b.hypothesis.score <;> rfl
  exact List.pairwise_map.mp sorted

end Alternatives

open Alternatives in
theorem Lattice.Formed.listed [Std.TransCmp (Score.order (α := α))] {k : Knowledge α} {l : Lattice α}
    (formed : l.Formed) (wanted : Nat) :
    l.Listed k (min wanted k.params.maxAlternatives) (l.alternatives k wanted) := by
  unfold Lattice.alternatives
  dsimp only
  split
  · exact ⟨Nat.zero_le _, rfl, .nil, .nil, nofun, nofun, nofun⟩
  · let most := min wanted k.params.maxAlternatives
    have recorded := exploreRecorded (k := k) formed most
    have each (a : Alternative α) (mem : a ∈ ranked (l.explore k most).found) :
        ∃ path, path ≠ [] ∧ l.Spans 0 path l.frames ∧ k.Records path a := by
      obtain ⟨b, mem', hypothesis, segments⟩ := rankedSame mem
      obtain ⟨w, completes, records⟩ := recorded.found b mem'
      exact completes.along formed ⟨segments ▸ records.segments, hypothesis ▸ records.text, hypothesis ▸ records.score⟩
    have perm := rankedPerm (l.explore k most).found
    refine ⟨?_, rankedRanks _, rankedFalling _, ?_, each, fun a mem => ?_, fun a mem s inside => ?_⟩
    · have size : (ranked (l.explore k most).found).length = (l.explore k most).found.length := by
        simpa using perm.length_eq
      exact size.trans_le (exploreStops formed most).1
    · have texts := (perm.map Hypothesis.text).nodup_iff.mpr (by rw [List.map_map]; exact recorded.distinct)
      rwa [List.map_map] at texts
    · obtain ⟨path, _, spans, records⟩ := each a mem
      rw [records.segments]
      exact (spans.ordered formed _).1
    · obtain ⟨path, _, spans, records⟩ := each a mem
      rw [records.segments] at inside
      exact ((spans.ordered formed _).2 s inside).2

namespace Engine

/-- Whatever the language model says, and also where the limit is met, the search for alternatives stops by itself,
and the alternatives are records of complete paths. -/
theorem alternativesRecorded [Score.Ordered α] [Std.TransCmp (Score.order (α := α))] (k : Knowledge α)
    (ops : List (Op α)) {r : Result α} (decoded : ((make k).after ops).result = some r) (wanted : Nat) :
    let most := min wanted k.params.maxAlternatives
    let c := Alternatives.Setting.ofLattice k r.lattice
    (r.lattice.explore k most).Stopped most ∧
      (∀ count, 2 * Alternatives.expansionLimit + 1 ≤ count →
        Alternatives.run c most count (Alternatives.start c) = r.lattice.explore k most) ∧
      r.lattice.Listed k most (((make k).after ops).alternatives wanted) := by
  intro most c
  obtain ⟨⟨t, exits, table, same⟩, answer⟩ := latticeOf k ops decoded
  have formed : r.lattice.Formed := same ▸ table.formed
  refine ⟨(Alternatives.exploreStops formed most).2, fun count enough => ?_, ?_⟩
  · exact Alternatives.exploreEnds formed most enough
  · rw [answer]
    exact formed.listed wanted

@[reducible] local instance : Elementary := Elementary.system

theorem recordsOfSilence : ∃ r, ((make evenWords).after (utterance [0, 0])).result = some r ∧
    (((make evenWords).after (utterance [0, 0])).alternatives 3).length = 3 ∧
    r.lattice.Listed evenWords 3 (((make evenWords).after (utterance [0, 0])).alternatives 3) := by
  obtain ⟨r, decoded, same⟩ := ofPlain (utterance [0, 0]) (silence 2) (by decide +kernel)
  obtain ⟨_, _, listed⟩ := alternativesRecorded evenWords _ decoded 3
  refine ⟨r, decoded, ?_, listed⟩
  have ends : r.lattice.finals ≠ [] := by
    rw [same]
    decide +kernel
  have three : (r.lattice.explore evenWords 3).found.length = 3 := by
    rw [same]
    unfold Lattice.explore Alternatives.Setting.ofLattice Lattice.outlook
    rw [latestOfTwo]
    decide +kernel
  rw [(latticeOf evenWords _ decoded).2, Lattice.alternativesAre ends (by decide) (by decide)]
  have size := (Alternatives.rankedPerm (r.lattice.explore evenWords 3).found).length_eq
  rw [List.length_map, List.length_map] at size
  exact size.trans three

end Engine

end SpeechDecoder.Search
