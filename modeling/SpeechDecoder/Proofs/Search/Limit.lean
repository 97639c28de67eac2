import SpeechDecoder.Proofs.Search.Alternatives

/-! The limit of a search for alternatives. A search that keeps to it gives as many texts as there are and are
wanted. A way is followed up before each complete path that is worth less than it promises, so a lattice in which
every way promises too much has none of its paths found, if it has more ways than the limit. -/
namespace SpeechDecoder.Search

open Relation (ReflTransGen)

variable {α : Type} [Score α]

/-- Every way can go on to the end, and promises more than any complete path is worth. -/
structure Lattice.Lures (k : Knowledge α) (l : Lattice α) : Prop where
  possible : ∀ w, l.Leads k w → Score.isImpossible (ahead (l.outlook k) w.last) = false
  first : ∀ w', l.Completes k w' → Score.order (ahead (l.outlook k) 0) (w'.total k) = .gt
  above : ∀ w w', l.Leads k w → l.Completes k w' → Score.order (l.promise k w) (w'.total k) = .gt

namespace Alternatives
variable {k : Knowledge α} {l : Lattice α} {done : List (Walk α)}

/-- No complete path has been taken out; each way was followed up, or waits with a part of it in the queue. -/
structure Lured (k : Knowledge α) (l : Lattice α) (done : List (Walk α)) (s : State α)
    (taken : List (Candidate α)) : Prop where
  stands : ∀ x ∈ taken ++ s.queue.toList, x.Stands k l
  heaped : s.queue.Heaped Candidate.before
  above : ∀ x ∈ taken ++ s.queue.toList, x.complete = false → ∀ w, l.Completes k w →
    Score.order x.bound (w.total k) = .gt
  none : s.found = []
  spent : done.length = s.expansions
  ways : ∀ w, l.Leads k w → w ∈ done ∨ ∃ v bound serial, .ofWay v bound serial ∈ taken ++ s.queue.toList ∧
    ReflTransGen (l.Goes k) v w

variable [Std.TransCmp (Score.order (α := α))]

theorem startLured (lures : l.Lures k) : Lured k l [] (start (.ofLattice k l)) [] := by
  obtain ⟨items, heaped, found, expansions⟩ := startGrown k l
  have only (x : Candidate α) (mem : x ∈ [] ++ (start (.ofLattice k l)).queue.toList) :
      x = .ofWay (.root k) (Lattice.ahead (l.outlook k) 0) 0 :=
    List.mem_singleton.mp (items.mem_iff.mp mem)
  refine ⟨fun x mem => ?_, heaped Candidate.ranking trivial, fun x mem _ => ?_, found, expansions.symm,
    fun w leads => .inr ⟨_, _, _, items.mem_iff.mpr (List.mem_singleton_self _), leads⟩⟩
  · rw [only x mem]
    exact .way _ 0 .refl
  · rw [only x mem]
    exact lures.first

theorem Lured.pop {s : State α} (lured : Lured k l done s []) {x : Candidate α} {queue : Queue (Candidate α)}
    (popped : s.queue.pop? Candidate.before = some (x, queue)) : Lured k l done { s with queue } [x] := by
  obtain ⟨stands, heaped, above, none, spent, ways⟩ := lured
  have same (y : Candidate α) : y ∈ [x] ++ queue.toList ↔ y ∈ [] ++ s.queue.toList :=
    (Queue.popItems popped).mem_iff.symm
  refine ⟨fun y mem => stands y ((same y).mp mem), (Queue.popFirst Candidate.ranking heaped popped).1,
    fun y mem => above y ((same y).mp mem), none, spent, fun w leads => ?_⟩
  rcases ways w leads with old | ⟨v, bound, serial, mem, on⟩
  · exact .inl old
  · exact .inr ⟨v, bound, serial, (same _).mpr mem, on⟩

theorem Lured.whole {s : State α} {w : Walk α} {serial : Nat} {queue : Queue (Candidate α)}
    (lured : Lured k l done s []) (completes : l.Completes k w)
    (popped : s.queue.pop? Candidate.before = some (.ofWhole k w serial, queue)) {v : Walk α}
    (leads : l.Leads k v) : v ∈ done := by
  rcases lured.ways v leads with old | ⟨u, bound, serial', mem, _⟩
  · exact old
  -- a way that waits promises more, so it would have gone first
  have above := lured.above _ mem rfl w completes
  have ahead : Candidate.before (.ofWay u bound serial') (.ofWhole k w serial) = true := by
    unfold Candidate.before
    rw [show Score.order (Candidate.ofWay u bound serial').bound (Candidate.ofWhole k w serial).bound = .gt from above]
  rcases List.mem_cons.mp ((Queue.popItems popped).mem_iff.mp mem) with same | later
  · cases congrArg Candidate.complete same
  · have behind := (Queue.popFirst Candidate.ranking lured.heaped popped).2 _ later
    cases ahead.symm.trans behind

theorem Lured.expanded {s : State α} {w : Walk α} {bound : α} {serial : Nat} (formed : l.Formed)
    (lures : l.Lures k) (lured : Lured k l done s [.ofWay w bound serial]) (leads : l.Leads k w) :
    Lured k l (w :: done) (expand (.ofLattice k l) s w) [] := by
  obtain ⟨new, ⟨items, heaped, found, expansions⟩, only, _, onward, _⟩ := expandGrown formed leads s
  have waiting {y : Candidate α} (mem : y ∈ s.queue.toList) : y ∈ [.ofWay w bound serial] ++ s.queue.toList :=
    List.mem_append_right _ mem
  refine ⟨fun x mem => ?_, heaped Candidate.ranking lured.heaped, fun x mem way w' completes => ?_,
    found.trans lured.none, ?_, fun w' leads' => ?_⟩
  · rcases List.mem_append.mp (items.mem_iff.mp mem) with fresh | old
    · rcases only x fresh with ⟨completes, serial', rfl⟩ | ⟨v, serial', goes, _, rfl⟩
      · exact .whole serial' completes
      · exact .way _ serial' (leads.tail goes)
    · exact lured.stands x (waiting old)
  · rcases List.mem_append.mp (items.mem_iff.mp mem) with fresh | old
    · rcases only x fresh with ⟨_, _, rfl⟩ | ⟨v, _, goes, _, rfl⟩
      · cases way
      · exact lures.above v w' (leads.tail goes) completes
    · exact lured.above x (waiting old) way w' completes
  · rw [expansions, List.length_cons, lured.spent]
  · rcases lured.ways w' leads' with old | ⟨v, bound', serial', mem, on⟩
    · exact .inl (List.mem_cons_of_mem _ old)
    rcases List.mem_cons.mp mem with same | later
    · -- the way that is followed up is done with, and each that goes on from it has been queued
      cases congrArg Candidate.walk same
      rcases ReflTransGen.cases_head on with rfl | ⟨next, goes, rest⟩
      · exact .inl List.mem_cons_self
      · obtain ⟨bound'', serial'', fresh⟩ := onward next goes (lures.possible next (leads.tail goes))
        exact .inr ⟨next, bound'', serial'', items.mem_iff.mpr (List.mem_append_left _ fresh), rest⟩
    · exact .inr ⟨v, bound', serial', items.mem_iff.mpr (List.mem_append_right _ later), on⟩

/-- Where all ways promise more than complete paths are worth, and are more than the limit, nothing is found. -/
theorem exploreNone (formed : l.Formed) (lures : l.Lures k) {ways : List (Walk α)} (apart : ways.Nodup)
    (leads : ∀ w ∈ ways, l.Leads k w) (many : expansionLimit < ways.length) (wanted : Nat) :
    (l.explore k wanted).found = [] := by
  let holds (s : State α) : Prop := ∃ done, Lured k l done s []
  have step : ∀ s x queue, holds s → s.expansions < expansionLimit →
      s.queue.pop? Candidate.before = some (x, queue) → holds (serve (.ofLattice k l) { s with queue } x) := by
    rintro s x queue ⟨done, lured⟩ within popped
    have taken := lured.pop popped
    cases taken.stands x List.mem_cons_self with
    | @way w bound serial on => exact ⟨w :: done, taken.expanded formed lures on⟩
    | @whole w serial completes =>
      -- all ways would be followed up by now, and they are more than the limit
      have all : ways ⊆ done := fun v mem => lured.whole completes popped (leads v mem)
      have few := (List.subperm_of_subset apart all).length_le
      rw [lured.spent] at few
      omega
  obtain ⟨_, lured⟩ := runKeeps step (2 * expansionLimit + 1) ⟨[], startLured lures⟩
  exact lured.none

end Alternatives

theorem Lattice.alternativesAre {k : Knowledge α} {l : Lattice α} (ends : l.finals ≠ []) {wanted : Nat}
    (some : 0 < wanted) (allowed : 0 < k.params.maxAlternatives) :
    l.alternatives k wanted = Alternatives.ranked (l.explore k (min wanted k.params.maxAlternatives)).found := by
  refine if_neg (not_or.mpr ⟨by omega, ?_⟩)
  rw [List.isEmpty_iff]
  exact ends

theorem Table.completes {k : Knowledge α} {t : Nat} {exits : Array (Exit α)} (table : Table k t exits)
    (ends : (Lattice.ofExits k exits t).finals ≠ []) : ∃ w, (Lattice.ofExits k exits t).Completes k w := by
  obtain ⟨⟨place, score⟩, mem⟩ := List.exists_mem_of_ne_nil _ ends
  obtain ⟨e, known, final, _⟩ := Lattice.memFinals.mp mem
  obtain ⟨w, leads, last, _⟩ := table.led known
  exact ⟨w, leads, e, last ▸ known, final⟩

namespace Engine

theorem latticeOf [Score.Ordered α] (k : Knowledge α) (ops : List (Op α)) {r : Result α}
    (decoded : ((make k).after ops).result = some r) :
    (∃ t exits, Table k t exits ∧ r.lattice = .ofExits k exits t) ∧
      ∀ wanted, ((make k).after ops).alternatives wanted = r.lattice.alternatives k wanted := by
  have follows := (makeFollows k).after ops
  have served := Plain.afterServed k ops
  have knowledge : ((make k).after ops).knowledge = k := follows.knowledge.trans served.knowledge
  refine ⟨served.finished r (follows.result ▸ decoded), fun wanted => ?_⟩
  unfold Engine.alternatives
  rw [decoded, knowledge]

/-- A search for alternatives that keeps to its limit gives some where there is a hypothesis, and fewer than are
wanted only where the lattice has no more texts. -/
theorem alternativesEnough [Score.Ordered α] [Score.Possible α] (k : Knowledge α) (ops : List (Op α))
    {r : Result α} (decoded : ((make k).after ops).result = some r) (ends : r.lattice.finals ≠ [])
    (clear : r.lattice.Clear k) {wanted : Nat} (some : 0 < wanted) (allowed : 0 < k.params.maxAlternatives)
    (within : (r.lattice.explore k (min wanted k.params.maxAlternatives)).expansions <
      Alternatives.expansionLimit) :
    let found := ((make k).after ops).alternatives wanted
    found ≠ [] ∧ ∃ texts : Finset String,
      (∀ t, t ∈ texts ↔ ∃ w, r.lattice.Completes k w ∧ r.lattice.textAlong k w = t) ∧
      found.length = min (min wanted k.params.maxAlternatives) texts.card := by
  intro found
  obtain ⟨⟨t, exits, table, same⟩, answer⟩ := latticeOf k ops decoded
  let most := min wanted k.params.maxAlternatives
  have whole : found = Alternatives.ranked (r.lattice.explore k most).found :=
    (answer wanted).trans (Lattice.alternativesAre ends some allowed)
  have count : found.length = (r.lattice.explore k most).found.length := by
    rw [whole]
    simpa using (Alternatives.rankedPerm (r.lattice.explore k most).found).length_eq
  have formed : r.lattice.Formed := same ▸ table.formed
  obtain ⟨covering, few, ended⟩ := Alternatives.exploreCovering formed clear most
  obtain ⟨texts, all, size⟩ := covering.size formed few (ended within)
  obtain ⟨w, completes⟩ : ∃ w, r.lattice.Completes k w := by
    rw [same] at ends ⊢
    exact table.completes ends
  have one : 0 < texts.card := Finset.card_pos.mpr ⟨_, (all _).mpr ⟨w, completes, rfl⟩⟩
  refine ⟨fun none => ?_, texts, all, count.trans size⟩
  rw [none, List.length_nil, size] at count
  omega

/-! ### Two words that sound the same -/

deriving instance DecidableEq for Lattice

@[reducible] local instance : Elementary := Elementary.system

/-- Two words of one frame that cost nothing; the end of an utterance does. -/
def evenWords : Knowledge Float32 where
  params := {
    beam := Single.impossible, phoneBeam := Single.impossible, wordBeam := Single.impossible, languageWeight := 1,
    wordPenalty := 0, phonePenalty := 0, silencePenalty := 0,
    fillerPenalty := 0, maxActive := none, maxExits := none, maxAlternatives := 5,
    acousticScale := 1, scoreAll := false }
  phones := ⟨[⟨"A", false, 0, [0]⟩], 0, 1, 1, 1⟩
  transitions := ⟨1, #[Single.impossible, 0]⟩
  scorer := .direct 1 1
  language := {
    order := 1, words := #["a", "b", "</s>"], unigrams := #[(0, 0), (0, 0), (-1, 0)] }
  lexicon := ⟨#[⟨"a", "a", some 0, .normal, [0]⟩, ⟨"b", "b", some 1, .normal, [0]⟩], none, some 2⟩

def utterance (frames : List Float32) : List (Op Float32) :=
  .start :: frames.mapIdx (fun t x => .advance ⟨t, [x]⟩) ++ [.finish]

/-- In each frame both words end with the same score, entered from the first that ended in the frame before. -/
def pairExits (score : Nat → Float32) : Nat → Array (Exit Float32)
  | 0 => #[Exit.root evenWords]
  | t + 1 => [0, 1].foldl (fun exits word => recordExit evenWords (t + 1) exits (word, ⟨score t, 2 * t - 1⟩))
      (pairExits score t)

def pairLattice (score : Nat → Float32) (frames : Nat) : Lattice Float32 :=
  .ofExits evenWords (pairExits score frames) frames

def pairEnds (frames : Nat) : Array Nat := ((List.range (2 * frames + 1)).map fun place => (place + 1) / 2).toArray

def latestPairs (frames : Nat) : List Nat :=
  (List.range frames).reverse.flatMap (fun t => [2 * t + 1, 2 * t + 2]) ++ [0]

/-- Silent frames: no way gains or loses anything. -/
structure Even (n : Nat) (l : Lattice Float32) : Prop where
  quiet : ∀ (place word : Nat) (e : Exit Float32), l.exit? place = some e → e.word = some word →
    word < 2 ∧ e.acousticScore = 0
  both : ∀ t < n, ∀ word < 2, (l.exit? (2 * t + 1 + word)).map (fun e => (e.word, e.startFrame, e.endFrame)) =
    some (some word, t, t + 1)
  level : ∀ place < l.exits.size, Lattice.ahead (l.outlook evenWords) place = 0

section
variable {n : Nat} {l : Lattice Float32}

/-- What the scores of these words come to. -/
theorem evenScores : (∀ word < 2, 1 * evenWords.language.unigram word + 0 = 0 ∧ evenWords.enterBound word = 0) ∧
    1 * evenWords.language.unigram 2 = -1 ∧ (0 : Float32) + 0 = 0 ∧ Score.isLive (0 : Float32) = true ∧
    Score.isImpossible (0 : Float32) = false ∧ Score.order (0 : Float32) (0 + -1) = .gt := by
  decide +kernel

theorem evenEnter {word : Nat} (inside : word < 2) (h : Model.History) :
    (evenWords.enter word h).1 = 0 ∧ evenWords.enterBound word = 0 := by
  have entered : (evenWords.enter word h).1 = 1 * evenWords.language.score word h + 0 := by
    interval_cases word <;> rfl
  rw [entered, Model.Ngram.scoreUnigram rfl]
  exact evenScores.1 word inside

theorem evenLeave (h : Model.History) : evenWords.leave h = -1 := by
  have last : evenWords.leave h = 1 * evenWords.language.score 2 h := rfl
  rw [last, Model.Ngram.scoreUnigram rfl]
  exact evenScores.2.1

theorem Even.ofOrder {order : List Nat} (latest : l.latestFirst = order)
    (quiet : ∀ e ∈ l.exits.toList, ∀ word ∈ e.word, word < 2 ∧ e.acousticScore = 0)
    (both : ∀ t < n, ∀ word < 2, (l.exit? (2 * t + 1 + word)).map (fun e => (e.word, e.startFrame, e.endFrame)) =
      some (some word, t, t + 1))
    (level : order.foldl (l.look evenWords l.successors) l.atEnd = Array.replicate l.exits.size 0) : Even n l := by
  refine ⟨fun place word e found => ?_, both, fun place less => ?_⟩
  · exact quiet e (Array.mem_toList_iff.mpr (Array.mem_of_getElem? found)) word
  · rw [Lattice.outlook, latest, level, Lattice.ahead, Array.getD_eq_getD_getElem?,
      Array.getElem?_replicate, if_pos less, Option.getD_some]

theorem Even.flat (even : Even n l) {w : Walk Float32} (leads : l.Leads evenWords w) : w.score = 0 := by
  induction leads with
  | refl => rfl
  | @tail w _ _ goes silent =>
    cases goes with
    | @on _ e place word _ there named _ =>
      obtain ⟨inside, acoustic⟩ := even.quiet place word e there named
      change w.score + (evenWords.enter word w.history).1 + e.acousticScore = 0
      obtain ⟨_, _, sum, _⟩ := evenScores
      rw [silent, (evenEnter inside w.history).1, acoustic, sum, sum]

theorem Even.lures (formed : l.Formed) (even : Even n l) : l.Lures evenWords := by
  have ahead {w : Walk Float32} (leads : l.Leads evenWords w) :
      Lattice.ahead (l.outlook evenWords) w.last = 0 := by
    obtain ⟨e, found, _⟩ := leads.last formed
    exact even.level _ (Array.getElem?_eq_some_iff.mp found).1
  have total {w : Walk Float32} (completes : l.Completes evenWords w) : w.total evenWords = 0 + -1 := by
    rw [Walk.total, even.flat completes.leads, evenLeave]
  obtain ⟨_, _, sum, _, possible, above⟩ := evenScores
  refine ⟨fun w leads => ?_, fun w completes => ?_, fun w w' leads completes => ?_⟩
  · rw [ahead leads]
    exact possible
  · rw [total completes, show Lattice.ahead (l.outlook evenWords) 0 = 0 from ahead .refl]
    exact above
  · rw [total completes, Lattice.promise, even.flat leads, ahead leads, sum]
    exact above

theorem Even.clear (even : Even n l) : l.Clear evenWords := by
  intro place e word found named _
  obtain ⟨less, _⟩ := Array.getElem?_eq_some_iff.mp found
  obtain ⟨inside, acoustic⟩ := even.quiet place word e found named
  obtain ⟨_, _, sum, live, _⟩ := evenScores
  rw [even.level place less, acoustic, (evenEnter inside ⟨none, none⟩).2, sum, sum]
  exact live

def spellings : Nat → List (List Nat)
  | 0 => [[]]
  | n + 1 => (spellings n).flatMap fun places => [(2 * n + 1) :: places, (2 * n + 2) :: places]

def spell : List Nat → Walk Float32
  | [] => .root evenWords
  | place :: rest => (spell rest).extend evenWords place ((place + 1) % 2) 0

theorem spellPlaces (places : List Nat) : (spell places).steps.map Prod.fst = places := by
  induction places with
  | nil => rfl
  | cons place rest ih => exact congrArg (place :: ·) ih

theorem spellingsSize (n : Nat) : (spellings n).length = 2 ^ n := by
  induction n with
  | zero => rfl
  | succ n ih => simp [spellings, ih, pow_succ]

theorem spellingsApart (n : Nat) : (spellings n).Nodup := by
  induction n with
  | zero => exact List.nodup_singleton _
  | succ n ih =>
    refine List.nodup_flatMap.mpr ⟨fun places _ => by simp, ih.imp fun {a b} other => ?_⟩
    intro x first second
    simp only [List.mem_cons, List.not_mem_nil, or_false] at first second
    grind

theorem Even.spelled (formed : l.Formed) (even : Even n l) {t : Nat} (within : t ≤ n) {places : List Nat}
    (mem : places ∈ spellings t) :
    l.Leads evenWords (spell places) ∧ ∃ e, l.exit? (spell places).last = some e ∧ e.endFrame = t := by
  induction t generalizing places with
  | zero =>
    rw [List.mem_singleton.mp mem]
    obtain ⟨e, found, _, ends⟩ := formed.root
    exact ⟨.refl, e, found, ends⟩
  | succ t ih =>
    obtain ⟨rest, earlier, last⟩ := List.mem_flatMap.mp mem
    obtain ⟨leads, before, here, ends⟩ := ih (by omega) earlier
    have next : ∃ word < 2, places = (2 * t + 1 + word) :: rest := by
      simp only [List.mem_cons, List.not_mem_nil, or_false] at last
      rcases last with rfl | rfl
      · exact ⟨0, by decide, rfl⟩
      · exact ⟨1, by decide, rfl⟩
    obtain ⟨word, inside, rfl⟩ := next
    obtain ⟨e, there, known⟩ := Option.map_eq_some_iff.mp (even.both t (by omega) word inside)
    simp only [Prod.mk.injEq] at known
    obtain ⟨named, starts, stops⟩ := known
    obtain ⟨_, acoustic⟩ := even.quiet _ word e there named
    have same : (2 * t + 1 + word + 1) % 2 = word := by omega
    have goes := Lattice.Goes.on (k := evenWords) here there named (starts.trans ends.symm)
    rw [acoustic] at goes
    refine ⟨?_, e, there, stops⟩
    change l.Leads evenWords ((spell rest).extend evenWords _ ((2 * t + 1 + word + 1) % 2) 0)
    rw [same]
    exact leads.tail goes

theorem Even.none (formed : l.Formed) (even : Even n l) (long : Alternatives.expansionLimit < 2 ^ n)
    (wanted : Nat) : (l.explore evenWords wanted).found = [] := by
  -- a choice of one of both words in each frame is a way, so there are more than the limit
  have apart : ((spellings n).map spell).Nodup := by
    refine .of_map (fun w => w.steps.map Prod.fst) ?_
    rw [List.map_map, show (fun w : Walk Float32 => w.steps.map Prod.fst) ∘ spell = id from funext spellPlaces,
      List.map_id]
    exact spellingsApart n
  refine Alternatives.exploreNone formed (even.lures formed) apart (fun w mem => ?_) ?_ wanted
  · obtain ⟨places, inside, rfl⟩ := List.mem_map.mp mem
    exact (even.spelled formed (Nat.le_refl n) inside).1
  · rwa [List.length_map, spellingsSize]

end

def silence (frames : Nat) : Lattice Float32 := pairLattice (fun _ => 0) frames

def loud : Float32 := Float32.ofBits 0x7F000000

/-- The scores of a loud frame and of two that take away twice as much, which is too low for a single. -/
def sunken : Lattice Float32 := pairLattice (fun t => if t = 0 then loud else if t = 1 then 0 else -loud) 3

theorem endsOfPairs : (silence 2).exits.map Exit.endFrame = pairEnds 2 ∧
    (silence 16).exits.map Exit.endFrame = pairEnds 16 ∧ sunken.exits.map Exit.endFrame = pairEnds 3 := by
  decide +kernel

theorem latestOfTwo : (silence 2).latestFirst = latestPairs 2 := by
  rw [Lattice.latestOfEnds endsOfPairs.1]
  cbv

theorem evenTwo : Even 2 (silence 2) :=
  .ofOrder latestOfTwo (by decide +kernel) (by decide +kernel) (by decide +kernel)

theorem latestOfSixteen : (silence 16).latestFirst = latestPairs 16 := by
  rw [Lattice.latestOfEnds endsOfPairs.2.1]
  cbv

theorem evenSixteen : Even 16 (silence 16) :=
  .ofOrder latestOfSixteen (by decide +kernel) (by decide +kernel) (by decide +kernel)

theorem latestOfSunken : sunken.latestFirst = latestPairs 3 := by
  rw [Lattice.latestOfEnds endsOfPairs.2.2]
  cbv

theorem ofPlain (ops : List (Op Float32)) (l : Lattice Float32)
    (plain : ((Plain.make evenWords).after ops).result.map Result.lattice = some l) :
    ∃ r, ((make evenWords).after ops).result = some r ∧ r.lattice = l := by
  obtain ⟨r, decoded, same⟩ := Option.map_eq_some_iff.mp plain
  exact ⟨r, ((makeFollows evenWords).after ops).result.trans decoded, same⟩

theorem threeOfSilence : ∃ r, ((make evenWords).after (utterance [0, 0])).result = some r ∧
    r.lattice.finals ≠ [] ∧ r.lattice.Clear evenWords ∧ 0 < 3 ∧ 0 < evenWords.params.maxAlternatives ∧
    (r.lattice.explore evenWords 3).expansions < Alternatives.expansionLimit ∧
    let found := ((make evenWords).after (utterance [0, 0])).alternatives 3
    found ≠ [] ∧ ∃ texts : Finset String,
      (∀ t, t ∈ texts ↔ ∃ w, r.lattice.Completes evenWords w ∧ r.lattice.textAlong evenWords w = t) ∧
      found.length = min 3 texts.card := by
  obtain ⟨r, decoded, same⟩ := ofPlain (utterance [0, 0]) (silence 2) (by decide +kernel)
  have ends : r.lattice.finals ≠ [] := by
    rw [same]
    decide +kernel
  have clear : r.lattice.Clear evenWords := same ▸ evenTwo.clear
  have within : (r.lattice.explore evenWords 3).expansions < Alternatives.expansionLimit := by
    rw [same]
    unfold Lattice.explore Alternatives.Setting.ofLattice Lattice.outlook
    rw [latestOfTwo]
    decide +kernel
  exact ⟨r, decoded, ends, clear, by decide, by decide, within,
    alternativesEnough evenWords _ decoded ends clear (by decide) (by decide) within⟩

theorem noneOf (ops : List (Op Float32)) (l : Lattice Float32)
    (plain : ((Plain.make evenWords).after ops).result.map Result.lattice = some l) (ends : l.finals ≠ [])
    (nothing : l.Formed → (l.explore evenWords 1).found = []) :
    ∃ r, ((make evenWords).after ops).result = some r ∧ r.lattice = l ∧ r.lattice.finals ≠ [] ∧
      ((make evenWords).after ops).alternatives 1 = [] := by
  obtain ⟨r, decoded, rfl⟩ := ofPlain ops l plain
  obtain ⟨⟨t, exits, table, same⟩, answer⟩ := latticeOf evenWords ops decoded
  have formed : r.lattice.Formed := same ▸ table.formed
  refine ⟨r, decoded, rfl, ends, ?_⟩
  have found : (r.lattice.explore evenWords (min 1 evenWords.params.maxAlternatives)).found = [] := nothing formed
  rw [answer, Lattice.alternativesAre ends (by decide) (by decide), found]
  simp [Alternatives.ranked]

/-- The limit may be used up before any complete path is found, and a sum over a lattice may be too low to be told
from the impossible. -/
theorem noneFound : 0 < 1 ∧ 0 < evenWords.params.maxAlternatives ∧
    (∃ r, ((make evenWords).after (utterance (List.replicate 16 0))).result = some r ∧ r.lattice.finals ≠ [] ∧
      ((make evenWords).after (utterance (List.replicate 16 0))).alternatives 1 = []) ∧
    ∃ r, ((make evenWords).after (utterance [loud, -loud, -loud])).result = some r ∧
      r.lattice.finals ≠ [] ∧ (r.lattice.explore evenWords 1).expansions < Alternatives.expansionLimit ∧
      ((make evenWords).after (utterance [loud, -loud, -loud])).alternatives 1 = [] := by
  refine ⟨by decide, by decide, ?_, ?_⟩
  · obtain ⟨r, decoded, _, ends, none⟩ := noneOf (utterance (List.replicate 16 0)) (silence 16) (by decide +kernel)
      (by decide +kernel) fun formed => evenSixteen.none formed (by decide) 1
    exact ⟨r, decoded, ends, none⟩
  · have explored : (sunken.explore evenWords 1).found.length = 0 ∧ (sunken.explore evenWords 1).expansions = 1 := by
      unfold Lattice.explore Alternatives.Setting.ofLattice Lattice.outlook
      rw [latestOfSunken]
      decide +kernel
    obtain ⟨r, decoded, same, ends, none⟩ := noneOf (utterance [loud, -loud, -loud]) sunken
      (by decide +kernel) (by decide +kernel) fun _ => List.length_eq_zero_iff.mp explored.1
    refine ⟨r, decoded, ends, ?_, none⟩
    rw [same, explored.2]
    decide

end Engine

end SpeechDecoder.Search
