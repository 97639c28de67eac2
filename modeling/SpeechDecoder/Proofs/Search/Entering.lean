import SpeechDecoder.Proofs.Search.Slots

/-! Words that wait for the next frame. A word is queued once, at the first token that it takes, and a word that
is not queued is idle. -/
namespace SpeechDecoder.Search.Engine
variable {α : Type} [Score α]

/-- Queued words beside the words of the plain search; those of `pending` are still to be queued. -/
structure Queueing (pending : List Nat) (q : Queued α) (words : List (WordModel α)) : Prop where
  shows : Shows q.slots words
  idle : ∀ w x, w ∉ q.words → w ∉ pending → words[w]? = some x → x.Idle
  once : q.words.Nodup
  flags : ∀ (w : Nat) (s : Slot α), q.slots[w]? = some s → (s.queued = true ↔ w ∈ q.words)

theorem queueingOf {active : List Nat} {slots : Array (Slot α)} {words : List (WordModel α)}
    (paired : Paired active slots words) (unqueued : Unqueued slots) : Queueing active ⟨slots, []⟩ words :=
  ⟨paired.shows, fun w x _ out found => paired.idle w x out found, List.nodup_nil,
    fun w s found => by simp [unqueued w s found]⟩

theorem Queueing.queue {pending rest : List Nat} {q : Queued α} {words words' : List (WordModel α)}
    (queueing : Queueing pending q words) {v : Nat} (left : ∀ w ∈ pending, w = v ∨ w ∈ rest) {s : Slot α}
    (found : q.slots[v]? = some s) {y x : WordModel α} (alike : y.settled = x.settled)
    (here : words'[v]? = some x) (elsewhere : ∀ w, w ≠ v → words'[w]? = words[w]?) :
    Queueing rest ⟨q.slots.set! v ⟨y, true⟩, if s.queued then q.words else v :: q.words⟩ words' := by
  have known := queueing.flags v s found
  have mem (w : Nat) : w ∈ (if s.queued then q.words else v :: q.words) ↔ w = v ∨ w ∈ q.words := by
    split
    · rename_i queued
      constructor
      · exact .inr
      · rintro (rfl | old)
        · exact known.mp queued
        · exact old
    · exact List.mem_cons
  refine ⟨fun w => ?_, fun w z out out' at' => ?_, ?_, fun w t at' => ?_⟩
  · by_cases this : w = v
    · rw [this, setHere found, here]
      exact congrArg some alike
    · rw [setOther _ _ this, elsewhere w this]
      exact queueing.shows w
  · rw [mem, not_or] at out
    rw [elsewhere w out.1] at at'
    exact queueing.idle w z out.2 (fun old => (left w old).elim out.1 out') at'
  · dsimp only
    split
    · exact queueing.once
    · rename_i fresh
      exact List.nodup_cons.mpr ⟨fun old => fresh (known.mpr old), queueing.once⟩
  · rw [mem]
    by_cases this : w = v
    · rw [this, setHere found] at at'
      cases at'
      simp [this]
    · rw [setOther _ _ this] at at'
      simp [this, queueing.flags w t at']

theorem Queueing.offer {q : Queued α} {words words' : List (WordModel α)} (queueing : Queueing [] q words)
    (k : Knowledge α) (threshold : α) (exit : Exit α) (origin v : Nat)
    (here : words'[v]? = words[v]?.map (Plain.offer k threshold exit origin v))
    (elsewhere : ∀ w, w ≠ v → words'[w]? = words[w]?) :
    Queueing [] (offer k threshold exit origin q v) words' := by
  have refuse (unchanged : words'[v]? = words[v]?) : Queueing [] q words' := by
    have same : words' = words := by
      refine List.ext_getElem? fun w => ?_
      by_cases this : w = v
      · rw [this, unchanged]
      · exact elsewhere w this
    rw [same]
    exact queueing
  unfold Engine.offer
  cases found : q.slots[v]? with
  | none =>
    have missing := queueing.shows.missing found
    exact refuse (by rw [here, missing]; rfl)
  | some s =>
    obtain ⟨x, held, alike⟩ := queueing.shows.found found
    rw [held, Option.map_some, Plain.offer] at here
    have accepts (token : Token α) : s.word.accepts token = x.accepts token := by
      rw [← WordModel.acceptsSettled, alike, WordModel.acceptsSettled]
    simp only [accepts]
    split
    · rename_i refused
      rw [if_pos refused] at here
      exact refuse (by rw [here, held])
    · rename_i taken
      rw [if_neg taken] at here
      refine queueing.queue (fun w none => absurd none List.not_mem_nil) found ?_ here elsewhere
      rw [WordModel.offerSettled, alike, WordModel.offerSettled]

theorem Queueing.offerRange {q : Queued α} {words : List (WordModel α)} (queueing : Queueing [] q words)
    (k : Knowledge α) (threshold : α) (exit : Exit α) (origin count : Nat) :
    Queueing [] ((List.range count).foldl (Engine.offer k threshold exit origin) q)
      (words.mapIdx fun w x => if w < count then Plain.offer k threshold exit origin w x else x) := by
  induction count with
  | zero =>
    have same : words.mapIdx (fun _ x => x) = words := List.ext_getElem? (by simp)
    simpa [same] using queueing
  | succ n ih =>
    rw [List.range_succ, List.foldl_append, List.foldl_cons, List.foldl_nil]
    refine ih.offer k threshold exit origin n ?_ fun w other => ?_
    · simp only [List.getElem?_mapIdx, Option.map_map, Nat.lt_succ_self, if_true, Function.comp_def, Nat.lt_irrefl,
        if_false]
    · have same : w < n + 1 ↔ w < n := by omega
      simp only [List.getElem?_mapIdx, same]

theorem Queueing.offerAll {q : Queued α} {words : List (WordModel α)} (queueing : Queueing [] q words)
    (k : Knowledge α) (threshold : α) (exits : Array (Exit α)) (origin : Nat) :
    Queueing [] (offerAll k threshold exits q origin) (Plain.offerAll k threshold exits words origin) := by
  unfold Engine.offerAll Plain.offerAll
  cases exits[origin]? with
  | none => exact queueing
  | some exit =>
    have all := queueing.offerRange k threshold exit origin q.slots.size
    have same : (words.mapIdx fun w x =>
        if w < q.slots.size then Plain.offer k threshold exit origin w x else x) =
        words.mapIdx (Plain.offer k threshold exit origin) := by
      refine List.ext_getElem? fun w => ?_
      rw [List.getElem?_mapIdx, List.getElem?_mapIdx]
      by_cases inside : w < words.length
      · simp only [queueing.shows.size, inside, if_true]
      · rw [List.getElem?_eq_none (Nat.le_of_not_lt inside)]
        rfl
    rw [same] at all
    exact all

theorem Queueing.offerEach {q : Queued α} {words : List (WordModel α)} (queueing : Queueing [] q words)
    (k : Knowledge α) (threshold : α) (exits : Array (Exit α)) (origins : List Nat) :
    Queueing [] (origins.foldl (Engine.offerAll k threshold exits) q)
      (origins.foldl (Plain.offerAll k threshold exits) words) := by
  induction origins generalizing q words with
  | nil => exact queueing
  | cons origin rest ih => exact ih (queueing.offerAll k threshold exits origin)

theorem Queueing.finish {q : Queued α} {words : List (WordModel α)} (queueing : Queueing [] q words) :
    Paired q.finish.2 q.finish.1 words ∧ Unqueued q.finish.1 := by
  have mem (w : Nat) : w ∈ q.finish.2 ↔ w ∈ q.words := List.mem_mergeSort
  have slots (w : Nat) : q.finish.1[w]? =
      if w ∈ q.words then q.slots[w]?.map (fun s => { s with queued := false }) else q.slots[w]? :=
    onSlotsAt _ queueing.once q.slots w
  refine ⟨⟨fun w => ?_, fun w x out found => ?_, ?_⟩, fun w s found => ?_⟩
  · rw [← queueing.shows w, slots]
    split <;> cases q.slots[w]? <;> rfl
  · rw [mem] at out
    exact queueing.idle w x out List.not_mem_nil found
  · exact sortOnce queueing.once
  · rw [slots] at found
    split at found
    · obtain ⟨t, _, rfl⟩ := Option.map_eq_some_iff.mp found
      rfl
    · rename_i out
      have flag := queueing.flags w s found
      exact Bool.eq_false_iff.mpr fun queued => out (flag.mp queued)

theorem Queueing.queueLive {pending : List Nat} {q : Queued α} {words : List (WordModel α)}
    (queueing : Queueing pending q words) (distinct : pending.Nodup) (fresh : ∀ w ∈ pending, w ∉ q.words)
    (live : ∀ w ∈ pending, ∃ s, q.slots[w]? = some s ∧ s.word.isLive = true) :
    Queueing [] (pending.foldl Engine.queueLive q) words := by
  induction pending generalizing q with
  | nil => exact queueing
  | cons v rest ih =>
    obtain ⟨apart, distinct⟩ := List.nodup_cons.mp distinct
    obtain ⟨s, found, alive⟩ := live v List.mem_cons_self
    obtain ⟨x, held, alike⟩ := queueing.shows.found found
    have unqueued : s.queued = false :=
      Bool.eq_false_iff.mpr fun queued => fresh v List.mem_cons_self ((queueing.flags v s found).mp queued)
    have queued := queueing.queue (fun w mem => List.mem_cons.mp mem) found alike held fun w _ => rfl
    have step : Engine.queueLive q v = ⟨q.slots.set! v ⟨s.word, true⟩, v :: q.words⟩ := by
      simp only [Engine.queueLive, found, alive, if_true]
    simp only [unqueued, Bool.false_eq_true, if_false] at queued
    rw [List.foldl_cons, step]
    refine ih queued distinct ?_ ?_
    · intro w mem old
      rcases List.mem_cons.mp old with rfl | old
      · exact apart mem
      · exact fresh w (List.mem_cons_of_mem v mem) old
    · intro w mem
      obtain ⟨t, at', alive⟩ := live w (List.mem_cons_of_mem v mem)
      have other : w ≠ v := fun same => apart (same ▸ mem)
      exact ⟨t, (setOther _ _ other).trans at', alive⟩

end SpeechDecoder.Search.Engine
