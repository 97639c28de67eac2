import SpeechDecoder.Proofs.Bounds.Alternatives

/-! The search under watch, call after call. Between two calls every active word has a slot, every senone a place in the
memory of scores, and the live tokens of all words come from exits of the table; then no call reads what is not there,
and the next one finds it so again. `look` is the scorer that is asked, also under watch. -/
namespace SpeechDecoder

open Guarded (known within Gives)

variable {α : Type}

/-- The scorer accepts every senone below its number, for frames of its dimension. -/
def Model.Scorer.Accepts (s : Model.Scorer α) (look : Frame α → Nat → Guarded α) : Prop :=
  ∀ frame senone, frame.values.length = s.dimension → senone < s.senones → look frame senone = .ok (s.score frame senone)

theorem Model.Scorer.directAccepts [Score α] {senones dimension : Nat} (few : senones ≤ dimension) :
    (direct senones dimension : Scorer α).Accepts checkedDirect := by
  intro frame senone size inside
  have bound : senone < frame.values.length := size ▸ Nat.lt_of_lt_of_le inside few
  unfold checkedDirect
  rw [Guarded.knownList _ bound]
  exact congrArg Except.ok (List.getD_eq_getElem _ _ bound).symm

namespace Search

def AcousticCache.checkedGet (look : Nat → Guarded α) (stamp senone : Nat) (c : AcousticCache α) :
    Guarded (α × AcousticCache α) := do
  let (frame, x) ← known .scores senone c.held[senone]?
  if frame = stamp then .ok (x, c)
  else
    let x ← look senone
    .ok (x, ⟨c.held.set! senone (stamp, x)⟩)

theorem AcousticCache.getWatched {senones : Nat} {look : Nat → Guarded α} {compute : Nat → α}
    (accepts : ∀ senone < senones, look senone = .ok (compute senone)) (stamp : Nat) :
    PhoneModel.Watched senones (fun c : AcousticCache α => c.held.size = senones) (checkedGet look stamp)
      (get compute stamp) := by
  intro senone inside c size
  have bound : senone < c.held.size := size.symm ▸ inside
  unfold checkedGet get
  rw [Array.getElem?_eq_getElem bound, Guarded.knownSome, Guarded.okBind]
  generalize c.held[senone] = entry
  obtain ⟨frame, x⟩ := entry
  dsimp only
  split
  · exact .ok size
  · rw [accepts senone inside, Guarded.okBind]
    exact .ok (by simpa using size)

def Exit.checkedAfter [Score α] (k : Knowledge α) (before : Exit α) (origin word endFrame : Nat) (score : α) :
    Guarded (Exit α) := do
  let (languageScore, history) ← k.checkedEnter word before.history
  .ok {
    word := some word, previous := some origin, startFrame := before.endFrame, endFrame, score,
    acousticScore := score - before.score - languageScore, languageScore, history }

namespace Engine

/-- What every call keeps of itself. -/
structure Steady (k : Knowledge α) (e : Engine α) : Prop where
  knowledge : e.knowledge = k
  active : ∀ w ∈ e.active, w < k.lexicon.words.size
  cache : e.cache.held.size = k.scorer.senones

/-- What a call that succeeds keeps steady. -/
def Keeps (k : Knowledge α) (r : Except Problem (Engine α)) : Prop := ∀ e, r = .ok e → Steady k e

theorem refused (k : Knowledge α) (p : Problem) : Gives (Keeps k) (.ok (.error p)) (.error p) :=
  .ok fun e none => by cases none

theorem granted {k : Knowledge α} {e : Engine α} (steady : Steady k e) : Gives (Keeps k) (.ok (.ok e)) (.ok e) :=
  .ok fun e' same => by cases same; exact steady

variable [Score α]

def checkedMake (k : Knowledge α) : Guarded (Engine α) := do
  let words ← k.lexicon.words.toList.mapM fun w => WordModel.checkedMake k.phones w.phones
  .ok {
    knowledge := k, phase := .idle, slots := (words.map fun w => ⟨w, false⟩).toArray, active := [], exits := #[],
    frames := 0, cache := .make k.scorer.senones, result := none }

def checkedOnSlots (f : Slot α → Guarded (Slot α)) (words : List Nat) (slots : Array (Slot α)) :
    Guarded (Array (Slot α)) :=
  words.foldlM (fun slots w => do
    let s ← known .words w slots[w]?
    let s ← f s
    .ok (slots.set! w s)) slots

def checkedClearActive (e : Engine α) : Guarded (Engine α) := do
  let slots ← checkedOnSlots (fun s => .ok s.clear) e.active e.slots
  .ok { e with slots, active := [] }

def checkedOffer (k : Knowledge α) (threshold : α) (exit : Exit α) (origin : Nat) (q : Queued α) (word : Nat) :
    Guarded (Queued α) := do
  let slot ← known .words word q.slots[word]?
  let (entering, _) ← k.checkedEnter word exit.history
  let token : Token α := ⟨exit.score + entering, origin⟩
  if Score.below token.score threshold then .ok q
  else
    let accepted ← slot.word.checkedAccepts token
    if !accepted then .ok q
    else
      let entered ← slot.word.checkedOffer token
      .ok ⟨q.slots.set! word ⟨entered, true⟩, if slot.queued then q.words else word :: q.words⟩

def checkedOfferAll (k : Knowledge α) (threshold : α) (exits : Array (Exit α)) (q : Queued α) (origin : Nat) :
    Guarded (Queued α) := do
  let exit ← known .exits origin exits[origin]?
  (List.range q.slots.size).foldlM (checkedOffer k threshold exit origin) q

def checkedQueueLive (q : Queued α) (word : Nat) : Guarded (Queued α) := do
  let slot ← known .words word q.slots[word]?
  .ok (if slot.word.isLive then ⟨q.slots.set! word { slot with queued := true }, word :: q.words⟩ else q)

def checkedQueue (q : Queued α) : Guarded (Array (Slot α) × List Nat) := do
  let slots ← checkedOnSlots (fun s => .ok { s with queued := false }) q.words q.slots
  .ok (slots, q.words.mergeSort (· ≤ ·))

def checkedStart (e : Engine α) : Guarded (Except Problem (Engine α)) :=
  if e.phase ≠ .idle then .ok (.error (.phase "start" e.phase))
  else do
    let e ← e.checkedClearActive
    let exits := #[Exit.root e.knowledge]
    let queued ← checkedOfferAll e.knowledge Score.impossible exits ⟨e.slots, []⟩ 0
    let (slots, active) ← checkedQueue queued
    .ok (.ok { e with
      phase := .active, slots, active, exits, frames := 0, cache := e.cache.clear, result := none })

def checkedAdvanceWord (k : Knowledge α) (look : Nat → Guarded α) (stamp : Nat)
    (state : Array (Slot α) × α × AcousticCache α) (word : Nat) :
    Guarded (Array (Slot α) × α × AcousticCache α) := do
  let (slots, best, cache) := state
  let slot ← known .words word slots[word]?
  let (moved, reached, cache) ← slot.word.checkedAdvance k.transitions (AcousticCache.checkedGet look stamp) cache
  .ok (slots.set! word { slot with word := moved }, Score.larger best reached, cache)

/-- The memory of scores, with every score of the frame where that is wished. -/
def checkedFill (look : Frame α → Nat → Guarded α) (e : Engine α) (frame : Frame α) : Guarded (AcousticCache α) :=
  if e.knowledge.params.scoreAll then
    (List.range e.knowledge.scorer.senones).foldlM (fun c s => do
      let (_, c) ← AcousticCache.checkedGet (look frame) (e.frames + 1) s c
      .ok c) e.cache
  else .ok e.cache

def checkedMove (look : Frame α → Nat → Guarded α) (e : Engine α) (frame : Frame α) :
    Guarded (Array (Slot α) × α × AcousticCache α) := do
  let cache ← e.checkedFill look frame
  e.active.foldlM (checkedAdvanceWord e.knowledge (look frame) (e.frames + 1)) (e.slots, Score.impossible, cache)

def checkedSurvive (k : Knowledge α) (best : α) (active : List Nat) (slots : Array (Slot α)) :
    Guarded (Array (Slot α) × List Nat) := do
  let slots ← checkedOnSlots (fun s => .ok { s with word := s.word.prune (best + k.params.beam) }) active slots
  active.forM (within .words · slots.size)
  let live := active.filter fun w => Score.isLive (bestScore slots w)
  let (kept, dropped) := cap (bestScore slots) k.params.maxActive live
  let slots ← checkedOnSlots (fun s => .ok s.clear) dropped slots
  let kept := kept.mergeSort (· ≤ ·)
  let slots ← checkedOnSlots (fun s => do
    let word ← s.word.checkedCross k.transitions k.params.phonePenalty (best + k.params.phoneBeam)
    .ok { s with word }) kept slots
  .ok (slots, kept)

def checkedLeavingTokens (k : Knowledge α) (threshold : α) (slots : Array (Slot α)) (words : List Nat) :
    Guarded (List (Nat × Token α)) := do
  let leaving ← words.mapM fun w => do
    let slot ← known .words w slots[w]?
    let token ← slot.word.checkedLeaving? k.transitions threshold
    .ok (token.map fun token => (w, token))
  .ok (leaving.filterMap id)

def checkedRecordExit (k : Knowledge α) (endFrame : Nat) (exits : Array (Exit α)) (leaving : Nat × Token α) :
    Guarded (Array (Exit α)) := do
  let (word, token) := leaving
  let before ← known .exits token.origin exits[token.origin]?
  let exit ← before.checkedAfter k token.origin word endFrame token.score
  .ok (exits.push exit)

def checkedRecordAll (k : Knowledge α) (endFrame : Nat) (exits : Array (Exit α)) (leaving : List (Nat × Token α)) :
    Guarded (Array (Exit α)) :=
  (cap (fun x => x.2.score) k.params.maxExits leaving).1.foldlM (checkedRecordExit k endFrame) exits

def checkedStep (look : Frame α → Nat → Guarded α) (e : Engine α) (frame : Frame α) : Guarded (Engine α) := do
  let k := e.knowledge
  let stamp := e.frames + 1
  let (slots, best, cache) ← e.checkedMove look frame
  let (slots, kept) ← checkedSurvive k best e.active slots
  let leaving ← checkedLeavingTokens k (best + k.params.wordBeam) slots kept
  let exits ← checkedRecordAll k stamp e.exits leaving
  let queued ← kept.foldlM checkedQueueLive ⟨slots, []⟩
  let added := (List.range (exits.size - e.exits.size)).map (e.exits.size + ·)
  let queued ← added.foldlM (checkedOfferAll k (best + k.params.beam) exits) queued
  let (slots, active) ← checkedQueue queued
  .ok { e with slots, active, exits, frames := stamp, cache }

def checkedAdvance (look : Frame α → Nat → Guarded α) (e : Engine α) (frame : Frame α) :
    Guarded (Except Problem (Engine α)) :=
  if e.phase ≠ .active then .ok (.error (.phase "advance" e.phase))
  else if frame.values.length ≠ e.knowledge.scorer.dimension then
    .ok (.error (.dimension frame.values.length e.knowledge.scorer.dimension))
  else do
    let e ← e.checkedStep look frame
    .ok (.ok e)

def checkedFinish (e : Engine α) : Guarded (Except Problem (Engine α)) :=
  if e.phase ≠ .active then .ok (.error (.phase "finish" e.phase))
  else do
    let lattice ← Lattice.checkedOfExits e.knowledge e.exits e.frames
    let (hypothesis, segments) ← lattice.checkedBest e.knowledge
    let e ← e.checkedClearActive
    .ok (.ok { e with phase := .finalized, exits := #[], result := some ⟨hypothesis, segments, lattice⟩ })

def checkedReset (e : Engine α) : Guarded (Engine α) := do
  let e ← e.checkedClearActive
  .ok { e with phase := .idle, exits := #[], frames := 0, result := none }

def checkedPerform (look : Frame α → Nat → Guarded α) (e : Engine α) : Op α → Guarded (Except Problem (Engine α))
  | .start => e.checkedStart
  | .advance frame => e.checkedAdvance look frame
  | .finish => e.checkedFinish
  | .reset => do
    let e ← e.checkedReset
    .ok (.ok e)

def checkedAlternatives (e : Engine α) (wanted : Nat) : Guarded (List (Alternative α)) :=
  match e.result with
  | none => .ok []
  | some r => r.lattice.checkedAlternatives e.knowledge wanted

/-! ### Slots -/

/-- A slot for each word, and in each a word that fits, with live tokens from so many exits. -/
structure Held (k : Knowledge α) (origins : Nat) (slots : Array (Slot α)) : Prop where
  size : slots.size = k.lexicon.words.size
  words : ∀ (w : Nat) (s : Slot α), slots[w]? = some s → s.word.Fits k.transitions k.scorer.senones origins

variable {k : Knowledge α} {origins : Nat} {slots : Array (Slot α)}

theorem Held.mono (held : Held k origins slots) {more : Nat} (le : origins ≤ more) : Held k more slots :=
  ⟨held.size, fun w s found => (held.words w s found).mono le⟩

theorem Held.set (held : Held k origins slots) {w : Nat} {s : Slot α}
    (fits : s.word.Fits k.transitions k.scorer.senones origins) : Held k origins (slots.set! w s) :=
  ⟨by simpa using held.size, Guarded.setKeeps held.words fits⟩

theorem Held.slot (held : Held k origins slots) {w : Nat} (inside : w < k.lexicon.words.size) :
    ∃ bound : w < slots.size, slots[w]? = some slots[w] ∧
      slots[w].word.Fits k.transitions k.scorer.senones origins := by
  have bound : w < slots.size := held.size.symm ▸ inside
  have found := Array.getElem?_eq_getElem bound
  exact ⟨bound, found, held.words w _ found⟩

theorem checkedOnSlotsGives {f : Slot α → Guarded (Slot α)} {g : Slot α → Slot α} (held : Held k origins slots)
    (keeps : ∀ s : Slot α, s.word.Fits k.transitions k.scorer.senones origins →
      Gives (fun s => s.word.Fits k.transitions k.scorer.senones origins) (f s) (g s))
    {words : List Nat} (inside : ∀ w ∈ words, w < k.lexicon.words.size) :
    Gives (Held k origins) (checkedOnSlots f words slots) (onSlots g words slots) := by
  refine Guarded.foldGives (fun slots w mem held => ?_) held
  obtain ⟨bound, _, fits⟩ := held.slot (inside w mem)
  rw [Guarded.knownArray _ bound, Guarded.okBind, Guarded.modifyIs bound]
  exact (keeps _ fits).bind fun fits' => .ok (held.set fits')

/-! ### Entries -/

structure Queued.Fits (k : Knowledge α) (origins : Nat) (q : Queued α) : Prop where
  slots : Held k origins q.slots
  words : ∀ w ∈ q.words, w < k.lexicon.words.size

theorem Queued.Fits.more {q : Queued α} (fits : q.Fits k origins) {word : Nat} (inside : word < k.lexicon.words.size) :
    ∀ w ∈ word :: q.words, w < k.lexicon.words.size := by
  intro w mem
  rcases List.mem_cons.mp mem with rfl | old
  · exact inside
  · exact fits.words w old

theorem checkedQueueLiveGives {q : Queued α} (queueing : q.Fits k origins) {word : Nat}
    (inside : word < k.lexicon.words.size) :
    Gives (Queued.Fits k origins) (checkedQueueLive q word) (queueLive q word) := by
  obtain ⟨bound, found, fits⟩ := queueing.slots.slot inside
  unfold checkedQueueLive queueLive
  rw [found, Guarded.knownSome, Guarded.okBind]
  dsimp only
  split
  · exact .ok ⟨queueing.slots.set fits, queueing.more inside⟩
  · exact .ok queueing

theorem checkedQueueGives {q : Queued α} (queueing : q.Fits k origins) :
    Gives (fun r => Held k origins r.1 ∧ ∀ w ∈ r.2, w < k.lexicon.words.size) (checkedQueue q) q.finish := by
  refine (checkedOnSlotsGives (g := fun s => { s with queued := false }) queueing.slots (fun s fits => .ok fits)
    queueing.words).bind fun held => .ok ⟨held, fun w mem => ?_⟩
  exact queueing.words w ((List.mergeSort_perm _ _).mem_iff.mp mem)

theorem checkedOfferGives (sound : k.Sound) {q : Queued α} (queueing : q.Fits k origins) (threshold : α)
    {exit : Exit α} (history : exit.history.Within k.language.unigrams.size) {origin : Nat} (from' : origin < origins)
    {word : Nat} (inside : word < k.lexicon.words.size) :
    Gives (Queued.Fits k origins) (checkedOffer k threshold exit origin q word)
      (offer k threshold exit origin q word) := by
  obtain ⟨bound, found, fits⟩ := queueing.slots.slot inside
  unfold checkedOffer offer
  rw [found, Guarded.knownSome, Guarded.okBind]
  refine (sound.enter inside history).bind fun _ => ?_
  dsimp only
  generalize exit.score + (k.enter word exit.history).1 = score
  cases weak : Score.below score threshold with
  | true => exact .ok queueing
  | false =>
    rw [WordModel.checkedAcceptsOk fits]
    cases accepted : q.slots[word].word.accepts ⟨score, origin⟩ with
    | false => exact .ok queueing
    | true =>
      refine (WordModel.checkedOfferGives fits fun _ => from').bind fun entered => ?_
      refine .ok ⟨queueing.slots.set entered, ?_⟩
      split
      · exact queueing.words
      · exact queueing.more inside

theorem checkedOfferAllGives (sound : k.Sound) {q : Queued α} (threshold : α) {exits : Array (Exit α)}
    (queueing : q.Fits k exits.size) (histories : ∀ e ∈ exits, e.history.Within k.language.unigrams.size)
    {origin : Nat} (from' : origin < exits.size) :
    Gives (Queued.Fits k exits.size) (checkedOfferAll k threshold exits q origin)
      (offerAll k threshold exits q origin) := by
  unfold checkedOfferAll offerAll
  rw [Array.getElem?_eq_getElem from', Guarded.knownSome, Guarded.okBind]
  have size := queueing.slots.size
  refine Guarded.foldGives (fun q word mem queueing => ?_) queueing
  have inside : word < k.lexicon.words.size := Nat.lt_of_lt_of_eq (List.mem_range.mp mem) size
  exact checkedOfferGives sound queueing threshold (histories _ (Array.getElem_mem from')) from' inside

theorem checkedOfferEachGives (sound : k.Sound) {q : Queued α} (threshold : α) {exits : Array (Exit α)}
    (fits : q.Fits k exits.size) (histories : ∀ e ∈ exits, e.history.Within k.language.unigrams.size)
    {origins : List Nat} (from' : ∀ origin ∈ origins, origin < exits.size) :
    Gives (Queued.Fits k exits.size) (origins.foldlM (checkedOfferAll k threshold exits) q)
      (origins.foldl (offerAll k threshold exits) q) :=
  Guarded.foldGives (fun _ origin mem fits => checkedOfferAllGives sound threshold fits histories (from' origin mem))
    fits

/-! ### Between calls -/

structure Bounded (k : Knowledge α) (e : Engine α) : Prop extends Steady k e where
  slots : Held k e.exits.size e.slots
  resting : e.phase ≠ .active → e.exits = #[]
  lattice : e.phase = .active → (Lattice.ofExits k e.exits e.frames).Fits k
  result : ∀ r, e.result = some r → r.lattice.Fits k

theorem Bounded.histories {e : Engine α} (bounded : e.Bounded k) :
    ∀ x ∈ e.exits, x.history.Within k.language.unigrams.size := by
  intro x mem
  by_cases active : e.phase = .active
  · obtain ⟨place, found⟩ := Array.getElem?_of_mem mem
    exact ((bounded.lattice active).exits place x found).history
  · rw [bounded.resting active] at mem
    cases Array.not_mem_empty x mem

theorem checkedAlternativesOk (sound : k.Sound) {e : Engine α} (bounded : e.Bounded k) (wanted : Nat) :
    e.checkedAlternatives wanted = .ok (e.alternatives wanted) := by
  unfold checkedAlternatives alternatives
  cases found : e.result with
  | none => rfl
  | some r =>
    rw [bounded.knowledge]
    exact Lattice.checkedAlternativesOk sound (bounded.result r found) wanted

/-! ### A frame -/

theorem checkedRecordAllGives (sound : k.Sound) (endFrame : Nat) {exits : Array (Exit α)}
    (histories : ∀ e ∈ exits, e.history.Within k.language.unigrams.size) {leaving : List (Nat × Token α)}
    (inside : ∀ x ∈ leaving, x.1 < k.lexicon.words.size ∧ x.2.origin < exits.size) :
    Gives (fun exits' => exits.size ≤ exits'.size ∧ ∀ e ∈ exits', e.history.Within k.language.unigrams.size)
      (checkedRecordAll k endFrame exits leaving) (recordAll k endFrame exits leaving) := by
  refine Guarded.foldGives (fun exits' x mem good => ?_) ⟨le_rfl, histories⟩
  obtain ⟨word, token⟩ := x
  obtain ⟨listed, origin⟩ := inside _ (capMem mem)
  have bound : token.origin < exits'.size := Nat.lt_of_lt_of_le origin good.1
  unfold checkedRecordExit recordExit
  dsimp only
  rw [Array.getElem?_eq_getElem bound, Guarded.knownSome, Guarded.okBind]
  have after : Gives (fun e : Exit α => e.history.Within k.language.unigrams.size)
      (exits'[token.origin].checkedAfter k token.origin word endFrame token.score)
      (exits'[token.origin].after k token.origin word endFrame token.score) :=
    (sound.enter listed (good.2 _ (Array.getElem_mem bound))).bind fun within => .ok within
  refine after.bind fun within => .ok ⟨?_, fun e mem => ?_⟩
  · rw [Array.size_push]
    omega
  · rcases Array.mem_push.mp mem with old | rfl
    · exact good.2 e old
    · exact within

variable [Score.Ordered α] {look : Frame α → Nat → Guarded α} {e : Engine α} {frame : Frame α}

theorem checkedMoveGives (accepts : e.knowledge.scorer.Accepts look)
    (held : Held e.knowledge origins e.slots) (active : ∀ w ∈ e.active, w < e.knowledge.lexicon.words.size)
    (size : e.cache.held.size = e.knowledge.scorer.senones) (long : frame.values.length = e.knowledge.scorer.dimension) :
    Gives (fun r => Held e.knowledge origins r.1 ∧ r.2.2.held.size = e.knowledge.scorer.senones)
      (e.checkedMove look frame) (e.move frame) := by
  let k := e.knowledge
  let full (c : AcousticCache α) : Prop := c.held.size = k.scorer.senones
  have watched := AcousticCache.getWatched (fun senone => accepts frame senone long) (e.frames + 1)
  have filled : Gives full (e.checkedFill look frame) (if k.params.scoreAll then
      (List.range k.scorer.senones).foldl (fun c s => (c.get (k.scorer.score frame) (e.frames + 1) s).2) e.cache
    else e.cache) := by
    unfold checkedFill
    split
    · refine Guarded.foldGives (fun c s mem size => ?_) size
      exact (watched s (List.mem_range.mp mem) c size).bind fun size => .ok size
    · exact .ok size
  refine filled.bind fun size => ?_
  refine Guarded.foldGives (fun state word mem good => ?_) ⟨held, size⟩
  obtain ⟨slots, best, cache⟩ := state
  obtain ⟨bound, found, fits⟩ := good.1.slot (active word mem)
  unfold checkedAdvanceWord advanceWord
  dsimp only
  rw [found, Guarded.knownSome, Guarded.okBind]
  exact (WordModel.checkedAdvanceGives watched fits good.2).bind fun moved => .ok ⟨good.1.set moved.1, moved.2⟩

theorem checkedSurviveGives (held : Held k origins slots) (best : α) {active : List Nat}
    (inside : ∀ w ∈ active, w < k.lexicon.words.size) :
    Gives (fun r => Held k origins r.1 ∧ ∀ w ∈ r.2, w < k.lexicon.words.size) (checkedSurvive k best active slots)
      (survive k best active slots) := by
  refine (checkedOnSlotsGives (g := fun s => { s with word := s.word.prune (best + k.params.beam) }) held
    (fun s fits => .ok (fits.prune _)) inside).bind fun held => ?_
  rw [Guarded.withinEach fun w mem => held.size.symm ▸ inside w mem, Guarded.okBind]
  unfold survive
  generalize onSlots (fun s => { s with word := s.word.prune (best + k.params.beam) }) active slots = pruned at held
  dsimp only
  have perm := capPerm (bestScore pruned) k.params.maxActive (active.filter fun w => Score.isLive (bestScore pruned w))
  generalize cap (bestScore pruned) k.params.maxActive (active.filter fun w => Score.isLive (bestScore pruned w)) =
    parts at perm
  obtain ⟨kept, dropped⟩ := parts
  have both : ∀ w ∈ kept ++ dropped, w < k.lexicon.words.size := fun w mem =>
    inside w (List.mem_of_mem_filter (perm.mem_iff.mp mem))
  have stays : ∀ w ∈ kept.mergeSort (· ≤ ·), w < k.lexicon.words.size := fun w mem =>
    both w (List.mem_append_left _ ((List.mergeSort_perm _ _).mem_iff.mp mem))
  refine (checkedOnSlotsGives (g := Slot.clear) held (fun s fits => .ok (fits.clear origins))
    fun w mem => both w (List.mem_append_right _ mem)).bind fun held => ?_
  refine (checkedOnSlotsGives (g := fun s =>
    { s with word := s.word.cross k.transitions k.params.phonePenalty (best + k.params.phoneBeam) }) held
    (fun s fits => ?_) stays).bind fun held => .ok ⟨held, stays⟩
  exact (WordModel.checkedCrossGives fits _ _).bind fun fits' => ⟨rfl, fits'⟩

theorem checkedLeavingTokensGives (held : Held k origins slots) (threshold : α) {words : List Nat}
    (inside : ∀ w ∈ words, w < k.lexicon.words.size) :
    Gives (fun r => ∀ x ∈ r, x.1 < k.lexicon.words.size ∧ x.2.origin < origins)
      (checkedLeavingTokens k threshold slots words) (leavingTokens k threshold slots words) := by
  let leaves (w : Nat) : Option (Nat × Token α) := do
    let slot ← slots[w]?
    let token ← slot.word.leaving? k.transitions threshold
    some (w, token)
  have each : ∀ w ∈ words, Gives (fun r => ∀ x, r = some x → x.1 < k.lexicon.words.size ∧ x.2.origin < origins)
      (do
        let slot ← known .words w slots[w]?
        let token ← slot.word.checkedLeaving? k.transitions threshold
        .ok (token.map fun token => (w, token))) (leaves w) := by
    intro w mem
    obtain ⟨bound, found, fits⟩ := held.slot (inside w mem)
    have same : leaves w = (slots[w].word.leaving? k.transitions threshold).map fun token => (w, token) := by
      simp only [leaves, found, Option.bind_eq_bind, Option.bind_some]
      cases slots[w].word.leaving? k.transitions threshold <;> rfl
    rw [found, Guarded.knownSome, Guarded.okBind, same]
    refine (WordModel.checkedLeavingGives fits threshold).bind fun comes => .ok fun x left => ?_
    obtain ⟨token, known, rfl⟩ := Option.map_eq_some_iff.mp left
    exact ⟨inside w mem, (comes token known).2⟩
  have all : checkedLeavingTokens k threshold slots words = .ok (leavingTokens k threshold slots words) := by
    unfold checkedLeavingTokens
    rw [Guarded.mapOk fun w mem => (each w mem).same, Guarded.okBind, List.filterMap_map]
    rfl
  refine ⟨all, fun x mem => ?_⟩
  obtain ⟨w, here, left⟩ := List.mem_filterMap.mp mem
  exact (each w here).good x left

/-! ### Calls -/

theorem checkedStepGives (sound : k.Sound) (accepts : k.scorer.Accepts look) (bounded : e.Bounded k)
    (long : frame.values.length = k.scorer.dimension) : Gives (Steady k) (e.checkedStep look frame) (e.step frame) := by
  have histories := bounded.histories
  obtain ⟨⟨rfl, active, size⟩, slots, _⟩ := bounded
  refine (checkedMoveGives accepts slots active size long).bind fun ⟨held, size⟩ => ?_
  refine (checkedSurviveGives held _ active).bind fun ⟨held, kept⟩ => ?_
  refine (checkedLeavingTokensGives held _ kept).bind fun leaving => ?_
  refine (checkedRecordAllGives sound (e.frames + 1) histories leaving).bind fun ⟨more, histories⟩ => ?_
  have first := Queued.Fits.mk (q := ⟨_, []⟩) (held.mono more) fun w none => by cases none
  refine (Guarded.foldGives (fun q w mem fits => checkedQueueLiveGives fits (kept w mem)) first).bind fun queued => ?_
  refine (checkedOfferEachGives sound _ queued histories fun origin mem => ?_).bind fun queued => ?_
  · obtain ⟨i, inside, rfl⟩ := List.mem_map.mp mem
    have := List.mem_range.mp inside
    omega
  · exact (checkedQueueGives queued).bind fun ⟨_, active⟩ => .ok ⟨rfl, active, size⟩

theorem checkedClearActiveGives (bounded : e.Bounded k) :
    Gives (fun e' => Held k e.exits.size e'.slots) e.checkedClearActive e.clearActive :=
  (checkedOnSlotsGives (g := Slot.clear) bounded.slots (fun _ fits => .ok (fits.clear _)) bounded.active).bind
    fun held => .ok held

theorem checkedStartGives (sound : k.Sound) (bounded : e.Bounded k) : Gives (Keeps k) e.checkedStart e.start := by
  unfold checkedStart start
  split
  · exact refused k _
  · rename_i idle
    have none : e.exits.size = 0 := by
      rw [bounded.resting fun active => idle (by rw [active]; exact Phase.noConfusion)]
      rfl
    refine (checkedClearActiveGives bounded).bind fun held => ?_
    obtain ⟨⟨rfl, _, size⟩, _⟩ := bounded
    let exits := #[Exit.root e.knowledge]
    have first : Queued.Fits e.knowledge exits.size ⟨e.clearActive.slots, []⟩ :=
      ⟨held.mono (none ▸ Nat.zero_le 1), fun w none => by cases none⟩
    have histories : ∀ x ∈ exits, x.history.Within e.knowledge.language.unigrams.size := by
      intro x mem
      rw [List.mem_singleton.mp (List.mem_toArray.mp mem)]
      exact sound.startHistory
    refine (checkedOfferAllGives sound Score.impossible first histories Nat.one_pos).bind fun queued => ?_
    refine (checkedQueueGives queued).bind fun ⟨_, active⟩ => granted ⟨rfl, active, ?_⟩
    exact Array.size_map.trans size

theorem checkedAdvanceGives (sound : k.Sound) (accepts : k.scorer.Accepts look) (bounded : e.Bounded k)
    (frame : Frame α) : Gives (Keeps k) (e.checkedAdvance look frame) (e.advance frame) := by
  unfold checkedAdvance advance
  split
  · exact refused k _
  · split
    · exact refused k _
    · rename_i long
      have long := Decidable.not_not.mp long
      exact (checkedStepGives sound accepts bounded (bounded.knowledge ▸ long)).bind granted

theorem checkedFinishGives (sound : k.Sound) (bounded : e.Bounded k) :
    Gives (Keeps k) e.checkedFinish e.finish := by
  unfold checkedFinish finish
  split
  · exact refused k _
  · rename_i active
    have lattice := bounded.lattice (Decidable.not_not.mp active)
    have histories := bounded.histories
    have cleared := checkedClearActiveGives bounded
    obtain ⟨⟨rfl, _, size⟩, _⟩ := bounded
    rw [Lattice.checkedOfExitsOk sound histories, Guarded.okBind, Lattice.checkedBestOk lattice, Guarded.okBind]
    exact cleared.bind fun _ => granted ⟨rfl, fun w none => by (cases none), size⟩

theorem checkedResetGives (bounded : e.Bounded k) : Gives (Steady k) e.checkedReset e.reset := by
  refine (checkedClearActiveGives bounded).bind fun _ => ?_
  exact .ok ⟨bounded.knowledge, fun w none => by (cases none), bounded.cache⟩

theorem checkedPerformGives (sound : k.Sound) (accepts : k.scorer.Accepts look) (bounded : e.Bounded k) (op : Op α) :
    Gives (Keeps k) (e.checkedPerform look op) (e.perform op) := by
  cases op with
  | start => exact checkedStartGives sound bounded
  | advance frame => exact checkedAdvanceGives sound accepts bounded frame
  | finish => exact checkedFinishGives sound bounded
  | reset => exact (checkedResetGives bounded).bind granted

theorem checkedMakeGives (sound : k.Sound) : Gives (Steady k) (checkedMake k) (make k) := by
  have each : ∀ w ∈ k.lexicon.words.toList,
      WordModel.checkedMake k.phones w.phones = .ok (WordModel.make k.phones w.phones) :=
    fun w mem => (sound.makeWord 0 (Array.mem_toList_iff.mp mem)).same
  have slots : ((k.lexicon.words.toList.map fun w => WordModel.make k.phones w.phones).map fun w =>
      (⟨w, false⟩ : Slot α)).toArray = (make k).slots := by
    refine Array.ext' ?_
    rw [make, Array.toList_map, List.map_map]
    rfl
  unfold checkedMake
  rw [Guarded.mapOk each, Guarded.okBind, slots]
  exact .ok ⟨rfl, fun w none => by (cases none), Array.size_replicate⟩

end Engine

end Search

end SpeechDecoder
