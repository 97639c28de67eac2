import SpeechDecoder.Proofs.Bounds.Lattices

/-! The search for alternatives under watch. Every way in the queue leads over exits of the table and has a history of
unigrams, so that nothing is read that is not there however long the search goes on. -/
namespace SpeechDecoder.Search

open Guarded (known within Gives)

variable {α : Type}

structure Walk.Fits (k : Knowledge α) (l : Lattice α) (w : Walk α) : Prop where
  history : w.history.Within k.language.unigrams.size
  steps : ∀ x ∈ w.steps, x.1 < l.exits.size

theorem Walk.Fits.last {k : Knowledge α} {l : Lattice α} {w : Walk α} (fits : w.Fits k l)
    (rooted : 0 < l.exits.size) : w.last < l.exits.size := by
  obtain ⟨steps, _, _⟩ := w
  cases steps with
  | nil => exact rooted
  | cons x rest => exact fits.steps x List.mem_cons_self

variable [Score α]

def Walk.checkedExtend (k : Knowledge α) (w : Walk α) (place word : Nat) (acousticScore : α) : Guarded (Walk α) := do
  let (languageScore, history) ← k.checkedEnter word w.history
  .ok ⟨(place, languageScore) :: w.steps, history, w.score + languageScore + acousticScore⟩

namespace Alternatives

def checkedRecord (c : Setting α) (s : State α) (walk : Walk α) : Guarded (State α) := do
  let segments ← c.lattice.checkedSegments c.knowledge walk.steps.reverse
  let text := Lattice.textOf segments
  if s.found.any fun a => a.hypothesis.text == text then .ok s
  else
    let scaled := walk.score / c.knowledge.params.acousticScale
    let confidence := Score.clampUnit (Score.exp (scaled - c.normalizer))
    .ok { s with found := s.found ++ [⟨s.found.length, ⟨text, walk.score, confidence⟩, segments⟩] }

def checkedFollow (c : Setting α) (walk : Walk α) (s : State α) (place : Nat) : Guarded (State α) := do
  let e ← known .exits place (c.lattice.exit? place)
  match e.word with
  | none => .ok s
  | some word => do
    let ahead ← known .outlook place c.outlook[place]?
    if Score.isImpossible ahead then .ok s
    else
      let walk ← walk.checkedExtend c.knowledge place word e.acousticScore
      .ok (s.enqueue walk (walk.score + ahead) false)

def checkedConclude (c : Setting α) (s : State α) (walk : Walk α) (e : Exit α) : Guarded (State α) :=
  if Lattice.isFinal c.lattice.frames e then do
    let leaving ← c.knowledge.checkedLeave walk.history
    let score := walk.score + leaving
    .ok (s.enqueue { walk with score } score true)
  else .ok s

def checkedExpand (c : Setting α) (s : State α) (walk : Walk α) : Guarded (State α) := do
  let s := { s with expansions := s.expansions + 1 }
  let e ← known .exits walk.last (c.lattice.exit? walk.last)
  let s ← checkedConclude c s walk e
  if c.lattice.frames ≤ e.endFrame then .ok s
  else
    let places ← known .frames e.endFrame c.successors[e.endFrame]?
    places.foldlM (checkedFollow c walk) s

def checkedServe (c : Setting α) (s : State α) (next : Candidate α) : Guarded (State α) :=
  if next.complete then checkedRecord c s next.walk else checkedExpand c s next.walk

def checkedRun (c : Setting α) (wanted : Nat) : (count : Nat) → State α → Guarded (State α)
  | 0, s => .ok s
  | count + 1, s =>
    match s.queue.pop? Candidate.before with
    | none => .ok s
    | some (next, queue) =>
      if wanted ≤ s.found.length ∨ expansionLimit ≤ s.expansions then .ok s
      else do
        let s ← checkedServe c { s with queue } next
        checkedRun c wanted count s

def checkedStart (c : Setting α) : Guarded (State α) := do
  within .exits 0 c.lattice.exits.size
  let ahead ← known .outlook 0 c.outlook[0]?
  let walk : Walk α := ⟨[], c.knowledge.startHistory, Score.zero⟩
  .ok (State.enqueue ⟨.empty, 0, 0, []⟩ walk ahead false)

structure Setting.Fits (c : Setting α) : Prop where
  sound : c.knowledge.Sound
  lattice : c.lattice.Fits c.knowledge
  starts : c.lattice.Starts c.successors
  outlook : c.outlook.size = c.lattice.exits.size

/-- Every way that is queued can be followed. -/
def State.Fits (c : Setting α) (s : State α) : Prop :=
  ∀ x ∈ s.queue.toList, x.walk.Fits c.knowledge c.lattice

variable {c : Setting α} {s : State α} {walk : Walk α}

theorem State.Fits.enqueue (fits : s.Fits c) (leads : walk.Fits c.knowledge c.lattice) (bound : α) (complete : Bool) :
    (s.enqueue walk bound complete).Fits c := by
  intro x mem
  rcases List.mem_cons.mp ((Queue.pushItems s.queue _).mem_iff.mp mem) with rfl | old
  · exact leads
  · exact fits x old

theorem checkedRecordGives (setting : c.Fits) (fits : s.Fits c) (leads : walk.Fits c.knowledge c.lattice) :
    Gives (State.Fits c) (checkedRecord c s walk) (record c s walk) := by
  unfold checkedRecord record
  rw [Lattice.checkedSegmentsOk setting.lattice fun x mem => leads.steps x (List.mem_reverse.mp mem), Guarded.okBind]
  dsimp only
  split
  · exact .ok fits
  · exact .ok fits

theorem checkedFollowGives (setting : c.Fits) (fits : s.Fits c) (leads : walk.Fits c.knowledge c.lattice) {place : Nat}
    (inside : place < c.lattice.exits.size) :
    Gives (State.Fits c) (checkedFollow c walk s place) (follow c walk s place) := by
  obtain ⟨e, read, found, exit⟩ := setting.lattice.exit inside
  have bound : place < c.outlook.size := Nat.lt_of_lt_of_eq inside setting.outlook.symm
  unfold checkedFollow follow Lattice.ahead
  rw [read, found, Guarded.okBind]
  dsimp only
  cases named : e.word with
  | none => exact .ok fits
  | some word =>
    dsimp only
    rw [Guarded.knownArray _ bound, Guarded.okBind, Guarded.getArray bound]
    split
    · exact .ok fits
    · have entered := setting.sound.enter (exit.word word named).1 leads.history
      have extended : Gives (Walk.Fits c.knowledge c.lattice)
          (walk.checkedExtend c.knowledge place word e.acousticScore)
          (walk.extend c.knowledge place word e.acousticScore) := by
        refine entered.bind fun within => .ok ⟨within, fun x mem => ?_⟩
        rcases List.mem_cons.mp mem with rfl | old
        · exact inside
        · exact leads.steps x old
      exact extended.bind fun leads' => .ok (fits.enqueue leads' _ _)

theorem checkedExpandGives (setting : c.Fits) (fits : s.Fits c) (leads : walk.Fits c.knowledge c.lattice) :
    Gives (State.Fits c) (checkedExpand c s walk) (expand c s walk) := by
  obtain ⟨e, read, found, _⟩ := setting.lattice.exit (leads.last setting.lattice.rooted)
  have counted : State.Fits c { s with expansions := s.expansions + 1 } := fits
  have concluded : Gives (State.Fits c) (checkedConclude c { s with expansions := s.expansions + 1 } walk e)
      (conclude c { s with expansions := s.expansions + 1 } walk e) := by
    unfold checkedConclude conclude
    split
    · rw [setting.sound.leave leads.history, Guarded.okBind]
      have whole : Walk.Fits c.knowledge c.lattice
          { walk with score := walk.score + c.knowledge.leave walk.history } := ⟨leads.history, leads.steps⟩
      exact .ok (counted.enqueue whole _ _)
    · exact .ok counted
  unfold checkedExpand expand
  dsimp only
  rw [read, found, Guarded.okBind]
  refine concluded.bind fun fits' => ?_
  dsimp only
  split
  · exact .ok fits'
  · have bound : e.endFrame < c.successors.size := by rw [setting.starts.size]; omega
    rw [Guarded.knownArray _ bound, Guarded.okBind, Guarded.getArray bound]
    have places := setting.starts.places _ _ (Array.getElem?_eq_getElem bound)
    exact Guarded.foldGives (fun s p mem fits => checkedFollowGives setting fits leads (places p mem)) fits'

theorem checkedRunGives (setting : c.Fits) (wanted count : Nat) (fits : s.Fits c) :
    Gives (State.Fits c) (checkedRun c wanted count s) (run c wanted count s) := by
  induction count generalizing s with
  | zero => exact .ok fits
  | succ count ih =>
    unfold checkedRun run
    cases popped : s.queue.pop? Candidate.before with
    | none => exact .ok fits
    | some item =>
      obtain ⟨next, queue⟩ := item
      have items := Queue.popItems popped
      have leads := fits next (items.mem_iff.mpr List.mem_cons_self)
      have rest : State.Fits c { s with queue } :=
        fun x mem => fits x (items.mem_iff.mpr (List.mem_cons_of_mem next mem))
      dsimp only
      split
      · exact .ok fits
      · refine Gives.bind (x := checkedServe c { s with queue } next) ?_ fun fits' => ih fits'
        unfold checkedServe serve
        split
        · exact checkedRecordGives setting rest leads
        · exact checkedExpandGives setting rest leads

theorem checkedStartGives (setting : c.Fits) : Gives (State.Fits c) (checkedStart c) (start c) := by
  have rooted := setting.lattice.rooted
  have bound : 0 < c.outlook.size := Nat.lt_of_lt_of_eq rooted setting.outlook.symm
  unfold checkedStart start Lattice.ahead
  rw [Guarded.withinOk rooted, Guarded.okBind, Guarded.knownArray _ bound, Guarded.okBind, Guarded.getArray bound]
  exact .ok (State.Fits.enqueue (fun x none => by cases none) ⟨setting.sound.startHistory, fun x none => by cases none⟩
    _ _)

end Alternatives

open Alternatives (Setting)

def Lattice.checkedAlternatives (k : Knowledge α) (l : Lattice α) (wanted : Nat) : Guarded (List (Alternative α)) :=
  let wanted := min wanted k.params.maxAlternatives
  if wanted = 0 ∨ l.finals.isEmpty then .ok []
  else do
    let next ← l.checkedSuccessors
    let outlook ← l.checkedOutlook k next
    let c : Setting α := ⟨k, l, next, outlook, l.normalizer k.params.acousticScale⟩
    let first ← Alternatives.checkedStart c
    let last ← Alternatives.checkedRun c wanted (2 * Alternatives.expansionLimit + 1) first
    .ok (Alternatives.ranked last.found)

theorem Lattice.checkedAlternativesOk {k : Knowledge α} {l : Lattice α} (sound : k.Sound) (fits : l.Fits k)
    (wanted : Nat) : l.checkedAlternatives k wanted = .ok (l.alternatives k wanted) := by
  unfold checkedAlternatives alternatives
  dsimp only
  split
  · rfl
  · have starts := checkedSuccessorsGives fits
    have outlook := checkedOutlookGives fits
    have setting : (Setting.ofLattice k l).Fits := ⟨sound, fits, starts.good, outlook.good⟩
    have first := Alternatives.checkedStartGives setting
    have last := Alternatives.checkedRunGives setting (min wanted k.params.maxAlternatives)
      (2 * Alternatives.expansionLimit + 1) first.good
    rw [starts.same, Guarded.okBind, outlook.same, Guarded.okBind]
    change (Alternatives.checkedStart (Setting.ofLattice k l) >>= fun first => Alternatives.checkedRun
      (Setting.ofLattice k l) (min wanted k.params.maxAlternatives) (2 * Alternatives.expansionLimit + 1) first >>=
        fun last => .ok (Alternatives.ranked last.found)) = _
    rw [first.same, Guarded.okBind, last.same, Guarded.okBind]
    rfl

end SpeechDecoder.Search
