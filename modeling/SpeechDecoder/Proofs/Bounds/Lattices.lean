import SpeechDecoder.Proofs.Bounds.Vocabulary
import SpeechDecoder.Proofs.Search.Queue
import SpeechDecoder.Proofs.Search.WellFormed

/-! Lattices that are watched while their best path and its alternatives are found. In a lattice that fits the
vocabulary links lead to earlier exits, so that the way back ends at the root; words start in a frame that the lattice
has, and end behind the first one. -/
namespace SpeechDecoder.Search

open Model (History)
open Guarded (known within minus Gives)

variable {α : Type}

structure Exit.Fits (k : Knowledge α) (frames place : Nat) (e : Exit α) : Prop where
  history : e.history.Within k.language.unigrams.size
  starts : e.startFrame ≤ frames
  word : ∀ word, e.word = some word → word < k.lexicon.words.size ∧ 0 < e.endFrame
  earlier : ∀ origin, e.previous = some origin → origin < place

structure Lattice.Fits (k : Knowledge α) (l : Lattice α) : Prop where
  rooted : 0 < l.exits.size
  exits : ∀ (place : Nat) (e : Exit α), l.exit? place = some e → e.Fits k l.frames place
  finals : ∀ x ∈ l.finals, x.1 < l.exits.size

namespace Lattice
variable {k : Knowledge α} {l : Lattice α}

theorem Fits.exit (fits : l.Fits k) {place : Nat} (inside : place < l.exits.size) :
    ∃ e, known .exits place (l.exit? place) = .ok e ∧ l.exit? place = some e ∧ e.Fits k l.frames place := by
  have found : l.exit? place = some l.exits[place] := Array.getElem?_eq_getElem inside
  exact ⟨_, by rw [found]; rfl, found, fits.exits place _ found⟩

/-- The way back along the links; one that does not end within a number of exits leads out of the table. -/
def checkedTraceBack (l : Lattice α) : (count : Nat) → Option Nat → Guarded (List Nat)
  | _, none => .ok []
  | 0, some place => .error (.outside .exits place)
  | count + 1, some place => do
    let e ← known .exits place (l.exit? place)
    if e.word.isSome then
      let rest ← l.checkedTraceBack count e.previous
      .ok (place :: rest)
    else .ok []

def checkedPath (l : Lattice α) (place : Nat) : Guarded (List Nat) := do
  let trace ← l.checkedTraceBack l.exits.size (some place)
  .ok trace.reverse

def checkedSegment? (k : Knowledge α) (l : Lattice α) (place : Nat) (languageScore : α) :
    Guarded (Option (Segment α)) := do
  let e ← known .exits place (l.exit? place)
  match e.word with
  | none => .ok none
  | some word => do
    let w ← known .words word k.lexicon.words[word]?
    if w.isFiller then .ok none
    else
      let last ← minus e.endFrame 1
      .ok (some ⟨w.base, e.startFrame, last, e.acousticScore, languageScore⟩)

def checkedSegments (k : Knowledge α) (l : Lattice α) (path : List (Nat × α)) : Guarded (List (Segment α)) := do
  let found ← path.mapM fun (place, languageScore) => l.checkedSegment? k place languageScore
  .ok (found.filterMap id)

theorem checkedTraceBackGives (fits : l.Fits k) {count : Nat} (few : count ≤ l.exits.size) {place : Option Nat}
    (inside : ∀ p, place = some p → p < count) :
    Gives (fun path => ∀ i ∈ path, i < l.exits.size) (l.checkedTraceBack count place) (l.traceBack count place) := by
  induction count generalizing place with
  | zero =>
    cases place with
    | none => exact .ok fun i mem => by cases mem
    | some p => exact absurd (inside p rfl) (Nat.not_lt_zero p)
  | succ count ih =>
    cases place with
    | none => exact .ok fun i mem => by cases mem
    | some p =>
      have bound : p < count + 1 := inside p rfl
      obtain ⟨e, read, found, exit⟩ := fits.exit (show p < l.exits.size by omega)
      unfold checkedTraceBack traceBack
      rw [read, found, Guarded.okBind]
      dsimp only
      split
      · refine (ih (by omega) fun q linked => ?_).bind fun rest => .ok fun i mem => ?_
        · have := exit.earlier q linked
          omega
        · rcases List.mem_cons.mp mem with rfl | later
          · omega
          · exact rest i later
      · exact .ok fun i mem => by cases mem

theorem checkedPathGives (fits : l.Fits k) {place : Nat} (inside : place < l.exits.size) :
    Gives (fun path => ∀ i ∈ path, i < l.exits.size) (l.checkedPath place) (l.path place) := by
  refine (checkedTraceBackGives fits le_rfl fun p same => ?_).bind fun trace =>
    .ok fun i mem => trace i (List.mem_reverse.mp mem)
  cases same
  exact inside

theorem checkedSegmentOk (fits : l.Fits k) {place : Nat} (inside : place < l.exits.size) (languageScore : α) :
    l.checkedSegment? k place languageScore = .ok (l.segment? k place languageScore) := by
  obtain ⟨e, read, found, exit⟩ := fits.exit inside
  unfold checkedSegment? segment?
  rw [read, found, Guarded.okBind]
  cases named : e.word with
  | none => simp only [named, Option.bind_eq_bind, Option.bind_some, Option.bind_none]
  | some word =>
    obtain ⟨listed, ends⟩ := exit.word word named
    simp only [named, Option.bind_eq_bind, Option.bind_some, Array.getElem?_eq_getElem listed, Guarded.knownSome,
      Guarded.okBind]
    split
    · rfl
    · rw [Guarded.minusOk ends]
      rfl

theorem checkedSegmentsOk (fits : l.Fits k) {path : List (Nat × α)} (inside : ∀ x ∈ path, x.1 < l.exits.size) :
    l.checkedSegments k path = .ok (l.segments k path) := by
  unfold checkedSegments segments
  rw [Guarded.mapOk fun x mem => checkedSegmentOk fits (inside x mem) x.2, Guarded.okBind, List.filterMap_map]
  rfl

def checkedSuccessors (l : Lattice α) : Guarded (Array (List Nat)) :=
  ((List.range l.exits.size).drop 1).foldrM (fun place starting => do
    let e ← known .exits place (l.exit? place)
    let later ← known .frames e.startFrame starting[e.startFrame]?
    .ok (starting.set! e.startFrame (place :: later))) (Array.replicate (l.frames + 1) [])

/-- For each frame, places of the table. -/
structure Starts (l : Lattice α) (starting : Array (List Nat)) : Prop where
  size : starting.size = l.frames + 1
  places : ∀ (frame : Nat) (places : List Nat), starting[frame]? = some places → ∀ p ∈ places, p < l.exits.size

theorem checkedSuccessorsGives (fits : l.Fits k) : Gives l.Starts l.checkedSuccessors l.successors := by
  have inside : ∀ p ∈ (List.range l.exits.size).drop 1, p < l.exits.size :=
    fun p mem => List.mem_range.mp (List.mem_of_mem_drop mem)
  unfold checkedSuccessors successors
  generalize (List.range l.exits.size).drop 1 = later at inside
  induction later with
  | nil =>
    refine .ok ⟨Array.size_replicate, fun frame places found => ?_⟩
    rw [Array.getElem?_replicate] at found
    obtain ⟨_, same⟩ := Option.ite_none_right_eq_some.mp found
    cases same
    exact fun p mem => by cases mem
  | cons place rest ih =>
    have here := inside place List.mem_cons_self
    obtain ⟨e, read, found, exit⟩ := fits.exit here
    rw [List.foldrM_cons, List.foldr_cons]
    refine (ih fun p mem => inside p (List.mem_cons_of_mem place mem)).bind fun starts => ?_
    have bound := Nat.lt_of_lt_of_eq (Nat.lt_succ_of_le exit.starts) starts.size.symm
    rw [read, found, Guarded.okBind, Guarded.knownArray _ bound, Guarded.okBind]
    dsimp only
    rw [Guarded.modifyIs bound]
    refine .ok ⟨by simpa using starts.size, Guarded.setKeeps starts.places fun p mem => ?_⟩
    rcases List.mem_cons.mp mem with rfl | old
    · exact here
    · exact starts.places _ _ (Array.getElem?_eq_getElem bound) p old

variable [Score α]

/-! ### The best path -/

def checkedOfExits (k : Knowledge α) (exits : Array (Exit α)) (frames : Nat) : Guarded (Lattice α) := do
  let finals ← (exits.toList.zipIdx.filter fun (e, _) => isFinal frames e).mapM fun (e, i) => do
    let leaving ← k.checkedLeave e.history
    .ok (i, e.score + leaving)
  .ok ⟨exits, frames, finals⟩

def checkedBest (k : Knowledge α) (l : Lattice α) : Guarded (Hypothesis α × List (Segment α)) :=
  match l.bestFinal? with
  | none => .ok (⟨"", Score.zero, Score.zero⟩, [])
  | some (place, score) => do
    let places ← l.checkedPath place
    let path ← places.mapM fun i => do
      let e ← known .exits i (l.exit? i)
      .ok (i, e.languageScore)
    let segments ← l.checkedSegments k path
    .ok (⟨textOf segments, score, l.confidence k.params.acousticScale score⟩, segments)

theorem checkedOfExitsOk (sound : k.Sound) {exits : Array (Exit α)} {frames : Nat}
    (histories : ∀ e ∈ exits, e.history.Within k.language.unigrams.size) :
    checkedOfExits k exits frames = .ok (ofExits k exits frames) := by
  have each : ∀ x ∈ exits.toList.zipIdx.filter fun (e, _) => isFinal frames e,
      (do let leaving ← k.checkedLeave x.1.history; .ok (x.2, x.1.score + leaving) : Guarded (Nat × α)) =
        .ok (x.2, x.1.score + k.leave x.1.history) := by
    intro x mem
    have inside : x.1 ∈ exits := Array.mem_toList_iff.mp (List.fst_mem_of_mem_zipIdx (List.mem_of_mem_filter mem))
    rw [sound.leave (histories x.1 inside), Guarded.okBind]
  unfold checkedOfExits
  rw [Guarded.mapOk each]
  rfl

theorem checkedBestOk (fits : l.Fits k) : l.checkedBest k = .ok (l.best k) := by
  unfold checkedBest best
  cases best : l.bestFinal? with
  | none => rfl
  | some final =>
    have mem : final ∈ l.finals := (preferredMem best).resolve_right (by simp)
    obtain ⟨same, inside⟩ := checkedPathGives fits (fits.finals final mem)
    dsimp only
    rw [same, Guarded.okBind, Guarded.mapOk (g := fun i => (i, (l.exit? i).elim Score.zero Exit.languageScore))
      fun i mem => ?_, Guarded.okBind, checkedSegmentsOk fits fun x mem => ?_]
    · rfl
    · obtain ⟨i, here, rfl⟩ := List.mem_map.mp mem
      exact inside i here
    · obtain ⟨e, read, found, _⟩ := fits.exit (inside i mem)
      rw [read, found]
      rfl

/-! ### What a path can still gain -/

def checkedImprove (k : Knowledge α) (l : Lattice α) (place : Nat) (outlook : Array α) (next : Nat) :
    Guarded (Array α) := do
  let e ← known .exits next (l.exit? next)
  match e.word with
  | none => .ok outlook
  | some word => do
    let ahead ← known .outlook next outlook[next]?
    if Score.isImpossible ahead then .ok outlook
    else
      let bound ← k.checkedEnterBound word
      let gain := e.acousticScore + bound + ahead
      let held ← known .outlook place outlook[place]?
      .ok (if Score.below held gain then outlook.set! place gain else outlook)

def checkedLook (k : Knowledge α) (l : Lattice α) (next : Array (List Nat)) (outlook : Array α) (place : Nat) :
    Guarded (Array α) := do
  let e ← known .exits place (l.exit? place)
  if l.frames ≤ e.endFrame then .ok outlook
  else
    let places ← known .frames e.endFrame next[e.endFrame]?
    places.foldlM (l.checkedImprove k place) outlook

def checkedMarkEnds (outlook : Array α) (finals : List (Nat × α)) : Guarded (Array α) :=
  finals.foldlM (fun a (place, _) => do
    within .outlook place a.size
    .ok (a.set! place Score.zero)) outlook

def checkedOutlook (k : Knowledge α) (l : Lattice α) (next : Array (List Nat)) : Guarded (Array α) := do
  let ends ← checkedMarkEnds (Array.replicate l.exits.size Score.impossible) l.finals
  l.latestFirst.foldlM (l.checkedLook k next) ends

variable {outlook : Array α}

theorem checkedImproveGives (fits : l.Fits k) {place next : Nat} (inside : place < l.exits.size)
    (later : next < l.exits.size) (size : outlook.size = l.exits.size) :
    Gives (fun a => a.size = l.exits.size) (l.checkedImprove k place outlook next)
      (l.improve k place outlook next) := by
  obtain ⟨e, read, found, exit⟩ := fits.exit later
  unfold checkedImprove improve ahead
  rw [read, found, Guarded.okBind]
  dsimp only
  cases named : e.word with
  | none => exact .ok size
  | some word =>
    have here : place < outlook.size := Nat.lt_of_lt_of_eq inside size.symm
    have there : next < outlook.size := Nat.lt_of_lt_of_eq later size.symm
    dsimp only
    rw [Guarded.knownArray _ there, Guarded.okBind, Guarded.getArray there, Guarded.getArray here]
    split
    · exact .ok size
    · rw [Knowledge.checkedEnterBoundOk (exit.word word named).1, Guarded.okBind, Guarded.knownArray _ here,
        Guarded.okBind]
      refine .ok ?_
      split
      · simpa using size
      · exact size

theorem checkedLookGives (fits : l.Fits k) {next : Array (List Nat)} (starts : l.Starts next) {place : Nat}
    (inside : place < l.exits.size) (size : outlook.size = l.exits.size) :
    Gives (fun a => a.size = l.exits.size) (l.checkedLook k next outlook place) (l.look k next outlook place) := by
  obtain ⟨e, read, found, _⟩ := fits.exit inside
  unfold checkedLook look endOf
  rw [read, found, Guarded.okBind, Option.elim_some]
  split
  · exact .ok size
  · have bound : e.endFrame < next.size := by rw [starts.size]; omega
    rw [Guarded.knownArray _ bound, Guarded.okBind, Guarded.getArray bound]
    have places := starts.places _ _ (Array.getElem?_eq_getElem bound)
    exact Guarded.foldGives (fun a p mem size => checkedImproveGives fits inside (places p mem) size) size

theorem checkedOutlookGives (fits : l.Fits k) :
    Gives (fun a => a.size = l.exits.size) (l.checkedOutlook k l.successors) (l.outlook k) := by
  have starts := (checkedSuccessorsGives fits).good
  have first : (Array.replicate l.exits.size (Score.impossible : α)).size = l.exits.size := Array.size_replicate
  have ends : Gives (fun a => a.size = l.exits.size)
      (checkedMarkEnds (Array.replicate l.exits.size Score.impossible) l.finals) l.atEnd := by
    refine Guarded.foldGives (fun a x mem size => ?_) first
    dsimp only
    rw [Guarded.withinOk (Nat.lt_of_lt_of_eq (fits.finals x mem) size.symm), Guarded.okBind]
    exact .ok (by simpa using size)
  refine ends.bind fun size => Guarded.foldGives (fun a p mem size => ?_) size
  exact checkedLookGives fits starts (List.mem_range.mp ((List.mergeSort_perm _ _).mem_iff.mp mem)) size

end Lattice

end SpeechDecoder.Search
