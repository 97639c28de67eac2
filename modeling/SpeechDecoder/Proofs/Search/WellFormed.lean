import SpeechDecoder.Proofs.Acceptance
import SpeechDecoder.Proofs.Search.Chain
import SpeechDecoder.Proofs.Search.Foremost

/-! The table of exits of a search over loaded models is well formed, whatever the search was asked: words in
increasing time, each behind an earlier exit, with the history and language score that belong to it. The segments of a
result come in order, and their words are the words of its text. -/
namespace SpeechDecoder

/-- The history behind these words, the latest first. -/
def Model.History.latest (words : List Nat) : Model.History := ⟨words[0]?, words[1]?⟩

namespace Search

open Model (History LexiconWord)

variable {α : Type}

namespace Lattice

/-- The words of the language model along a chain of exits, fillers left out. -/
def spoken (k : Knowledge α) (l : Lattice α) (chain : List Nat) : List Nat :=
  chain.filterMap fun place => do
    let e ← l.exit? place
    let w ← k.lexicon.words[← e.word]?
    w.languageId

/-- Links lead from the place over its path to the root. -/
structure Linked (l : Lattice α) (place : Nat) : Prop where
  links : (0 :: l.path place).IsChain fun before after => (l.exit? after).bind Exit.previous = some before
  last : (0 :: l.path place).getLast? = some place

theorem segmentIs {k : Knowledge α} {l : Lattice α} {place : Nat} {score : α} {s : Segment α}
    (made : l.segment? k place score = some s) :
    ∃ e word w id, l.exit? place = some e ∧ e.word = some word ∧ k.lexicon.words[word]? = some w ∧
      w.languageId = some id ∧ s.word = w.base ∧ s.startFrame = e.startFrame ∧ s.endFrame = e.endFrame - 1 := by
  unfold segment? at made
  simp only [Option.bind_eq_bind, Option.bind_eq_some_iff, LexiconWord.isFiller] at made
  obtain ⟨e, found, word, named, w, listed, made⟩ := made
  cases known : w.languageId with
  | none => simp [known] at made
  | some id =>
    simp only [known, Option.isNone_some, Bool.false_eq_true, if_false, Option.some.injEq] at made
    subst made
    exact ⟨e, word, w, id, found, named, listed, known, rfl, rfl, rfl⟩

theorem textWords {segments : List (Segment α)} (fields : ∀ s ∈ segments, Text.IsField s.word.toList) :
    (Text.fields (textOf segments).toList).map String.ofList = segments.map Segment.word := by
  have each : ∀ f ∈ (segments.map Segment.word).map String.toList, Text.IsField f := by
    intro f mem
    obtain ⟨_, inside, rfl⟩ := List.mem_map.mp mem
    obtain ⟨s, here, rfl⟩ := List.mem_map.mp inside
    exact fields s here
  rw [textOf, String.toList_intercalate, show " ".toList = [' '] from rfl, Text.fieldsJoined each, List.map_map]
  simp

end Lattice

structure Exit.Traces (k : Knowledge α) (l : Lattice α) (chain : List Nat) (place : Nat) (e : Exit α) : Prop where
  head : (chain ++ [0]).head? = some place
  links : (chain ++ [0]).IsChain fun after before => (l.exit? after).bind Exit.previous = some before
  within : ∀ i ∈ chain, ∀ x, l.exit? i = some x → x.endFrame ≤ e.endFrame
  apart : chain.Pairwise fun after before => ∀ x y, l.exit? after = some x → l.exit? before = some y →
    y.endFrame ≤ x.startFrame
  history : e.history = .latest (l.spoken k chain ++ k.lexicon.start.toList)

theorem Exit.Traces.linked {k : Knowledge α} {l : Lattice α} {place : Nat} {e : Exit α}
    (traces : e.Traces k l (l.path place).reverse place) : l.Linked place := by
  obtain ⟨head, links, _⟩ := traces
  rw [← List.reverse_cons] at head links
  exact ⟨List.isChain_reverse.mp links, by rw [← List.head?_reverse]; exact head⟩

variable [Score α]

theorem Knowledge.enterHistory {k : Knowledge α} (fits : k.lexicon.Matches k.language) {word : Nat} {w : LexiconWord}
    (listed : k.lexicon.words[word]? = some w) (words : List Nat) :
    (k.enter word (.latest words)).2 = .latest (w.languageId.toList ++ words) := by
  have normal := fits.normal word w listed
  unfold enter
  rw [listed]
  dsimp only
  cases known : w.languageId with
  | none =>
    cases kind : w.kind with
    | normal =>
      have numbered := normal.mp kind
      rw [known] at numbered
      cases numbered
    | _ => rfl
  | some id =>
    have same : w.kind = .normal := normal.mpr (by rw [known]; rfl)
    simp only [same]
    rfl

structure Exit.Formed (k : Knowledge α) (l : Lattice α) (e : Exit α) (place word origin : Nat) (w : LexiconWord)
    (before : Exit α) : Prop where
  named : e.word = some word
  listed : k.lexicon.words[word]? = some w
  linked : e.previous = some origin
  earlier : origin < place
  known : l.exit? origin = some before
  starts : e.startFrame = before.endFrame
  ends : e.endFrame ≤ l.frames
  phones : 0 < w.phones.length ∧ e.startFrame + w.phones.length ≤ e.endFrame
  history : e.history = .latest (l.spoken k (l.path place).reverse ++
    (k.language.id? Model.sentenceStart).toList)
  language : e.languageScore = (k.enter word before.history).1

structure Lattice.WellFormed (k : Knowledge α) (l : Lattice α) : Prop where
  root : l.exit? 0 = some (Exit.root k)
  others : ∀ (place : Nat) (e : Exit α), place ≠ 0 → l.exit? place = some e →
    ∃ word origin w before, e.Formed k l place word origin w before

section
variable {k : Knowledge α} {frames : List (Frame α)} {t : Nat} {words : List (WordModel α)}
  {exits : Array (Exit α)}

theorem Knowledge.phoneListed {word phone : Nat} {m : PhoneModel α} (found : k.phone? word phone = some m) :
    ∃ w, k.lexicon.words[word]? = some w ∧ phone < w.phones.length := by
  obtain ⟨w, listed, inside⟩ := Option.bind_eq_some_iff.mp found
  obtain ⟨_, inside, _⟩ := Option.map_eq_some_iff.mp inside
  exact ⟨w, listed, (List.getElem?_eq_some_iff.mp inside).1⟩

theorem Knowledge.phoneBehind {word phone : Nat} {w : LexiconWord} (listed : k.lexicon.words[word]? = some w)
    (none : k.phone? word phone = none) : w.phones.length ≤ phone := by
  rw [phone?, listed, Option.bind_some, Option.map_eq_none_iff] at none
  exact List.getElem?_eq_none_iff.mp none

theorem Comes.spans {word origin : Nat} {before e : Exit α} (known : exits[origin]? = some before)
    (comes : Comes k frames exits e.endFrame (.exit word) ⟨e.score, origin⟩) :
    ∃ w, k.lexicon.words[word]? = some w ∧ 0 < w.phones.length ∧
      before.endFrame + w.phones.length ≤ e.endFrame := by
  obtain ⟨before', _, known', _, ride⟩ := comes
  cases known.symm.trans known'
  obtain ⟨m, first⟩ := ride.first
  obtain ⟨w, listed, begun⟩ := Knowledge.phoneListed first
  exact ⟨w, listed, begun, ride.spans fun phone none => Knowledge.phoneBehind listed none⟩

theorem Traced.traces (fits : k.lexicon.Matches k.language) (traced : Traced k frames t words exits)
    (table : Table k t exits) {place : Nat} {e : Exit α} (found : exits[place]? = some e) :
    e.Traces k (.ofExits k exits t) ((Lattice.ofExits k exits t).path place).reverse place := by
  have inside : place < exits.size := (Array.getElem?_eq_some_iff.mp found).1
  rw [Lattice.path, List.reverse_reverse]
  let l := Lattice.ofExits k exits t
  refine traced.chained table (Exit.Traces k l) ⟨rfl, List.isChain_singleton 0, by simp, .nil, ?_⟩ ?_ l rfl
    found inside
  · cases start : k.lexicon.start <;> simp [Exit.root, Knowledge.startHistory, History.latest, Lattice.spoken, start]
  -- one more exit: it adds its word to the words behind it, and starts where they end
  intro chain origin place word before e tail known earlier found comes same
  obtain ⟨w, listed, begun, span⟩ := Comes.spans known comes
  have behind := Exit.behindOf same
  have here : l.exit? place = some e := found
  refine ⟨rfl, ?_, fun i mem x there => ?_, ?_, ?_⟩
  · rw [List.cons_append, List.isChain_cons]
    refine ⟨fun y first => ?_, tail.links⟩
    cases tail.head.symm.trans first
    rw [here]
    exact behind.linked
  · rcases List.mem_cons.mp mem with rfl | later
    · cases here.symm.trans there
      exact Nat.le_refl _
    · have := tail.within i later x there
      omega
  · refine List.pairwise_cons.mpr ⟨fun i mem x y first second => ?_, tail.apart⟩
    cases here.symm.trans first
    rw [behind.starts]
    exact tail.within i mem y second
  · have spoken : l.spoken k (place :: chain) = w.languageId.toList ++ l.spoken k chain := by
      unfold Lattice.spoken
      rw [List.filterMap_cons, here]
      simp only [Option.bind_eq_bind, Option.bind_some, behind.named, listed]
      cases w.languageId <;> rfl
    rw [behind.history, tail.history, Knowledge.enterHistory fits listed, spoken, List.append_assoc]

theorem Traced.wellFormed (fits : k.lexicon.Matches k.language) (traced : Traced k frames t words exits)
    (table : Table k t exits) : (Lattice.ofExits k exits t).WellFormed k := by
  refine ⟨table.root, fun place e later found => ?_⟩
  obtain ⟨n, rfl⟩ := Nat.exists_eq_add_one_of_ne_zero later
  obtain ⟨⟨_, _, word, _, _, _, made⟩, ends⟩ := table.left n e found
  have named := (Exit.behindOf made).named
  obtain ⟨before, origin, earlier, known, comes, same⟩ := traced.ridden (n + 1) word e found named
  obtain ⟨w, listed, begun, span⟩ := Comes.spans known comes
  have behind := Exit.behindOf same
  have traces := traced.traces fits table found
  exact ⟨word, origin, w, before, named, listed, behind.linked, earlier, known, behind.starts, ends,
    ⟨begun, behind.starts ▸ span⟩, fits.start ▸ traces.history, behind.language⟩

end

/-! ### Segments -/

namespace Lattice
variable {k : Knowledge α} {l : Lattice α}

theorem WellFormed.timed (formed : l.WellFormed k) {place word : Nat} {e : Exit α} (found : l.exit? place = some e)
    (named : e.word = some word) : e.startFrame < e.endFrame ∧ e.endFrame ≤ l.frames := by
  have later : place ≠ 0 := by
    rintro rfl
    cases found.symm.trans formed.root
    cases named
  obtain ⟨_, _, _, _, entry⟩ := formed.others place e later found
  have phones := entry.phones
  exact ⟨by omega, entry.ends⟩

theorem WellFormed.segment (formed : l.WellFormed k) (fits : k.lexicon.Matches k.language) {place : Nat} {score : α}
    {s : Segment α} (made : l.segment? k place score = some s) :
    s.startFrame ≤ s.endFrame ∧ s.endFrame < l.frames ∧ Text.IsField s.word.toList ∧
      ∃ (word : Nat) (w : LexiconWord) (id : Nat), k.lexicon.words[word]? = some w ∧ s.word = w.base ∧
        k.language.id? s.word = some id := by
  obtain ⟨e, word, w, id, found, named, listed, known, spelled, starts, ends⟩ := segmentIs made
  obtain ⟨less, within⟩ := formed.timed found named
  rw [starts, ends, spelled]
  exact ⟨by omega, by omega, fits.spelled word w listed, word, w, id, listed, rfl, fits.known word id w listed known⟩

theorem segmentsOrdered (formed : l.WellFormed k) {path : List Nat}
    (apart : path.Pairwise fun before after => ∀ x y, l.exit? before = some x → l.exit? after = some y →
      x.endFrame ≤ y.startFrame) (scores : Nat → α) :
    (l.segments k (path.map fun i => (i, scores i))).Pairwise fun a b => a.endFrame < b.startFrame := by
  unfold segments
  rw [List.filterMap_map, List.pairwise_filterMap]
  refine apart.imp fun {before after} order a first b second => ?_
  obtain ⟨x, _, _, _, found, named, _, _, _, starts, ends⟩ := segmentIs first
  obtain ⟨y, _, _, _, found', _, _, _, _, starts', _⟩ := segmentIs second
  have between := order x y found found'
  obtain ⟨less, _⟩ := formed.timed found named
  omega

theorem bestWords (l : Lattice α) (fields : ∀ s ∈ (l.best k).2, Text.IsField s.word.toList) :
    (l.best k).1.words = (l.best k).2.map Segment.word := by
  have text : (l.best k).1.text = textOf (l.best k).2 := by
    unfold best
    cases l.bestFinal? <;> rfl
  rw [Hypothesis.words, text]
  exact textWords fields

end Lattice

/-! ### Tokens -/

theorem Engine.Shows.carries [Score.Ordered α] {slots : Array (Slot α)} {words : List (WordModel α)}
    (shows : Shows slots words) {word phone : Nat} {s : Slot α} (found : slots[word]? = some s) {p : PhoneModel α}
    (here : s.word.phones[phone]? = some p) {token : Token α} (held : token = p.entry ∨ token ∈ p.states)
    (live : token.isLive = true) : Carries words word token.origin := by
  obtain ⟨x, inside, alike⟩ := shows.found found
  have same := congrArg (fun w : WordModel α => w.phones[phone]?) alike
  simp only [WordModel.settled, List.getElem?_map, here, Option.map_some] at same
  obtain ⟨q, there, alike⟩ := Option.map_eq_some_iff.mp same.symm
  obtain ⟨_, _, states, entry⟩ := PhoneModel.settledEq.mp alike
  have at' : phoneAt words word phone = some q := by rw [phoneAt, inside, Option.bind_some, there]
  rcases held with rfl | mem
  · exact .entry at' (entry ▸ live) (congrArg Token.origin entry)
  · obtain ⟨state, place, rfl⟩ := List.getElem_of_mem mem
    have settled := congrArg (fun tokens : List (Token α) => tokens[state]?) states
    simp only [List.getElem?_map, List.getElem?_eq_getElem place, Option.map_some] at settled
    obtain ⟨y, found, shown⟩ := Option.map_eq_some_iff.mp settled
    -- a token that is settled live is the token itself
    have alive : y.isLive = true := by
      rw [← y.settledLive, shown, Token.settledLive]
      exact live
    rw [Token.settled, if_pos alive, Token.settled, if_pos live] at shown
    exact .state at' found alive (congrArg Token.origin shown)

theorem Traced.carried {k : Knowledge α} {frames : List (Frame α)} {t : Nat} {words : List (WordModel α)}
    {exits : Array (Exit α)} (traced : Traced k frames t words exits) {word origin : Nat}
    (carries : Carries words word origin) : origin < exits.size := by
  have inside {place : Place} {token : Token α} (comes : Comes k frames exits t place token) :
      token.origin < exits.size := by
    obtain ⟨before, _, known, _⟩ := comes
    exact (Array.getElem?_eq_some_iff.mp known).1
  cases carries with
  | state found held live came =>
    rw [← came]
    exact inside (traced.states _ _ _ _ _ found held live)
  | entry found live came =>
    rw [← came]
    exact inside (traced.entries _ _ _ found live)

/-! ### Every run -/

structure Result.WellFormed (k : Knowledge α) (frames : Nat) (r : Result α) : Prop where
  size : r.lattice.frames = frames
  table : r.lattice.WellFormed k
  linked : ∀ (place : Nat) (e : Exit α), r.lattice.exit? place = some e → r.lattice.Linked place
  ordered : r.segments.Pairwise fun a b => a.endFrame < b.startFrame
  inside : ∀ s ∈ r.segments, s.startFrame ≤ s.endFrame ∧ s.endFrame < frames
  known : ∀ s ∈ r.segments, ∃ (word : Nat) (w : LexiconWord) (id : Nat), k.lexicon.words[word]? = some w ∧
    s.word = w.base ∧ k.language.id? s.word = some id
  words : r.hypothesis.words = r.segments.map Segment.word

theorem Traced.bestApart {k : Knowledge α} {frames : List (Frame α)} {t : Nat} {words : List (WordModel α)}
    {exits : Array (Exit α)} (fits : k.lexicon.Matches k.language) (traced : Traced k frames t words exits)
    (table : Table k t exits) : let l := Lattice.ofExits k exits t
    l.bestPath.Pairwise fun before after => ∀ x y, l.exit? before = some x → l.exit? after = some y →
      x.endFrame ≤ y.startFrame := by
  intro l
  unfold Lattice.bestPath
  split
  · exact .nil
  · rename_i place score final
    obtain ⟨e, _, there, _⟩ := Lattice.bestFinalIs final
    have apart := List.pairwise_reverse.mp (traced.traces fits table there).apart
    exact apart.imp fun order x y first second => order y x second first

theorem Plain.Served.resultFormed {k : Knowledge α} {p : Plain α} (served : Served k p)
    (fits : k.lexicon.Matches k.language) {r : Result α} (found : p.result = some r) :
    r.WellFormed k p.frames := by
  obtain ⟨_, size, best, frames, words, traced⟩ := served.decoded r found
  obtain ⟨t, exits, table, same⟩ := served.finished r found
  obtain ⟨hypothesis, segments, lattice⟩ := r
  obtain rfl : lattice = .ofExits k exits t := same
  let l := Lattice.ofExits k exits t
  obtain ⟨rfl, rfl⟩ : hypothesis = (l.best k).1 ∧ segments = (l.best k).2 := Prod.mk.inj best
  have formed : l.WellFormed k := traced.wellFormed fits table
  have each {s : Segment α} (mem : s ∈ (l.best k).2) : s.startFrame ≤ s.endFrame ∧ s.endFrame < l.frames ∧
      Text.IsField s.word.toList ∧ ∃ (word : Nat) (w : LexiconWord) (id : Nat),
        k.lexicon.words[word]? = some w ∧ s.word = w.base ∧ k.language.id? s.word = some id := by
    rw [l.bestSegments] at mem
    obtain ⟨_, _, made⟩ := List.mem_filterMap.mp mem
    exact formed.segment fits made
  refine ⟨size, formed, fun place e there => (traced.traces fits table there).linked, ?_, fun s mem => ?_,
    fun s mem => (each mem).2.2.2, l.bestWords fun s mem => (each mem).2.2.1⟩
  · change (l.best k).2.Pairwise _
    rw [l.bestSegments]
    exact Lattice.segmentsOrdered formed (traced.bestApart fits table) _
  · exact ⟨(each mem).1, size ▸ (each mem).2.1⟩

namespace Engine

/-- Whatever is asked of a search over loaded models, its table of exits is well formed during an utterance and empty
otherwise, its live tokens come from exits of the table, and its result is well formed. -/
theorem searchWellFormed [Elementary] {files : FileTree} {config : Config} {m : Models}
    (loaded : Models.load files config = .ok m) (ops : List (Op Float32)) :
    let k := m.knowledge
    let e := (make k).after ops
    (e.phase = .active → (Lattice.ofExits k e.exits e.frames).WellFormed k) ∧
    (e.phase ≠ .active → e.exits = #[]) ∧
    (∀ (word phone : Nat) (s : Slot Float32) (p : PhoneModel Float32) (token : Token Float32),
      e.slots[word]? = some s → s.word.phones[phone]? = some p → token = p.entry ∨ token ∈ p.states →
      token.isLive = true → token.origin < e.exits.size) ∧
    ∀ r, e.result = some r → r.WellFormed k e.frames := by
  intro k e
  have fits : k.lexicon.Matches k.language := Models.loadMatches files config m loaded
  have follows := (makeFollows k).after ops
  have served := Plain.afterServed k ops
  refine ⟨fun active => ?_, fun rest => ?_, fun word phone s p token found here held live => ?_, fun r found => ?_⟩
  · obtain ⟨table, _, _, traced⟩ := served.searching (follows.phase ▸ active)
    rw [follows.exits, follows.frames]
    exact traced.wellFormed fits table
  · rw [follows.exits]
    exact served.resting (follows.phase ▸ rest)
  · by_cases active : e.phase = .active
    · obtain ⟨_, _, _, traced⟩ := served.searching (follows.phase ▸ active)
      rw [follows.exits]
      exact traced.carried ((follows.searching active).1.shows.carries found here held live)
    · exact ((follows.resting active).2.carries found here held live).ofClear.elim
  · rw [follows.frames]
    exact served.resultFormed fits (follows.result ▸ found)

def ascii (s : String) : List UInt8 := s.toList.map fun c => UInt8.ofNat c.toNat

def parameters (words : List UInt32) : List UInt8 :=
  ascii "s3\nendhdr\n" ++ (ParameterFile.magic :: words).flatMap Word32.bytes

/-- Files of one word with one phone of one state. -/
def oneWordFiles : FileTree := ⟨[
  (["m", "mdef"], .file (ascii ("0.3\n1 n_base\n0 n_tri\n2 n_state_map\n1 n_tied_state\n1 n_tied_ci_state\n" ++
    "1 n_tied_tmat\nA - - - n/a 0 0 N\n"))),
  (["m", "means"], .file (parameters [1, 1, 1, 1, 1, 0])),
  (["m", "variances"], .file (parameters [1, 1, 1, 1, 1, 0x3F800000])),
  (["m", "mixture_weights"], .file (parameters [1, 1, 1, 1, 0x3F800000])),
  (["m", "transition_matrices"], .file (parameters [1, 1, 2, 2, 0x3F000000, 0x3F000000])),
  (["d"], .file (ascii "a A\n")),
  (["l"], .file (ascii "\\data\\\nngram 1=1\n\\1-grams:\n-1 a\n\\end\\\n"))]⟩

def oneWordConfig : Config := ⟨[("hmm", .text "m"), ("dict", .text "d"), ("lm", .text "l"), ("feat", .text "1s_c"),
  ("ncep", .integer 1), ("ceplen", .integer 1), ("cmninit", .text "1")], []⟩

theorem oneFrameResult [Elementary] (k : Knowledge Float32) (dimension : k.scorer.dimension = 1) (x : Float32) :
    ∃ r, ((make k).after [.start, .advance ⟨0, [x]⟩, .finish]).result = some r ∧ r.lattice.frames = 1 := by
  obtain ⟨e, started, active, knowledge, zero⟩ :
      ∃ e, (make k).start = .ok e ∧ e.phase = .active ∧ e.knowledge = k ∧ e.frames = 0 := ⟨_, rfl, rfl, rfl, rfl⟩
  have moved : e.advance ⟨0, [x]⟩ = .ok (e.step ⟨0, [x]⟩) := by
    unfold advance
    rw [if_neg (by simp [active]), if_neg (by simp [knowledge, dimension])]
  obtain ⟨e', closed, result⟩ := finishResult (show (e.step ⟨0, [x]⟩).phase = .active from active)
  have ended : (make k).after [.start, .advance ⟨0, [x]⟩, .finish] = e' := by
    have done : ([⟨0, [x]⟩].foldlM advance e >>= finish) = .ok e' := by
      rw [List.foldlM_cons, moved]
      exact closed
    exact afterUtterance started done
  rw [ended]
  exact ⟨_, result, congrArg (· + 1) zero⟩

set_option maxRecDepth 10000 in
theorem loadedWellFormed :
    let _ := Elementary.system
    ∃ m, Models.load oneWordFiles oneWordConfig = .ok m ∧ ∃ r,
      ((make m.knowledge).after [.start, .advance ⟨0, [0]⟩, .finish]).result = some r ∧ r.WellFormed m.knowledge 1 := by
  intro _
  have known : ((Models.load oneWordFiles oneWordConfig).map fun m => m.knowledge.scorer.dimension).toOption =
      some 1 := by decide +kernel
  obtain ⟨m, loaded, dimension⟩ := Outcome.mapOk known
  obtain ⟨r, result, size⟩ := oneFrameResult m.knowledge dimension 0
  obtain ⟨_, _, _, formed⟩ := searchWellFormed loaded [.start, .advance ⟨0, [0]⟩, .finish]
  have whole := formed r result
  rw [← whole.size, size] at whole
  exact ⟨m, loaded, r, result, whole⟩

end Engine

end Search

end SpeechDecoder
