import SpeechDecoder.Proofs.Bounds.Mixture
import SpeechDecoder.Proofs.Bounds.Parsed
import SpeechDecoder.Proofs.Search.Reset

/-! Whatever is asked of a search over parts that fit, nothing is read that is not there. That the next call finds
tables that it can read follows from the exits that the search has recorded, which are well formed, and from its live
tokens, which come from them. -/
namespace SpeechDecoder

open Guarded (Gives)

variable {α : Type}

namespace Search

variable [Score α]

/-- The exits of a search lead from one to the next, so that what is inside before a word is inside behind it. -/
theorem Traced.fits {k : Knowledge α} (sound : k.Sound) {frames : List (Frame α)} {t : Nat}
    {words : List (WordModel α)} {exits : Array (Exit α)} (traced : Traced k frames t words exits)
    (table : Table k t exits) : (Lattice.ofExits k exits t).Fits k := by
  have each (place : Nat) : ∀ e, exits[place]? = some e → e.Fits k t place := by
    induction place using Nat.strongRecOn with
    | ind place ih =>
      intro e found
      cases place with
      | zero =>
        cases found.symm.trans table.root
        exact ⟨sound.startHistory, Nat.zero_le _, fun word none => (by cases none), fun origin none => by cases none⟩
      | succ n =>
        obtain ⟨⟨_, _, word, _, _, _, made⟩, ends⟩ := table.left n e found
        have named := (Exit.behindOf made).named
        obtain ⟨before, origin, earlier, known, comes, same⟩ := traced.ridden (n + 1) word e found named
        obtain ⟨w, listed, begun, span⟩ := Comes.spans known comes
        have behind := Exit.behindOf same
        have inside := (Array.getElem?_eq_some_iff.mp listed).1
        refine ⟨?_, ?_, fun word' named' => ?_, fun origin' linked => ?_⟩
        · rw [behind.history]
          exact (sound.enter inside (ih origin earlier before known).history).good
        · rw [behind.starts]
          omega
        · cases named.symm.trans named'
          exact ⟨inside, by omega⟩
        · cases behind.linked.symm.trans linked
          exact earlier
  refine ⟨(Array.getElem?_eq_some_iff.mp table.root).1, each, fun x final => ?_⟩
  obtain ⟨e, found, _⟩ := Lattice.memFinals.mp final
  exact (Array.getElem?_eq_some_iff.mp found).1

/-! ### Words -/

theorem PhoneModel.Shaped.ofClear {t : Model.Transitions α} {senones : Nat} {p : PhoneModel α}
    (shape : p.clear.Shaped t senones) : p.Shaped t senones :=
  ⟨shape.matrix, (List.length_map _).symm.trans shape.states, shape.paired, shape.senones⟩

theorem Engine.Shows.shaped {k : Knowledge α} {slots : Array (Slot α)} {words : List (WordModel α)}
    (shows : Shows slots words) (shape : Plain.Shaped k words) {word : Nat} {s : Slot α} (found : slots[word]? = some s)
    (phone : Nat) : (s.word.phones[phone]?).map PhoneModel.clear = k.phone? word phone := by
  obtain ⟨x, inside, alike⟩ := shows.found found
  have same := congrArg (fun w : WordModel α => (w.phones[phone]?).map PhoneModel.clear) alike
  simp only [WordModel.settled, List.getElem?_map, Option.map_map, Function.comp_def, PhoneModel.clearSettled] at same
  rw [← shape, phoneAt, inside, Option.bind_some]
  exact same

variable [Score.Ordered α] {k : Knowledge α}

theorem Knowledge.Sound.phoneShaped (sound : k.Sound) {word phone : Nat} {p : PhoneModel α}
    (found : k.phone? word phone = some p) : p.Shaped k.transitions k.scorer.senones := by
  obtain ⟨w, listed, found⟩ := Option.bind_eq_some_iff.mp found
  obtain ⟨id, inside, rfl⟩ := Option.map_eq_some_iff.mp found
  have known := (sound.words.phones w (Array.mem_of_getElem? listed)).2 id (List.mem_of_getElem? inside)
  exact (sound.makePhone 0 known).good.toShaped

namespace Engine

theorem Shows.held (sound : k.Sound) {slots : Array (Slot α)} {words : List (WordModel α)} {origins : Nat}
    (shows : Shows slots words) (shape : Plain.Shaped k words) (size : words.length = k.lexicon.words.size)
    (carried : ∀ word origin, Carries words word origin → origin < origins) : Held k origins slots := by
  refine ⟨shows.size.trans size, fun word s found => ?_⟩
  have inside : word < k.lexicon.words.size :=
    Nat.lt_of_lt_of_eq (Array.getElem?_eq_some_iff.mp found).1 (shows.size.trans size)
  have phones := shows.shaped shape found
  refine ⟨?_, fun p mem => ?_⟩
  · have long := (sound.words.phones _ (Array.getElem_mem inside)).1
    have first := phones 0
    rw [Knowledge.phone?, Array.getElem?_eq_getElem inside, Option.bind_some, List.getElem?_eq_getElem long] at first
    obtain ⟨_, known, _⟩ := Option.map_eq_some_iff.mp first
    exact (List.getElem?_eq_some_iff.mp known).1
  · obtain ⟨phone, here⟩ := List.getElem?_of_mem mem
    have cleared := phones phone
    rw [here, Option.map_some] at cleared
    refine ⟨(sound.phoneShaped cleared.symm).ofClear, fun token held live => ?_, fun live => ?_⟩
    · exact carried word _ (shows.carries found here (.inr held) live)
    · exact carried word _ (shows.carries found here (.inl rfl) live)

/-! ### Runs -/

theorem afterBounded (sound : k.Sound) {ops : List (Op α)}
    (steady : Steady k ((make k).after ops)) : ((make k).after ops).Bounded k := by
  have follows := (makeFollows k).after ops
  have served := Plain.afterServed k ops
  have size : ((Plain.make k).after ops).words.length = k.lexicon.words.size :=
    Plain.afterKeeps (fun _ _ _ same done => (Plain.performSize done).trans same) ops (by simp [Plain.make])
  generalize (make k).after ops = e at follows steady
  generalize (Plain.make k).after ops = p at follows served size
  refine ⟨steady, ?_, fun rest => ?_, fun active => ?_, fun r found => ?_⟩
  · by_cases active : e.phase = .active
    · obtain ⟨_, _, _, traced⟩ := served.searching (follows.phase ▸ active)
      rw [follows.exits]
      exact (follows.searching active).1.shows.held sound served.shape size fun _ _ carries => traced.carried carries
    · exact (follows.resting active).2.held sound (Plain.clearShaped served.shape) ((List.length_map _).trans size)
        fun _ _ carries => carries.ofClear.elim
  · rw [follows.exits]
    exact served.resting (follows.phase ▸ rest)
  · obtain ⟨table, _, _, traced⟩ := served.searching (follows.phase ▸ active)
    rw [follows.exits, follows.frames]
    exact traced.fits sound table
  · have known := follows.result ▸ found
    obtain ⟨_, _, _, frames, words, traced⟩ := served.decoded r known
    obtain ⟨t, exits, table, same⟩ := served.finished r known
    rw [same] at traced ⊢
    exact traced.fits sound table

/-- What cannot be done leaves the search as it was. -/
def checkedCall (look : Frame α → Nat → Guarded α) (e : Engine α) (op : Op α) : Guarded (Engine α) := do
  let r ← e.checkedPerform look op
  .ok (r.toOption.getD e)

def checkedRun (look : Frame α → Nat → Guarded α) (k : Knowledge α) (ops : List (Op α)) : Guarded (Engine α) := do
  let e ← checkedMake k
  ops.foldlM (checkedCall look) e

variable {look : Frame α → Nat → Guarded α}

theorem checkedCallGives (sound : k.Sound) (accepts : k.scorer.Accepts look) {e : Engine α} (bounded : e.Bounded k)
    (op : Op α) : Gives (Steady k) (e.checkedCall look op) ((e.perform op).toOption.getD e) := by
  refine (checkedPerformGives sound accepts bounded op).bind fun keeps => .ok ?_
  cases done : e.perform op with
  | error _ => exact bounded.toSteady
  | ok e' => exact keeps e' done

theorem checkedRunGives (sound : k.Sound) (accepts : k.scorer.Accepts look)
    (ops : List (Op α)) : Gives (Steady k) (checkedRun look k ops) ((make k).after ops) := by
  induction ops using List.reverseRecOn with
  | nil => exact (checkedMakeGives sound).bind .ok
  | append_singleton ops op ih =>
    have last : checkedRun look k (ops ++ [op]) = checkedRun look k ops >>= (checkedCall look · op) := by
      simp only [checkedRun, List.foldlM_append, bind_assoc, List.foldlM_cons, List.foldlM_nil, bind_pure]
    rw [last, after, List.foldl_append]
    exact ih.bind fun steady => checkedCallGives sound accepts (afterBounded sound steady) op

/-- Whatever is asked of a search, no table is read outside and no difference is below zero: under watch it does and
finds the same. Its words have phones, and these have states. -/
structure Safe (k : Knowledge α) (look : Frame α → Nat → Guarded α) : Prop where
  run : ∀ ops, checkedRun look k ops = .ok ((make k).after ops)
  alternatives : ∀ ops wanted,
    ((make k).after ops).checkedAlternatives wanted = .ok (((make k).after ops).alternatives wanted)
  words : ∀ ops, ∀ s ∈ ((make k).after ops).slots,
    0 < s.word.phones.length ∧ ∀ p ∈ s.word.phones, 0 < p.states.length

theorem soundSafe (sound : k.Sound) (accepts : k.scorer.Accepts look) :
    Safe k look := by
  have bounded (ops : List (Op α)) := afterBounded sound (checkedRunGives sound accepts ops).good
  refine ⟨fun ops => (checkedRunGives sound accepts ops).same,
    fun ops wanted => checkedAlternativesOk sound (bounded ops) wanted, fun ops s mem => ?_⟩
  obtain ⟨word, found⟩ := Array.getElem?_of_mem mem
  have fits := (bounded ops).slots.words word s found
  refine ⟨fits.long, fun p inside => ?_⟩
  rw [(fits.phones p inside).states, sound.square]
  exact sound.phones.emits

end Engine

end Search

namespace Models
open Model (PhoneSet Transitions Scorer Ngram Lexicon Dictionary)

section
variable [Elementary] {config : Config} {phones : PhoneSet} {transitions : Transitions Float32}
  {scorer : Scorer Float32} {language : Ngram Float32} {dictionary : Dictionary} {lexicon : Lexicon} {m : Models}

theorem ofPartsSound (sound : phones.Sound) (paired : language.Paired) (parsed : dictionary.Parsed phones)
    (built : Lexicon.build dictionary language = .ok lexicon)
    (made : ofParts config phones transitions scorer language lexicon = .ok m) :
    m.knowledge.Sound := by
  obtain ⟨features, params, _, checked, rfl⟩ := ofPartsMade made
  obtain ⟨matrices, states, senones, _⟩ := checkFits checked
  exact ⟨sound, states, matrices, senones, Lexicon.buildSound paired parsed built⟩

end

end Models

namespace Search.Engine
open Model (PhoneSet Transitions Scorer Ngram Lexicon Dictionary)

def onePhoneText : String :=
  "0.3\n1 n_base\n0 n_tri\n2 n_state_map\n1 n_tied_state\n1 n_tied_ci_state\n1 n_tied_tmat\nA - - - n/a 0 0 N\n"

def oneWordText : String := "\\data\\\nngram 1=1\n\\1-grams:\n-1 a\n\\end\\\n"

/-- A search over loaded models never reads outside a table, its scorer included, and neither does one over parts that
were parsed for one another, with a scorer that accepts every senone below its number. -/
theorem neverOutside [Elementary] :
    (∀ files config m, Models.load files config = .ok m → ∃ mixture, Models.readMixture files config = .ok mixture ∧
      m.knowledge.scorer = mixture.scorer ∧ Safe m.knowledge mixture.checkedScore) ∧
    ∀ (text spoken : String) (number : List Char → Option Float32) (config : Config) (phones : PhoneSet)
      (transitions : Transitions Float32) (scorer : Scorer Float32) (language : Ngram Float32)
      (dictionary : Dictionary) (lexicon : Lexicon) (m : Models) (look : Frame Float32 → Nat → Guarded Float32),
      PhoneSet.ofText text = .ok phones → Ngram.ofText number spoken = .ok language → dictionary.Parsed phones →
      Lexicon.build dictionary language = .ok lexicon →
      Models.ofParts config phones transitions scorer language lexicon = .ok m → scorer.Accepts look →
      Safe m.knowledge look := by
  refine ⟨fun files config m loaded => ?_, ?_⟩
  · obtain ⟨paths, options, phones, transitions, mixture, dictionary, language, lexicon, readPhones, mixed, read,
      spoken, built, made⟩ := Models.loadMade loaded
    have sound := Models.ofPartsSound (PhoneSet.loadSound readPhones) (Ngram.loadPaired spoken)
      (Dictionary.loadParsed _ _ _ _ dictionary read) built made
    obtain ⟨features, params, accepted, checked, rfl⟩ := Models.ofPartsMade made
    have dimension : 0 < mixture.gaussians.dimension := by
      have same : mixture.gaussians.dimension = features.dimension := (Models.checkFits checked).2.2.2
      rw [same]
      exact Feature.Settings.dimensionPositive accepted
    exact ⟨mixture, mixed, rfl, soundSafe sound (Models.readMixtureSound mixed dimension).accepts⟩
  · intro text spoken number config phones transitions scorer language dictionary lexicon m look read heard parsed built
      made accepts
    have sound := Models.ofPartsSound (PhoneSet.ofTextSound read) (Ngram.ofTextPaired heard) parsed built made
    obtain ⟨features, params, _, _, rfl⟩ := Models.ofPartsMade made
    exact soundSafe sound accepts

set_option maxRecDepth 10000 in
theorem insideOfOneWord :
    let _ := Elementary.system
    (∃ m mixture, Models.load oneWordFiles oneWordConfig = .ok m ∧
      Models.readMixture oneWordFiles oneWordConfig = .ok mixture ∧ Safe m.knowledge mixture.checkedScore) ∧
    ∃ phones language dictionary lexicon m, PhoneSet.ofText onePhoneText = .ok phones ∧
      Ngram.ofText Ngram.decimalLog oneWordText = .ok language ∧
      Dictionary.addText {} false phones "d" "a A\n" = .ok dictionary ∧
      Lexicon.build dictionary language = .ok lexicon ∧
      Models.ofParts {} phones ⟨1, #[-1, -1]⟩ (.direct 1 39) language lexicon = .ok m ∧
      Safe m.knowledge Scorer.checkedDirect := by
  intro _
  obtain ⟨loads, parts⟩ := neverOutside
  constructor
  · have known : ((Models.load oneWordFiles oneWordConfig).map fun _ => ()).toOption = some () := by decide +kernel
    obtain ⟨m, loaded, _⟩ := Outcome.mapOk known
    obtain ⟨mixture, mixed, _, safe⟩ := loads oneWordFiles oneWordConfig m loaded
    exact ⟨m, mixture, loaded, mixed, safe⟩
  · let phones : PhoneSet := ⟨[⟨"A", false, 0, [0]⟩], 0, 1, 1, 1⟩
    have counted : PhoneSet.ofText onePhoneText = .ok phones := by decide +kernel
    have known : ((Dictionary.addText {} false phones "d" "a A\n").map fun dictionary =>
        ((Ngram.ofText Ngram.decimalLog oneWordText).map fun language =>
          ((Lexicon.build dictionary language).map fun lexicon =>
            ((Models.ofParts {} phones ⟨1, #[-1, -1]⟩ (.direct 1 39) language lexicon).map fun _ => ()).toOption
          ).toOption).toOption).toOption = some (some (some (some ()))) := by decide +kernel
    obtain ⟨dictionary, added, known⟩ := Outcome.mapOk known
    obtain ⟨language, heard, known⟩ := Outcome.mapOk known
    obtain ⟨lexicon, built, known⟩ := Outcome.mapOk known
    obtain ⟨m, made, _⟩ := Outcome.mapOk known
    exact ⟨phones, language, dictionary, lexicon, m, counted, heard, added, built, made,
      parts onePhoneText oneWordText Ngram.decimalLog {} phones ⟨1, #[-1, -1]⟩ (.direct 1 39) language dictionary
        lexicon m Scorer.checkedDirect counted heard (Dictionary.Parsed.empty.text added) built made
        (Scorer.directAccepts (by decide))⟩

end Search.Engine

end SpeechDecoder
