import SpeechDecoder.Proofs.Search.Dominance
import SpeechDecoder.Proofs.Search.Served

/-! The search enters a word from the exit that lets it in with the highest score. Of the exits that end in a frame
no other is better for the word, under the histories that the search has kept. -/
namespace SpeechDecoder.Search

open Score (Monotone)

variable {α : Type} [Score α]

/-! ### Where tokens have entered -/

/-- A live token of a word has entered it from an exit. -/
inductive Carries (words : List (WordModel α)) (word origin : Nat) : Prop where
  | state {phone state : Nat} {m : PhoneModel α} {x : Token α} (found : phoneAt words word phone = some m)
      (held : m.states[state]? = some x) (live : x.isLive = true) (came : x.origin = origin)
  | entry {phone : Nat} {m : PhoneModel α} (found : phoneAt words word phone = some m)
      (live : m.entry.isLive = true) (came : m.entry.origin = origin)

namespace Carries
variable {k : Knowledge α} {words : List (WordModel α)} {word origin : Nat}

theorem map {words' : List (WordModel α)} {f : Nat → Nat → PhoneModel α → PhoneModel α}
    (at' : ∀ word phone, phoneAt words' word phone = (phoneAt words word phone).map (f word phone))
    (states : ∀ word phone m (state : Nat) (x : Token α), (f word phone m).states[state]? = some x →
      x.isLive = true → m.states[state]? = some x)
    (entries : ∀ word phone m, phoneAt words word phone = some m → (f word phone m).entry.isLive = true →
      Carries words word (f word phone m).entry.origin)
    (carries : Carries words' word origin) : Carries words word origin := by
  cases carries with
  | @state phone state _ x found held live came =>
    rw [at'] at found
    obtain ⟨m, before, rfl⟩ := Option.map_eq_some_iff.mp found
    exact .state before (states word phone m state x held live) live came
  | @entry phone _ found live came =>
    rw [at'] at found
    obtain ⟨m, before, rfl⟩ := Option.map_eq_some_iff.mp found
    rw [← came]
    exact entries word phone m before live

variable [Score.Ordered α]

theorem ofClear (carries : Carries (words.map WordModel.clear) word origin) : False := by
  cases carries with
  | state found held live _ =>
    rw [Plain.clearAt] at found
    obtain ⟨m, _, rfl⟩ := Option.map_eq_some_iff.mp found
    rw [m.clearStates _ (List.mem_of_getElem? held)] at live
    cases Token.deadNotLive.symm.trans live
  | entry found live _ =>
    rw [Plain.clearAt] at found
    obtain ⟨m, _, rfl⟩ := Option.map_eq_some_iff.mp found
    cases Token.deadNotLive.symm.trans live

theorem ofMove {frame : Frame α} (carries : Carries (Plain.move k frame words).1 word origin) :
    Carries words word origin := by
  cases carries with
  | state found held live came =>
    rw [Plain.moveAt] at found
    obtain ⟨m, before, rfl⟩ := Option.map_eq_some_iff.mp found
    rcases (PhoneModel.movedFrom held live).2 with ⟨_, alive, rfl⟩ | ⟨_, _, token, there, alive, _, rfl⟩
    · exact .entry before alive came
    · exact .state before there alive came
  | entry found live _ =>
    rw [Plain.moveAt] at found
    obtain ⟨m, _, rfl⟩ := Option.map_eq_some_iff.mp found
    cases Token.deadNotLive.symm.trans live

theorem ofPrune {threshold : α} (carries : Carries (words.map (WordModel.prune threshold)) word origin) :
    Carries words word origin := by
  refine carries.map (f := fun _ _ => PhoneModel.prune threshold) (phoneAtMap _ words)
    (fun _ _ m state x held live => ?_) fun word phone m found live => .entry found live rfl
  simp only [PhoneModel.prune, List.getElem?_map] at held
  obtain ⟨y, before, rfl⟩ := Option.map_eq_some_iff.mp held
  split at live
  · cases Token.deadNotLive.symm.trans live
  · rename_i kept
    rw [before, if_neg kept]

theorem ofLimit (carries : Carries (Plain.limited k words) word origin) : Carries words word origin := by
  obtain ⟨dropped, at'⟩ := limitAt k words
  refine carries.map (f := fun word _ m => if word ∈ dropped then m.clear else m) at'
    (fun word _ m state x held live => ?_) fun word phone m found live => ?_
  · split at held
    · rw [m.clearStates x (List.mem_of_getElem? held)] at live
      cases Token.deadNotLive.symm.trans live
    · exact held
  · split at live
    · cases Token.deadNotLive.symm.trans live
    · rename_i out
      rw [if_neg out]
      exact .entry found live rfl

theorem ofCross {threshold : α}
    (carries : Carries (words.map (WordModel.cross k.transitions k.params.phonePenalty threshold)) word origin) :
    Carries words word origin := by
  refine carries.map (f := fun word phone => WordModel.takes (Plain.crossingTo k threshold words word phone))
    (Plain.crossAt k threshold words) (fun word phone m state x held _ => ?_) fun word phone m found live => ?_
  · unfold WordModel.takes at held
    split at held <;> exact held
  · cases offered : Plain.crossingTo k threshold words word phone with
    | none =>
      rw [offered] at live
      exact .entry found live rfl
    | some token =>
      rw [offered] at live
      change (m.entry.better token).isLive = true at live
      change Carries words word (m.entry.better token).origin
      rcases m.entry.betterIs token with old | new
      · rw [old] at live ⊢
        exact .entry found live rfl
      · rw [new]
        -- a token that crosses was in a state of the phone before
        cases phone with
        | zero => cases offered
        | succ before =>
          obtain ⟨p, there, crossing⟩ := Option.bind_eq_some_iff.mp offered
          obtain ⟨alive, rfl⟩ := Plain.crossingIs crossing
          obtain ⟨_, held, at', alive, came⟩ := PhoneModel.leavingFrom alive
          exact .state there at' alive (congrArg Token.origin came).symm

theorem ofLeaving {threshold : α} {token : Token α}
    (mem : (word, token) ∈ Plain.leavingTokens k threshold words) : Carries words word token.origin := by
  obtain ⟨_, p, here, _, live, _, rfl⟩ := Plain.memLeaving.mp mem
  obtain ⟨_, held, at', alive, came⟩ := PhoneModel.leavingFrom live
  exact .state here at' alive (congrArg Token.origin came).symm

end Carries

/-! ### The best exit for a word -/

/-- No exit that ends with this one lets a word in with a higher score. -/
def Exit.Foremost (k : Knowledge α) (exits : Array (Exit α)) (word : Nat) (before : Exit α) : Prop :=
  ∀ (place : Nat) (e : Exit α), exits[place]? = some e → e.endFrame = before.endFrame →
    Score.atMost (e.score + (k.enter word e.history).1) (before.score + (k.enter word before.history).1) = true

def Favours (k : Knowledge α) (exits : Array (Exit α)) (word origin : Nat) : Prop :=
  ∃ before, exits[origin]? = some before ∧ before.Foremost k exits word

def Linked (k : Knowledge α) (exits : Array (Exit α)) : Prop :=
  ∀ (place word : Nat) (e : Exit α), exits[place]? = some e → e.word = some word →
    ∃ origin, e.previous = some origin ∧ Favours k exits word origin

def Spelled (k : Knowledge α) (exits : Array (Exit α)) : Prop :=
  ∀ (place word : Nat) (e : Exit α), exits[place]? = some e → e.word = some word →
    ∃ w, k.lexicon.words[word]? = some w

structure Guided (k : Knowledge α) (words : List (WordModel α)) (exits : Array (Exit α)) : Prop where
  tokens : ∀ word origin, Carries words word origin → Favours k exits word origin
  exits : Linked k exits

section
variable {k : Knowledge α} {frames : List (Frame α)} {t : Nat} {words : List (WordModel α)}
  {exits : Array (Exit α)}

theorem Table.ends (table : Table k t exits) {place : Nat} {e : Exit α} (found : exits[place]? = some e) :
    e.endFrame ≤ t := by
  cases place with
  | zero =>
    cases found.symm.trans table.root
    exact Nat.zero_le t
  | succ n => exact (table.left n e found).2

theorem Favours.later {exits' : Array (Exit α)} {new : List (Exit α)} (table : Table k t exits)
    (more : exits'.toList = exits.toList ++ new) (now : ∀ e ∈ new, e.endFrame = t + 1) {word origin : Nat}
    (favours : Favours k exits word origin) : Favours k exits' word origin := by
  obtain ⟨before, known, foremost⟩ := favours
  refine ⟨before, (addedExits more).1 _ _ known, fun place e found together => ?_⟩
  rcases addedCases more found with old | ⟨_, fresh⟩
  · exact foremost place e old together
  · -- a new exit ends after the one that was favoured
    have ended := table.ends known
    have := now e fresh
    omega

theorem Guided.back (guided : Guided k words exits) {words' : List (WordModel α)}
    (back : ∀ word origin, Carries words' word origin → Carries words word origin) : Guided k words' exits :=
  ⟨fun word origin carries => guided.tokens word origin (back word origin carries), guided.exits⟩

theorem offerEachIs {threshold : α} {origins : List Nat} {word phone : Nat} {m' : PhoneModel α}
    (found : phoneAt (origins.foldl (Plain.offerAll k threshold exits) words) word phone = some m') :
    ∃ m, phoneAt words word phone = some m ∧ m'.states = m.states ∧ (m'.entry = m.entry ∨ phone = 0 ∧
      ∃ origin ∈ origins, ∃ e, exits[origin]? = some e ∧
        m'.entry = ⟨e.score + (k.enter word e.history).1, origin⟩ ∧
        Score.below (e.score + (k.enter word e.history).1) threshold = false) := by
  induction origins generalizing words with
  | nil => exact ⟨m', found, rfl, .inl rfl⟩
  | cons origin rest ih =>
    obtain ⟨m, before, states, entry⟩ := ih found
    have one : ∃ m₀, phoneAt words word phone = some m₀ ∧ m.states = m₀.states ∧ (m.entry = m₀.entry ∨ phone = 0 ∧
        ∃ e, exits[origin]? = some e ∧ m.entry = ⟨e.score + (k.enter word e.history).1, origin⟩ ∧
          Score.below (e.score + (k.enter word e.history).1) threshold = false) := by
      unfold Plain.offerAll at before
      cases known : exits[origin]? with
      | none =>
        rw [known] at before
        exact ⟨m, before, rfl, .inl rfl⟩
      | some e =>
        rw [known] at before
        dsimp only at before
        rw [Plain.offerAt] at before
        obtain ⟨m₀, first, same⟩ := Option.map_eq_some_iff.mp before
        refine ⟨m₀, first, ?_⟩
        rw [← same]
        by_cases start : phone = 0
        · rw [if_pos start]
          cases weak : Score.below (e.score + (k.enter word e.history).1) threshold with
          | true => exact ⟨rfl, .inl rfl⟩
          | false =>
            refine ⟨rfl, ?_⟩
            rcases m₀.entry.betterIs ⟨e.score + (k.enter word e.history).1, origin⟩ with old | new
            · exact .inl old
            · exact .inr ⟨start, e, rfl, new, weak⟩
        · rw [if_neg start]
          exact ⟨rfl, .inl rfl⟩
    obtain ⟨m₀, first, states', entry'⟩ := one
    refine ⟨m₀, first, states.trans states', ?_⟩
    rcases entry with old | ⟨start, o, mem, e, known, given, high⟩
    · rw [old]
      rcases entry' with older | ⟨start, e, known, given, high⟩
      · exact .inl older
      · exact .inr ⟨start, origin, List.mem_cons_self, e, known, given, high⟩
    · exact .inr ⟨start, o, List.mem_cons_of_mem _ mem, e, known, given, high⟩

theorem Traced.spelled (traced : Traced k frames t words exits) : Spelled k exits := by
  intro place word e found named
  have path := traced.exits place word e found named
  generalize e.endFrame = t', e.history = h, e.score = a at path
  cases path with
  | leave _ here _ _ =>
    obtain ⟨w, known, _⟩ := Option.bind_eq_some_iff.mp here
    exact ⟨w, known⟩

variable [Score.Ordered α]

theorem Guided.record (guided : Guided k words exits) (table : Table k t exits)
    (traced : Traced k frames (t + 1) words exits) (threshold : α) :
    Guided k words (Engine.recordAll k (t + 1) exits (Plain.leavingTokens k threshold words)) := by
  have more := traced.recorded threshold
  have later {word origin : Nat} : Favours k exits word origin → Favours k
      (Engine.recordAll k (t + 1) exits (Plain.leavingTokens k threshold words)) word origin :=
    Favours.later table more fun e mem => (traced.memRecorded mem).1
  refine ⟨fun word origin carries => later (guided.tokens word origin carries),
    fun place word e found named => ?_⟩
  rcases addedCases more found with old | ⟨_, new⟩
  · obtain ⟨origin, previous, favours⟩ := guided.exits place word e old named
    exact ⟨origin, previous, later favours⟩
  · obtain ⟨⟨word', token⟩, inside, given⟩ := List.mem_filterMap.mp new
    obtain ⟨before, _, rfl⟩ := Option.map_eq_some_iff.mp given
    cases named
    exact ⟨token.origin, rfl, later (guided.tokens _ _ (.ofLeaving (Engine.capMem inside)))⟩

end

section
variable {k : Knowledge α} {frames : List (Frame α)} {t : Nat} {words : List (WordModel α)}
  {exits : Array (Exit α)} [Monotone α]

theorem Guided.offerEach (guided : Guided k words exits) (threshold : α) {origins : List Nat}
    (all : ∀ (place : Nat) (e : Exit α), exits[place]? = some e → e.endFrame = t → place ∈ origins)
    (ends : ∀ origin ∈ origins, ∀ e, exits[origin]? = some e → e.endFrame = t) :
    Guided k (origins.foldl (Plain.offerAll k threshold exits) words) exits := by
  refine ⟨fun word origin carries => ?_, guided.exits⟩
  cases carries with
  | state found held live came =>
    obtain ⟨m, before, states, _⟩ := offerEachIs found
    exact guided.tokens word origin (.state before (states ▸ held) live came)
  | entry found live came =>
    obtain ⟨m, before, _, old | ⟨rfl, o, mem, e, known, given, high⟩⟩ := offerEachIs found
    · exact guided.tokens word origin (.entry before (old ▸ live) (old ▸ came))
    rw [given] at came
    cases came
    refine ⟨e, known, fun place e' known' together => ?_⟩
    -- an exit whose offer was too low is below the offer that was kept
    cases weak : Score.below (e'.score + (k.enter word e'.history).1) threshold with
    | true =>
      exact Monotone.atMostTrans _ _ _ (Score.belowAtMost weak) (Score.notBelow.mp high)
    | false =>
      have inside := all place e' known' (together.trans (ends o mem e known))
      obtain ⟨m', found', le⟩ := offerEachShown (t := t) inside known' before (Score.atMostRefl _)
        (Score.notBelow.mp weak)
      cases found.symm.trans found'
      rw [given] at le
      exact le

theorem Guided.step {p : Plain α} (guided : Guided p.knowledge p.words p.exits)
    (table : Table p.knowledge p.frames p.exits) (traced : Traced p.knowledge frames p.frames p.words p.exits)
    {frame : Frame α} (now : frames[p.frames]? = some frame) :
    Guided p.knowledge (p.step frame).words (p.step frame).exits := by
  let k := p.knowledge
  let best := (Plain.move k frame p.words).2
  have stay : Traced k frames (p.frames + 1) (Plain.survive k best (Plain.move k frame p.words).1) p.exits :=
    (((traced.move now).prune _).limit).cross _
  have kept : Guided k (Plain.survive k best (Plain.move k frame p.words).1) p.exits :=
    guided.back fun word origin carries => carries.ofCross.ofLimit.ofPrune.ofMove
  have more := stay.recorded (best + k.params.wordBeam)
  refine (kept.record table stay (best + k.params.wordBeam)).offerEach (t := p.frames + 1) _
    (fun place e found here => ?_) fun origin mem e found => ?_
  · rcases addedCases more found with old | ⟨added, _⟩
    · have ended := table.ends old
      omega
    · exact added
  · obtain ⟨e', fresh, found'⟩ := (addedExits more).2.1 origin mem
    cases found.symm.trans found'
    exact (stay.memRecorded fresh).1

end

/-! ### Every run -/

namespace Plain
variable [Monotone α] {k : Knowledge α}

structure Guides (k : Knowledge α) (p : Plain α) : Prop extends Served k p where
  guided : p.phase = .active → Guided k p.words p.exits
  chosen : ∀ r, p.result = some r → r.hypothesis = (r.lattice.best k).1 ∧ ∃ t exits, Table k t exits ∧
    Linked k exits ∧ Spelled k exits ∧ r.lattice = Lattice.ofExits k exits t

theorem startGuided {p p₀ : Plain α} (shape : Shaped p.knowledge p.words) (started : p.start = .ok p₀) :
    Guided p.knowledge p₀.words p₀.exits := by
  obtain ⟨_, _, _, exits, words, _⟩ := startTraced shape started []
  have root (place : Nat) (e : Exit α) (found : #[Exit.root p.knowledge][place]? = some e) :
      place = 0 ∧ e = Exit.root p.knowledge := by
    cases place with
    | zero => exact ⟨rfl, (Option.some.inj found).symm⟩
    | succ n => cases found
  have cleared : Guided p.knowledge (p.words.map WordModel.clear) #[Exit.root p.knowledge] := by
    refine ⟨fun word origin carries => carries.ofClear.elim, fun place word e found named => ?_⟩
    rw [(root place e found).2] at named
    cases named
  rw [exits, words]
  change Guided p.knowledge ([0].foldl (offerAll p.knowledge Score.impossible #[Exit.root p.knowledge])
    (p.words.map WordModel.clear)) _
  refine cleared.offerEach (t := 0) Score.impossible (fun place e found _ => ?_) fun origin _ e found => ?_
  · exact List.mem_singleton.mpr (root place e found).1
  · rw [(root origin e found).2]
    rfl

theorem Guides.perform {p p' : Plain α} (guides : Guides k p) {op : Op α} (done : p.perform op = .ok p') :
    Guides k p' := by
  have served := guides.toServed.perform done
  obtain ⟨⟨rfl, shape, searching, _⟩, guided, chosen⟩ := guides
  cases op with
  | start =>
    obtain ⟨_, _, _, _, _, none, _⟩ := startTraced shape done []
    refine ⟨served, fun _ => startGuided shape done, fun r found => ?_⟩
    rw [none] at found
    cases found
  | advance frame =>
    change p.advance frame = .ok p' at done
    unfold advance at done
    split at done
    · cases done
    · split at done
      · cases done
      · cases done
        rename_i active _
        have active := Decidable.not_not.mp active
        obtain ⟨table, frames, size, traced⟩ := searching active
        have now : (frames ++ [frame])[p.frames]? = some frame := by simp [← size]
        exact ⟨served, fun _ => (guided active).step table (traced.append [frame]) now, chosen⟩
  | finish =>
    change p.finish = .ok p' at done
    unfold finish at done
    split at done
    · cases done
    · cases done
      rename_i active
      have active := Decidable.not_not.mp active
      obtain ⟨table, _, _, traced⟩ := searching active
      refine ⟨served, fun active => (by cases active), fun r found => ?_⟩
      cases found
      exact ⟨rfl, p.frames, p.exits, table, (guided active).exits, traced.spelled, rfl⟩
  | reset =>
    cases done
    exact ⟨served, fun active => (by cases active), fun r found => by cases found⟩

theorem afterGuides (k : Knowledge α) (ops : List (Op α)) : Guides k ((make k).after ops) := by
  have first : Guides k (make k) :=
    ⟨afterServed k [], fun active => (by cases active), fun r found => by cases found⟩
  exact afterKeeps (fun _ _ _ guides done => guides.perform done) ops first

end Plain

end SpeechDecoder.Search
