import SpeechDecoder.Proofs.Search.Moving

/-! Alignments of frames with words: a way through the states of the phones of one word after another, one state in
each frame. A phone or word that is left is followed by the next one in the frame after. -/
namespace SpeechDecoder

theorem Model.Ngram.scoreUnigram {α : Type} [Score α] {m : Model.Ngram α} (unigram : m.order = 1) (word : Nat)
    (h : Model.History) : m.score word h = m.unigram word := by
  obtain ⟨last, before⟩ := h
  cases last <;> cases before <;> simp [score, unigram]

theorem Model.Ngram.scoreShort {α : Type} [Score α] {m : Model.Ngram α} (short : m.order ≤ 2) (word : Nat)
    (h : Model.History) : m.score word h = m.unigram word ∨ ∃ last, m.score word h = m.bigram last word := by
  obtain ⟨last, before⟩ := h
  cases last with
  | none => exact .inl rfl
  | some last =>
    have notThree : ¬ 3 ≤ m.order := by omega
    by_cases two : 2 ≤ m.order
    · exact .inr ⟨last, by cases before <;> simp [score, two, notThree]⟩
    · exact .inl (by cases before <;> simp [score, two, notThree])

theorem Model.Ngram.scoreBigram {α : Type} [Score α] {m : Model.Ngram α} (bigram : m.order = 2) (word : Nat)
    {h h' : Model.History} (same : h.last = h'.last) : m.score word h = m.score word h' := by
  obtain ⟨last, before⟩ := h
  obtain ⟨last', before'⟩ := h'
  cases same
  cases last <;> cases before <;> cases before' <;> simp [score, bigram]

namespace Search

open Model (History)

inductive Place where
  | entry (word phone : Nat)
  | state (word phone state : Nat)
  | exit (word : Nat)
  deriving DecidableEq

variable {α : Type}

def phoneAt (words : List (WordModel α)) (word phone : Nat) : Option (PhoneModel α) :=
  words[word]?.bind fun w => w.phones[phone]?

theorem phoneAtMap (f : PhoneModel α → PhoneModel α) (words : List (WordModel α)) (word phone : Nat) :
    phoneAt (words.map fun w => ⟨w.phones.map f⟩) word phone = (phoneAt words word phone).map f := by
  unfold phoneAt
  rw [List.getElem?_map]
  cases words[word]? with
  | none => rfl
  | some w => exact List.getElem?_map

theorem lastAt {words : List (WordModel α)} {word : Nat} {w : WordModel α} (found : words[word]? = some w)
    {p : PhoneModel α} : w.phones.getLast? = some p ↔
      ∃ phone, phoneAt words word phone = some p ∧ phoneAt words word (phone + 1) = none := by
  have at' (phone : Nat) : phoneAt words word phone = w.phones[phone]? := by
    rw [phoneAt, found]
    rfl
  simp only [at', List.getLast?_eq_getElem?]
  constructor
  · intro last
    have inside := (List.getElem?_eq_some_iff.mp last).1
    exact ⟨_, last, List.getElem?_eq_none (by omega)⟩
  · rintro ⟨phone, here, none⟩
    have inside := (List.getElem?_eq_some_iff.mp here).1
    have size := List.getElem?_eq_none_iff.mp none
    have same : w.phones.length - 1 = phone := by omega
    rw [same]
    exact here

variable [Score α]

def Knowledge.phone? (k : Knowledge α) (word phone : Nat) : Option (PhoneModel α) :=
  (k.lexicon.words[word]?).bind fun w => w.phones[phone]?.map (PhoneModel.make k.phones)

theorem Knowledge.phoneStates (k : Knowledge α) {word phone : Nat} {m : PhoneModel α}
    (found : k.phone? word phone = some m) : m.states.length = k.phones.states := by
  obtain ⟨w, _, made⟩ := Option.bind_eq_some_iff.mp found
  obtain ⟨id, _, rfl⟩ := Option.map_eq_some_iff.mp made
  unfold PhoneModel.make
  cases k.phones.phone? id <;> simp only [List.length_replicate]

theorem Knowledge.enterSame (k : Knowledge α) {h h' : History}
    (same : ∀ id, k.language.score id h = k.language.score id h') (word : Nat) :
    (k.enter word h).1 = (k.enter word h').1 := by
  unfold enter
  cases k.lexicon.words[word]? with
  | none => rfl
  | some w =>
    simp only [same]
    split <;> rfl

theorem Knowledge.leaveSame (k : Knowledge α) {h h' : History}
    (same : ∀ id, k.language.score id h = k.language.score id h') : k.leave h = k.leave h' := by
  unfold leave
  simp only [same]

theorem Knowledge.enterUnigram (k : Knowledge α) (unigram : k.language.order = 1) (word : Nat) (h h' : History) :
    (k.enter word h).1 = (k.enter word h').1 :=
  k.enterSame (fun id => by rw [Model.Ngram.scoreUnigram unigram, Model.Ngram.scoreUnigram unigram]) word

theorem Knowledge.leaveUnigram (k : Knowledge α) (unigram : k.language.order = 1) (h h' : History) :
    k.leave h = k.leave h' :=
  k.leaveSame fun id => by rw [Model.Ngram.scoreUnigram unigram, Model.Ngram.scoreUnigram unigram]

/-- Ways from the start of an utterance to a place after a number of frames, with the history of their words and
their score. `allowed` says which scores may be reached where. -/
inductive Path (k : Knowledge α) (frames : List (Frame α)) (allowed : Nat → Place → α → Prop) :
    Nat → Place → History → α → Prop where
  | start {word : Nat} {m : PhoneModel α} (first : k.phone? word 0 = some m) :
      Path k frames allowed 0 (.entry word 0) k.startHistory (Score.zero + (k.enter word k.startHistory).1)
  | enter {t word phone : Nat} {h : History} {a : α} {frame : Frame α} {m : PhoneModel α}
      (before : Path k frames allowed t (.entry word phone) h a) (now : frames[t]? = some frame)
      (here : k.phone? word phone = some m) (inside : 0 < m.states.length)
      (may : allowed (t + 1) (.state word phone 0) (a + k.scorer.score frame (m.senones.getD 0 0))) :
      Path k frames allowed (t + 1) (.state word phone 0) h (a + k.scorer.score frame (m.senones.getD 0 0))
  | go {t word phone source target : Nat} {h : History} {a : α} {frame : Frame α} {m : PhoneModel α}
      (before : Path k frames allowed t (.state word phone source) h a) (now : frames[t]? = some frame)
      (here : k.phone? word phone = some m) (inside : target < m.states.length)
      (may : allowed (t + 1) (.state word phone target)
        (a + k.transitions.get m.matrix source target + k.scorer.score frame (m.senones.getD target 0))) :
      Path k frames allowed (t + 1) (.state word phone target) h
        (a + k.transitions.get m.matrix source target + k.scorer.score frame (m.senones.getD target 0))
  | cross {t word phone source : Nat} {h : History} {a : α} {m next : PhoneModel α}
      (before : Path k frames allowed t (.state word phone source) h a)
      (here : k.phone? word phone = some m) (further : k.phone? word (phone + 1) = some next)
      (may : allowed t (.entry word (phone + 1))
        (a + k.transitions.get m.matrix source m.states.length + k.params.phonePenalty)) :
      Path k frames allowed t (.entry word (phone + 1)) h
        (a + k.transitions.get m.matrix source m.states.length + k.params.phonePenalty)
  | leave {t word phone source : Nat} {h : History} {a : α} {m : PhoneModel α}
      (before : Path k frames allowed t (.state word phone source) h a)
      (here : k.phone? word phone = some m) (last : k.phone? word (phone + 1) = none)
      (may : allowed t (.exit word) (a + k.transitions.get m.matrix source m.states.length)) :
      Path k frames allowed t (.exit word) (k.enter word h).2
        (a + k.transitions.get m.matrix source m.states.length)
  | next {t before word : Nat} {h : History} {a : α} {m : PhoneModel α}
      (left : Path k frames allowed t (.exit before) h a) (first : k.phone? word 0 = some m)
      (may : allowed t (.entry word 0) (a + (k.enter word h).1)) :
      Path k frames allowed t (.entry word 0) h (a + (k.enter word h).1)

def anyScore (_ : Nat) (_ : Place) (_ : α) : Prop := True

/-- What keeps within the beams below the best score of its frame. -/
def withinBeams (k : Knowledge α) (best : Nat → α) (t : Nat) (place : Place) (a : α) : Prop :=
  match place with
  | .entry _ 0 => Score.atMost (best t + k.params.beam) a = true
  | .entry _ (_ + 1) => Score.atMost (best t + k.params.phoneBeam) a = true
  | .state _ _ _ => Score.atMost (best t + k.params.beam) a = true
  | .exit _ => Score.atMost (best t + k.params.wordBeam) a = true

theorem Path.mono {k : Knowledge α} {frames : List (Frame α)} {allowed wider : Nat → Place → α → Prop}
    (may : ∀ t place a, allowed t place a → wider t place a) {t : Nat} {place : Place} {h : History} {a : α}
    (path : Path k frames allowed t place h a) : Path k frames wider t place h a := by
  induction path with
  | start first => exact .start first
  | enter _ now here inside ok ih => exact .enter ih now here inside (may _ _ _ ok)
  | go _ now here inside ok ih => exact .go ih now here inside (may _ _ _ ok)
  | cross _ here further ok ih => exact .cross ih here further (may _ _ _ ok)
  | leave _ here last ok ih => exact .leave ih here last (may _ _ _ ok)
  | next _ first ok ih => exact .next ih first (may _ _ _ ok)

namespace WordModel

theorem advancePhonesMoved (t : Model.Transitions α) (compute : Nat → α) (phones : List (PhoneModel α))
    (best : α) : (advancePhones t (PhoneModel.direct compute) phones best ()).1 =
      phones.map (PhoneModel.moved t compute) := by
  induction phones generalizing best with
  | nil => rfl
  | cons p rest ih => simp only [advancePhones, List.map_cons, PhoneModel.advanceMoved, ih]

def takes (offered : Option (Token α)) (p : PhoneModel α) : PhoneModel α :=
  match offered with
  | some token => p.offer token
  | none => p

theorem crossPhonesAt (t : Model.Transitions α) (penalty threshold : α) (offered : Option (Token α))
    (phones : List (PhoneModel α)) (place : Nat) :
    (crossPhones t penalty threshold offered phones)[place]? = phones[place]?.map (takes (match place with
      | 0 => offered
      | before + 1 => phones[before]?.bind (crossing? t penalty threshold))) := by
  induction phones generalizing offered place with
  | nil => cases place <;> rfl
  | cons p rest ih =>
    cases place with
    | zero => cases offered <;> rfl
    | succ before =>
      simp only [crossPhones, List.getElem?_cons_succ]
      rw [ih]
      cases before <;> rfl

end WordModel

namespace Plain

theorem moveAt (k : Knowledge α) (frame : Frame α) (words : List (WordModel α)) (word phone : Nat) :
    phoneAt (move k frame words).1 word phone =
      (phoneAt words word phone).map (PhoneModel.moved k.transitions (k.scorer.score frame)) := by
  rw [← phoneAtMap]
  congr 1
  simp only [move, List.map_map]
  refine List.map_congr_left fun w _ => ?_
  simp only [Function.comp_apply, WordModel.advance, WordModel.advancePhonesMoved]

def crossingTo (k : Knowledge α) (threshold : α) (words : List (WordModel α)) (word : Nat) :
    Nat → Option (Token α)
  | 0 => none
  | before + 1 =>
    (phoneAt words word before).bind (WordModel.crossing? k.transitions k.params.phonePenalty threshold)

theorem crossAt (k : Knowledge α) (threshold : α) (words : List (WordModel α)) (word phone : Nat) :
    phoneAt (words.map (WordModel.cross k.transitions k.params.phonePenalty threshold)) word phone =
      (phoneAt words word phone).map (WordModel.takes (crossingTo k threshold words word phone)) := by
  unfold crossingTo phoneAt
  rw [List.getElem?_map]
  cases words[word]? with
  | none => rfl
  | some w =>
    simp only [Option.map_some, Option.bind_some, WordModel.cross, WordModel.crossPhonesAt]

theorem crossingIs {k : Knowledge α} {threshold penalty : α} {m : PhoneModel α} {token : Token α}
    (crossing : WordModel.crossing? k.transitions penalty threshold m = some token) :
    (m.leaving k.transitions).isLive = true ∧ token = (m.leaving k.transitions).add penalty := by
  unfold WordModel.crossing? at crossing
  dsimp only at crossing
  split at crossing
  · rename_i may
    exact ⟨(Bool.and_eq_true_iff.mp may).1, (Option.some.inj crossing).symm⟩
  · cases crossing

theorem offerFirst {threshold : α} {token : Token α} (p : PhoneModel α) (rest : List (PhoneModel α)) :
    (if Score.below token.score threshold || !(⟨p :: rest⟩ : WordModel α).accepts token then ⟨p :: rest⟩
      else WordModel.offer ⟨p :: rest⟩ token) =
      (⟨(if Score.below token.score threshold then p else p.offer token) :: rest⟩ : WordModel α) := by
  cases weak : Score.below token.score threshold with
  | true => rfl
  | false =>
    cases better : Score.below p.entry.score token.score with
    | true => simp [WordModel.accepts, WordModel.entry, WordModel.offer, better]
    | false => simp [WordModel.accepts, WordModel.entry, PhoneModel.offer, Token.better, better]

theorem offerAt (k : Knowledge α) (threshold : α) (exit : Exit α) (origin : Nat) (words : List (WordModel α))
    (word phone : Nat) : phoneAt (words.mapIdx (offer k threshold exit origin)) word phone =
      (phoneAt words word phone).map fun p =>
        if phone = 0 then
          if Score.below (exit.score + (k.enter word exit.history).1) threshold then p
          else p.offer ⟨exit.score + (k.enter word exit.history).1, origin⟩
        else p := by
  unfold phoneAt
  rw [List.getElem?_mapIdx]
  cases words[word]? with
  | none => rfl
  | some w =>
    obtain ⟨phones⟩ := w
    simp only [Option.map_some, Option.bind_some]
    cases phones with
    | nil =>
      unfold offer
      simp only [WordModel.offer, ite_self]
      rfl
    | cons p rest =>
      unfold offer
      rw [offerFirst]
      cases phone with
      | zero => rfl
      | succ n =>
        simp only [List.getElem?_cons_succ, Nat.succ_ne_zero, if_false, Option.map_id']

theorem memLeaving {k : Knowledge α} {threshold : α} {words : List (WordModel α)} {word : Nat} {token : Token α} :
    (word, token) ∈ leavingTokens k threshold words ↔ ∃ phone p, phoneAt words word phone = some p ∧
      phoneAt words word (phone + 1) = none ∧ (p.leaving k.transitions).isLive = true ∧
      Score.atMost threshold (p.leaving k.transitions).score = true ∧ token = p.leaving k.transitions := by
  unfold leavingTokens
  rw [List.mem_filterMap]
  constructor
  · rintro ⟨place, _, given⟩
    obtain ⟨w, found, given⟩ := Option.bind_eq_some_iff.mp given
    obtain ⟨left, leaving, same⟩ := Option.bind_eq_some_iff.mp given
    cases Option.some.inj same
    unfold WordModel.leaving? at leaving
    cases last : w.phones.getLast? with
    | none => rw [last] at leaving; cases leaving
    | some p =>
      rw [last] at leaving
      dsimp only at leaving
      split at leaving
      · rename_i may
        obtain ⟨live, high⟩ := Bool.and_eq_true_iff.mp may
        obtain ⟨phone, here, none⟩ := (lastAt found).mp last
        exact ⟨phone, p, here, none, live, high, (Option.some.inj leaving).symm⟩
      · cases leaving
  · rintro ⟨phone, p, here, none, live, high, rfl⟩
    obtain ⟨w, found, held⟩ := Option.bind_eq_some_iff.mp here
    have last := (lastAt found).mpr ⟨phone, here, none⟩
    refine ⟨word, List.mem_range.mpr (List.getElem?_eq_some_iff.mp found).1, ?_⟩
    refine Option.bind_eq_some_iff.mpr ⟨w, found, Option.bind_eq_some_iff.mpr ⟨_, ?_, rfl⟩⟩
    unfold WordModel.leaving?
    rw [last]
    exact if_pos (Bool.and_eq_true_iff.mpr ⟨live, high⟩)

end Plain

end Search

end SpeechDecoder
