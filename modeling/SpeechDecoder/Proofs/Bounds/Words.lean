import Mathlib.Data.List.GetD
import SpeechDecoder.Proofs.Bounds.Guard
import SpeechDecoder.Proofs.Search.Alignment

/-! Words that are watched while they move. Phones that fit the tables read no transition, no senone and no state
that is not there, and fit after each frame; so do the words made of them, which have a first phone and a last one. -/
namespace SpeechDecoder

open Guarded (within known minus Gives)

variable {α : Type} [Score α]

namespace Model.Transitions

def checkedGet (t : Transitions α) (matrix source target : Nat) : Guarded α := do
  within .matrices matrix (t.values.size / (t.states * (t.states + 1)))
  within .states source t.states
  within .states target (t.states + 1)
  let place := (matrix * t.states + source) * (t.states + 1) + target
  known .transitions place t.values[place]?

theorem placeInside {matrix source target states size : Nat} (held : matrix < size / (states * (states + 1)))
    (here : source < states) (there : target ≤ states) :
    (matrix * states + source) * (states + 1) + target < size := by
  calc (matrix * states + source) * (states + 1) + target
      < (matrix * states + source + 1) * (states + 1) := by rw [Nat.succ_mul]; omega
    _ ≤ ((matrix + 1) * states) * (states + 1) := Nat.mul_le_mul_right _ (by rw [Nat.succ_mul]; omega)
    _ = (matrix + 1) * (states * (states + 1)) := Nat.mul_assoc _ _ _
    _ ≤ size / (states * (states + 1)) * (states * (states + 1)) := Nat.mul_le_mul_right _ held
    _ ≤ size := Nat.div_mul_le_self _ _

theorem checkedGetOk {t : Transitions α} {matrix source target : Nat}
    (held : matrix < t.values.size / (t.states * (t.states + 1))) (here : source < t.states)
    (there : target ≤ t.states) : t.checkedGet matrix source target = .ok (t.get matrix source target) := by
  have inside := placeInside held here there
  unfold checkedGet get
  rw [Guarded.withinOk held, Guarded.withinOk here, Guarded.withinOk (Nat.lt_succ_of_le there)]
  refine (Guarded.knownArray _ inside).trans ?_
  rw [Array.getD_eq_getD_getElem?, Array.getElem?_eq_getElem inside]
  rfl

end Model.Transitions

namespace Search

open Model (Transitions PhoneSet)

/-- A live token comes from one of so many exits. -/
def Token.From (origins : Nat) (t : Token α) : Prop := t.isLive = true → t.origin < origins

theorem Token.deadFrom [Score.Ordered α] (origins : Nat) : (Token.dead : Token α).From origins := by
  intro live
  rw [Token.deadNotLive] at live
  cases live

theorem Token.betterFrom {origins : Nat} {held offered : Token α} (left : held.From origins)
    (right : offered.From origins) : (held.better offered).From origins := by
  unfold Token.better
  split
  · exact right
  · exact left

theorem Token.From.mono {origins more : Nat} {t : Token α} (comes : t.From origins) (le : origins ≤ more) :
    t.From more := fun live => Nat.lt_of_lt_of_le (comes live) le

namespace PhoneModel

/-- The phone has a transition matrix, and states each with a senone. -/
structure Shaped (t : Transitions α) (senones : Nat) (p : PhoneModel α) : Prop where
  matrix : p.matrix < t.values.size / (t.states * (t.states + 1))
  states : p.states.length = t.states
  paired : p.senones.length = t.states
  senones : ∀ s ∈ p.senones, s < senones

def From (origins : Nat) (p : PhoneModel α) : Prop :=
  (∀ t ∈ p.states, t.From origins) ∧ p.entry.From origins

structure Fits (t : Transitions α) (senones origins : Nat) (p : PhoneModel α) : Prop
    extends Shaped t senones p where
  comes : p.From origins

def checkedMake (phones : PhoneSet) (id : Nat) : Guarded (PhoneModel α) := do
  let p ← known .phones id (phones.phone? id)
  .ok ⟨p.matrix, p.senones, List.replicate phones.states Token.dead, Token.dead⟩

def checkedArrival (t : Transitions α) (matrix target : Nat) (best : Token α) (sources : List Nat)
    (states : List (Token α)) : Guarded (Token α) :=
  sources.foldlM (fun best source => do
    let held ← known .states source states[source]?
    if held.isLive then
      let score ← t.checkedGet matrix source target
      .ok (best.better (held.add score))
    else .ok best) best

variable {t : Transitions α} {senones origins : Nat}

theorem checkedArrivalGives {matrix target : Nat} {best : Token α} {sources : List Nat} {states : List (Token α)}
    (held : matrix < t.values.size / (t.states * (t.states + 1))) (there : target ≤ t.states)
    (size : states.length = t.states) (inside : ∀ source ∈ sources, source < t.states)
    (comes : ∀ s ∈ states, s.From origins) (first : best.From origins) :
    Gives (Token.From origins) (checkedArrival t matrix target best sources states)
      (arrival t matrix target best sources states) := by
  refine Guarded.foldGives (fun best source mem comes' => ?_) first
  have here := inside source mem
  have bound : source < states.length := size ▸ here
  rw [Guarded.knownList _ bound, Guarded.okBind]
  dsimp only
  rw [List.getD_eq_getElem _ _ bound]
  split
  · rename_i live
    rw [Model.Transitions.checkedGetOk held here there, Guarded.okBind]
    have origin := comes _ (List.getElem_mem bound) live
    exact .ok (Token.betterFrom comes' fun _ => origin)
  · exact .ok comes'

def checkedIncoming (t : Transitions α) (p : PhoneModel α) (states : List (Token α)) (target : Nat) :
    Guarded (Token α) :=
  checkedArrival t p.matrix target (if target = 0 then p.entry else Token.dead)
    (List.range (target + 1)) states

variable {σ : Type}

def checkedEmit (ask : Nat → σ → Guarded (α × σ)) (p : PhoneModel α) (state : Nat) (token : Token α) (best : α)
    (memory : σ) : Guarded (Token α × α × σ) :=
  if token.isLive then do
    let senone ← known .states state p.senones[state]?
    let (x, memory) ← ask senone memory
    let token := token.add x
    .ok (token, Score.larger best token.score, memory)
  else .ok (token, best, memory)

def checkedSweep (t : Transitions α) (ask : Nat → σ → Guarded (α × σ)) (p : PhoneModel α) :
    (count : Nat) → List (Token α) → α → σ → Guarded (List (Token α) × α × σ)
  | 0, states, best, memory => .ok (states, best, memory)
  | state + 1, states, best, memory => do
    within .states state states.length
    let token ← checkedIncoming t p states state
    let (token, best, memory) ← checkedEmit ask p state token best memory
    checkedSweep t ask p state (states.set state token) best memory

def checkedAdvance (t : Transitions α) (ask : Nat → σ → Guarded (α × σ)) (p : PhoneModel α) (best : α)
    (memory : σ) : Guarded (PhoneModel α × α × σ) := do
  let (states, best, memory) ← checkedSweep t ask p p.states.length p.states best memory
  .ok ({ p with states, entry := Token.dead }, best, memory)

def checkedLeaving (t : Transitions α) (p : PhoneModel α) : Guarded (Token α) :=
  checkedArrival t p.matrix p.states.length Token.dead (List.range p.states.length) p.states

/-- Who is asked under watch answers what is answered without it, for every senone below a number, as long as `valid`
holds of what is remembered. -/
def Watched (senones : Nat) (valid : σ → Prop) (ask : Nat → σ → Guarded (α × σ)) (free : Nat → σ → α × σ) : Prop :=
  ∀ senone < senones, ∀ memory, valid memory →
    Gives (fun answer => valid answer.2) (ask senone memory) (free senone memory)

variable {valid : σ → Prop} {ask : Nat → σ → Guarded (α × σ)} {free : Nat → σ → α × σ} {p : PhoneModel α}

theorem checkedEmitGives (watched : Watched senones valid ask free) (shape : p.Shaped t senones) {state : Nat}
    (here : state < t.states) {token : Token α} (comes : token.From origins) (best : α) {memory : σ}
    (holds : valid memory) : Gives (fun r => r.1.From origins ∧ valid r.2.2)
      (checkedEmit ask p state token best memory) (emit free p state token best memory) := by
  have bound : state < p.senones.length := shape.paired ▸ here
  unfold checkedEmit emit
  split
  · rename_i live
    rw [Guarded.knownList _ bound, Guarded.okBind, List.getD_eq_getElem _ _ bound]
    refine (watched _ (shape.senones _ (List.getElem_mem bound)) memory holds).bind fun holds' => ?_
    exact .ok ⟨fun _ => comes live, holds'⟩
  · exact .ok ⟨comes, holds⟩

theorem Fits.mono {more : Nat} (fits : p.Fits t senones origins) (le : origins ≤ more) : p.Fits t senones more :=
  ⟨fits.toShaped, fun s mem => (fits.comes.1 s mem).mono le, fits.comes.2.mono le⟩

theorem Fits.offer (fits : p.Fits t senones origins) {token : Token α} (comes : token.From origins) :
    (p.offer token).Fits t senones origins :=
  ⟨⟨fits.matrix, fits.states, fits.paired, fits.senones⟩, fits.comes.1, Token.betterFrom fits.comes.2 comes⟩

variable [Score.Ordered α]

theorem checkedSweepGives (watched : Watched senones valid ask free) (shape : p.Shaped t senones)
    (entry : p.entry.From origins) {count : Nat} (few : count ≤ t.states) {states : List (Token α)}
    (size : states.length = t.states) (comes : ∀ s ∈ states, s.From origins) (best : α) {memory : σ}
    (holds : valid memory) :
    Gives (fun r => r.1.length = t.states ∧ (∀ s ∈ r.1, s.From origins) ∧ valid r.2.2)
      (checkedSweep t ask p count states best memory) (sweep t free p count states best memory) := by
  induction count generalizing states best memory with
  | zero => exact .ok ⟨size, comes, holds⟩
  | succ state ih =>
    have incoming : Gives (Token.From origins) (checkedIncoming t p states state) (p.incoming t states state) := by
      refine checkedArrivalGives shape.matrix (by omega) size (fun source mem => ?_) comes ?_
      · have := List.mem_range.mp mem
        omega
      · split
        · exact entry
        · exact Token.deadFrom origins
    unfold checkedSweep
    rw [Guarded.withinOk (show state < states.length by omega), Guarded.okBind]
    refine incoming.bind fun came => (checkedEmitGives watched shape few came best holds).bind fun emitted => ?_
    refine ih (by omega) (by rw [List.length_set, size]) (fun s mem => ?_) _ emitted.2
    rcases List.mem_or_eq_of_mem_set mem with old | rfl
    · exact comes s old
    · exact emitted.1

theorem checkedAdvanceGives (watched : Watched senones valid ask free) (fits : p.Fits t senones origins) (best : α)
    {memory : σ} (holds : valid memory) : Gives (fun r => r.1.Fits t senones origins ∧ valid r.2.2)
      (p.checkedAdvance t ask best memory) (p.advance t free best memory) := by
  refine (checkedSweepGives watched fits.toShaped fits.comes.2 (Nat.le_of_eq fits.states) fits.states
    fits.comes.1 best holds).bind fun ⟨size, comes, holds'⟩ => ?_
  exact .ok ⟨⟨⟨fits.matrix, size, fits.paired, fits.senones⟩, comes, Token.deadFrom origins⟩, holds'⟩

theorem checkedLeavingGives (fits : p.Fits t senones origins) :
    Gives (Token.From origins) (p.checkedLeaving t) (p.leaving t) :=
  checkedArrivalGives fits.matrix (Nat.le_of_eq fits.states) fits.states
    (fun _ mem => fits.states ▸ List.mem_range.mp mem) fits.comes.1 (Token.deadFrom origins)

theorem Shaped.clear (shape : p.Shaped t senones) (origins : Nat) : p.clear.Fits t senones origins := by
  refine ⟨⟨shape.matrix, by simpa [PhoneModel.clear] using shape.states, shape.paired, shape.senones⟩,
    fun s mem => ?_, Token.deadFrom origins⟩
  obtain ⟨_, _, rfl⟩ := List.mem_map.mp mem
  exact Token.deadFrom origins

theorem Fits.prune (fits : p.Fits t senones origins) (threshold : α) : (p.prune threshold).Fits t senones origins := by
  refine ⟨⟨fits.matrix, by simpa [PhoneModel.prune] using fits.states, fits.paired, fits.senones⟩,
    fun s mem => ?_, fits.comes.2⟩
  obtain ⟨s', inside, rfl⟩ := List.mem_map.mp mem
  split
  · exact Token.deadFrom origins
  · exact fits.comes.1 s' inside

end PhoneModel

namespace WordModel

structure Fits (t : Transitions α) (senones origins : Nat) (w : WordModel α) : Prop where
  long : 0 < w.phones.length
  phones : ∀ p ∈ w.phones, p.Fits t senones origins

def checkedMake (phones : PhoneSet) (ids : List Nat) : Guarded (WordModel α) := do
  let made ← ids.mapM (PhoneModel.checkedMake phones)
  .ok ⟨made⟩

variable {σ : Type}

def checkedAdvancePhones (t : Transitions α) (ask : Nat → σ → Guarded (α × σ)) :
    List (PhoneModel α) → α → σ → Guarded (List (PhoneModel α) × α × σ)
  | [], best, memory => .ok ([], best, memory)
  | p :: rest, best, memory => do
    let (p, best, memory) ← p.checkedAdvance t ask best memory
    let (rest, best, memory) ← checkedAdvancePhones t ask rest best memory
    .ok (p :: rest, best, memory)

def checkedAdvance (t : Transitions α) (ask : Nat → σ → Guarded (α × σ)) (w : WordModel α) (memory : σ) :
    Guarded (WordModel α × α × σ) := do
  let (phones, best, memory) ← checkedAdvancePhones t ask w.phones Score.impossible memory
  .ok (⟨phones⟩, best, memory)

def checkedCrossing? (t : Transitions α) (penalty threshold : α) (p : PhoneModel α) :
    Guarded (Option (Token α)) := do
  let token ← p.checkedLeaving t
  let crossed := token.add penalty
  .ok (if token.isLive && Score.atMost threshold crossed.score then some crossed else none)

/-- A phone is left only where another one follows. -/
def checkedCrossPhones (t : Transitions α) (penalty threshold : α) :
    Option (Token α) → List (PhoneModel α) → Guarded (List (PhoneModel α))
  | _, [] => .ok []
  | offered, [p] => .ok [(offered.elim p p.offer)]
  | offered, p :: next :: rest => do
    let crossing ← checkedCrossing? t penalty threshold p
    let later ← checkedCrossPhones t penalty threshold crossing (next :: rest)
    .ok (offered.elim p p.offer :: later)

def checkedCross (t : Transitions α) (penalty threshold : α) (w : WordModel α) : Guarded (WordModel α) := do
  let _ ← minus w.phones.length 1
  let phones ← checkedCrossPhones t penalty threshold none w.phones
  .ok ⟨phones⟩

def checkedLeaving? (t : Transitions α) (threshold : α) (w : WordModel α) : Guarded (Option (Token α)) := do
  let last ← minus w.phones.length 1
  let p ← known .entries last w.phones[last]?
  let token ← p.checkedLeaving t
  .ok (if token.isLive && Score.atMost threshold token.score then some token else none)

def checkedOffer (w : WordModel α) (token : Token α) : Guarded (WordModel α) := do
  let p ← known .entries 0 w.phones[0]?
  .ok ⟨p.offer token :: w.phones.drop 1⟩

def checkedAccepts (w : WordModel α) (token : Token α) : Guarded Bool := do
  let p ← known .entries 0 w.phones[0]?
  .ok (Score.below p.entry.score token.score)

variable {t : Transitions α} {senones origins : Nat} {w : WordModel α}

theorem checkedAcceptsOk (fits : w.Fits t senones origins) (token : Token α) :
    w.checkedAccepts token = .ok (w.accepts token) := by
  obtain ⟨phones⟩ := w
  cases phones with
  | nil => exact absurd fits.long (Nat.lt_irrefl 0)
  | cons p rest => rfl

theorem checkedOfferGives (fits : w.Fits t senones origins) {token : Token α}
    (comes : token.From origins) : Gives (Fits t senones origins) (w.checkedOffer token) (w.offer token) := by
  obtain ⟨phones⟩ := w
  cases phones with
  | nil => exact absurd fits.long (Nat.lt_irrefl 0)
  | cons p rest =>
    refine ⟨rfl, Nat.succ_pos _, fun q mem => ?_⟩
    rcases List.mem_cons.mp mem with rfl | later
    · exact (fits.phones p List.mem_cons_self).offer comes
    · exact fits.phones q (List.mem_cons_of_mem p later)

theorem Fits.map {f : PhoneModel α → PhoneModel α} {more : Nat} (fits : w.Fits t senones origins)
    (keeps : ∀ p : PhoneModel α, p.Fits t senones origins → (f p).Fits t senones more) :
    (WordModel.mk (w.phones.map f)).Fits t senones more := by
  refine ⟨by rw [List.length_map]; exact fits.long, fun p mem => ?_⟩
  obtain ⟨q, inside, rfl⟩ := List.mem_map.mp mem
  exact keeps q (fits.phones q inside)

theorem Fits.mono {more : Nat} (fits : w.Fits t senones origins) (le : origins ≤ more) : w.Fits t senones more :=
  ⟨fits.long, fun p mem => (fits.phones p mem).mono le⟩

theorem enteredFits {p : PhoneModel α} (fits : p.Fits t senones origins) {offered : Option (Token α)}
    (comes : ∀ token, offered = some token → token.From origins) :
    (offered.elim p p.offer).Fits t senones origins := by
  cases offered with
  | none => exact fits
  | some token => exact fits.offer (comes token rfl)

variable [Score.Ordered α]

theorem checkedAdvanceGives {valid : σ → Prop} {ask : Nat → σ → Guarded (α × σ)} {free : Nat → σ → α × σ}
    (watched : PhoneModel.Watched senones valid ask free) (fits : w.Fits t senones origins) {memory : σ}
    (holds : valid memory) : Gives (fun r => r.1.Fits t senones origins ∧ valid r.2.2)
      (w.checkedAdvance t ask memory) (w.advance t free memory) := by
  have each {phones : List (PhoneModel α)} (fits : ∀ p ∈ phones, p.Fits t senones origins) (best : α) {memory : σ}
      (holds : valid memory) :
      Gives (fun r => r.1.length = phones.length ∧ (∀ p ∈ r.1, p.Fits t senones origins) ∧ valid r.2.2)
        (checkedAdvancePhones t ask phones best memory) (advancePhones t free phones best memory) := by
    induction phones generalizing best memory with
    | nil => exact .ok ⟨rfl, fits, holds⟩
    | cons p rest ih =>
      refine (PhoneModel.checkedAdvanceGives watched (fits p List.mem_cons_self) best holds).bind fun moved => ?_
      refine (ih (fun q mem => fits q (List.mem_cons_of_mem p mem)) _ moved.2).bind fun others => ?_
      refine .ok ⟨congrArg (· + 1) others.1, fun q mem => ?_, others.2.2⟩
      rcases List.mem_cons.mp mem with rfl | later
      · exact moved.1
      · exact others.2.1 q later
  refine (each fits.phones Score.impossible holds).bind fun ⟨size, phones, holds'⟩ => ?_
  exact .ok ⟨⟨Nat.lt_of_lt_of_eq fits.long size.symm, phones⟩, holds'⟩

theorem checkedCrossingGives {p : PhoneModel α} (fits : p.Fits t senones origins) (penalty threshold : α) :
    Gives (fun r => ∀ token, r = some token → token.From origins) (checkedCrossing? t penalty threshold p)
      (crossing? t penalty threshold p) := by
  refine (PhoneModel.checkedLeavingGives fits).bind fun comes => .ok fun token same => ?_
  obtain ⟨kept, same⟩ := Option.ite_none_right_eq_some.mp same
  cases same
  exact fun _ => comes (Bool.and_eq_true_iff.mp kept).1

theorem checkedCrossGives (fits : w.Fits t senones origins) (penalty threshold : α) :
    Gives (Fits t senones origins) (w.checkedCross t penalty threshold) (w.cross t penalty threshold) := by
  have first (offered : Option (Token α)) (p : PhoneModel α) (rest : List (PhoneModel α)) :
      crossPhones t penalty threshold offered (p :: rest) = offered.elim p p.offer ::
        crossPhones t penalty threshold (crossing? t penalty threshold p) rest := by
    cases offered <;> rfl
  have each {phones : List (PhoneModel α)} (fits : ∀ p ∈ phones, p.Fits t senones origins)
      {offered : Option (Token α)} (comes : ∀ token, offered = some token → token.From origins) :
      Gives (fun r => r.length = phones.length ∧ ∀ p ∈ r, p.Fits t senones origins)
        (checkedCrossPhones t penalty threshold offered phones)
        (crossPhones t penalty threshold offered phones) := by
    induction phones generalizing offered with
    | nil => exact .ok ⟨rfl, fits⟩
    | cons p rest ih =>
      have here := enteredFits (fits p List.mem_cons_self) comes
      rw [first]
      cases rest with
      | nil => exact .ok ⟨rfl, fun q mem => List.mem_singleton.mp mem ▸ here⟩
      | cons next rest =>
        refine (checkedCrossingGives (fits p List.mem_cons_self) penalty threshold).bind fun crossed => ?_
        refine (ih (fun q mem => fits q (List.mem_cons_of_mem p mem)) crossed).bind fun later => ?_
        refine .ok ⟨congrArg (· + 1) later.1, fun q mem => ?_⟩
        rcases List.mem_cons.mp mem with rfl | others
        · exact here
        · exact later.2 q others
  unfold checkedCross
  rw [Guarded.minusOk fits.long, Guarded.okBind]
  refine (each fits.phones fun token none => by cases none).bind fun ⟨size, phones⟩ => ?_
  exact .ok ⟨Nat.lt_of_lt_of_eq fits.long size.symm, phones⟩

theorem checkedLeavingGives (fits : w.Fits t senones origins) (threshold : α) :
    Gives (fun r => ∀ token, r = some token → token.isLive = true ∧ token.origin < origins)
      (w.checkedLeaving? t threshold) (w.leaving? t threshold) := by
  have last : w.phones.length - 1 < w.phones.length := Nat.sub_lt fits.long Nat.one_pos
  unfold checkedLeaving? leaving?
  rw [Guarded.minusOk fits.long, Guarded.okBind, Guarded.knownList _ last, Guarded.okBind, List.getLast?_eq_getElem?,
    List.getElem?_eq_getElem last]
  refine (PhoneModel.checkedLeavingGives (fits.phones _ (List.getElem_mem last))).bind fun comes =>
    .ok fun token same => ?_
  obtain ⟨kept, same⟩ := Option.ite_none_right_eq_some.mp same
  cases same
  have live := (Bool.and_eq_true_iff.mp kept).1
  exact ⟨live, comes live⟩

theorem Fits.clear (fits : w.Fits t senones origins) (more : Nat) : w.clear.Fits t senones more :=
  fits.map fun _ fits => fits.toShaped.clear more

theorem Fits.prune (fits : w.Fits t senones origins) (threshold : α) : (w.prune threshold).Fits t senones origins :=
  fits.map fun _ fits => fits.prune threshold

end WordModel

end Search

end SpeechDecoder
