import SpeechDecoder.Proofs.Search.Alignment

/-! Ways through one word: from its entry, in one state of one of its phones in each frame, up to where a token is.
-/
namespace SpeechDecoder.Search

open Model (History)

namespace Place

def word : Place → Nat
  | .entry word _ => word
  | .state word _ _ => word
  | .exit word => word

/-- The frames that at least lie between the entry into the word and the place. -/
def delay : Place → Nat
  | .entry _ _ => 0
  | .state _ _ _ => 1
  | .exit _ => 1

/-- How many phones of a word, of `all` that it has, have had a frame on the way to the place. -/
def passed (all : Nat) : Place → Nat
  | .entry _ phone => phone
  | .state _ phone _ => phone + 1
  | .exit _ => all

end Place

variable {α : Type} [Score α]

def Place.after (k : Knowledge α) (h : History) : Place → History
  | .exit word => (k.enter word h).2
  | _ => h

/-- Ways from the entry into a word, with the phone and the state of each frame, the latest first. `may` says which
transition may follow which score. -/
inductive Ride (k : Knowledge α) (frames : List (Frame α)) (may : α → α → Prop) (word start : Nat) (entry : α) :
    Nat → Place → List (Nat × Nat) → α → Prop where
  | begin {m : PhoneModel α} (first : k.phone? word 0 = some m) :
      Ride k frames may word start entry start (.entry word 0) [] entry
  | enter {t phone : Nat} {stays : List (Nat × Nat)} {a : α} {frame : Frame α} {m : PhoneModel α}
      (before : Ride k frames may word start entry t (.entry word phone) stays a) (now : frames[t]? = some frame)
      (here : k.phone? word phone = some m) (inside : 0 < m.states.length) :
      Ride k frames may word start entry (t + 1) (.state word phone 0) ((phone, 0) :: stays)
        (a + k.scorer.score frame (m.senones.getD 0 0))
  | go {t phone source target : Nat} {stays : List (Nat × Nat)} {a : α} {frame : Frame α} {m : PhoneModel α}
      (before : Ride k frames may word start entry t (.state word phone source) stays a)
      (now : frames[t]? = some frame) (here : k.phone? word phone = some m) (inside : target < m.states.length)
      (passes : may a (k.transitions.get m.matrix source target)) :
      Ride k frames may word start entry (t + 1) (.state word phone target) ((phone, target) :: stays)
        (a + k.transitions.get m.matrix source target + k.scorer.score frame (m.senones.getD target 0))
  | cross {t phone source : Nat} {stays : List (Nat × Nat)} {a : α} {m next : PhoneModel α}
      (before : Ride k frames may word start entry t (.state word phone source) stays a)
      (here : k.phone? word phone = some m) (further : k.phone? word (phone + 1) = some next)
      (passes : may a (k.transitions.get m.matrix source m.states.length)) :
      Ride k frames may word start entry t (.entry word (phone + 1)) stays
        (a + k.transitions.get m.matrix source m.states.length + k.params.phonePenalty)
  | leave {t phone source : Nat} {stays : List (Nat × Nat)} {a : α} {m : PhoneModel α}
      (before : Ride k frames may word start entry t (.state word phone source) stays a)
      (here : k.phone? word phone = some m) (last : k.phone? word (phone + 1) = none)
      (passes : may a (k.transitions.get m.matrix source m.states.length)) :
      Ride k frames may word start entry t (.exit word) stays
        (a + k.transitions.get m.matrix source m.states.length)

namespace Ride
variable {k : Knowledge α} {frames : List (Frame α)} {may : α → α → Prop} {word start t : Nat} {entry a : α}
  {place : Place} {stays : List (Nat × Nat)}

theorem mono {wider : α → α → Prop} (wide : ∀ a x, may a x → wider a x)
    (ride : Ride k frames may word start entry t place stays a) :
    Ride k frames wider word start entry t place stays a := by
  induction ride with
  | begin first => exact .begin first
  | enter _ now here inside ih => exact .enter ih now here inside
  | go _ now here inside passes ih => exact .go ih now here inside (wide _ _ passes)
  | cross _ here further passes ih => exact .cross ih here further (wide _ _ passes)
  | leave _ here last passes ih => exact .leave ih here last (wide _ _ passes)

theorem append (later : List (Frame α)) (ride : Ride k frames may word start entry t place stays a) :
    Ride k (frames ++ later) may word start entry t place stays a := by
  have still {t : Nat} {frame : Frame α} (now : frames[t]? = some frame) : (frames ++ later)[t]? = some frame := by
    rw [List.getElem?_append_left (List.getElem?_eq_some_iff.mp now).1, now]
  induction ride with
  | begin first => exact .begin first
  | enter _ now here inside ih => exact .enter ih (still now) here inside
  | go _ now here inside passes ih => exact .go ih (still now) here inside passes
  | cross _ here further passes ih => exact .cross ih here further passes
  | leave _ here last passes ih => exact .leave ih here last passes

theorem first (ride : Ride k frames may word start entry t place stays a) : ∃ m, k.phone? word 0 = some m := by
  induction ride with
  | begin first => exact ⟨_, first⟩
  | enter _ _ _ _ ih => exact ih
  | go _ _ _ _ _ ih => exact ih
  | cross _ _ _ _ ih => exact ih
  | leave _ _ _ _ ih => exact ih

theorem length (ride : Ride k frames may word start entry t place stays a) : start + stays.length = t := by
  induction ride with
  | begin _ => rfl
  | enter _ _ _ _ ih => exact congrArg (· + 1) ih
  | go _ _ _ _ _ ih => exact congrArg (· + 1) ih
  | cross _ _ _ _ ih => exact ih
  | leave _ _ _ _ ih => exact ih

theorem delayed (ride : Ride k frames may word start entry t place stays a) : start + place.delay ≤ t := by
  induction ride with
  | begin _ => exact Nat.le_refl _
  | enter _ _ _ _ ih => exact Nat.succ_le_succ ih
  | go _ _ _ _ _ ih => exact Nat.le_succ_of_le ih
  | cross _ _ _ _ ih => exact Nat.le_of_succ_le ih
  | leave _ _ _ _ ih => exact ih

theorem spans {all : Nat} (size : ∀ phone, k.phone? word phone = none → all ≤ phone)
    (ride : Ride k frames may word start entry t place stays a) : start + place.passed all ≤ t := by
  induction ride with
  | begin _ => exact Nat.le_refl _
  | enter _ _ _ _ ih => exact Nat.succ_le_succ ih
  | go _ _ _ _ _ ih => exact Nat.le_succ_of_le ih
  | cross _ _ _ _ ih => exact ih
  | leave _ _ last _ ih => exact Nat.le_trans (Nat.add_le_add_left (size _ last) start) ih

theorem path {h : History} (before : Path k frames anyScore start (.entry word 0) h entry)
    (ride : Ride k frames may word start entry t place stays a) :
    Path k frames anyScore t place (place.after k h) a := by
  induction ride with
  | begin _ => exact before
  | enter _ now here inside ih => exact .enter ih now here inside trivial
  | go _ now here inside _ ih => exact .go ih now here inside trivial
  | cross _ here further _ ih => exact .cross ih here further trivial
  | leave _ here last _ ih => exact .leave ih here last trivial

end Ride

end SpeechDecoder.Search
