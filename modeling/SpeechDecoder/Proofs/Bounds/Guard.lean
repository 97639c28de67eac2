import Mathlib.Data.List.Forall2
import SpeechDecoder.Guarded
import SpeechDecoder.Proofs.Outcome

/-! Watched computations that stay inside of their tables, and what they give then: what the unwatched ones give. -/
namespace SpeechDecoder.Guarded

variable {β γ σ : Type}

@[simp] theorem okBind (b : β) (f : β → Guarded γ) : (Except.ok b >>= f) = f b := rfl

@[simp] theorem knownSome (region : Region) (place : Nat) (b : β) : known region place (some b) = .ok b := rfl

theorem withinOk {region : Region} {place size : Nat} (inside : place < size) :
    within region place size = .ok () := if_pos inside

theorem minusOk {n less : Nat} (enough : less ≤ n) : minus n less = .ok (n - less) := if_pos enough

theorem sliceOk {region : Region} {first count : Nat} {a : Array β} (inside : first + count ≤ a.size) :
    slice region first count a = .ok (a.extract first (first + count)).toList := if_pos inside

theorem knownList (region : Region) {xs : List β} {place : Nat} (inside : place < xs.length) :
    known region place xs[place]? = .ok xs[place] := by
  rw [List.getElem?_eq_getElem inside]
  rfl

theorem knownArray (region : Region) {xs : Array β} {place : Nat} (inside : place < xs.size) :
    known region place xs[place]? = .ok xs[place] := by
  rw [Array.getElem?_eq_getElem inside]
  rfl

theorem getArray {xs : Array β} {place : Nat} (inside : place < xs.size) (none : β) :
    xs.getD place none = xs[place] := by
  rw [Array.getD_eq_getD_getElem?, Array.getElem?_eq_getElem inside, Option.getD_some]

theorem modifyIs {xs : Array β} {place : Nat} (inside : place < xs.size) (f : β → β) :
    xs.modify place f = xs.set! place (f xs[place]) := by
  refine Array.ext_getElem? fun i => ?_
  rw [Array.getElem?_modify, Array.set!_eq_setIfInBounds, Array.getElem?_setIfInBounds]
  split
  · rename_i same
    subst same
    rw [Array.getElem?_eq_getElem inside, Option.map_some]
  · rfl

theorem setKeeps {holds : Nat → β → Prop} {xs : Array β} {place : Nat} {b : β}
    (each : ∀ (i : Nat) (x : β), xs[i]? = some x → holds i x) (new : holds place b) :
    ∀ (i : Nat) (x : β), (xs.set! place b)[i]? = some x → holds i x := by
  intro i x found
  rw [Array.set!_eq_setIfInBounds, Array.getElem?_setIfInBounds] at found
  split at found
  · rename_i same
    subst same
    obtain ⟨_, same⟩ := Option.ite_none_right_eq_some.mp found
    cases same
    exact new
  · exact each i x found

/-- A watched computation gives what the unwatched one does, and of that something holds. -/
structure Gives (good : β → Prop) (x : Guarded β) (b : β) : Prop where
  same : x = .ok b
  good : good b

theorem Gives.ok {good : β → Prop} {b : β} (h : good b) : Gives good (.ok b) b := ⟨rfl, h⟩

theorem Gives.bind {good : β → Prop} {better : γ → Prop} {x : Guarded β} {b : β} {f : β → Guarded γ} {c : γ}
    (first : Gives good x b) (later : good b → Gives better (f b) c) : Gives better (x >>= f) c := by
  rw [first.same]
  exact later first.good

theorem foldGives {good : σ → Prop} {f : σ → β → Guarded σ} {g : σ → β → σ} {items : List β}
    (each : ∀ s, ∀ x ∈ items, good s → Gives good (f s x) (g s x)) {s : σ} (first : good s) :
    Gives good (items.foldlM f s) (items.foldl g s) := by
  induction items generalizing s with
  | nil => exact .ok first
  | cons x rest ih =>
    rw [List.foldlM_cons, List.foldl_cons]
    refine (each s x List.mem_cons_self first).bind fun next => ?_
    exact ih (fun s y mem => each s y (List.mem_cons_of_mem x mem)) next

theorem mapOk {f : β → Guarded γ} {g : β → γ} {items : List β} (each : ∀ x ∈ items, f x = .ok (g x)) :
    items.mapM f = .ok (items.map g) := by
  induction items with
  | nil => rfl
  | cons x rest ih =>
    rw [List.mapM_cons, each x List.mem_cons_self, okBind, ih fun y mem => each y (List.mem_cons_of_mem x mem)]
    rfl

theorem withinEach {region : Region} {size : Nat} {places : List Nat} (inside : ∀ p ∈ places, p < size) :
    places.forM (within region · size) = .ok () := by
  induction places with
  | nil => rfl
  | cons p rest ih =>
    change (within region p size >>= fun _ => rest.forM (within region · size)) = .ok ()
    rw [withinOk (inside p List.mem_cons_self), okBind]
    exact ih fun q mem => inside q (List.mem_cons_of_mem p mem)

theorem thenOk {x : Guarded β} {g : β → γ} :
    (∃ c, (x >>= fun b => (.ok (g b) : Guarded γ)) = .ok c) ↔ ∃ b, x = .ok b := by
  constructor
  · rintro ⟨c, ok⟩
    obtain ⟨b, first, _⟩ := Outcome.bindOk ok
    exact ⟨b, first⟩
  · rintro ⟨b, rfl⟩
    exact ⟨g b, rfl⟩

theorem knownIff {region : Region} {place : Nat} {x : Option β} :
    (∃ b, known region place x = .ok b) ↔ x.isSome := by
  cases x with
  | none => simp [known]
  | some b => simp [known]

theorem mapMade {f : β → Guarded γ} {items : List β} {made : List γ}
    (ok : items.mapM f = .ok made) : List.Forall₂ (fun x c => f x = .ok c) items made := by
  induction items generalizing made with
  | nil =>
    cases ok
    exact .nil
  | cons x rest ih =>
    rw [List.mapM_cons] at ok
    obtain ⟨first, here, ok⟩ := Outcome.bindOk ok
    obtain ⟨others, later, ok⟩ := Outcome.bindOk ok
    cases ok
    exact .cons here (ih later)

theorem eachOk {f : β → Guarded γ} {items : List β} :
    (∃ made, items.mapM f = .ok made) ↔ ∀ x ∈ items, ∃ c, f x = .ok c := by
  constructor
  · rintro ⟨made, ok⟩
    have all := mapMade ok
    clear ok
    induction all with
    | nil => exact fun x none => by cases none
    | cons here _ ih => exact List.forall_mem_cons.mpr ⟨⟨_, here⟩, ih⟩
  · intro each
    induction items with
    | nil => exact ⟨[], rfl⟩
    | cons x rest ih =>
      obtain ⟨first, here⟩ := each x List.mem_cons_self
      obtain ⟨others, later⟩ := ih fun y mem => each y (List.mem_cons_of_mem x mem)
      exact ⟨first :: others, by rw [List.mapM_cons, here, okBind, later]; rfl⟩

theorem foldReached {f : σ → β → Guarded σ} {items : List β} {s t : σ}
    (ok : items.foldlM f s = .ok t) : ∀ x ∈ items, ∃ before behind, f before x = .ok behind := by
  induction items generalizing s with
  | nil => exact fun x none => by cases none
  | cons y rest ih =>
    rw [List.foldlM_cons] at ok
    obtain ⟨behind, here, later⟩ := Outcome.bindOk ok
    intro x mem
    rcases List.mem_cons.mp mem with rfl | further
    · exact ⟨s, behind, here⟩
    · exact ih later x further

end SpeechDecoder.Guarded
