import Mathlib.Data.Finite.Prod
import Mathlib.Data.Set.Finite.Lattice
import Mathlib.Logic.Relation
import SpeechDecoder.Proofs.Model.Lexicon
import SpeechDecoder.Proofs.Search.Served

/-! Complete paths of a lattice: exits in a row from the root, each of which starts where the one before it ended,
the last of them final. The words of a path give its score anew, whatever links the search had made. -/
namespace SpeechDecoder.Search

open Relation (ReflTransGen)

variable {α : Type} [Score α]

namespace Lattice

theorem memFinals {k : Knowledge α} {exits : Array (Exit α)} {frames : Nat} {place : Nat} {score : α} :
    (place, score) ∈ (ofExits k exits frames).finals ↔
      ∃ e, exits[place]? = some e ∧ isFinal frames e = true ∧ score = e.score + k.leave e.history := by
  simp only [ofExits, List.mem_map, List.mem_filter]
  constructor
  · rintro ⟨⟨e, i⟩, ⟨mem, final⟩, same⟩
    cases same
    rw [List.mem_zipIdx_iff_getElem?, Array.getElem?_toList] at mem
    exact ⟨e, mem, final, rfl⟩
  · rintro ⟨e, found, final, rfl⟩
    refine ⟨(e, place), ⟨?_, final⟩, rfl⟩
    rw [List.mem_zipIdx_iff_getElem?, Array.getElem?_toList]
    exact found

end Lattice

/-! ### Scores of words -/

/-- Weighted language scores of words, and of the end, are never positive. -/
structure Knowledge.Falling (k : Knowledge α) : Prop where
  entering : ∀ (word : Nat) (w : Model.LexiconWord) (id : Nat) (h : Model.History),
    k.lexicon.words[word]? = some w → w.languageId = some id →
    Score.atMost (k.params.languageWeight * k.language.score id h) Score.zero = true
  leaving : ∀ (id : Nat) (h : Model.History), k.lexicon.finish = some id →
    Score.atMost (k.params.languageWeight * k.language.score id h) Score.zero = true

theorem Knowledge.enterIs {k : Knowledge α} (consistent : k.lexicon.Consistent) (word : Nat) (h : Model.History) :
    (k.enter word h).1 = k.enterBound word ∨ ∃ w id, k.lexicon.words[word]? = some w ∧ w.languageId = some id ∧
      (k.enter word h).1 = k.params.languageWeight * k.language.score id h + k.enterBound word := by
  unfold enter enterBound
  cases found : k.lexicon.words[word]? with
  | none => exact .inl rfl
  | some w =>
    cases kind : w.kind with
    | normal =>
      obtain ⟨id, known⟩ := Option.isSome_iff_exists.mp (consistent word w found kind)
      exact .inr ⟨w, id, rfl, known, by simp [kind, known]⟩
    | _ => exact .inl (by simp [kind])

section
variable [Score.Exact α] {k : Knowledge α} (consistent : k.lexicon.Consistent)
include consistent

theorem Knowledge.boundLive {word : Nat} {h : Model.History} (live : Score.isLive (k.enter word h).1 = true) :
    Score.isLive (k.enterBound word) = true := by
  rcases k.enterIs consistent word h with same | ⟨_, _, _, _, same⟩
  · rwa [← same]
  · rw [same] at live
    exact (Score.liveOfAdd live).2

theorem Knowledge.enterAtMost (falling : k.Falling) (word : Nat) (h : Model.History) :
    Score.atMost (k.enter word h).1 (k.enterBound word) = true := by
  rcases k.enterIs consistent word h with same | ⟨w, id, found, known, same⟩
  · rw [same]
    exact Score.atMostRefl _
  · rw [same, Score.Exact.addComm]
    exact Score.addFalling _ (falling.entering word w id h found known)

end

theorem Knowledge.leaveAtMost [Score.Exact α] {k : Knowledge α} (falling : k.Falling) (h : Model.History) :
    Score.atMost (k.leave h) Score.zero = true := by
  unfold leave
  cases finish : k.lexicon.finish with
  | none => exact Score.atMostRefl _
  | some id => exact falling.leaving id h finish

/-! ### Lattices of a search -/

structure Lattice.Formed (l : Lattice α) : Prop where
  root : ∃ e, l.exit? 0 = some e ∧ e.word = none ∧ e.endFrame = 0
  timed : ∀ (place : Nat) (e : Exit α) (word : Nat), l.exit? place = some e → e.word = some word →
    e.startFrame < e.endFrame ∧ e.endFrame ≤ l.frames
  finals : ∀ place, (∃ score, (place, score) ∈ l.finals) ↔ ∃ e, l.exit? place = some e ∧ isFinal l.frames e = true

structure Lattice.Sound (k : Knowledge α) (l : Lattice α) : Prop extends l.Formed where
  live : ∀ (place : Nat) (e : Exit α) (word : Nat), l.exit? place = some e → e.word = some word →
    Score.isLive (e.acousticScore + k.enterBound word) = true

theorem Lattice.Formed.afterRoot {α : Type} {l : Lattice α} (formed : l.Formed) {place word : Nat} {e : Exit α}
    (found : l.exit? place = some e) (named : e.word = some word) : 0 < place := by
  cases place with
  | zero =>
    obtain ⟨root, known, none, _⟩ := formed.root
    cases found.symm.trans known
    cases named.symm.trans none
  | succ n => exact Nat.succ_pos n

section
variable {k : Knowledge α} {t : Nat} {exits : Array (Exit α)}

theorem Table.named (table : Table k t exits) {place word : Nat} {e : Exit α} (found : exits[place]? = some e)
    (named : e.word = some word) : e.Left k exits ∧ e.endFrame ≤ t := by
  cases place with
  | zero =>
    cases found.symm.trans table.root
    cases named
  | succ n => exact table.left n e found

theorem Table.entered (table : Table k t exits) {place word : Nat} {e : Exit α} (found : exits[place]? = some e)
    (named : e.word = some word) : ∃ before origin, exits[origin]? = some before ∧
      Entered k before e.endFrame (.exit word) ∧ Score.isLive e.score = true ∧
      e = before.after k origin word e.endFrame e.score := by
  obtain ⟨⟨before, origin, word', known, entered, live, same⟩, _⟩ := table.named found named
  have last : word' = word := by
    rw [same] at named
    exact Option.some.inj named
  subst last
  exact ⟨before, origin, known, entered, live, same⟩

theorem Table.formed (table : Table k t exits) : (Lattice.ofExits k exits t).Formed := by
  refine ⟨⟨_, table.root, rfl, rfl⟩, fun place e word found named => ?_, fun place => ?_⟩
  · obtain ⟨⟨before, origin, _, _, entered, _, same⟩, ends⟩ := table.named found named
    have start : e.startFrame = before.endFrame := by
      rw [same]
      rfl
    exact ⟨start ▸ entered.earlier, ends⟩
  · constructor
    · rintro ⟨_, mem⟩
      obtain ⟨e, found, final, _⟩ := Lattice.memFinals.mp mem
      exact ⟨e, found, final⟩
    · rintro ⟨e, found, final⟩
      exact ⟨_, Lattice.memFinals.mpr ⟨e, found, final, rfl⟩⟩

theorem Table.sound [Score.Exact α] (consistent : k.lexicon.Consistent) (table : Table k t exits) :
    (Lattice.ofExits k exits t).Sound k := by
  refine ⟨table.formed, fun place e word found named => ?_⟩
  obtain ⟨before, origin, _, entered, live, same⟩ := table.entered found named
  have acoustic : e.acousticScore = e.score - before.score - (k.enter word before.history).1 := by
    rw [same]
    rfl
  obtain ⟨earlier, later⟩ := Score.liveOfAdd entered.live
  rw [acoustic]
  exact Score.Exact.addLive _ _ (Score.Exact.subLive _ _ (Score.Exact.subLive _ _ live earlier) later)
    (k.boundLive consistent later)

end

/-! ### Paths -/

def Walk.root (k : Knowledge α) : Walk α := ⟨[], k.startHistory, Score.zero⟩

def Walk.total (k : Knowledge α) (w : Walk α) : α := w.score + k.leave w.history

inductive Lattice.Goes (k : Knowledge α) (l : Lattice α) : Walk α → Walk α → Prop where
  | on {w : Walk α} {before e : Exit α} {place word : Nat} (here : l.exit? w.last = some before)
      (there : l.exit? place = some e) (named : e.word = some word) (joined : e.startFrame = before.endFrame) :
      Goes k l w (w.extend k place word e.acousticScore)

def Lattice.Leads (k : Knowledge α) (l : Lattice α) (w : Walk α) : Prop := ReflTransGen (l.Goes k) (.root k) w

structure Lattice.Completes (k : Knowledge α) (l : Lattice α) (w : Walk α) : Prop where
  leads : l.Leads k w
  final : ∃ e, l.exit? w.last = some e ∧ isFinal l.frames e = true

def Lattice.textAlong (k : Knowledge α) (l : Lattice α) (w : Walk α) : String :=
  textOf (l.segments k w.steps.reverse)

/-- Exits are made one after another, each from one that ends earlier. -/
theorem Table.made {k : Knowledge α} {t : Nat} {exits : Array (Exit α)} (table : Table k t exits)
    {holds : Nat → Exit α → Prop} (root : holds 0 (Exit.root k))
    (after : ∀ (place origin word : Nat) (before e : Exit α), exits[place]? = some e → exits[origin]? = some before →
      Entered k before e.endFrame (.exit word) → Score.isLive e.score = true →
      e = before.after k origin word e.endFrame e.score → holds origin before → holds place e)
    {place : Nat} {e : Exit α} (found : exits[place]? = some e) : holds place e := by
  induction ends : e.endFrame using Nat.strong_induction_on generalizing place e with
  | _ n ih =>
    cases place with
    | zero =>
      cases found.symm.trans table.root
      exact root
    | succ place =>
      obtain ⟨before, origin, word, known, entered, live, same⟩ := (table.left place e found).1
      have earlier : before.endFrame < n := ends ▸ entered.earlier
      exact after _ origin word before e found known entered live same (ih _ earlier known rfl)

theorem Lattice.Leads.linked {k : Knowledge α} {l : Lattice α} {w : Walk α} (leads : l.Leads k w)
    {place word : Nat} {before e : Exit α} {score : α} (here : l.exit? w.last = some before)
    (there : l.exit? place = some e) (same : e = before.after k w.last word e.endFrame score)
    (history : w.history = before.history) :
    l.Leads k (w.extend k place word e.acousticScore) ∧
      (w.extend k place word e.acousticScore).history = e.history := by
  have behind := Exit.behindOf same
  refine ⟨leads.tail (.on here there behind.named behind.starts), ?_⟩
  rw [behind.history, ← history]
  rfl

/-- A path leads to an exit with the history that the exit has. -/
def Lattice.Led (k : Knowledge α) (l : Lattice α) (place : Nat) (e : Exit α) : Prop :=
  ∃ w, l.Leads k w ∧ w.last = place ∧ w.history = e.history

theorem Table.led {k : Knowledge α} {t : Nat} {exits : Array (Exit α)} (table : Table k t exits) {place : Nat}
    {e : Exit α} (found : exits[place]? = some e) : (Lattice.ofExits k exits t).Led k place e := by
  have root : (Lattice.ofExits k exits t).Led k 0 (Exit.root k) := ⟨.root k, .refl, rfl, rfl⟩
  refine table.made root (fun place origin word before e found known _ _ same led => ?_) found
  obtain ⟨w, leads, rfl, history⟩ := led
  obtain ⟨leads', history'⟩ := leads.linked known found same history
  exact ⟨_, leads', rfl, history'⟩

namespace Lattice
variable {k : Knowledge α} {l : Lattice α}

theorem Leads.last (formed : l.Formed) {w : Walk α} (leads : l.Leads k w) :
    ∃ e, l.exit? w.last = some e ∧ w.steps.length ≤ e.endFrame ∧ e.endFrame ≤ l.frames := by
  induction leads with
  | refl =>
    obtain ⟨e, found, _, zero⟩ := formed.root
    exact ⟨e, found, by simp [Walk.root, zero], by omega⟩
  | @tail w _ _ step ih =>
    cases step with
    | @on before e place word here there named joined =>
      obtain ⟨before', found, size, _⟩ := ih
      cases here.symm.trans found
      obtain ⟨less, within⟩ := formed.timed place e word there named
      refine ⟨e, there, ?_, within⟩
      change w.steps.length + 1 ≤ e.endFrame
      omega

def reach (k : Knowledge α) (l : Lattice α) (w : Walk α) (place : Nat) : Walk α :=
  match l.exit? place with
  | none => w
  | some e => w.extend k place (e.word.getD 0) e.acousticScore

theorem leadsFiniteAt (k : Knowledge α) (l : Lattice α) (n : Nat) :
    {w | l.Leads k w ∧ w.steps.length = n}.Finite := by
  induction n with
  | zero =>
    refine (Set.finite_singleton (Walk.root k)).subset ?_
    rintro w ⟨leads, size⟩
    cases leads with
    | refl => rfl
    | tail _ step =>
      cases step
      cases size
  | succ n ih =>
    refine (Set.Finite.image2 (l.reach k) ih (Set.finite_lt_nat l.exits.size)).subset ?_
    rintro w ⟨leads, size⟩
    cases leads with
    | refl => cases size
    | @tail w _ before step =>
      cases step with
      | @on _ e place word here there named joined =>
        have inside : place < l.exits.size := (Array.getElem?_eq_some_iff.mp there).1
        refine ⟨w, ⟨before, Nat.succ.inj size⟩, place, inside, ?_⟩
        simp only [reach, there, named, Option.getD_some]

theorem leadsFinite (formed : l.Formed) : {w | l.Leads k w}.Finite := by
  refine ((Set.finite_le_nat l.frames).biUnion fun n _ => l.leadsFiniteAt k n).subset fun w leads => ?_
  -- each exit ends later than the one before it
  obtain ⟨e, _, size, within⟩ := Leads.last formed leads
  exact Set.mem_biUnion (show w.steps.length ≤ l.frames from size.trans within) ⟨leads, rfl⟩

end Lattice

end SpeechDecoder.Search
