import SpeechDecoder.Proofs.Search.Outlook
import SpeechDecoder.Proofs.Search.Queue

/-! The search for alternatives loses no complete path: while it goes on, each has its text among those found or a
part of it in the queue. Where scores are exact it takes complete paths out by falling score, so what it has found is
at least as high as all that is left. -/
namespace SpeechDecoder.Search

open Relation (ReflTransGen)
open Score (Exact)

variable {α : Type} [Score α]

/-! ### Candidates -/

namespace Candidate

theorem notBefore [Std.TransCmp (Score.order (α := α))] {a b : Candidate α} : a.before b = false ↔
    (Score.order a.bound b.bound).isLE = true ∧ (Score.order a.bound b.bound = .eq → b.serial ≤ a.serial) := by
  unfold before
  cases Score.order a.bound b.bound <;> simp

theorem ranking [Std.TransCmp (Score.order (α := α))] : Ranking (before (α := α)) where
  oneWay x y ahead := by
    rw [notBefore]
    unfold before at ahead
    have swap : Score.order y.bound x.bound = (Score.order x.bound y.bound).swap := Std.OrientedCmp.eq_swap
    cases order : Score.order x.bound y.bound <;> rw [order] at ahead swap <;> simp_all
    omega
  through x y z ahead := by
    cases first : before x y with
    | true => exact .inl rfl
    | false =>
      cases second : before y z with
      | true => exact .inr rfl
      | false =>
        obtain ⟨le, serial⟩ := notBefore.mp first
        obtain ⟨le', serial'⟩ := notBefore.mp second
        have behind : before x z = false := by
          rw [notBefore]
          refine ⟨Std.TransCmp.isLE_trans le le', fun same => ?_⟩
          cases order : Score.order x.bound y.bound with
          | lt =>
            have less := Std.TransCmp.lt_of_lt_of_isLE order le'
            rw [same] at less
            cases less
          | eq =>
            have other : Score.order x.bound z.bound = Score.order y.bound z.bound := Std.TransCmp.congr_left order
            exact (serial' (other.symm.trans same)).trans (serial order)
          | gt =>
            rw [order] at le
            cases le
        cases behind.symm.trans ahead

def ofWay (w : Walk α) (bound : α) (serial : Nat) : Candidate α := ⟨bound, serial, w, false⟩

def ofWhole (k : Knowledge α) (w : Walk α) (serial : Nat) : Candidate α :=
  ⟨w.total k, serial, { w with score := w.total k }, true⟩

inductive Stands (k : Knowledge α) (l : Lattice α) : Candidate α → Prop where
  | way {w : Walk α} (bound : α) (serial : Nat) (leads : l.Leads k w) : Stands k l (ofWay w bound serial)
  | whole {w : Walk α} (serial : Nat) (completes : l.Completes k w) : Stands k l (ofWhole k w serial)

/-- The complete paths that can come of a candidate. -/
inductive Covers (k : Knowledge α) (l : Lattice α) : Candidate α → Walk α → Prop where
  | way {w w' : Walk α} (bound : α) (serial : Nat) (on : ReflTransGen (l.Goes k) w w') :
      Covers k l (ofWay w bound serial) w'
  | whole {w : Walk α} (serial : Nat) : Covers k l (ofWhole k w serial) w

section
variable {k : Knowledge α} {l : Lattice α}

theorem Covers.ofWay {w w' : Walk α} {bound : α} {serial : Nat}
    (covers : (ofWay w bound serial).Covers k l w') : ReflTransGen (l.Goes k) w w' := by
  generalize same : Candidate.ofWay w bound serial = x at covers
  cases covers with
  | way _ _ on =>
    cases congrArg Candidate.walk same
    exact on
  | whole _ => cases congrArg Candidate.complete same

theorem Covers.ofWhole {w w' : Walk α} {serial : Nat} (covers : (ofWhole k w serial).Covers k l w') :
    l.textAlong k w' = l.textAlong k w ∧ w'.total k = w.total k := by
  generalize same : Candidate.ofWhole k w serial = x at covers
  cases covers with
  | way _ _ on => cases congrArg Candidate.complete same
  | whole _ =>
    have steps : w.steps = w'.steps := congrArg (fun x => x.walk.steps) same
    refine ⟨?_, (congrArg Candidate.bound same).symm⟩
    rw [Lattice.textAlong, Lattice.textAlong, steps]

/-- A way is queued with what it promises. -/
def Promised (k : Knowledge α) (l : Lattice α) (x : Candidate α) : Prop :=
  x.complete = false → x.bound = l.promise k x.walk

theorem Covers.bounded [Exact α] (sound : l.Sound k) (consistent : k.lexicon.Consistent) (falling : k.Falling)
    {x : Candidate α} {w : Walk α} (covers : x.Covers k l w) (completes : l.Completes k w)
    (promised : x.Promised k l) : Score.atMost (w.total k) x.bound = true := by
  cases covers with
  | way bound _ on =>
    have same : bound = l.promise k _ := promised rfl
    rw [Candidate.ofWay, same]
    exact Lattice.totalPromised sound consistent falling on completes
  | whole _ => exact Score.atMostRefl _

end

end Candidate

/-- An alternative is the record of a path. -/
structure Lattice.Records (k : Knowledge α) (l : Lattice α) (w : Walk α) (a : Alternative α) : Prop where
  segments : a.segments = l.segments k w.steps.reverse
  text : a.hypothesis.text = l.textAlong k w
  score : a.hypothesis.score = w.total k

namespace Alternatives

/-! ### What a step queues -/

structure Grown (s s' : State α) (new : List (Candidate α)) : Prop where
  items : s'.queue.toList.Perm (new ++ s.queue.toList)
  heaped : Ranking (Candidate.before (α := α)) → s.queue.Heaped Candidate.before → s'.queue.Heaped Candidate.before
  found : s'.found = s.found
  expansions : s'.expansions = s.expansions

theorem Grown.none (s : State α) : Grown s s [] := ⟨.refl _, fun _ => id, rfl, rfl⟩

theorem Grown.trans {s s' s'' : State α} {new new' : List (Candidate α)} (first : Grown s s' new)
    (second : Grown s' s'' new') : Grown s s'' (new' ++ new) := by
  refine ⟨?_, fun ranking => second.heaped ranking ∘ first.heaped ranking, second.found.trans first.found,
    second.expansions.trans first.expansions⟩
  rw [List.append_assoc]
  exact second.items.trans (first.items.append_left new')

theorem enqueueGrown (s : State α) (walk : Walk α) (bound : α) (complete : Bool) :
    Grown s (s.enqueue walk bound complete) [⟨bound, s.serial, walk, complete⟩] :=
  ⟨Queue.pushItems _ _, fun ranking heaped => Queue.pushHeaped ranking heaped _, rfl, rfl⟩

section
variable {k : Knowledge α} {l : Lattice α} {w : Walk α}

structure Extends (k : Knowledge α) (l : Lattice α) (w : Walk α) (places : List Nat) (new : List (Candidate α)) :
    Prop where
  only : ∀ x ∈ new, ∃ place ∈ places, ∃ e word serial, l.exit? place = some e ∧ e.word = some word ∧
    Score.isImpossible (Lattice.ahead (l.outlook k) place) = false ∧
    x = .ofWay (w.extend k place word e.acousticScore) (l.promise k (w.extend k place word e.acousticScore)) serial
  all : ∀ place ∈ places, ∀ e word, l.exit? place = some e → e.word = some word →
    Score.isImpossible (Lattice.ahead (l.outlook k) place) = false →
    ∃ bound serial, .ofWay (w.extend k place word e.acousticScore) bound serial ∈ new

theorem Extends.cons {place : Nat} {places : List Nat} {new new' : List (Candidate α)}
    (first : Extends k l w [place] new) (rest : Extends k l w places new') :
    Extends k l w (place :: places) (new' ++ new) := by
  refine ⟨fun x mem => ?_, fun p mem e word found named possible => ?_⟩
  · rcases List.mem_append.mp mem with later | now
    · obtain ⟨p, inside, known⟩ := rest.only x later
      exact ⟨p, List.mem_cons_of_mem _ inside, known⟩
    · obtain ⟨p, inside, known⟩ := first.only x now
      exact ⟨p, List.mem_cons.mpr (.inl (List.mem_singleton.mp inside)), known⟩
  · rcases List.mem_cons.mp mem with rfl | later
    · obtain ⟨bound, serial, inside⟩ := first.all p (List.mem_singleton_self p) e word found named possible
      exact ⟨bound, serial, List.mem_append_right _ inside⟩
    · obtain ⟨bound, serial, inside⟩ := rest.all p later e word found named possible
      exact ⟨bound, serial, List.mem_append_left _ inside⟩

theorem Extends.noneWhole {places : List Nat} {new : List (Candidate α)} (onward : Extends k l w places new) :
    new.countP Candidate.complete = 0 := by
  refine List.countP_eq_zero.mpr fun x mem => ?_
  obtain ⟨_, _, _, _, _, _, _, _, rfl⟩ := onward.only x mem
  exact Bool.false_ne_true

structure Expansion (k : Knowledge α) (l : Lattice α) (w : Walk α) (new : List (Candidate α)) : Prop where
  only : ∀ x ∈ new, (l.Completes k w ∧ ∃ serial, x = .ofWhole k w serial) ∨ ∃ w' serial, l.Goes k w w' ∧
    Score.isImpossible (Lattice.ahead (l.outlook k) w'.last) = false ∧ x = .ofWay w' (l.promise k w') serial
  whole : l.Completes k w → ∃ serial, .ofWhole k w serial ∈ new
  ways : ∀ w', l.Goes k w w' → Score.isImpossible (Lattice.ahead (l.outlook k) w'.last) = false →
    ∃ bound serial, .ofWay w' bound serial ∈ new
  ends : new.countP Candidate.complete ≤ 1

theorem recordIs (k : Knowledge α) (l : Lattice α) (s : State α) (w : Walk α) :
    let after := record (.ofLattice k l) s { w with score := w.total k }
    (after = s ∧ ∃ a ∈ s.found, a.hypothesis.text = l.textAlong k w) ∨
      (∀ a ∈ s.found, a.hypothesis.text ≠ l.textAlong k w) ∧ ∃ a, l.Records k w a ∧
        after = { s with found := s.found ++ [a] } := by
  intro after
  cases known : s.found.any fun a => a.hypothesis.text == l.textAlong k w with
  | true =>
    refine .inl ⟨if_pos known, ?_⟩
    obtain ⟨a, mem, same⟩ := List.any_eq_true.mp known
    exact ⟨a, mem, beq_iff_eq.mp same⟩
  | false =>
    refine .inr ⟨fun a mem same => ?_, _, ⟨rfl, rfl, rfl⟩, if_neg (by rw [Bool.not_eq_true]; exact known)⟩
    have other := List.any_eq_false.mp known a mem
    rw [beq_iff_eq] at other
    exact other same

theorem followOne (k : Knowledge α) (l : Lattice α) (w : Walk α) (s : State α) (place : Nat) :
    ∃ new, Grown s (follow (.ofLattice k l) w s place) new ∧ Extends k l w [place] new := by
  have nothing (none : ∀ e word, l.exit? place = some e → e.word = some word →
      Score.isImpossible (Lattice.ahead (l.outlook k) place) ≠ false) : Extends k l w [place] [] := by
    refine ⟨fun x mem => absurd mem List.not_mem_nil, fun p mem e word found named possible => ?_⟩
    rw [List.mem_singleton.mp mem] at found possible
    exact absurd possible (none e word found named)
  cases found : l.exit? place with
  | none =>
    have same : follow (.ofLattice k l) w s place = s := by simp only [follow, Setting.ofLattice, found]
    rw [same]
    exact ⟨[], .none s, nothing fun e word known => by cases found.symm.trans known⟩
  | some e =>
    cases named : e.word with
    | none =>
      have same : follow (.ofLattice k l) w s place = s := by simp only [follow, Setting.ofLattice, found, named]
      rw [same]
      refine ⟨[], .none s, nothing fun e' word known other => ?_⟩
      cases found.symm.trans known
      cases named.symm.trans other
    | some word =>
      let on := w.extend k place word e.acousticScore
      have step : follow (.ofLattice k l) w s place =
          if Score.isImpossible (Lattice.ahead (l.outlook k) place) = true then s
          else s.enqueue on (l.promise k on) false := by
        simp only [follow, Setting.ofLattice, found, named]
        rfl
      rw [step]
      cases possible : Score.isImpossible (Lattice.ahead (l.outlook k) place) with
      | true => exact ⟨[], .none s, nothing fun _ _ _ _ other => by cases possible.symm.trans other⟩
      | false =>
        refine ⟨_, enqueueGrown s on (l.promise k on) false, fun x mem => ?_,
          fun p mem e' word' known other _ => ?_⟩
        · rw [List.mem_singleton.mp mem]
          exact ⟨place, List.mem_singleton_self place, e, word, s.serial, found, named, possible, rfl⟩
        · rw [List.mem_singleton.mp mem] at known ⊢
          cases found.symm.trans known
          cases named.symm.trans other
          exact ⟨_, s.serial, List.mem_singleton_self _⟩

theorem followEach (k : Knowledge α) (l : Lattice α) (w : Walk α) (places : List Nat) (s : State α) :
    ∃ new, Grown s (places.foldl (follow (.ofLattice k l) w) s) new ∧ Extends k l w places new := by
  induction places generalizing s with
  | nil =>
    exact ⟨[], .none s, fun x mem => absurd mem List.not_mem_nil, fun p mem => absurd mem List.not_mem_nil⟩
  | cons place rest ih =>
    obtain ⟨new, grown, first⟩ := followOne k l w s place
    obtain ⟨new', grown', later⟩ := ih (follow (.ofLattice k l) w s place)
    exact ⟨new' ++ new, grown.trans grown', first.cons later⟩

theorem concludeGrown {e : Exit α} (leads : l.Leads k w) (here : l.exit? w.last = some e) (s : State α) :
    ∃ new, Grown s (conclude (.ofLattice k l) s w e) new ∧
      (∀ x ∈ new, l.Completes k w ∧ ∃ serial, x = .ofWhole k w serial) ∧
      (l.Completes k w → ∃ serial, .ofWhole k w serial ∈ new) ∧ new.length ≤ 1 := by
  unfold conclude
  split
  · rename_i final
    refine ⟨_, enqueueGrown s _ _ _, fun x mem => ⟨⟨leads, e, here, final⟩, s.serial, List.mem_singleton.mp mem⟩,
      fun _ => ⟨s.serial, List.mem_singleton_self _⟩, Nat.le_refl 1⟩
  · rename_i final
    refine ⟨[], .none s, fun x mem => absurd mem List.not_mem_nil, fun completes => ?_, Nat.zero_le 1⟩
    obtain ⟨e', found, ends⟩ := completes.final
    cases here.symm.trans found
    exact absurd ends final

theorem expandGrown (formed : l.Formed) (leads : l.Leads k w) (s : State α) :
    ∃ new, Grown { s with expansions := s.expansions + 1 } (expand (.ofLattice k l) s w) new ∧
      Expansion k l w new := by
  obtain ⟨e, here, _, within⟩ := leads.last formed
  let ended := conclude (.ofLattice k l) { s with expansions := s.expansions + 1 } w e
  obtain ⟨new, grown, only, whole, few⟩ := concludeGrown leads here { s with expansions := s.expansions + 1 }
  have step : expand (.ofLattice k l) s w = if l.frames ≤ e.endFrame then ended
      else (l.successors.getD e.endFrame []).foldl (follow (.ofLattice k l) w) ended := by
    simp only [expand, Setting.ofLattice, here]
    rfl
  rw [step]
  split
  · rename_i past
    refine ⟨new, grown, fun x mem => .inl (only x mem), whole, fun w' goes _ => ?_,
      (List.countP_le_length).trans few⟩
    cases goes with
    | @on before e' place word here' there named joined =>
      cases here.symm.trans here'
      obtain ⟨less, within'⟩ := formed.timed place e' word there named
      omega
  · obtain ⟨new', grown', onward⟩ := followEach k l w (l.successors.getD e.endFrame []) ended
    refine ⟨new' ++ new, grown.trans grown', fun x mem => ?_, fun completes => ?_, fun w' goes possible => ?_, ?_⟩
    · rcases List.mem_append.mp mem with later | now
      · obtain ⟨place, inside, e', word, serial, there, named, possible, same⟩ := onward.only x later
        obtain ⟨_, e'', found, joined⟩ := (l.memSuccessors within place).mp inside
        cases there.symm.trans found
        exact .inr ⟨_, serial, .on here there named joined, possible, same⟩
      · exact .inl (only x now)
    · obtain ⟨serial, mem⟩ := whole completes
      exact ⟨serial, List.mem_append_right _ mem⟩
    · cases goes with
      | @on before e' place word here' there named joined =>
        cases here.symm.trans here'
        have inside := (l.memSuccessors within place).mpr ⟨formed.afterRoot there named, e', there, joined⟩
        obtain ⟨bound, serial, mem⟩ := onward.all place inside e' word there named possible
        exact ⟨bound, serial, List.mem_append_left _ mem⟩
    · rw [List.countP_append, onward.noneWhole, Nat.zero_add]
      exact (List.countP_le_length).trans few

/-! ### What is found -/

/-- What waits, or has just been taken out, is a part of a path; what was found are records of complete paths. -/
structure Recorded (k : Knowledge α) (l : Lattice α) (s : State α) (taken : List (Candidate α)) : Prop where
  stands : ∀ x ∈ taken ++ s.queue.toList, x.Stands k l
  found : ∀ a ∈ s.found, ∃ w, l.Completes k w ∧ l.Records k w a
  distinct : (s.found.map fun a => a.hypothesis.text).Nodup

theorem startGrown (k : Knowledge α) (l : Lattice α) : Grown ⟨.empty, 0, 0, []⟩ (start (.ofLattice k l))
    [.ofWay (.root k) (Lattice.ahead (l.outlook k) 0) 0] :=
  enqueueGrown ⟨.empty, 0, 0, []⟩ _ _ _

theorem startRecorded (k : Knowledge α) (l : Lattice α) : Recorded k l (start (.ofLattice k l)) [] := by
  obtain ⟨items, _, found, _⟩ := startGrown k l
  refine ⟨fun x mem => ?_, fun a mem => ?_, ?_⟩
  · rw [List.nil_append, items.mem_iff] at mem
    rw [List.mem_singleton.mp mem]
    exact .way _ 0 .refl
  · cases found ▸ mem
  · rw [found]
    exact List.nodup_nil

theorem Recorded.pop {s : State α} (recorded : Recorded k l s []) {x : Candidate α} {queue : Queue (Candidate α)}
    (popped : s.queue.pop? Candidate.before = some (x, queue)) : Recorded k l { s with queue } [x] :=
  ⟨fun y mem => recorded.stands y ((Queue.popItems popped).mem_iff.mpr mem), recorded.found, recorded.distinct⟩

theorem Recorded.recorded {s : State α} {x : Candidate α} (kept : Recorded k l s [x])
    (completes : l.Completes k w) : Recorded k l (record (.ofLattice k l) s { w with score := w.total k }) [] := by
  have waiting (y : Candidate α) (mem : y ∈ s.queue.toList) := kept.stands y (List.mem_append_right [x] mem)
  rcases recordIs k l s w with ⟨same, _⟩ | ⟨fresh, a, records, same⟩
  · rw [same]
    exact ⟨waiting, kept.found, kept.distinct⟩
  · rw [same]
    refine ⟨waiting, fun b mem => ?_, ?_⟩
    · rcases List.mem_append.mp mem with old | latest
      · exact kept.found b old
      · rw [List.mem_singleton.mp latest]
        exact ⟨w, completes, records⟩
    · rw [List.map_append, List.nodup_append]
      refine ⟨kept.distinct, List.nodup_singleton _, fun t mem t' mem' both => ?_⟩
      obtain ⟨b, old, rfl⟩ := List.mem_map.mp mem
      obtain rfl := List.mem_singleton.mp mem'
      exact fresh b old (both.trans records.text)

theorem Recorded.expanded {s : State α} {x : Candidate α} (formed : l.Formed) (kept : Recorded k l s [x])
    (leads : l.Leads k w) : Recorded k l (expand (.ofLattice k l) s w) [] := by
  obtain ⟨new, ⟨items, _, found, _⟩, only, _⟩ := expandGrown formed leads s
  refine ⟨fun y mem => ?_, ?_, ?_⟩
  · rcases List.mem_append.mp (items.mem_iff.mp mem) with fresh | old
    · rcases only y fresh with ⟨completes, serial', rfl⟩ | ⟨w', serial', goes, _, rfl⟩
      · exact .whole serial' completes
      · exact .way _ serial' (leads.tail goes)
    · exact kept.stands y (List.mem_append_right _ old)
  · rw [found]
    exact kept.found
  · rw [found]
    exact kept.distinct

theorem Recorded.served {s : State α} {x : Candidate α} (formed : l.Formed) (taken : Recorded k l s [x]) :
    Recorded k l (serve (.ofLattice k l) s x) [] := by
  cases taken.stands x List.mem_cons_self with
  | way bound serial leads => exact taken.expanded formed leads
  | whole serial completes => exact taken.recorded completes

/-! ### How long a search goes on -/

/-- What each served candidate leaves as it was holds when the search stops. -/
theorem runKeeps {c : Setting α} {wanted : Nat} {holds : State α → Prop}
    (step : ∀ s x queue, holds s → s.expansions < expansionLimit →
      s.queue.pop? Candidate.before = some (x, queue) → holds (serve c { s with queue } x))
    (count : Nat) {s : State α} (first : holds s) : holds (run c wanted count s) := by
  induction count generalizing s with
  | zero => exact first
  | succ n ih =>
    unfold run
    cases popped : s.queue.pop? Candidate.before with
    | none => exact first
    | some pair =>
      obtain ⟨x, queue⟩ := pair
      dsimp only
      split
      · exact first
      · rename_i going
        exact ih (step s x queue first (by omega) popped)

/-- A step either expands a way, which queues one complete path at most, or takes a complete path from the queue. -/
theorem servedCount (formed : l.Formed) {x : Candidate α} (stands : x.Stands k l) (s : State α) :
    let after := serve (.ofLattice k l) s x
    after.found.length ≤ s.found.length + 1 ∧
      after.queue.toList.countP Candidate.complete + 2 * s.expansions + 1 ≤
        (x :: s.queue.toList).countP Candidate.complete + 2 * after.expansions := by
  cases stands with
  | @way w bound serial leads =>
    have same : serve (.ofLattice k l) s (.ofWay w bound serial) = expand (.ofLattice k l) s w := rfl
    have onWay : (Candidate.ofWay w bound serial).complete = false := rfl
    obtain ⟨new, ⟨items, _, found, expansions⟩, _, _, _, ends⟩ := expandGrown formed leads s
    rw [same, List.countP_cons_of_neg (by simp [onWay])]
    refine ⟨by rw [found]; exact Nat.le_succ _, ?_⟩
    rw [items.countP_eq, List.countP_append, expansions]
    dsimp only
    omega
  | @whole w serial completes =>
    have same : serve (.ofLattice k l) s (.ofWhole k w serial) =
        record (.ofLattice k l) s { w with score := w.total k } := rfl
    rw [same, List.countP_cons_of_pos rfl]
    rcases recordIs k l s w with ⟨kept, _⟩ | ⟨_, a, _, kept⟩
    · rw [kept]
      omega
    · rw [kept]
      simp only [List.length_append, List.length_singleton]
      omega

/-- Nothing waits, enough was found, or the search gives up. -/
def State.Stopped (wanted : Nat) (s : State α) : Prop :=
  s.queue.toList = [] ∨ wanted ≤ s.found.length ∨ expansionLimit ≤ s.expansions

theorem runStops (formed : l.Formed) (wanted count : Nat) {s : State α} (kept : Recorded k l s [])
    (few : s.found.length ≤ wanted)
    (enough : 2 * expansionLimit + 1 + s.queue.toList.countP Candidate.complete ≤ count + 2 * s.expansions) :
    let last := run (.ofLattice k l) wanted count s
    last.found.length ≤ wanted ∧ last.Stopped wanted := by
  induction count generalizing s with
  | zero =>
    refine ⟨few, .inr (.inr ?_)⟩
    -- the steps of a search are enough for all expansions and one complete path of each
    change expansionLimit ≤ s.expansions
    omega
  | succ n ih =>
    unfold run
    cases popped : s.queue.pop? Candidate.before with
    | none => exact ⟨few, .inl (Queue.popEmpty popped)⟩
    | some pair =>
      obtain ⟨x, queue⟩ := pair
      have items := Queue.popItems popped
      dsimp only
      split
      · rename_i past
        exact ⟨few, .inr past⟩
      · rename_i going
        rw [not_or, Nat.not_le] at going
        rw [items.countP_eq] at enough
        have taken := kept.pop popped
        obtain ⟨found, expansions⟩ := servedCount formed (taken.stands x List.mem_cons_self) { s with queue }
        dsimp only at found expansions
        exact ih (taken.served formed) (by omega) (by omega)

/-! ### What no step loses -/

/-- Of each complete path, the text has been found, or a part is in the queue or has just been taken from it. -/
structure Covering (k : Knowledge α) (l : Lattice α) (s : State α) (taken : List (Candidate α)) : Prop extends
    Recorded k l s taken where
  covered : ∀ w, l.Completes k w → (∃ a ∈ s.found, a.hypothesis.text = l.textAlong k w) ∨
    ∃ x ∈ taken ++ s.queue.toList, x.Covers k l w

theorem startCovering (k : Knowledge α) (l : Lattice α) : Covering k l (start (.ofLattice k l)) [] := by
  obtain ⟨items, _⟩ := startGrown k l
  refine ⟨startRecorded k l, fun w completes => .inr ?_⟩
  exact ⟨_, items.mem_iff.mpr (List.mem_singleton_self _), .way _ 0 completes.leads⟩

theorem Covering.pop {s : State α} (covering : Covering k l s []) {x : Candidate α} {queue : Queue (Candidate α)}
    (popped : s.queue.pop? Candidate.before = some (x, queue)) : Covering k l { s with queue } [x] := by
  refine ⟨covering.toRecorded.pop popped, fun w completes => ?_⟩
  rcases covering.covered w completes with known | ⟨y, mem, covers⟩
  · exact .inl known
  · exact .inr ⟨y, (Queue.popItems popped).mem_iff.mp mem, covers⟩

theorem Covering.recorded {s : State α} {serial : Nat} (covering : Covering k l s [.ofWhole k w serial])
    (completes : l.Completes k w) : Covering k l (record (.ofLattice k l) s { w with score := w.total k }) [] := by
  have covered {found : List (Alternative α)} (kept : ∀ b ∈ s.found, b ∈ found) {a : Alternative α}
      (mem : a ∈ found) (text : a.hypothesis.text = l.textAlong k w) (w' : Walk α) (completes' : l.Completes k w') :
      (∃ b ∈ found, b.hypothesis.text = l.textAlong k w') ∨ ∃ x ∈ s.queue.toList, x.Covers k l w' := by
    rcases covering.covered w' completes' with ⟨b, old, known⟩ | ⟨x, taken, covers⟩
    · exact .inl ⟨b, kept b old, known⟩
    · rcases List.mem_cons.mp taken with rfl | later
      · exact .inl ⟨a, mem, text.trans covers.ofWhole.1.symm⟩
      · exact .inr ⟨x, later, covers⟩
  refine ⟨covering.toRecorded.recorded completes, ?_⟩
  rcases recordIs k l s w with ⟨same, old, mem, text⟩ | ⟨_, a, records, same⟩
  · rw [same]
    exact covered (fun _ mem => mem) mem text
  · rw [same]
    exact covered (fun b mem => List.mem_append_left _ mem) (List.mem_append_right _ (List.mem_singleton_self a))
      records.text

section
variable [Score.Possible α]

theorem Covering.expanded {s : State α} {bound : α} {serial : Nat} (formed : l.Formed) (clear : l.Clear k)
    (covering : Covering k l s [.ofWay w bound serial]) (leads : l.Leads k w) :
    Covering k l (expand (.ofLattice k l) s w) [] := by
  refine ⟨covering.toRecorded.expanded formed leads, fun w' completes => ?_⟩
  obtain ⟨new, ⟨items, _, found, _⟩, _, whole, ways, _⟩ := expandGrown formed leads s
  rw [found]
  rcases covering.covered w' completes with known | ⟨x, mem, covers⟩
  · exact .inl known
  · refine .inr ?_
    rcases List.mem_cons.mp mem with rfl | later
    · -- the path ends here, or goes on over an exit that has been queued
      rcases ReflTransGen.cases_head covers.ofWay with rfl | ⟨next, goes, on⟩
      · obtain ⟨serial', mem'⟩ := whole completes
        exact ⟨_, items.mem_iff.mpr (List.mem_append_left _ mem'), .whole serial'⟩
      · obtain ⟨_, serial', mem'⟩ := ways next goes (Lattice.aheadPossible formed clear on completes)
        exact ⟨_, items.mem_iff.mpr (List.mem_append_left _ mem'), .way _ serial' on⟩
    · exact ⟨x, items.mem_iff.mpr (List.mem_append_right _ later), covers⟩

theorem Covering.served {s : State α} {x : Candidate α} (formed : l.Formed) (clear : l.Clear k)
    (taken : Covering k l s [x]) : Covering k l (serve (.ofLattice k l) s x) [] := by
  cases taken.stands x List.mem_cons_self with
  | way bound serial leads => exact taken.expanded formed clear leads
  | whole serial completes => exact taken.recorded completes

theorem runCovering (formed : l.Formed) (clear : l.Clear k) (wanted count : Nat) {s : State α}
    (covering : Covering k l s []) (few : s.found.length ≤ wanted)
    (enough : 2 * expansionLimit + 1 + s.queue.toList.countP Candidate.complete ≤ count + 2 * s.expansions) :
    let last := run (.ofLattice k l) wanted count s
    Covering k l last [] ∧ last.found.length ≤ wanted ∧
      (last.expansions < expansionLimit → last.queue.toList = [] ∨ wanted ≤ last.found.length) := by
  obtain ⟨size, stopped⟩ := runStops formed wanted count covering.toRecorded few enough
  have step : ∀ s x queue, Covering k l s [] → s.expansions < expansionLimit →
      s.queue.pop? Candidate.before = some (x, queue) → Covering k l (serve (.ofLattice k l) { s with queue } x) [] :=
    fun s x queue covering _ popped => (covering.pop popped).served formed clear
  refine ⟨runKeeps step count covering, size, fun within => ?_⟩
  rcases stopped with empty | enough | spent
  · exact .inl empty
  · exact .inr enough
  · omega

end

/-! ### Best first -/

variable [Exact α]

/-- What has been found is at least as high as all that waits, and as every path of the same text. -/
structure Searched (k : Knowledge α) (l : Lattice α) (s : State α) (taken : List (Candidate α)) : Prop extends
    Covering k l s taken where
  heaped : s.queue.Heaped Candidate.before
  promised : ∀ x ∈ taken ++ s.queue.toList, x.Promised k l
  highest : ∀ a ∈ s.found, ∀ x ∈ taken ++ s.queue.toList, Score.atMost x.bound a.hypothesis.score = true
  best : ∀ a ∈ s.found, ∀ w, l.Completes k w → a.hypothesis.text = l.textAlong k w →
    Score.atMost (w.total k) a.hypothesis.score = true

theorem startSearched (k : Knowledge α) (l : Lattice α) : Searched k l (start (.ofLattice k l)) [] := by
  obtain ⟨items, heaped, found, _⟩ := startGrown k l
  have none (a : Alternative α) : a ∉ (start (.ofLattice k l)).found := by
    rw [found]
    exact List.not_mem_nil
  refine ⟨startCovering k l, heaped Candidate.ranking trivial, fun x mem _ => ?_, fun a mem => absurd mem (none a),
    fun a mem => absurd mem (none a)⟩
  rw [List.nil_append, items.mem_iff] at mem
  rw [List.mem_singleton.mp mem]
  exact (Exact.zeroAdd _).symm

theorem Searched.pop {s : State α} (searched : Searched k l s []) {x : Candidate α} {queue : Queue (Candidate α)}
    (popped : s.queue.pop? Candidate.before = some (x, queue)) :
    Searched k l { s with queue } [x] ∧ ∀ y ∈ queue.toList, Score.atMost y.bound x.bound = true := by
  obtain ⟨heaped, first⟩ := Queue.popFirst Candidate.ranking searched.heaped popped
  have same (y : Candidate α) : y ∈ [x] ++ queue.toList ↔ y ∈ [] ++ s.queue.toList :=
    (Queue.popItems popped).mem_iff.symm
  refine ⟨⟨searched.toCovering.pop popped, heaped, fun y mem => searched.promised y ((same y).mp mem),
    fun a mem y mem' => searched.highest a mem y ((same y).mp mem'), searched.best⟩, fun y mem => ?_⟩
  rw [← Score.orderAtMost]
  exact (Candidate.notBefore.mp (first y mem)).1

variable (sound : l.Sound k) (consistent : k.lexicon.Consistent) (falling : k.Falling)
include sound consistent falling

theorem Searched.recorded {s : State α} {serial : Nat} (searched : Searched k l s [.ofWhole k w serial])
    (completes : l.Completes k w) (last : ∀ y ∈ s.queue.toList, Score.atMost y.bound (w.total k) = true) :
    Searched k l (record (.ofLattice k l) s { w with score := w.total k }) [] := by
  have waiting (y : Candidate α) (mem : y ∈ s.queue.toList) : y ∈ [.ofWhole k w serial] ++ s.queue.toList :=
    List.mem_append_right _ mem
  have covering := searched.toCovering.recorded completes
  rcases recordIs k l s w with ⟨same, _⟩ | ⟨fresh, a, ⟨_, text, score⟩, same⟩
  · rw [same] at covering ⊢
    exact ⟨covering, searched.heaped, fun y mem => searched.promised y (waiting y mem),
      fun a mem y mem' => searched.highest a mem y (waiting y mem'), searched.best⟩
  · rw [same] at covering ⊢
    have added (b : Alternative α) : b ∈ s.found ++ [a] ↔ b ∈ s.found ∨ b = a := by
      rw [List.mem_append, List.mem_singleton]
    refine ⟨covering, searched.heaped, fun y mem => searched.promised y (waiting y mem), fun b mem y mem' => ?_,
      fun b mem w' completes' text' => ?_⟩
    · rcases (added b).mp mem with old | rfl
      · exact searched.highest b old y (waiting y mem')
      · rw [score]
        exact last y mem'
    · rcases (added b).mp mem with old | rfl
      · exact searched.best b old w' completes' text'
      · -- no path of the text had been found, so each has a part that waited behind this one
        rw [score]
        rcases searched.covered w' completes' with ⟨c, old, known⟩ | ⟨x, taken, covers⟩
        · exact absurd (known.trans (text'.symm.trans text)) (fresh c old)
        · have below := covers.bounded sound consistent falling completes' (searched.promised x taken)
          rcases List.mem_cons.mp taken with rfl | later
          · exact below
          · exact Score.Monotone.atMostTrans _ _ _ below (last x later)

theorem Searched.expanded {s : State α} {bound : α} {serial : Nat}
    (searched : Searched k l s [.ofWay w bound serial]) (leads : l.Leads k w) :
    Searched k l (expand (.ofLattice k l) s w) [] := by
  have covering := searched.toCovering.expanded sound.toFormed sound.clear leads
  obtain ⟨new, ⟨items, heaped, found, _⟩, only, _⟩ := expandGrown sound.toFormed leads s
  have waiting (y : Candidate α) (mem : y ∈ s.queue.toList) : y ∈ [.ofWay w bound serial] ++ s.queue.toList :=
    List.mem_append_right _ mem
  have first : .ofWay w bound serial ∈ [Candidate.ofWay w bound serial] ++ s.queue.toList := List.mem_cons_self
  have promise : bound = l.promise k w := searched.promised _ first rfl
  have fresh (x : Candidate α) (mem : x ∈ new) : x.Promised k l ∧ Score.atMost x.bound bound = true := by
    rw [promise]
    rcases only x mem with ⟨completes, serial', rfl⟩ | ⟨w', serial', goes, possible, rfl⟩
    · exact ⟨fun way => (by cases way), Lattice.totalPromised sound consistent falling .refl completes⟩
    · exact ⟨fun _ => rfl, Lattice.promiseFalls sound consistent falling goes possible⟩
  refine ⟨covering, heaped Candidate.ranking searched.heaped, fun x mem => ?_, fun a mem x mem' => ?_, ?_⟩
  · rcases List.mem_append.mp (items.mem_iff.mp mem) with now | old
    · exact (fresh x now).1
    · exact searched.promised x (waiting x old)
  · rw [found] at mem
    rcases List.mem_append.mp (items.mem_iff.mp mem') with now | old
    · exact Score.Monotone.atMostTrans _ _ _ (fresh x now).2 (searched.highest a mem _ first)
    · exact searched.highest a mem x (waiting x old)
  · rw [found]
    exact searched.best

theorem Searched.served {s : State α} {x : Candidate α} (taken : Searched k l s [x])
    (last : ∀ y ∈ s.queue.toList, Score.atMost y.bound x.bound = true) :
    Searched k l (serve (.ofLattice k l) s x) [] := by
  cases taken.stands x List.mem_cons_self with
  | way bound serial leads => exact taken.expanded sound consistent falling leads
  | whole serial completes => exact taken.recorded sound consistent falling completes last

theorem runSearched (wanted count : Nat) {s : State α} (searched : Searched k l s []) :
    Searched k l (run (.ofLattice k l) wanted count s) [] := by
  have step : ∀ s x queue, Searched k l s [] → s.expansions < expansionLimit →
      s.queue.pop? Candidate.before = some (x, queue) →
      Searched k l (serve (.ofLattice k l) { s with queue } x) [] := by
    intro s x queue searched _ popped
    obtain ⟨taken, last⟩ := searched.pop popped
    exact taken.served sound consistent falling last
  exact runKeeps step count searched

end

end Alternatives

end SpeechDecoder.Search
