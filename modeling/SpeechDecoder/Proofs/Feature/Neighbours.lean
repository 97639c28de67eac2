import SpeechDecoder.Proofs.Feature.Streaming

/-! The cepstra that a frame is made of. Those that no later frame needs are dropped and those to come are waited for,
so that the limits on what is looked at are met only at the two ends of an utterance. -/
namespace SpeechDecoder.Feature.Stage

inductive Call where
  | push (cepstrum : List Float32)
  | pop
  deriving DecidableEq

def Call.cepstrum? : Call → Option (List Float32)
  | push cepstrum => some cepstrum
  | pop => none

def pushed (calls : List Call) : List (List Float32) := calls.filterMap Call.cepstrum?

def perform (g : Stage) : Call → Stage
  | .push cepstrum => g.push cepstrum
  | .pop => match g.pop? with
    | some (_, g) => g
    | none => g

def after (g : Stage) (calls : List Call) : Stage := calls.foldl perform g

/-- The number of the cepstrum that is meant by `t` where there are `count` of them. -/
def clamped (count : Nat) (t : Int) : Nat := (max 0 (min t (count - 1))).toNat

/-- At `d` from the next frame the stage looks at the normalized cepstrum that is meant, which it has kept. -/
structure Reads (s : Settings) (cepstra : List (List Float32)) (g : Stage) (d : Int) : Prop where
  unclamped : g.finished = false → (g.emitted : Int) + d < g.received
  kept : g.base ≤ clamped cepstra.length (g.emitted + d)
  within : clamped cepstra.length (g.emitted + d) - g.base < g.history.length
  held : g.history[clamped cepstra.length (g.emitted + d) - g.base]? = some (g.cepstrumAt (g.emitted + d))
  normal : (s.normalized cepstra)[clamped cepstra.length (g.emitted + d)]? = some (g.cepstrumAt (g.emitted + d))

structure Exact (s : Settings) (cepstra : List (List Float32)) (g : Stage) : Prop where
  sized : g.base + g.history.length = g.received
  dropped : g.emitted ≤ g.base + s.streams.context + 1
  reads (frame : Frame Float32) (g' : Stage) : g.pop? = some (frame, g') →
    frame = ⟨g.emitted, frameValues s.streams (s.normalized cepstra) g.emitted⟩ ∧
      ∀ d : Int, -(s.streams.context : Int) ≤ d → d ≤ s.streams.context → Reads s cepstra g d

/-! ### The older ones are dropped -/

/-- Of the cepstra that no later frame needs the last one may be kept, and no more. -/
def Trimmed (g : Stage) : Prop :=
  g.base + g.history.length = g.received ∧ g.emitted ≤ g.base + g.streams.context + 1

variable {s : Settings} {cepstra : List (List Float32)} {w e : Nat} {g : Stage}

theorem acceptTrimmed (trimmed : g.Trimmed) (more : List (List Float32)) : (g.accept more).Trimmed := by
  obtain ⟨sized, few⟩ := trimmed
  refine ⟨?_, few⟩
  simp only [accept, List.length_append]
  omega

theorem pushTrimmed (trimmed : g.Trimmed) (cepstrum : List Float32) : (g.push cepstrum).Trimmed := by
  unfold Stage.push
  split
  · exact acceptTrimmed trimmed _
  · exact acceptTrimmed (g := { g with mean := (g.mean.apply cepstrum).2 }) trimmed _
  · exact trimmed

theorem finishTrimmed (trimmed : g.Trimmed) : g.finish.Trimmed := by
  unfold Stage.finish
  split
  · exact trimmed
  · cases g.mode with
    | batch => exact acceptTrimmed (g := { g with held := #[] }) trimmed _
    | _ => exact trimmed

theorem popTrimmed (trimmed : g.Trimmed) {frame : Frame Float32} {g' : Stage} (pop : g.pop? = some (frame, g')) :
    g'.Trimmed := by
  obtain ⟨sized, few⟩ := trimmed
  unfold pop? at pop
  split at pop
  · rename_i ready
    cases pop
    simp only [isReady, Bool.and_eq_true, decide_eq_true_eq] at ready
    simp only [Trimmed, trim, List.length_drop]
    omega
  · cases pop

theorem performTrimmed (trimmed : g.Trimmed) (call : Call) : (g.perform call).Trimmed := by
  cases call with
  | push cepstrum => exact pushTrimmed trimmed cepstrum
  | pop =>
    cases popped : g.pop? with
    | none => simpa only [perform, popped] using trimmed
    | some given => simpa only [perform, popped] using popTrimmed trimmed popped

theorem afterTrimmed (trimmed : g.Trimmed) (calls : List Call) : (g.after calls).Trimmed := by
  induction calls generalizing g with
  | nil => exact trimmed
  | cons call rest ih => exact ih (performTrimmed trimmed call)

/-! ### What is needed is there -/

theorem Along.reads (along : Along s cepstra w e g) (ready : g.isReady = true) {d : Int}
    (left : -(s.streams.context : Int) ≤ d) (right : d ≤ s.streams.context) : Reads s cepstra g d := by
  have sized := along.holds.sized
  have size := s.normalizedLength cepstra
  simp only [isReady, Bool.and_eq_true, Bool.or_eq_true, decide_eq_true_eq, along.holds.streams] at ready
  obtain ⟨more, enough⟩ := ready
  have emitted := along.holds.emitted
  have early := along.holds.early
  have kept := along.holds.kept
  have last := along.holds.last
  have known : (g.emitted : Int) + d < g.received ∨ g.received = cepstra.length := by
    rcases enough with ended | room
    · exact .inr (along.complete ended).2
    · left
      omega
  have place : g.base ≤ clamped cepstra.length (g.emitted + d) ∧
      clamped cepstra.length (g.emitted + d) < g.received := by
    unfold clamped
    omega
  have around := along.holds.around (t := g.emitted + d) (by omega) (by omega) known
  have normal : (s.normalized cepstra)[clamped cepstra.length (g.emitted + d)]? =
      some (g.cepstrumAt (g.emitted + d)) := by
    rw [around, nearest, List.getD_eq_getElem?_getD, size]
    have inside : clamped cepstra.length (g.emitted + d) < (s.normalized cepstra).length := by omega
    rw [clamped] at inside ⊢
    rw [List.getElem?_eq_getElem inside, Option.getD_some]
  refine ⟨fun going => ?_, place.1, by omega, ?_, normal⟩
  · rcases enough with ended | room
    · rw [going] at ended
      cases ended
    · omega
  · rw [along.holds.history, List.getElem?_drop, Nat.add_sub_cancel' place.1, List.getElem?_take_of_lt place.2]
    exact normal

theorem Along.exact (along : Along s cepstra w e g) (trimmed : g.Trimmed) : Exact s cepstra g := by
  have dropped : g.emitted ≤ g.base + s.streams.context + 1 := along.holds.streams ▸ trimmed.2
  refine ⟨along.holds.sized, dropped, fun frame g' pop => ⟨?_, fun d => along.reads ?_⟩⟩
  · rw [along.holds.emitted]
    exact (along.pop pop).1
  · unfold pop? at pop
    split at pop
    next ready => exact ready
    next => cases pop

theorem Along.after (calls : List Call) (ahead : pushed calls <+: cepstra.drop w) (along : Along s cepstra w e g) :
    ∃ e', Along s cepstra (w + (pushed calls).length) e' (g.after calls) := by
  induction calls generalizing w e g with
  | nil => exact ⟨e, along⟩
  | cons call rest ih =>
    cases call with
    | push cepstrum =>
      obtain ⟨here, later⟩ : cepstra[w]? = some cepstrum ∧ pushed rest <+: cepstra.drop (w + 1) := by
        obtain ⟨behind, whole⟩ := ahead
        have parts : cepstra.drop w = cepstrum :: (pushed rest ++ behind) := whole.symm
        have next : cepstra.drop (w + 1) = pushed rest ++ behind := by
          rw [← List.tail_drop, parts, List.tail_cons]
        refine ⟨?_, behind, next.symm⟩
        rw [← Nat.add_zero w, ← List.getElem?_drop, parts]
        rfl
      obtain ⟨e', last⟩ := ih later (along.push here)
      refine ⟨e', ?_⟩
      have count : w + (pushed (.push cepstrum :: rest)).length = w + 1 + (pushed rest).length := by
        simp only [pushed, List.filterMap_cons, Call.cepstrum?, List.length_cons]
        omega
      rw [count]
      exact last
    | pop =>
      have same : g.after (.pop :: rest) = (g.perform .pop).after rest := rfl
      have none : pushed (.pop :: rest) = pushed rest := rfl
      cases popped : g.pop? with
      | none => simpa only [same, none, perform, popped] using ih ahead along
      | some given => simpa only [same, none, perform, popped] using ih ahead (along.pop popped).2.2.1

/-- However cepstra are pushed and frames popped, and popped after the end, a stage looks at the normalized cepstra
that are meant; before the end none of them stands in for a later one. -/
theorem neighboursExact (s : Settings) (calls : List Call) (pops : Nat) :
    (∀ earlier, earlier <+: calls → Exact s (pushed calls) ((ofSettings s).after earlier)) ∧
      Exact s (pushed calls) (((ofSettings s).after calls).finish.after (List.replicate pops .pop)) := by
  have start : (ofSettings s).Trimmed := ⟨rfl, Nat.zero_le _⟩
  constructor
  · rintro earlier ⟨later, rfl⟩
    have ahead : pushed earlier <+: (pushed (earlier ++ later)).drop 0 :=
      ⟨pushed later, (List.filterMap_append).symm⟩
    obtain ⟨e, along⟩ := (startAlong s _).after earlier ahead
    exact along.exact (afterTrimmed start earlier)
  · have whole : pushed calls <+: (pushed calls).drop 0 := List.prefix_rfl
    obtain ⟨e, along⟩ := (startAlong s _).after calls whole
    rw [Nat.zero_add] at along
    have none : pushed (List.replicate pops .pop) <+: (pushed calls).drop (pushed calls).length := by
      have empty : pushed (List.replicate pops .pop) = [] := by
        simp [pushed, Call.cepstrum?]
      rw [empty]
      exact List.nil_prefix
    obtain ⟨e', last⟩ := along.finish.1.after _ none
    exact last.exact (afterTrimmed (finishTrimmed (afterTrimmed start calls)) _)

/-- Of five cepstra the first is dropped before the fourth frame is made, for which the last one is looked at twice. -/
theorem neighboursOfFiveCepstra :
    let s : Settings := ⟨8000, 100, 3, 2, 4, 1, 130, 3700, 1, 0.97, .legacy, 0, true, 1, false, false, .delta, .live, []⟩
    let calls : List Call := [.push [1], .pop, .push [2], .push [4], .pop, .push [8], .pop, .push [16]]
    let ended := ((ofSettings s).after calls).finish.after (List.replicate 1 .pop)
    Exact s (pushed calls) ((ofSettings s).after (calls.take 5)) ∧ Exact s (pushed calls) ended ∧
      (ended.emitted, ended.base, ended.received) = (3, 1, 5) ∧ ended.pop?.isSome = true := by
  intro s calls ended
  obtain ⟨earlier, last⟩ := neighboursExact s calls 1
  exact ⟨earlier _ (List.take_prefix 5 calls), last, by decide +kernel, by decide +kernel⟩

end SpeechDecoder.Feature.Stage
