import SpeechDecoder.Proofs.Feature.Whole
import SpeechDecoder.Proofs.Feature.Reset

/-! The front end along a stream. However samples are pushed and frames left undrawn, the windows so far are the
first ones of the whole utterance, the stage has what is still needed of their cepstra, and the frames so far are
the first ones of the whole utterance. -/
namespace SpeechDecoder.Feature

namespace Signal

def paused (s : Settings) (samples : List Int16) (w : Nat) (ending : Bool) : Signal :=
  { (ofSettings s).extend samples with offset := w * s.shift, windows := w, ending }

theorem extendFixed (g : Signal) (samples : List Int16) :
    (g.extend samples).length = g.length ∧ (g.extend samples).shift = g.shift ∧
      (g.extend samples).total = g.total + samples.length := by
  induction samples generalizing g with
  | nil => exact ⟨rfl, rfl, rfl⟩
  | cons sample rest ih =>
    obtain ⟨length, shift, total⟩ := ih (g.pushSample sample)
    refine ⟨length, shift, total.trans ?_⟩
    simp only [pushSample, List.length_cons]
    omega

theorem extendPlaced (g : Signal) (offset windows : Nat) (ending : Bool) (samples : List Int16) :
    ({ g with offset, windows, ending } : Signal).extend samples =
      { g.extend samples with offset, windows, ending } := by
  induction samples generalizing g with
  | nil => rfl
  | cons sample rest ih => exact ih (g.pushSample sample)

theorem pausedExtend (s : Settings) (samples more : List Int16) (w : Nat) (ending : Bool) :
    (paused s samples w ending).extend more = paused s (samples ++ more) w ending := by
  unfold paused
  rw [extendPlaced, extendAppend]

theorem pausedValues (s : Settings) (samples : List Int16) (w : Nat) (ending : Bool) :
    (paused s samples w ending).values.toList = s.sampleValues samples :=
  (extendValues (ofSettings s) samples).trans (List.nil_append _)

theorem noisyLength (d : Option Dither) (samples : List Int16) : (noisy d samples).length = samples.length :=
  List.length_mapIdx

theorem valuesLength (s : Settings) (samples : List Int16) : (s.sampleValues samples).length = samples.length := by
  simp [Settings.sampleValues, emphasized, noisyLength]

theorem valuesMore (s : Settings) (samples more : List Int16) :
    ∃ values, s.sampleValues (samples ++ more) = s.sampleValues samples ++ values := by
  rw [← pausedValues s samples 0 false, ← pausedValues s (samples ++ more) 0 false, ← pausedExtend]
  exact ⟨_, extendValues _ more⟩

/-- A signal of which `w` windows are drawn: full ones, or all of them and the last one may be short. -/
inductive Along (s : Settings) (samples : List Int16) : (w : Nat) → (ending : Bool) → Signal → Prop where
  | within {w ending g} (alike : g.Alike (paused s samples w ending))
      (full : w ≤ windowCount s.length s.shift samples.length) : Along s samples w ending g
  | through {w g} (length : g.length = s.length) (shift : g.shift = s.shift) (used : g.available = 0)
      (all : w = (windowsOf s.length s.shift (s.sampleValues samples)).length) : Along s samples w true g

theorem startAlong (s : Settings) : Along s [] 0 false (ofSettings s) := by
  refine .within ?_ (Nat.zero_le _)
  have same : paused s [] 0 false = ofSettings s := by simp [paused, extend, ofSettings]
  rw [same]
  exact alikeRefl _

variable {s : Settings} {samples : List Int16} {w : Nat} {ending : Bool} {g : Signal}

theorem Along.sizes (along : Along s samples w ending g) : g.length = s.length ∧ g.shift = s.shift := by
  cases along with
  | within alike full =>
    obtain ⟨length, shift, _⟩ := extendFixed (ofSettings s) samples
    exact ⟨alike.length.trans length, alike.shift.trans shift⟩
  | through length shift used all => exact ⟨length, shift⟩

theorem Along.push (along : Along s samples w false g) (apart : 0 < s.shift) (more : List Int16) :
    Along s (samples ++ more) w false (g.push more) := by
  cases along with
  | within alike full =>
    refine .within ?_ ?_
    · rw [← pausedExtend]
      exact pushAlike alike more
    · cases w with
      | zero => exact Nat.zero_le _
      | succ before =>
        have fits := (ltCount apart before _).mp full
        refine (ltCount apart before _).mpr (Nat.le_trans fits ?_)
        simp

theorem Along.finish (along : Along s samples w ending g) : Along s samples w true g.finish := by
  cases along with
  | within alike full => exact .within (finishAlike alike) full
  | through length shift used all => exact .through length shift used all

theorem pausedLength (s : Settings) (samples : List Int16) (w : Nat) (ending : Bool) :
    (paused s samples w ending).length = s.length := (extendFixed (ofSettings s) samples).1

theorem pausedAvailable (s : Settings) (samples : List Int16) (w : Nat) (ending : Bool) :
    (paused s samples w ending).available = samples.length - w * s.shift := by
  rw [available, ← Array.length_toList, pausedValues, valuesLength]
  rfl

theorem pausedAhead (s : Settings) (samples : List Int16) (w : Nat) (ending : Bool) :
    (paused s samples w ending).ahead = (s.sampleValues samples).drop (w * s.shift) := by
  rw [ahead, pausedValues]
  rfl

theorem pausedRoom (long : 0 < s.length) (apart : 0 < s.shift) :
    (paused s samples w ending).length ≤ (paused s samples w ending).available ↔
      w < windowCount s.length s.shift samples.length := by
  rw [ltCount apart, pausedLength, pausedAvailable]
  omega

theorem pausedFull (long : 0 < s.length) (apart : 0 < s.shift)
    (full : w < windowCount s.length s.shift samples.length) : (paused s samples w ending).next? =
      some (((s.sampleValues samples).drop (w * s.shift)).take s.length, paused s samples (w + 1) ending) := by
  have length := pausedLength s samples w ending
  have shift : ((ofSettings s).extend samples).shift = s.shift := (extendFixed (ofSettings s) samples).2.1
  rw [nextFull ((pausedRoom long apart).mpr full), pausedAhead, length]
  simp only [paused] at length
  simp only [paused, length, shift, Nat.succ_mul]

theorem pausedUnseen (s : Settings) (samples : List Int16) (w : Nat) :
    ((paused s samples w true).ending && 0 < (paused s samples w true).available &&
        (paused s samples w true).covered < (paused s samples w true).total) = true ↔
      w * s.shift < samples.length ∧ Feature.covered s.length s.shift w < samples.length := by
  obtain ⟨length, shift, total⟩ := extendFixed (ofSettings s) samples
  have reach : (paused s samples w true).covered = Feature.covered s.length s.shift w := by
    simp only [covered, paused, length, shift]
    rfl
  have all : (paused s samples w true).total = samples.length := total.trans (Nat.zero_add _)
  rw [pausedAvailable, reach, all]
  simp only [paused, Bool.true_and, Bool.and_eq_true, decide_eq_true_eq]
  omega

theorem windowLater (apart : 0 < s.shift) (full : w < windowCount s.length s.shift samples.length)
    (later : List Int16) : (windowsOf s.length s.shift (s.sampleValues (samples ++ later)))[w]? =
      some (((s.sampleValues samples).drop (w * s.shift)).take s.length) := by
  have size := valuesLength s samples
  have fits := (ltCount apart w _).mp full
  obtain ⟨values, whole⟩ := valuesMore s samples later
  have still : w < windowCount s.length s.shift (s.sampleValues (samples ++ later)).length := by
    refine (ltCount apart w _).mpr ?_
    rw [valuesLength, List.length_append]
    omega
  have room : s.length ≤ ((s.sampleValues samples).drop (w * s.shift)).length := by
    rw [List.length_drop]
    omega
  rw [windowFull still, whole, List.drop_append_of_le_length (by omega), List.take_append_of_le_length room]

theorem Along.next (along : Along s samples w ending g) (long : 0 < s.length) (apart : 0 < s.shift)
    {window : List Float32} {g' : Signal} (next : g.next? = some (window, g')) {later : List Int16}
    (last : ending = true → later = []) :
    (windowsOf s.length s.shift (s.sampleValues (samples ++ later)))[w]? = some window ∧
      Along s samples (w + 1) ending g' := by
  have size := valuesLength s samples
  cases along with
  | through length shift used all =>
    rw [nextOfEmpty (by omega) used] at next
    cases next
  | within alike full =>
    obtain ⟨p', next, alike⟩ := nextAlike alike next
    by_cases more : w < windowCount s.length s.shift samples.length
    · rw [pausedFull long apart more] at next
      cases next
      exact ⟨windowLater apart more later, .within alike more⟩
    · have count : w = windowCount s.length s.shift (s.sampleValues samples).length := by
        rw [size]
        omega
      have few : ¬ (paused s samples w ending).length ≤ _ := mt (pausedRoom long apart).mp more
      by_cases unseen : ((paused s samples w ending).ending && 0 < (paused s samples w ending).available &&
        (paused s samples w ending).covered < (paused s samples w ending).total) = true
      · -- a window that is not full is given out at the end only, when no samples are to come
        have ended : ending = true := by
          simp only [Bool.and_eq_true] at unseen
          exact unseen.1.1
        subst ended
        rw [nextShort few unseen, pausedAhead] at next
        cases next
        obtain ⟨some, behind⟩ := (pausedUnseen s samples w).mp unseen
        rw [last rfl, List.append_nil]
        obtain ⟨here, all⟩ := windowShort count (by omega) (by omega)
        refine ⟨here, .through ?_ ?_ ?_ all.symm⟩
        · exact alike.length.trans (pausedLength s samples w true)
        · exact alike.shift.trans (extendFixed (ofSettings s) samples).2.1
        · exact alike.available.trans (Nat.sub_self _)
      · rw [nextNone few unseen] at next
        cases next

theorem Along.none (along : Along s samples w true g) (long : 0 < s.length) (apart : 0 < s.shift)
    (none : g.next? = none) : w = (windowsOf s.length s.shift (s.sampleValues samples)).length := by
  have size := valuesLength s samples
  cases along with
  | through length shift used all => exact all
  | within alike full =>
    have none := nextNoneAlike alike none
    by_cases more : w < windowCount s.length s.shift samples.length
    · rw [pausedFull long apart more] at none
      cases none
    · have few : ¬ (paused s samples w true).length ≤ _ := mt (pausedRoom long apart).mp more
      refine (windowsDone (by rw [size]; omega) fun unseen => ?_).symm
      rw [size] at unseen
      rw [nextShort few ((pausedUnseen s samples w).mpr unseen)] at none
      cases none

end Signal

namespace Stage

/-- What a stage that has given out `e` frames has of all cepstra: those that it has received, less those that no
later frame needs. -/
structure Holds (s : Settings) (cepstra : List (List Float32)) (e : Nat) (g : Stage) : Prop where
  streams : g.streams = s.streams
  mode : g.mode = s.meanMode
  emitted : g.emitted = e
  ahead : e ≤ g.received
  early : g.received ≤ cepstra.length
  history : g.history = ((s.normalized cepstra).take g.received).drop g.base
  kept : g.base ≤ e - s.streams.context
  last : g.base ≤ g.received - 1

/-- What is kept of the first `w` cepstra while there may be more. -/
def Taken (s : Settings) (cepstra : List (List Float32)) (w : Nat) (g : Stage) : Prop :=
  match s.meanMode with
  | .none => g.received = w
  | .live => g.received = w ∧ g.mean = (RunningMean.make s.initialMean).after (cepstra.take w)
  | .batch => g.received = 0 ∧ g.held.toList = cepstra.take w

structure Along (s : Settings) (cepstra : List (List Float32)) (w e : Nat) (g : Stage) : Prop where
  holds : Holds s cepstra e g
  complete : g.finished = true → w = cepstra.length ∧ g.received = cepstra.length
  taken : g.finished = false → Taken s cepstra w g

variable {s : Settings} {cepstra : List (List Float32)} {w e : Nat} {g : Stage}

theorem startAlong (s : Settings) (cepstra : List (List Float32)) : Along s cepstra 0 0 (ofSettings s) := by
  refine ⟨⟨rfl, rfl, rfl, Nat.le_refl 0, Nat.zero_le _, rfl, Nat.zero_le _, Nat.le_refl 0⟩,
    fun ended => (by cases ended), fun _ => ?_⟩
  unfold Taken
  split
  · rfl
  · exact ⟨rfl, rfl⟩
  · exact ⟨rfl, rfl⟩

theorem Holds.rest (holds : Holds s cepstra e g) (mean : RunningMean) (held : Array (List Float32))
    (finished : Bool) : Holds s cepstra e { g with mean, held, finished } := by
  obtain ⟨streams, mode, emitted, ahead, early, history, kept, last⟩ := holds
  exact ⟨streams, mode, emitted, ahead, early, history, kept, last⟩

theorem Holds.accept (holds : Holds s cepstra e g) {more : List (List Float32)}
    (room : g.received + more.length ≤ cepstra.length)
    (next : (s.normalized cepstra).take (g.received + more.length) =
      (s.normalized cepstra).take g.received ++ more) :
    Holds s cepstra e (g.accept more) := by
  obtain ⟨streams, mode, emitted, ahead, early, history, kept, last⟩ := holds
  have size := s.normalizedLength cepstra
  refine ⟨streams, mode, emitted, Nat.le_trans ahead (Nat.le_add_right _ _), room, ?_, kept, ?_⟩
  · simp only [Stage.accept]
    rw [next, history, List.drop_append_of_le_length (by simp; omega)]
  · simp only [Stage.accept]
    omega

theorem Holds.acceptOne (holds : Holds s cepstra e g) {values : List Float32}
    (here : (s.normalized cepstra)[g.received]? = some values) : Holds s cepstra e (g.accept [values]) := by
  have inside := (List.getElem?_eq_some_iff.mp here).1
  rw [s.normalizedLength] at inside
  refine holds.accept inside ?_
  rw [List.length_singleton, List.take_add_one, here, Option.toList_some]

theorem Along.push (along : Along s cepstra w e g) {cepstrum : List Float32} (here : cepstra[w]? = some cepstrum) :
    Along s cepstra (w + 1) e (g.push cepstrum) := by
  obtain ⟨holds, complete, taken⟩ := along
  have inside := (List.getElem?_eq_some_iff.mp here).1
  have going : g.finished = false := by
    cases ended : g.finished with
    | false => rfl
    | true =>
      have := (complete ended).1
      omega
  have taken := taken going
  have still {h : Stage} (same : h.finished = g.finished) (ended : h.finished = true) :
      w + 1 = cepstra.length ∧ h.received = cepstra.length := by
    rw [same, going] at ended
    cases ended
  unfold Taken at taken
  unfold Stage.push
  split
  · rename_i mode
    have kind := holds.mode.symm.trans mode
    simp only [kind] at taken
    refine ⟨holds.acceptOne ?_, still rfl, fun _ => ?_⟩
    · rw [taken, Settings.normalized, kind]
      exact here
    · simp only [Taken, kind, accept, taken, List.length_singleton]
  · rename_i mode
    have kind := holds.mode.symm.trans mode
    simp only [kind] at taken
    obtain ⟨received, mean⟩ := taken
    refine ⟨(holds.rest (g.mean.apply cepstrum).2 g.held g.finished).acceptOne ?_, still rfl, fun _ => ?_⟩
    · rw [received, mean, Settings.normalized, kind]
      exact RunningMean.lessRunningAt s.initialMean here
    · simp only [Taken, kind, accept, received, List.length_singleton, true_and]
      rw [mean, List.take_add_one, here, RunningMean.after, RunningMean.after, List.foldl_append]
      rfl
  · rename_i mode
    have kind := holds.mode.symm.trans mode
    simp only [kind] at taken
    obtain ⟨none, held⟩ := taken
    refine ⟨holds.rest g.mean (g.held.push cepstrum) g.finished, still rfl, fun _ => ?_⟩
    simp only [Taken, kind, none, Array.toList_push, held, true_and]
    rw [List.take_add_one, here, Option.toList_some]

theorem Along.finish (along : Along s cepstra cepstra.length e g) :
    Along s cepstra cepstra.length e g.finish ∧ g.finish.finished = true := by
  obtain ⟨holds, complete, taken⟩ := along
  have closed {h : Stage} (holds : Holds s cepstra e h) (all : h.received = cepstra.length) :
      Along s cepstra cepstra.length e { h with finished := true } :=
    ⟨holds.rest h.mean h.held true, fun _ => ⟨rfl, all⟩, fun going => by cases going⟩
  unfold Stage.finish
  split
  · rename_i ended
    exact ⟨⟨holds, complete, taken⟩, ended⟩
  · rename_i going
    have taken := taken (by simpa using going)
    unfold Taken at taken
    refine ⟨?_, rfl⟩
    split
    · rename_i mode
      simp only [holds.mode.symm.trans mode, List.take_length] at taken
      obtain ⟨none, held⟩ := taken
      have size : (centered g.held.toList).length = cepstra.length := by rw [held, centeredLength]
      have all : s.normalized cepstra = centered g.held.toList := by
        rw [held, Settings.normalized, holds.mode.symm.trans mode, centeredMean]
      -- the mean of all cepstra is known only now, so that they are all received at once
      refine closed ((holds.rest g.mean #[] g.finished).accept ?_ ?_) ?_
      · simp only [none, size, Nat.zero_add, Nat.le_refl]
      · rw [none, Nat.zero_add, all, List.take_length]
        rfl
      · simp only [accept, none, size, Nat.zero_add]
    · rename_i other
      refine closed holds ?_
      cases kind : s.meanMode with
      | none => simpa only [kind] using taken
      | live =>
        simp only [kind] at taken
        exact taken.1
      | batch => exact absurd (holds.mode.trans kind) other

theorem Holds.sized (holds : Holds s cepstra e g) : g.base + g.history.length = g.received := by
  obtain ⟨streams, mode, emitted, ahead, early, history, kept, last⟩ := holds
  rw [history, List.length_drop, List.length_take, s.normalizedLength]
  omega

theorem Holds.around (holds : Holds s cepstra e g) (some : 0 < g.received) {t : Int}
    (near : (e : Int) - s.streams.context ≤ t) (known : t < g.received ∨ g.received = cepstra.length) :
    g.cepstrumAt t = nearest (s.normalized cepstra) t := by
  have stored : g.history.length = g.received - g.base := Nat.eq_sub_of_add_eq' holds.sized
  obtain ⟨streams, mode, emitted, ahead, early, history, kept, last⟩ := holds
  have size := s.normalizedLength cepstra
  have place : (max 0 (min t ((s.normalized cepstra).length - 1))).toNat =
      (max 0 (min t ((g.received : Int) - 1))).toNat := by
    rw [size]
    omega
  unfold cepstrumAt nearest
  dsimp only
  rw [place, stored, history, List.getD_eq_getElem?_getD, List.getD_eq_getElem?_getD, List.getElem?_drop,
    List.getElem?_take_of_lt (by omega)]
  congr 2
  omega

theorem Holds.values (holds : Holds s cepstra e g) (ready : g.isReady = true)
    (complete : g.finished = true → g.received = cepstra.length) :
    g.valuesAt e = frameValues s.streams (s.normalized cepstra) e := by
  simp only [isReady, Bool.and_eq_true, Bool.or_eq_true, decide_eq_true_eq] at ready
  obtain ⟨more, enough⟩ := ready
  have near {d : Int} (left : -(s.streams.context : Int) ≤ d) (right : d ≤ s.streams.context) :
      g.cepstrumAt (e + d) = nearest (s.normalized cepstra) (e + d) := by
    refine holds.around (by omega) (by omega) ?_
    rcases enough with ended | room
    · exact .inr (complete ended)
    · have := holds.emitted
      have := holds.streams
      left
      rw [holds.emitted, holds.streams] at room
      omega
  unfold valuesAt frameValues difference
  rw [holds.streams]
  cases kind : s.streams <;> rw [kind] at near <;> simp (disch := decide) only [near]

theorem Along.pop (along : Along s cepstra w e g) {frame : Frame Float32} {g' : Stage}
    (pop : g.pop? = some (frame, g')) :
    frame = ⟨e, frameValues s.streams (s.normalized cepstra) e⟩ ∧ e < cepstra.length ∧
      Along s cepstra w (e + 1) g' ∧ g'.finished = g.finished := by
  obtain ⟨holds, complete, taken⟩ := along
  unfold pop? at pop
  split at pop
  · rename_i ready
    cases pop
    have values := holds.values ready fun ended => (complete ended).2
    have sized := holds.sized
    obtain ⟨streams, mode, emitted, ahead, early, history, kept, last⟩ := holds
    simp only [isReady, Bool.and_eq_true, decide_eq_true_eq] at ready
    have more := ready.1
    rw [emitted] at more
    refine ⟨?_, by omega, ⟨⟨streams, mode, ?_, more, early, ?_, ?_, ?_⟩, complete, taken⟩, rfl⟩
    · rw [emitted, values]
    · simp only [trim, emitted]
    · simp only [trim, history, List.drop_drop]
    · simp only [trim, emitted, streams]
      omega
    · simp only [trim]
      omega
  · cases pop

theorem Along.popNone (along : Along s cepstra w e g) (ended : g.finished = true) (none : g.pop? = none) :
    e = cepstra.length := by
  obtain ⟨holds, complete, taken⟩ := along
  have all := (complete ended).2
  have ahead := holds.ahead
  unfold pop? at none
  split at none
  · cases none
  · rename_i idle
    simp only [isReady, holds.emitted, ended, Bool.true_or, Bool.and_true, decide_eq_true_eq] at idle
    omega

theorem pushFinished (g : Stage) (cepstrum : List Float32) : (g.push cepstrum).finished = g.finished := by
  unfold Stage.push
  split <;> rfl

end Stage

namespace Frontend

section
variable [Elementary]

/-- A front end that was given `samples` of `all`, and has drawn `w` windows and given out `e` frames. -/
structure Along (s : Settings) (all samples : List Int16) (ending : Bool) (w e : Nat) (f : Frontend) : Prop where
  analysis : f.analysis = .ofSettings s
  signal : f.signal.Along s samples w ending
  stage : f.stage.Along s (s.cepstraOf all) w e

variable {s : Settings} {all samples later : List Int16} {ending : Bool} {w e : Nat} {f : Frontend}

theorem framesNext (s : Settings) (all : List Int16) {e : Nat} (inside : e < (s.cepstraOf all).length) :
    (s.framesOf all).take (e + 1) = (s.framesOf all).take e ++
      [⟨e, frameValues s.streams (s.normalized (s.cepstraOf all)) e⟩] := by
  have here : (s.framesOf all)[e]? = some ⟨e, frameValues s.streams (s.normalized (s.cepstraOf all)) e⟩ := by
    have size := s.normalizedLength (s.cepstraOf all)
    simp [Settings.framesOf, size, inside]
  rw [List.take_add_one, here, Option.toList_some]

theorem drawsAlong {flushing limit f frames g} (draws : Draws flushing limit f frames g) (long : 0 < s.length)
    (apart : 0 < s.shift) (last : ending = true → later = []) (flush : flushing = true → ending = true)
    (along : f.Along s (samples ++ later) samples ending w e) :
    ∃ w', g.Along s (samples ++ later) samples ending w' (e + frames.length) ∧
      (s.framesOf (samples ++ later)).take (e + frames.length) = (s.framesOf (samples ++ later)).take e ++ frames ∧
      (limit = none → flushing = true ∨ f.stage.finished = true →
        e + frames.length = (s.cepstraOf (samples ++ later)).length) := by
  induction draws generalizing w e with
  | full => exact ⟨w, along, by simp, fun none => by cases none⟩
  | @frame flushing limit f frame stage' tail g more pop rest ih =>
    obtain ⟨analysis, signal, stage⟩ := along
    obtain ⟨rfl, inside, stage, same⟩ := stage.pop pop
    obtain ⟨w', along, frames, whole⟩ := ih flush ⟨analysis, signal, stage⟩
    rw [framesNext s _ inside, List.append_assoc] at frames
    have count : e + (tail.length + 1) = e + 1 + tail.length := by omega
    rw [List.length_cons, count]
    refine ⟨w', along, frames, fun none going => whole (by rw [none]; rfl) ?_⟩
    rw [same]
    exact going
  | window more wait next rest ih =>
    obtain ⟨analysis, signal, stage⟩ := along
    obtain ⟨here, signal⟩ := signal.next long apart next last
    have cepstrum := congrArg (Option.map (Analysis.ofSettings s).cepstrum) here
    rw [← List.getElem?_map, Option.map_some, ← analysis] at cepstrum
    obtain ⟨w', along, frames, whole⟩ := ih flush ⟨analysis, signal, stage.push (analysis ▸ cepstrum)⟩
    rw [Stage.pushFinished] at whole
    exact ⟨w', along, frames, whole⟩
  | close more wait short rest ih =>
    obtain ⟨analysis, signal, stage⟩ := along
    have ended := flush rfl
    subst ended
    have all : w = (s.cepstraOf (samples ++ later)).length := by
      rw [last rfl, List.append_nil, Settings.cepstraOf, List.length_map]
      exact signal.none long apart short
    subst all
    obtain ⟨stage, finished⟩ := stage.finish
    obtain ⟨w', along, frames, whole⟩ := ih (fun more => by cases more) ⟨analysis, signal, stage⟩
    exact ⟨w', along, frames, fun none _ => whole none (.inr finished)⟩
  | done more wait short =>
    refine ⟨w, along, by simp, fun _ going => ?_⟩
    rcases going with flushing | ended
    · cases flushing
    · exact along.stage.popNone ended wait

theorem Along.regular (along : f.Along s all samples ending w e) (long : 0 < s.length) (apart : 0 < s.shift) :
    f.Regular := by
  obtain ⟨length, shift⟩ := along.signal.sizes
  exact ⟨length ▸ long, shift ▸ apart⟩

def pushEach (f : Frontend) : List (List Int16 × Option Nat) → List (Frame Float32) × Frontend
  | [] => ([], f)
  | (samples, limit) :: rest =>
    let (frames, f) := f.push samples limit
    let (more, f) := f.pushEach rest
    (frames ++ more, f)

def flushEach (f : Frontend) : List (Option Nat) → List (Frame Float32) × Frontend
  | [] => ([], f)
  | limit :: rest =>
    let (frames, f) := f.flush limit
    let (more, f) := f.flushEach rest
    (frames ++ more, f)

theorem pushEachAlong (long : 0 < s.length) (apart : 0 < s.shift) (pushes : List (List Int16 × Option Nat))
    (whole : samples ++ pushes.flatMap Prod.fst = all) (along : f.Along s all samples false w e) :
    ∃ w', (f.pushEach pushes).2.Along s all all false w' (e + (f.pushEach pushes).1.length) ∧
      (s.framesOf all).take (e + (f.pushEach pushes).1.length) =
        (s.framesOf all).take e ++ (f.pushEach pushes).1 := by
  induction pushes generalizing samples w e f with
  | nil =>
    rw [List.flatMap_nil, List.append_nil] at whole
    subst whole
    exact ⟨w, along, by simp [pushEach]⟩
  | cons call rest ih =>
    obtain ⟨more, limit⟩ := call
    rw [List.flatMap_cons, ← List.append_assoc] at whole
    subst whole
    have pushed : ({ f with signal := f.signal.push more } : Frontend).Along s
        (samples ++ more ++ rest.flatMap Prod.fst) (samples ++ more) false w e :=
      ⟨along.analysis, along.signal.push apart more, along.stage⟩
    obtain ⟨w₁, here, frames, _⟩ := drawsAlong (drawDraws false limit (pushed.regular long apart)) long apart
      (fun ended => by cases ended) (fun ended => by cases ended) pushed
    obtain ⟨w', last, later⟩ := ih rfl here
    refine ⟨w', ?_, ?_⟩
    · simp only [pushEach, push, List.length_append, ← Nat.add_assoc]
      exact last
    · simp only [pushEach, push, List.length_append, ← Nat.add_assoc, ← List.append_assoc]
      rw [← frames]
      exact later

theorem flushAlong (long : 0 < s.length) (apart : 0 < s.shift) (limit : Option Nat)
    (along : f.Along s all all ending w e) :
    ∃ w', (f.flush limit).2.Along s all all true w' (e + (f.flush limit).1.length) ∧
      (s.framesOf all).take (e + (f.flush limit).1.length) = (s.framesOf all).take e ++ (f.flush limit).1 ∧
      (limit = none → e + (f.flush limit).1.length = (s.cepstraOf all).length) := by
  have ended : ({ f with signal := f.signal.finish } : Frontend).Along s (all ++ []) all true w e := by
    rw [List.append_nil]
    exact ⟨along.analysis, along.signal.finish, along.stage⟩
  obtain ⟨w', last, frames, whole⟩ := drawsAlong (drawDraws true limit (ended.regular long apart)) long apart
    (fun _ => rfl) (fun _ => rfl) ended
  rw [List.append_nil] at last frames whole
  exact ⟨w', last, frames, fun none => whole none (.inl rfl)⟩

theorem flushEachAlong (long : 0 < s.length) (apart : 0 < s.shift) (flushes : List (Option Nat))
    (along : f.Along s all all ending w e) :
    (s.framesOf all).take e ++ (f.flushEach (flushes ++ [none])).1 = s.framesOf all := by
  induction flushes generalizing ending w e f with
  | nil =>
    obtain ⟨w', _, frames, whole⟩ := flushAlong long apart none along
    have size : (s.framesOf all).length = (s.cepstraOf all).length := by
      simp [Settings.framesOf, s.normalizedLength]
    rw [whole rfl, ← size, List.take_length] at frames
    simpa [flushEach] using frames.symm
  | cons limit rest ih =>
    obtain ⟨w', last, frames, _⟩ := flushAlong long apart limit along
    have later := ih last
    rw [frames, List.append_assoc] at later
    exact later

theorem startAlong (s : Settings) (all : List Int16) : (ofSettings s).Along s all [] false 0 0 :=
  ⟨rfl, Signal.startAlong s, Stage.startAlong s _⟩

/-- However the samples of an utterance are pushed, and whatever frames are left undrawn before the last flush is
drained, the frames are those of the whole utterance. -/
theorem drawnWhole (s : Settings) (long : 0 < s.length) (apart : 0 < s.shift) {f : Frontend} (reached : Reached s f)
    (pushes : List (List Int16 × Option Nat)) (flushes : List (Option Nat)) :
    let pushed := f.reset.pushEach pushes
    let flushed := pushed.2.flushEach (flushes ++ [none])
    let frames := pushed.1 ++ flushed.1
    frames = s.framesOf (pushes.flatMap Prod.fst) ∧
      ∀ (place : Nat) (frame : Frame Float32), frames[place]? = some frame →
        frame.index = place ∧ frame.values.length = s.dimension := by
  have start := startAlong s (pushes.flatMap Prod.fst)
  rw [← reachedReset reached] at start
  obtain ⟨w, along, frames⟩ := pushEachAlong long apart pushes (List.nil_append _) start
  have all := flushEachAlong long apart flushes along
  rw [frames, List.take_zero, List.nil_append] at all
  refine ⟨all, fun place frame found => ?_⟩
  rw [all] at found
  exact s.framesSized _ place frame found

end

/-- Squares for a spectrum, and tones on a scale of their frequencies. -/
@[reducible] def squaredSamples : Elementary :=
  { Elementary.system with
    ln32 := fun x => x, log10of32 := fun x => x, pow32 := fun _ y => y, cos32 := fun _ => 1,
    power := fun _ window => window.map fun x => x * x }

/-- Windows of two samples every three, after an utterance that was left: eight samples in three pieces, of which
the first gives no frame, as none is drawn. Without the running mean the frames are others. -/
theorem drawnOfEightSamples :
    let _ := squaredSamples
    let s : Settings := ⟨8000, 100, 3, 2, 4, 1, 130, 3700, 1, 0.97, .legacy, 0, true, 1, false, false, .delta, .live,
      [5]⟩
    let f := ((ofSettings s).push [7, 8, 9] (some 1)).2
    let pushed := f.reset.pushEach [([1, 2, 3], some 0), ([4], none), ([5, 6, 7, 8], some 1)]
    let flushed := pushed.2.flushEach [some 0, none]
    let frames := pushed.1 ++ flushed.1
    Reached s f ∧ frames = s.framesOf [1, 2, 3, 4, 5, 6, 7, 8] ∧
      (∀ (place : Nat) (frame : Frame Float32), frames[place]? = some frame →
        frame.index = place ∧ frame.values.length = 2) ∧
      frames.length = 3 ∧ frames ≠ { s with meanMode := .none }.framesOf [1, 2, 3, 4, 5, 6, 7, 8] := by
  intro _ s f pushed flushed frames
  have reached : Reached s f := .pushed .made [7, 8, 9] (some 1)
  obtain ⟨whole, numbered⟩ := drawnWhole s (by decide) (by decide) reached
    [([1, 2, 3], some 0), ([4], none), ([5, 6, 7, 8], some 1)] [some 0]
  have known : (s.framesOf [1, 2, 3, 4, 5, 6, 7, 8]).length = 3 ∧ s.framesOf [1, 2, 3, 4, 5, 6, 7, 8] ≠
      { s with meanMode := .none }.framesOf [1, 2, 3, 4, 5, 6, 7, 8] := by
    decide +kernel
  refine ⟨reached, whole, numbered, ?_, ?_⟩
  · exact (congrArg List.length whole).trans known.1
  · exact fun same => known.2 (whole.symm.trans same)

end Frontend

end SpeechDecoder.Feature
