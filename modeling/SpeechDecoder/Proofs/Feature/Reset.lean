import SpeechDecoder.Proofs.Feature.Drawing

/-! What calls leave of a front end. Whatever was pushed, drawn or left undrawn, only what a reset undoes has
changed, so that a front end which is reset is the one that was made. -/
namespace SpeechDecoder.Feature

namespace Signal

theorem noiseReset (d : Option Dither) (x : Float32) :
    (noise d x).2.map Dither.reset = d.map Dither.reset := by
  cases d <;> rfl

theorem pushSampleReset (s : Signal) (sample : Int16) : (s.pushSample sample).reset = s.reset := by
  simp only [reset, pushSample, noiseReset]

theorem extendReset (s : Signal) (samples : List Int16) : (s.extend samples).reset = s.reset := by
  induction samples generalizing s with
  | nil => rfl
  | cons x rest ih => exact (ih (s.pushSample x)).trans (pushSampleReset s x)

theorem pushReset (s : Signal) (samples : List Int16) : (s.push samples).reset = s.reset := by
  refine (extendReset s.compact samples).trans ?_
  unfold compact
  split <;> rfl

theorem nextReset {s s' : Signal} {window : List Float32} (next : s.next? = some (window, s')) :
    s'.reset = s.reset := by
  unfold next? at next
  split at next
  · cases next
    rfl
  · split at next
    · cases next
      rfl
    · cases next

end Signal

namespace Stage

theorem pushReset (s : Stage) (cepstrum : List Float32) : (s.push cepstrum).reset = s.reset := by
  unfold push
  split
  · rfl
  · simp only [reset, accept, RunningMean.reset, RunningMean.apply]
    split <;> rfl
  · rfl

theorem popReset {s s' : Stage} {frame : Frame Float32} (pop : s.pop? = some (frame, s')) :
    s'.reset = s.reset := by
  unfold pop? at pop
  split at pop
  · cases pop
    rfl
  · cases pop

theorem finishReset (s : Stage) : s.finish.reset = s.reset := by
  unfold finish
  split
  · rfl
  · split <;> rfl

end Stage

namespace Frontend
variable [Elementary]

theorem drawFromReset (steps : Nat) (flushing : Bool) (limit : Option Nat) (f : Frontend) :
    (drawFrom steps flushing limit f).2.reset = f.reset := by
  induction steps generalizing flushing limit f with
  | zero => rfl
  | succ steps ih =>
    unfold drawFrom
    split
    · rfl
    · split
      · rename_i pop
        refine (ih flushing _ _).trans ?_
        simp only [reset, Stage.popReset pop]
      · split
        · rename_i next
          refine (ih flushing _ _).trans ?_
          simp only [reset, Signal.nextReset next, Stage.pushReset]
        · split
          · refine (ih false _ _).trans ?_
            simp only [reset, Stage.finishReset]
          · rfl

theorem pushReset (f : Frontend) (samples : List Int16) (limit : Option Nat) :
    (f.push samples limit).2.reset = f.reset := by
  refine (drawFromReset _ _ _ _).trans ?_
  simp only [reset, Signal.pushReset]

theorem flushReset (f : Frontend) (limit : Option Nat) : (f.flush limit).2.reset = f.reset :=
  drawFromReset _ _ _ _

theorem settingsReset (s : Settings) : (ofSettings s).reset = ofSettings s := by
  have made : Signal.reset (.ofSettings s) = .ofSettings s := by
    unfold Signal.reset Signal.ofSettings
    cases s.dither <;> rfl
  simp only [reset, ofSettings, made]
  rfl

/-- A front end that calls lead to, each of which may leave frames undrawn. -/
inductive Reached (s : Settings) : Frontend → Prop where
  | made : Reached s (ofSettings s)
  | pushed {f} (before : Reached s f) (samples : List Int16) (limit : Option Nat) :
      Reached s (f.push samples limit).2
  | flushed {f} (before : Reached s f) (limit : Option Nat) : Reached s (f.flush limit).2
  | restarted {f} (before : Reached s f) : Reached s f.reset

theorem reachedReset {s : Settings} {f : Frontend} (reached : Reached s f) : f.reset = ofSettings s := by
  induction reached with
  | made => exact settingsReset s
  | @pushed f before samples limit ih => exact (f.pushReset samples limit).trans ih
  | @flushed f before limit ih => exact (f.flushReset limit).trans ih
  | restarted before ih =>
    rw [ih]
    exact settingsReset s

end Frontend

end SpeechDecoder.Feature
