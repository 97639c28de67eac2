import SpeechDecoder.Proofs.Feature.Means

/-! Sizes of frames. When all cepstra have one size, the history holds each cepstrum from its base to the last
one received, so that every frame gets all of its streams. -/
namespace SpeechDecoder.Feature

namespace RunningMean

theorem applySized {m : RunningMean} {cepstrum : List Float32} {c : Nat}
    (sum : m.sum.length = c) (size : cepstrum.length = c) :
    (m.apply cepstrum).1.length = c ∧ (m.apply cepstrum).2.sum.length = c ∧
      (m.apply cepstrum).2.initial = m.initial := by
  unfold apply
  dsimp only
  split <;> simp [pairedLength, sum, size]

end RunningMean

namespace Stage

structure Sized (c : Nat) (s : Stage) : Prop where
  sum : s.mean.sum.length = c
  initial : s.mean.initial.length = c
  held : ∀ x ∈ s.held.toList, x.length = c
  history : ∀ x ∈ s.history, x.length = c
  kept : s.history.length = s.received - s.base
  behind : s.base ≤ s.received - 1

theorem acceptSized {c : Nat} {s : Stage} {cepstra : List (List Float32)} (sized : s.Sized c)
    (all : ∀ x ∈ cepstra, x.length = c) : (s.accept cepstra).Sized c := by
  have kept := sized.kept
  have behind := sized.behind
  refine ⟨sized.sum, sized.initial, sized.held, ?_, ?_, ?_⟩
  · intro x mem
    rcases List.mem_append.mp mem with old | new
    · exact sized.history x old
    · exact all x new
  · simp only [accept, List.length_append]
    omega
  · simp only [accept]
    omega

theorem pushSized {c : Nat} {s : Stage} {cepstrum : List Float32} (sized : s.Sized c)
    (size : cepstrum.length = c) : (s.push cepstrum).Sized c := by
  unfold push
  split
  · refine acceptSized sized ?_
    simp [size]
  · obtain ⟨values, sum, initial⟩ := RunningMean.applySized sized.sum size
    refine acceptSized ⟨sum, (congrArg List.length initial).trans sized.initial, sized.held,
      sized.history, sized.kept, sized.behind⟩ ?_
    intro x mem
    rw [List.mem_singleton.mp mem]
    exact values
  · refine ⟨sized.sum, sized.initial, ?_, sized.history, sized.kept, sized.behind⟩
    intro x mem
    rw [Array.toList_push] at mem
    rcases List.mem_append.mp mem with old | new
    · exact sized.held x old
    · rw [List.mem_singleton.mp new]
      exact size

theorem finishSized {c : Nat} {s : Stage} (sized : s.Sized c) : s.finish.Sized c := by
  unfold finish
  split
  · exact sized
  · split
    · have next := acceptSized (s := { s with held := #[] })
        ⟨sized.sum, sized.initial, by simp, sized.history, sized.kept, sized.behind⟩
        (centeredMean s.held.toList ▸ lessMeanSized sized.held)
      exact ⟨next.sum, next.initial, next.held, next.history, next.kept, next.behind⟩
    · exact ⟨sized.sum, sized.initial, sized.held, sized.history, sized.kept, sized.behind⟩

theorem trimSized {c : Nat} {s : Stage} (sized : s.Sized c) : s.trim.Sized c := by
  have kept := sized.kept
  have behind := sized.behind
  refine ⟨sized.sum, sized.initial, sized.held, ?_, ?_, ?_⟩
  · intro x mem
    exact sized.history x (List.mem_of_mem_drop mem)
  · simp only [trim, List.length_drop]
    omega
  · simp only [trim]
    omega

theorem cepstrumSized {c : Nat} {s : Stage} (sized : s.Sized c) (some : 0 < s.received) (t : Int) :
    (s.cepstrumAt t).length = c := by
  have kept := sized.kept
  have behind := sized.behind
  simp only [cepstrumAt]
  generalize max (max 0 (min t (s.received - 1))).toNat s.base - s.base = place
  have inside : min place (s.history.length - 1) < s.history.length := by omega
  rw [List.getD_eq_getElem?_getD, List.getElem?_eq_getElem inside, Option.getD_some]
  exact sized.history _ (List.getElem_mem inside)

theorem valuesSized {c : Nat} {s : Stage} (sized : s.Sized c) (some : 0 < s.received) (t : Nat) :
    (s.valuesAt t).length = c * s.streams.count := by
  have size := fun d => cepstrumSized sized some d
  unfold valuesAt
  cases s.streams with
  | static => simp [size, Streams.count]
  | delta =>
    simp only [List.length_append, difference, List.length_zipWith, size, Streams.count]
    omega
  | deltaDelta =>
    simp only [List.length_append, difference, List.length_zipWith, size, Streams.count]
    omega

theorem popSized {c : Nat} {s s' : Stage} {frame : Frame Float32} (sized : s.Sized c)
    (pop : s.pop? = some (frame, s')) :
    frame.values.length = c * s.streams.count ∧ s'.Sized c ∧ s'.streams = s.streams := by
  unfold pop? at pop
  split at pop
  · next ready =>
    cases pop
    simp only [isReady, Bool.and_eq_true, decide_eq_true_eq] at ready
    refine ⟨valuesSized sized (by omega) _, trimSized ?_, rfl⟩
    exact ⟨sized.sum, sized.initial, sized.held, sized.history, sized.kept, sized.behind⟩
  · cases pop

theorem pushStreams (s : Stage) (cepstrum : List Float32) :
    (s.push cepstrum).streams = s.streams := by
  unfold push
  split <;> rfl

theorem finishStreams (s : Stage) : s.finish.streams = s.streams := by
  unfold finish
  split
  · rfl
  · split <;> rfl

theorem resetSized {c : Nat} {s : Stage} (initial : s.mean.initial.length = c) :
    s.reset.Sized c := by
  refine ⟨?_, initial, ?_, ?_, ?_, ?_⟩ <;> simp [reset, RunningMean.reset, RunningMean.make, initial]

end Stage

namespace Analysis

structure Sized (c : Nat) (a : Analysis) : Prop where
  basis : a.basis.length = c
  lifter : ∀ weights, a.lifter = some weights → weights.length = c

variable [Elementary]

theorem cepstrumSized {c : Nat} {a : Analysis} (sized : a.Sized c) (window : List Float32) :
    (a.cepstrum window).length = c := by
  unfold cepstrum
  dsimp only
  split
  · simp [sized.basis]
  · next weights found =>
    simp [sized.basis, sized.lifter weights found]

theorem settingsSized (s : Settings) : (ofSettings s).Sized s.cepstra := by
  refine ⟨by simp [ofSettings, basisOf], ?_⟩
  intro weights found
  simp only [ofSettings, lifterOf] at found
  split at found
  · cases found
  · cases found
    simp

end Analysis

namespace Frontend

structure Sized (c : Nat) (f : Frontend) : Prop where
  analysis : f.analysis.Sized c
  stage : f.stage.Sized c

variable [Elementary]

theorem drawsSized {c : Nat} {flushing limit f frames g}
    (draws : Draws flushing limit f frames g) (sized : f.Sized c) :
    (∀ frame ∈ frames, frame.values.length = c * f.stage.streams.count) ∧ g.Sized c ∧
      g.stage.streams = f.stage.streams := by
  induction draws with
  | full => exact ⟨by simp, sized, rfl⟩
  | frame more pop rest ih =>
    obtain ⟨size, stage, streams⟩ := Stage.popSized sized.stage pop
    obtain ⟨sizes, last, same⟩ := ih ⟨sized.analysis, stage⟩
    rw [streams] at sizes same
    refine ⟨?_, last, same⟩
    intro x mem
    rcases List.mem_cons.mp mem with rfl | later
    · exact size
    · exact sizes x later
  | window more wait next rest ih =>
    obtain ⟨sizes, last, same⟩ := ih ⟨sized.analysis,
      Stage.pushSized sized.stage (Analysis.cepstrumSized sized.analysis _)⟩
    rw [Stage.pushStreams] at sizes same
    exact ⟨sizes, last, same⟩
  | close more wait short rest ih =>
    obtain ⟨sizes, last, same⟩ := ih ⟨sized.analysis, Stage.finishSized sized.stage⟩
    rw [Stage.finishStreams] at sizes same
    exact ⟨sizes, last, same⟩
  | done => exact ⟨by simp, sized, rfl⟩

end Frontend

end SpeechDecoder.Feature
