import SpeechDecoder.Activity
import SpeechDecoder.Proofs.Calls
import SpeechDecoder.Proofs.Decimal.Rounding

/-! The noise floor does not hear what is called speech. So detectors that differ in mode alone have the same floor
all the time, and the one with the wider margin calls fewer frames speech. -/
namespace SpeechDecoder.Activity

open Binary Single

inductive Ask where
  | classify (frame : List Int16)
  | reset

namespace Detector
variable {α : Type}

def withMode (d : Detector α) (mode : Mode) : Detector α := { d with mode }

theorem makeMode (s : Scale α) (mode mode' : Mode) (rate : Nat) (seconds : Float) :
    make s mode' rate seconds = (make s mode rate seconds).map (withMode · mode') ∧
      ∀ d, make s mode rate seconds = .ok d → d.mode = mode := by
  unfold make
  dsimp only
  generalize (if seconds == 0 then defaultFrameLength else seconds) = length
  split_ifs
  · exact ⟨rfl, fun _ made => by cases made⟩
  · exact ⟨rfl, fun _ made => by cases made⟩
  · exact ⟨rfl, fun _ made => by cases made; rfl⟩

variable [Score α]

def ask (s : Scale α) (d : Detector α) : Ask → Except Problem (Option Bool) × Detector α
  | .classify frame =>
    match d.classify s frame with
    | .ok (label, d) => (.ok (some label), d)
    | .error problem => (.error problem, d)
  | .reset => (.ok none, d.reset s)

/-- A detector that calls no frame speech that another does not, and answers it alike in all else. -/
inductive Stricter : Except Problem (Option Bool) → Except Problem (Option Bool) → Prop where
  | problem (problem : Problem) : Stricter (.error problem) (.error problem)
  | reset : Stricter (.ok none) (.ok none)
  | label {label label' : Bool} (less : label' = true → label = true) : Stricter (.ok (some label)) (.ok (some label'))

/-- What a detector is asked changes its floor, whatever its mode. -/
theorem askMode (s : Scale α) (d : Detector α) (mode : Mode) (ask : Ask) :
    ((d.withMode mode).ask s ask).2 = ((d.ask s ask).2).withMode mode := by
  cases ask with
  | reset => rfl
  | classify frame =>
    simp only [Detector.ask, classify]
    rw [show (d.withMode mode).frameSize = d.frameSize from rfl]
    split_ifs <;> rfl

theorem askStricter {s : Scale α} {d : Detector α} {mode : Mode}
    (less : ∀ floor level, s.isSpeech mode floor level = true → s.isSpeech d.mode floor level = true) (ask : Ask) :
    Stricter (d.ask s ask).1 ((d.withMode mode).ask s ask).1 := by
  cases ask with
  | reset => exact .reset
  | classify frame =>
    simp only [Detector.ask, classify]
    rw [show (d.withMode mode).frameSize = d.frameSize from rfl]
    split_ifs
    · exact .problem _
    · exact .label (less d.floor (s.level frame))

theorem askKeeps (s : Scale α) (d : Detector α) (ask : Ask) : (d.ask s ask).2.mode = d.mode := by
  cases ask with
  | reset => rfl
  | classify frame =>
    simp only [Detector.ask, classify]
    split_ifs <;> rfl

theorem asksStricter {s : Scale α} {mode mode' : Mode}
    (less : ∀ floor level, s.isSpeech mode' floor level = true → s.isSpeech mode floor level = true)
    {d : Detector α} (known : d.mode = mode) (asks : List Ask) :
    Calls.after (ask s) (d.withMode mode') asks = (Calls.after (ask s) d asks).withMode mode' ∧
      List.Forall₂ Stricter (Calls.answers (ask s) d asks) (Calls.answers (ask s) (d.withMode mode') asks) := by
  induction asks generalizing d with
  | nil => exact ⟨rfl, .nil⟩
  | cons a rest ih =>
    have same := askMode s d mode' a
    obtain ⟨after, answers⟩ := ih ((askKeeps s d a).trans known)
    rw [← same] at after answers
    exact ⟨after, .cons (askStricter (known ▸ less) a) answers⟩

end Detector

/-! ### Decibels -/

def Mode.strictness : Mode → Nat
  | .loose => 0
  | .mediumLoose => 1
  | .mediumStrict => 2
  | .strict => 3

section
variable [Elementary]

theorem marginFinite (mode : Mode) : (decibelScale.margin mode).isFinite = true := by
  cases mode <;> simp only [decibelScale] <;> decide +kernel

theorem marginGrows {mode mode' : Mode} (stricter : mode.strictness ≤ mode'.strictness) :
    decibelScale.margin mode ≤ decibelScale.margin mode' := by
  cases mode <;> cases mode' <;> simp only [decibelScale] <;>
    first | exact absurd stricter (by decide) | decide +kernel

theorem speechLess {s : Scale Float32} (scale : s.margin = decibelScale.margin) {mode mode' : Mode}
    (stricter : mode.strictness ≤ mode'.strictness) (floor level : Float32)
    (speech : s.isSpeech mode' floor level = true) : s.isSpeech mode floor level = true := by
  simp only [Scale.isSpeech, Bool.and_eq_true] at speech ⊢
  refine ⟨speech.1, ?_⟩
  have above : floor + s.margin mode' < level := of_decide_eq_true speech.2
  rw [scale] at above ⊢
  have number := sumNumber (singleLess.mp above).1
  have le := addAtMost number (marginFinite mode) (marginFinite mode') (marginGrows stricter)
  exact decide_eq_true (singleBelow le above)

/-- Whatever measures the level of a frame, a stricter detector has the noise floor of a looser one that hears the
same frames, and what it calls speech the looser one calls speech too. -/
theorem strictHearsLess (level : List Int16 → Float32) {mode mode' : Mode}
    (stricter : mode.strictness ≤ mode'.strictness) (rate : Nat) (seconds : Float) :
    let s : Scale Float32 := { decibelScale with level }
    (∃ problem, Detector.make s mode rate seconds = .error problem ∧
      Detector.make s mode' rate seconds = .error problem) ∨
    ∃ d, Detector.make s mode rate seconds = .ok d ∧ Detector.make s mode' rate seconds = .ok (d.withMode mode') ∧
      ∀ asks, Calls.after (Detector.ask s) (d.withMode mode') asks =
          (Calls.after (Detector.ask s) d asks).withMode mode' ∧
        List.Forall₂ Detector.Stricter (Calls.answers (Detector.ask s) d asks)
          (Calls.answers (Detector.ask s) (d.withMode mode') asks) := by
  intro s
  obtain ⟨same, known⟩ := Detector.makeMode s mode mode' rate seconds
  rw [same]
  cases made : Detector.make s mode rate seconds with
  | error problem => exact .inl ⟨problem, rfl, rfl⟩
  | ok d => exact .inr ⟨d, rfl, rfl, Detector.asksStricter (speechLess (s := s) rfl stricter) (known d made)⟩

end

@[reducible] local instance measured : Elementary := Elementary.system

/-- Frames of one sample, which is their level. -/
def pointScale : Scale Float32 := { decibelScale with level := fun frame => ofInteger32 (frame.headD 0).toInt }

def pointDetector : Detector Float32 := ⟨.loose, 100, 1, 40⟩

theorem pointMade : ((Detector.make pointScale .loose 100 0.01).toOption.map fun d =>
    (d.mode, d.sampleRate, d.frameSize, d.floor)) = some (.loose, 100, 1, 40) := by
  decide +kernel

theorem pointAnswers :
    (Calls.answers (Detector.ask pointScale) pointDetector [.classify [50], .reset, .classify [60]]).map
      Except.toOption = [some (some true), some none, some (some true)] ∧
    (Calls.answers (Detector.ask pointScale) (pointDetector.withMode .strict)
      [.classify [50], .reset, .classify [60]]).map Except.toOption =
      [some (some false), some none, some (some true)] := by
  decide +kernel

/-- A level of ten above the floor is speech to the loosest detector and not to the strictest. -/
theorem tenAboveHeard : Mode.loose.strictness ≤ Mode.strict.strictness ∧
    ∃ d, Detector.make pointScale .loose 100 0.01 = .ok d ∧
      Detector.make pointScale .strict 100 0.01 = .ok (d.withMode .strict) ∧
      let asks := [.classify [50], .reset, .classify [60]]
      (Calls.after (Detector.ask pointScale) (d.withMode .strict) asks).floor =
        (Calls.after (Detector.ask pointScale) d asks).floor ∧
      (Calls.answers (Detector.ask pointScale) d asks).map Except.toOption =
        [some (some true), some none, some (some true)] ∧
      (Calls.answers (Detector.ask pointScale) (d.withMode .strict) asks).map Except.toOption =
        [some (some false), some none, some (some true)] := by
  have stricter : Mode.loose.strictness ≤ Mode.strict.strictness := by decide
  have made := pointMade
  refine ⟨stricter, ?_⟩
  rcases strictHearsLess pointScale.level stricter 100 0.01 with ⟨problem, failed, _⟩ | ⟨d, ok, ok', heard⟩
  · change Detector.make pointScale .loose 100 0.01 = _ at failed
    rw [failed] at made
    cases made
  · change Detector.make pointScale .loose 100 0.01 = _ at ok
    rw [ok] at made
    have same : d = pointDetector := by
      cases d
      simp only [Except.toOption, Option.map_some, Option.some.injEq, Prod.mk.injEq] at made
      obtain ⟨rfl, rfl, rfl, rfl⟩ := made
      rfl
    refine ⟨d, ok, ok', ?_, ?_⟩
    · have floors := congrArg Detector.floor (heard [.classify [50], .reset, .classify [60]]).1
      exact floors
    · rw [same]
      exact pointAnswers

end SpeechDecoder.Activity
