import SpeechDecoder.Feature.Frontend

/-! Drawing frames, step by step. A step that is possible stays possible, with the same outcome, when more
samples come, and values that no later window needs do not matter. So a stream of samples gives the same
frames whatever pieces it comes in. -/
namespace SpeechDecoder.Feature

namespace Signal

def extend (s : Signal) (samples : List Int16) : Signal := samples.foldl pushSample s

def ahead (s : Signal) : List Float32 := s.values.toList.drop s.offset

/-- Signals that differ at most in values that are used up. -/
structure Alike (s t : Signal) : Prop where
  length : s.length = t.length
  shift : s.shift = t.shift
  emphasis : s.emphasis = t.emphasis
  dither : s.dither = t.dither
  prior : s.prior = t.prior
  total : s.total = t.total
  windows : s.windows = t.windows
  ending : s.ending = t.ending
  ahead : s.ahead = t.ahead
  gap : s.offset - s.values.size = t.offset - t.values.size

theorem alikeRefl (s : Signal) : Alike s s :=
  ⟨rfl, rfl, rfl, rfl, rfl, rfl, rfl, rfl, rfl, rfl⟩

theorem Alike.symm {s t : Signal} (same : Alike s t) : Alike t s :=
  ⟨same.length.symm, same.shift.symm, same.emphasis.symm, same.dither.symm, same.prior.symm,
    same.total.symm, same.windows.symm, same.ending.symm, same.ahead.symm, same.gap.symm⟩

theorem Alike.trans {s t u : Signal} (left : Alike s t) (right : Alike t u) : Alike s u :=
  ⟨left.length.trans right.length, left.shift.trans right.shift,
    left.emphasis.trans right.emphasis, left.dither.trans right.dither,
    left.prior.trans right.prior, left.total.trans right.total,
    left.windows.trans right.windows, left.ending.trans right.ending,
    left.ahead.trans right.ahead, left.gap.trans right.gap⟩

theorem aheadLength (s : Signal) : s.ahead.length = s.available := by
  simp [ahead, available]

theorem Alike.available {s t : Signal} (same : Alike s t) : s.available = t.available := by
  rw [← aheadLength, ← aheadLength, same.ahead]

theorem compactAlike (s : Signal) : Alike s.compact s := by
  unfold compact
  split
  · exact alikeRefl s
  · refine ⟨rfl, rfl, rfl, rfl, rfl, rfl, rfl, rfl, ?_, ?_⟩
    · simp only [ahead, Array.toList_extract, List.extract_eq_take_drop]
      rw [List.take_of_length_le (by simp), List.drop_drop]
      by_cases inside : s.offset ≤ s.values.size
      · congr 1; omega
      · rw [List.drop_of_length_le (by simp; omega), List.drop_of_length_le (by simp; omega)]
    · simp only [Array.size_extract]
      omega

theorem aheadPush (s : Signal) (sample : Int16) :
    ∃ x, (s.pushSample sample).ahead = s.ahead ++ [x].drop (s.offset - s.values.size) ∧
      (s.pushSample sample).values.size = s.values.size + 1 := by
  refine ⟨(noise s.dither (Binary.ofInteger32 sample.toInt)).1 - s.emphasis * s.prior, ?_, ?_⟩
  · simp only [ahead, pushSample, Array.toList_push, List.drop_append, Array.length_toList]
  · simp [pushSample]

theorem pushSampleAlike {s t : Signal} (same : Alike s t) (sample : Int16) :
    Alike (s.pushSample sample) (t.pushSample sample) := by
  obtain ⟨length, shift, emphasis, dither, prior, total, windows, ending, front, gap⟩ := same
  refine ⟨length, shift, emphasis, ?_, ?_, ?_, windows, ending, ?_, ?_⟩
  · simp only [pushSample, dither]
  · simp only [pushSample, dither]
  · simp only [pushSample, total]
  · simp only [ahead] at front
    simp only [ahead, pushSample, Array.toList_push, List.drop_append, Array.length_toList]
    rw [front, gap, emphasis, dither, prior]
  · simp only [pushSample, Array.size_push]
    omega

theorem extendAlike {s t : Signal} (same : Alike s t) (samples : List Int16) :
    Alike (s.extend samples) (t.extend samples) := by
  induction samples generalizing s t with
  | nil => exact same
  | cons x rest ih => exact ih (pushSampleAlike same x)

theorem pushAlike {s t : Signal} (same : Alike s t) (samples : List Int16) :
    Alike (s.push samples) (t.extend samples) :=
  extendAlike ((compactAlike s).trans same) samples

theorem finishAlike {s t : Signal} (same : Alike s t) : Alike s.finish t.finish := by
  obtain ⟨length, shift, emphasis, dither, prior, total, windows, _, front, gap⟩ := same
  exact ⟨length, shift, emphasis, dither, prior, total, windows, rfl, front, gap⟩

theorem extendAppend (s : Signal) (xs ys : List Int16) :
    s.extend (xs ++ ys) = (s.extend xs).extend ys :=
  List.foldl_append

theorem extendEnding (s : Signal) (samples : List Int16) :
    (s.extend samples).ending = s.ending := by
  induction samples generalizing s with
  | nil => rfl
  | cons x rest ih => exact ih (s.pushSample x)

theorem nextFull {s : Signal} (enough : s.length ≤ s.available) :
    s.next? = some (s.ahead.take s.length,
      { s with offset := s.offset + s.shift, windows := s.windows + 1 }) := by
  simp only [next?, if_pos enough, ahead, Array.toList_extract, List.extract_eq_take_drop,
    Nat.add_sub_cancel_left]

theorem nextShort {s : Signal} (few : ¬ s.length ≤ s.available)
    (unseen : (s.ending && 0 < s.available && s.covered < s.total) = true) :
    s.next? = some (s.ahead,
      { s with offset := s.values.size, windows := s.windows + 1, ending := false }) := by
  simp only [next?, if_neg few, if_pos unseen, ahead, Array.toList_extract,
    List.extract_eq_take_drop]
  rw [List.take_of_length_le (by simp)]

theorem nextNone {s : Signal} (few : ¬ s.length ≤ s.available)
    (seen : ¬ (s.ending && 0 < s.available && s.covered < s.total) = true) :
    s.next? = none := by
  simp only [next?, if_neg few, if_neg seen]

theorem nextAlike {s t s' : Signal} {window : List Float32} (same : Alike s t)
    (next : s.next? = some (window, s')) :
    ∃ t', t.next? = some (window, t') ∧ Alike s' t' := by
  have reach : s.covered = t.covered := by
    simp only [covered, same.windows, same.shift, same.length]
  have room := same.available
  by_cases enough : s.length ≤ s.available
  · rw [nextFull enough] at next
    cases next
    have other : t.length ≤ t.available := by rw [← same.length, ← room]; exact enough
    refine ⟨{ t with offset := t.offset + t.shift, windows := t.windows + 1 }, ?_, ?_⟩
    · rw [nextFull other, ← same.ahead, ← same.length]
    refine ⟨same.length, same.shift, same.emphasis, same.dither, same.prior, same.total, ?_,
      same.ending, ?_, ?_⟩
    · simp only [same.windows]
    · have front := same.ahead
      simp only [ahead] at front ⊢
      rw [← List.drop_drop, ← List.drop_drop, front, same.shift]
    · have gap := same.gap
      have shift := same.shift
      simp only [Signal.available] at room
      dsimp only
      omega
  · have other : ¬ t.length ≤ t.available := by rw [← same.length, ← room]; exact enough
    by_cases unseen : (s.ending && 0 < s.available && s.covered < s.total) = true
    · rw [nextShort enough unseen] at next
      cases next
      rw [same.ending, room, reach, same.total] at unseen
      refine ⟨{ t with offset := t.values.size, windows := t.windows + 1, ending := false }, ?_, ?_⟩
      · rw [nextShort other unseen, ← same.ahead]
      refine ⟨same.length, same.shift, same.emphasis, same.dither, same.prior, same.total, ?_,
        rfl, ?_, ?_⟩
      · simp only [same.windows]
      · simp only [ahead]
        rw [List.drop_of_length_le (by simp), List.drop_of_length_le (by simp)]
      · simp
    · rw [nextNone enough unseen] at next
      cases next

theorem nextNoneAlike {s t : Signal} (same : Alike s t) (none : s.next? = none) :
    t.next? = Option.none := by
  cases other : t.next? with
  | none => rfl
  | some found =>
    obtain ⟨_, here, _⟩ := nextAlike same.symm other
    rw [none] at here
    cases here

theorem nextPushSample {s s' : Signal} {window : List Float32} (going : s.ending = false)
    (next : s.next? = some (window, s')) (sample : Int16) :
    (s.pushSample sample).next? = some (window, s'.pushSample sample) := by
  by_cases enough : s.length ≤ s.available
  · rw [nextFull enough] at next
    cases next
    obtain ⟨x, front, size⟩ := aheadPush s sample
    have still : (s.pushSample sample).length ≤ (s.pushSample sample).available := by
      have same : (s.pushSample sample).offset = s.offset := rfl
      simp only [available, size, same] at enough ⊢
      exact Nat.le_trans enough (by omega)
    rw [nextFull still, front]
    have kept : (s.pushSample sample).length = s.length := rfl
    rw [kept, List.take_append_of_le_length (by rw [aheadLength]; exact enough)]
    rfl
  · rw [nextNone enough (by simp [going])] at next
    cases next

theorem nextEnding {s s' : Signal} {window : List Float32} (going : s.ending = false)
    (next : s.next? = some (window, s')) : s'.ending = false := by
  by_cases enough : s.length ≤ s.available
  · rw [nextFull enough] at next
    cases next
    exact going
  · rw [nextNone enough (by simp [going])] at next
    cases next

theorem nextExtend {s s' : Signal} {window : List Float32} (going : s.ending = false)
    (next : s.next? = some (window, s')) (samples : List Int16) :
    (s.extend samples).next? = some (window, s'.extend samples) := by
  induction samples generalizing s s' with
  | nil => exact next
  | cons x rest ih =>
    exact ih (s := s.pushSample x) going (nextPushSample going next x)

theorem nextUses {s s' : Signal} {window : List Float32} (long : 0 < s.length)
    (apart : 0 < s.shift) (next : s.next? = some (window, s')) :
    s'.available < s.available ∧ s'.length = s.length ∧ s'.shift = s.shift := by
  by_cases enough : s.length ≤ s.available
  · rw [nextFull enough] at next
    cases next
    refine ⟨?_, rfl, rfl⟩
    simp only [available] at enough ⊢
    omega
  · by_cases unseen : (s.ending && 0 < s.available && s.covered < s.total) = true
    · rw [nextShort enough unseen] at next
      cases next
      simp only [Bool.and_eq_true, decide_eq_true_eq] at unseen
      have some := unseen.1.2
      refine ⟨?_, rfl, rfl⟩
      simp only [available] at some ⊢
      omega
    · rw [nextNone enough unseen] at next
      cases next

theorem nextOfEmpty {s : Signal} (long : 0 < s.length) (empty : s.available = 0) :
    s.next? = none := by
  apply nextNone
  · omega
  · simp [empty]

end Signal

namespace Stage

theorem popUses {s s' : Stage} {frame : Frame Float32} (pop : s.pop? = some (frame, s')) :
    s'.waiting < s.waiting := by
  unfold pop? at pop
  split at pop
  · next ready =>
    cases pop
    simp only [isReady, Bool.and_eq_true, decide_eq_true_eq] at ready
    have due := ready.1
    simp only [waiting, trim]
    omega
  · cases pop

theorem popOfIdle {s : Stage} (idle : s.waiting = 0) : s.pop? = none := by
  simp only [waiting] at idle
  have late : ¬ s.emitted < s.received := by omega
  simp [pop?, isReady, late]

theorem pushWaits (s : Stage) (cepstrum : List Float32) :
    (s.push cepstrum).waiting ≤ s.waiting + 1 := by
  unfold push
  split
  · simp only [waiting, accept, List.length_singleton]
    omega
  · simp only [waiting, accept, List.length_singleton]
    omega
  · simp only [waiting, Array.size_push]
    omega

theorem centeredLength (cepstra : List (List Float32)) :
    (centered cepstra).length = cepstra.length := by
  cases cepstra with
  | nil => rfl
  | cons first rest => simp [centered]

theorem finishWaits (s : Stage) : s.finish.waiting ≤ s.waiting := by
  unfold finish
  split
  · exact Nat.le_refl _
  · split
    · simp only [waiting, accept, centeredLength, Array.length_toList, Array.size_empty]
      omega
    · exact Nat.le_refl _

end Stage

namespace Frontend

def extend (f : Frontend) (samples : List Int16) : Frontend :=
  { f with signal := f.signal.extend samples }

structure Alike (f g : Frontend) : Prop where
  analysis : f.analysis = g.analysis
  signal : f.signal.Alike g.signal
  stage : f.stage = g.stage

theorem alikeRefl (f : Frontend) : Alike f f := ⟨rfl, Signal.alikeRefl f.signal, rfl⟩

theorem Alike.symm {f g : Frontend} (same : Alike f g) : Alike g f :=
  ⟨same.analysis.symm, same.signal.symm, same.stage.symm⟩

theorem Alike.trans {f g h : Frontend} (left : Alike f g) (right : Alike g h) : Alike f h :=
  ⟨left.analysis.trans right.analysis, left.signal.trans right.signal,
    left.stage.trans right.stage⟩

theorem extendAlike {f g : Frontend} (same : Alike f g) (samples : List Int16) :
    Alike (f.extend samples) (g.extend samples) :=
  ⟨same.analysis, Signal.extendAlike same.signal samples, same.stage⟩

theorem extendAppend (f : Frontend) (xs ys : List Int16) :
    f.extend (xs ++ ys) = (f.extend xs).extend ys := by
  simp only [extend, Signal.extendAppend]

structure Regular (f : Frontend) : Prop where
  long : 0 < f.signal.length
  apart : 0 < f.signal.shift

variable [Elementary]

/-- A drawing of frames from a state: the frames, and the state behind it. -/
inductive Draws : (flushing : Bool) → (limit : Option Nat) → Frontend → List (Frame Float32) → Frontend → Prop where
  | full {flushing f} : Draws flushing (some 0) f [] f
  | frame {flushing limit f frame stage frames g} (more : limit ≠ some 0)
      (pop : f.stage.pop? = some (frame, stage))
      (rest : Draws flushing (limit.map (· - 1)) { f with stage } frames g) :
      Draws flushing limit f (frame :: frames) g
  | window {flushing limit f window signal frames g} (more : limit ≠ some 0)
      (wait : f.stage.pop? = none) (next : f.signal.next? = some (window, signal))
      (rest : Draws flushing limit
        { f with signal, stage := f.stage.push (f.analysis.cepstrum window) } frames g) :
      Draws flushing limit f frames g
  | close {limit f frames g} (more : limit ≠ some 0) (wait : f.stage.pop? = none)
      (short : f.signal.next? = none)
      (rest : Draws false limit { f with stage := f.stage.finish } frames g) :
      Draws true limit f frames g
  | done {limit f} (more : limit ≠ some 0) (wait : f.stage.pop? = none)
      (short : f.signal.next? = none) : Draws false limit f [] f

def due (flushing : Bool) (f : Frontend) : Nat :=
  2 * f.signal.available + f.stage.waiting + flushing.toNat

theorem drawFromDraws {steps : Nat} {flushing : Bool} (limit : Option Nat) {f : Frontend}
    (regular : f.Regular) (enough : f.due flushing ≤ steps) :
    Draws flushing limit f (drawFrom steps flushing limit f).1
      (drawFrom steps flushing limit f).2 := by
  induction steps generalizing flushing limit f with
  | zero =>
    by_cases more : limit = some 0
    · subst more
      exact .full
    · simp only [due] at enough
      -- nothing is due, so nothing is there to draw
      have still : flushing = false := by cases flushing <;> simp at enough ⊢
      subst still
      exact .done more (Stage.popOfIdle (by omega)) (Signal.nextOfEmpty regular.long (by omega))
  | succ steps ih =>
    by_cases more : limit = some 0
    · subst more
      simp only [drawFrom, if_pos]
      exact .full
    simp only [drawFrom, if_neg more]
    simp only [due] at enough
    cases pop : f.stage.pop? with
    | some found =>
      obtain ⟨frame, stage⟩ := found
      have used := Stage.popUses pop
      refine .frame more pop (ih _ (f := { f with stage }) ⟨regular.long, regular.apart⟩ ?_)
      simp only [due]
      omega
    | none =>
      cases next : f.signal.next? with
      | some found =>
        obtain ⟨window, signal⟩ := found
        obtain ⟨used, length, shift⟩ := Signal.nextUses regular.long regular.apart next
        have waits := Stage.pushWaits f.stage (f.analysis.cepstrum window)
        refine .window more pop next (ih limit ⟨?_, ?_⟩ ?_)
        · rw [length]; exact regular.long
        · rw [shift]; exact regular.apart
        · simp only [due]
          omega
      | none =>
        cases flushing with
        | true =>
          have waits := Stage.finishWaits f.stage
          refine .close more pop next (ih limit (f := { f with stage := f.stage.finish })
            ⟨regular.long, regular.apart⟩ ?_)
          simp only [due, Bool.toNat_true, Bool.toNat_false] at enough ⊢
          omega
        | false => exact .done more pop next

theorem drawDraws (flushing : Bool) (limit : Option Nat) {f : Frontend} (regular : f.Regular) :
    Draws flushing limit f (f.draw flushing limit).1 (f.draw flushing limit).2 := by
  refine drawFromDraws limit regular ?_
  cases flushing <;> simp [due]

theorem Draws.unique {flushing limit f frames g other h}
    (left : Draws flushing limit f frames g) (right : Draws flushing limit f other h) :
    frames = other ∧ g = h := by
  induction left generalizing other h with
  | full =>
    cases right with
    | full => exact ⟨rfl, rfl⟩
    | frame more | window more | close more | done more => exact absurd rfl more
  | frame more pop rest ih =>
    cases right with
    | full => exact absurd rfl more
    | frame _ again next =>
      rw [pop] at again
      cases again
      obtain ⟨frames, state⟩ := ih next
      exact ⟨by rw [frames], state⟩
    | window _ wait | close _ wait | done _ wait => rw [pop] at wait; cases wait
  | window more wait next rest ih =>
    cases right with
    | full => exact absurd rfl more
    | frame _ pop => rw [wait] at pop; cases pop
    | window _ _ again next' =>
      rw [next] at again
      cases again
      exact ih next'
    | close _ _ short | done _ _ short => rw [next] at short; cases short
  | close more wait short rest ih =>
    cases right with
    | full => exact absurd rfl more
    | frame _ pop => rw [wait] at pop; cases pop
    | window _ _ next => rw [short] at next; cases next
    | close _ _ _ next => exact ih next
  | done more wait short =>
    cases right with
    | full => exact absurd rfl more
    | frame _ pop => rw [wait] at pop; cases pop
    | window _ _ next => rw [short] at next; cases next
    | done => exact ⟨rfl, rfl⟩

theorem Draws.alike {flushing limit f frames g h} (draws : Draws flushing limit f frames g)
    (same : Alike f h) : ∃ g', Draws flushing limit h frames g' ∧ Alike g g' := by
  induction draws generalizing h with
  | full => exact ⟨h, .full, same⟩
  | @frame _ _ _ _ stage _ _ more pop rest ih =>
    obtain ⟨g', drawn, alike⟩ := ih (h := { h with stage }) ⟨same.analysis, same.signal, rfl⟩
    exact ⟨g', .frame more (by rw [← same.stage]; exact pop) drawn, alike⟩
  | window more wait next rest ih =>
    obtain ⟨signal, next', alike⟩ := Signal.nextAlike same.signal next
    obtain ⟨g', drawn, rest⟩ := ih
      (h := { h with signal, stage := h.stage.push (h.analysis.cepstrum _) })
      ⟨same.analysis, alike, by rw [same.stage, same.analysis]⟩
    exact ⟨g', .window more (by rw [← same.stage]; exact wait) next' drawn, rest⟩
  | close more wait short rest ih =>
    obtain ⟨g', drawn, alike⟩ := ih (h := { h with stage := h.stage.finish })
      ⟨same.analysis, same.signal, by rw [same.stage]⟩
    exact ⟨g', .close more (by rw [← same.stage]; exact wait)
      (Signal.nextNoneAlike same.signal short) drawn, alike⟩
  | done more wait short =>
    exact ⟨h, .done more (by rw [← same.stage]; exact wait)
      (Signal.nextNoneAlike same.signal short), same⟩

theorem Draws.ending {flushing limit f frames g} (draws : Draws flushing limit f frames g)
    (going : f.signal.ending = false) : g.signal.ending = false := by
  induction draws with
  | full => exact going
  | frame _ _ _ ih => exact ih going
  | window _ _ next _ ih => exact ih (Signal.nextEnding going next)
  | close _ _ _ _ ih => exact ih going
  | done => exact going

theorem Draws.regular {flushing limit f frames g} (draws : Draws flushing limit f frames g)
    (regular : f.Regular) : g.Regular := by
  induction draws with
  | full => exact regular
  | frame _ _ _ ih => exact ih ⟨regular.long, regular.apart⟩
  | window _ _ next _ ih =>
    obtain ⟨_, length, shift⟩ := Signal.nextUses regular.long regular.apart next
    exact ih ⟨by rw [length]; exact regular.long, by rw [shift]; exact regular.apart⟩
  | close _ _ _ _ ih => exact ih ⟨regular.long, regular.apart⟩
  | done => exact regular

theorem drawsExtend {f frames g samples later h} (going : f.signal.ending = false)
    (first : Draws false none f frames g) (second : Draws false none (g.extend samples) later h) :
    Draws false none (f.extend samples) (frames ++ later) h := by
  generalize still : false = flushing at first
  generalize all : (none : Option Nat) = limit at first
  induction first with
  | full => cases all
  | frame more pop rest ih =>
    subst all
    subst still
    exact .frame more pop (ih going second rfl rfl)
  | window more wait next rest ih =>
    subst all
    subst still
    exact .window more wait (Signal.nextExtend going next samples)
      (ih (Signal.nextEnding going next) second rfl rfl)
  | close => cases still
  | done =>
    subst all
    exact second

end Frontend

end SpeechDecoder.Feature
