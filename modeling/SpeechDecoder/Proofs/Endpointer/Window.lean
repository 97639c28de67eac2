import SpeechDecoder.Endpointer
import SpeechDecoder.Proofs.Outcome

/-! The window of an endpointer, and the calls that fill it. Whatever the pieces of a stream are, the frames that
are heard are the same, and no frame has the wrong size. -/
namespace SpeechDecoder

namespace Fifo
variable {β : Type}

theorem popIs {q : Fifo β} {x : β} {rest : List β} (items : q.toList = x :: rest) :
    ∃ q', q.pop? = some (x, q') ∧ q'.toList = rest := by
  have popped := q.popToList
  rw [items] at popped
  obtain ⟨⟨y, q'⟩, found, same⟩ := Option.map_eq_some_iff.mp popped
  cases same
  exact ⟨q', found, rfl⟩

theorem popNone {q : Fifo β} (items : q.toList = []) : q.pop? = none := by
  have popped := q.popToList
  rw [items] at popped
  simpa using popped

end Fifo

theorem Pieces.gatherAppend {β : Type} (n : Nat) (piece : Fifo β) (xs ys : List β) :
    gather n piece (xs ++ ys) =
      let (whole, last) := gather n piece xs
      let (more, last) := gather n last ys
      (whole ++ more, last) := by
  fun_induction gather n piece xs with
  | case1 piece => rfl
  | case2 piece x rest piece' h whole last same ih =>
    have full : n < (piece.push x).size := h
    simp [gather, full, ih, same, piece']
  | case3 piece x rest piece' h ih =>
    have room : ¬ n < (piece.push x).size := h
    simp [gather, room, ih, piece']

namespace Endpointer
open Activity (Scale)

variable {τ α : Type}

/-! ### Steps -/

/-- What no call changes. -/
structure Same (e e' : Endpointer τ α) : Prop where
  mode : e'.detector.mode = e.detector.mode
  sampleRate : e'.detector.sampleRate = e.detector.sampleRate
  frameSize : e'.detector.frameSize = e.detector.frameSize
  capacity : e'.capacity = e.capacity
  startFrames : e'.startFrames = e.startFrames
  endFrames : e'.endFrames = e.endFrames

theorem Same.refl (e : Endpointer τ α) : Same e e := ⟨rfl, rfl, rfl, rfl, rfl, rfl⟩

theorem Same.trans {a b c : Endpointer τ α} (first : Same a b) (second : Same b c) : Same a c :=
  ⟨second.mode.trans first.mode, second.sampleRate.trans first.sampleRate,
    second.frameSize.trans first.frameSize, second.capacity.trans first.capacity,
    second.startFrames.trans first.startFrames, second.endFrames.trans first.endFrames⟩

variable [Time τ]

theorem popSome {e : Endpointer τ α} {f : LabelledFrame} {rest : List LabelledFrame}
    (items : e.queue.toList = f :: rest) : ∃ queue : Fifo LabelledFrame, queue.toList = rest ∧
      e.pop = (some f, { e with
        queue, queueStart := Time.add e.queueStart e.frameTime,
        speechCount := if f.isSpeech then e.speechCount - 1 else e.speechCount }) := by
  obtain ⟨queue, popped, rest⟩ := Fifo.popIs items
  exact ⟨queue, rest, by simp [pop, popped]⟩

theorem popEmpty {e : Endpointer τ α} (items : e.queue.toList = []) : e.pop = (none, e) := by
  simp [pop, Fifo.popNone items]

theorem releaseSome {e : Endpointer τ α} {f : LabelledFrame} {rest : List LabelledFrame}
    (items : e.queue.toList = f :: rest) : e.release = ([.audio f.samples], e.pop.2) := by
  obtain ⟨queue, _, popped⟩ := popSome items
  simp [release, popped]

theorem popIs (e : Endpointer τ α) : ∃ queue queueStart speechCount,
    e.pop.2 = { e with queue, queueStart, speechCount } := by
  unfold pop
  split <;> exact ⟨_, _, _, rfl⟩

theorem popSame (e : Endpointer τ α) : Same e e.pop.2 := by
  obtain ⟨_, _, _, popped⟩ := e.popIs
  rw [popped]
  exact ⟨rfl, rfl, rfl, rfl, rfl, rfl⟩

theorem releaseIs (e : Endpointer τ α) : e.release.2 = e.pop.2 := by
  unfold release
  split <;> simp [*]

theorem insertSame (e : Endpointer τ α) (f : LabelledFrame) : Same e (e.insert f) := by
  unfold insert
  split
  · exact e.popSame.trans ⟨rfl, rfl, rfl, rfl, rfl, rfl⟩
  · exact ⟨rfl, rfl, rfl, rfl, rfl, rfl⟩

theorem concludeSame (e : Endpointer τ α) : Same e e.conclude.2 := by
  have released := e.popSame
  unfold conclude
  split
  · dsimp only
    split
    · rw [releaseIs]
      exact released.trans ⟨rfl, rfl, rfl, rfl, rfl, rfl⟩
    · rw [releaseIs]
      exact released
  · split
    · have started : Same e { e with
          speechStart := e.queueStart, speechEnd := Time.zero, inSpeech := true } :=
        ⟨rfl, rfl, rfl, rfl, rfl, rfl⟩
      dsimp only
      rw [releaseIs]
      exact started.trans (popSame _)
    · exact .refl e

theorem releaseSpeechIs (fuel : Nat) (e : Endpointer τ α) : ∃ queue queueStart speechCount speechEnd,
    (releaseSpeech fuel e).2 = { e with queue, queueStart, speechCount, speechEnd } := by
  induction fuel generalizing e with
  | zero => exact ⟨_, _, _, _, rfl⟩
  | succ fuel ih =>
    unfold releaseSpeech
    split
    · exact ⟨_, _, _, _, rfl⟩
    · split
      · dsimp only
        obtain ⟨_, _, _, popped⟩ := e.popIs
        rw [releaseIs, popped]
        obtain ⟨_, _, _, _, same⟩ := ih _
        exact ⟨_, _, _, _, same⟩
      · exact ⟨_, _, _, _, rfl⟩

theorem clearQueueIs (fuel : Nat) (e : Endpointer τ α) : ∃ queue queueStart speechCount,
    clearQueue fuel e = { e with queue, queueStart, speechCount } := by
  induction fuel generalizing e with
  | zero => exact ⟨_, _, _, rfl⟩
  | succ fuel ih =>
    unfold clearQueue
    split
    · exact ⟨_, _, _, rfl⟩
    · obtain ⟨_, _, _, popped⟩ := e.popIs
      obtain ⟨_, _, _, same⟩ := ih e.pop.2
      rw [same, popped]
      exact ⟨_, _, _, rfl⟩

theorem finishIs (e : Endpointer τ α) : ∃ queue queueStart speechCount speechEnd,
    e.finish.2 = { e with
      queue, queueStart, speechCount, speechEnd, inSpeech := false, pending := .empty } := by
  obtain ⟨detector, capacity, startFrames, endFrames, queue, count, start, inSpeech, begun, ended, pending⟩ := e
  cases inSpeech with
  | false =>
    obtain ⟨_, _, _, cleared⟩ := clearQueueIs queue.size
      ⟨detector, capacity, startFrames, endFrames, queue, count, start, false, begun, ended, .empty⟩
    exact ⟨_, _, _, _, cleared⟩
  | true =>
    obtain ⟨_, _, _, _, released⟩ := releaseSpeechIs queue.size
      ⟨detector, capacity, startFrames, endFrames, queue, count, start, false, begun, start, .empty⟩
    simp only [finish, if_true]
    rw [released]
    split
    · obtain ⟨_, _, _, cleared⟩ := clearQueueIs (τ := τ) (α := α) _ _
      exact ⟨_, _, _, _, cleared⟩
    · obtain ⟨_, _, _, cleared⟩ := clearQueueIs (τ := τ) (α := α) _ _
      exact ⟨_, _, _, _, cleared⟩

theorem finishSame (e : Endpointer τ α) : Same e e.finish.2 := by
  obtain ⟨_, _, _, _, finished⟩ := e.finishIs
  rw [finished]
  exact ⟨rfl, rfl, rfl, rfl, rfl, rfl⟩

theorem popPending (e : Endpointer τ α) (pending : Fifo Int16) :
    { e with pending }.pop = (e.pop.1, { e.pop.2 with pending }) := by
  unfold pop
  cases e.queue.pop? with
  | none => rfl
  | some _ => rfl

theorem releasePending (e : Endpointer τ α) (pending : Fifo Int16) :
    { e with pending }.release = (e.release.1, { e.release.2 with pending }) := by
  unfold release
  rw [popPending]
  obtain ⟨f, e'⟩ := e.pop
  cases f <;> rfl

theorem insertPending (e : Endpointer τ α) (pending : Fifo Int16) (f : LabelledFrame) :
    { e with pending }.insert f = { e.insert f with pending } := by
  unfold insert
  dsimp only
  rw [popPending]
  split <;> rfl

theorem concludePending (e : Endpointer τ α) (pending : Fifo Int16) :
    { e with pending }.conclude = (e.conclude.1, { e.conclude.2 with pending }) := by
  unfold conclude
  dsimp only
  split
  · rw [releasePending]
    split <;> rfl
  · split
    · have started := releasePending
        { e with speechStart := e.queueStart, speechEnd := Time.zero, inSpeech := true } pending
      dsimp only at started
      rw [started]
    · rfl

variable [Score α]

/-! ### Calls -/

/-- Hears a frame of the right size. -/
def hear (s : Scale α) (e : Endpointer τ α) (frame : List Int16) : List (SpeechEvent τ) × Endpointer τ α :=
  let level := s.level frame
  let detector := { e.detector with floor := s.follow e.detector.floor level }
  ({ e with detector }.insert ⟨frame, s.isSpeech e.detector.mode e.detector.floor level⟩).conclude

def hearAll (s : Scale α) (e : Endpointer τ α) : List (List Int16) → List (SpeechEvent τ) × Endpointer τ α
  | [] => ([], e)
  | frame :: rest =>
    let (events, e) := e.hear s frame
    let (more, e) := e.hearAll s rest
    (events ++ more, e)

/-- The events of each piece of a stream. -/
def pushEach (s : Scale α) (e : Endpointer τ α) :
    List (List Int16) → Outcome (List (List (SpeechEvent τ)) × Endpointer τ α)
  | [] => .ok ([], e)
  | piece :: rest => do
    let (events, e) ← e.push s piece
    let (more, e) ← e.pushEach s rest
    .ok (events :: more, e)

/-- The events of each call of a stream that comes in pieces, the end of the stream being the last call. -/
def calls (s : Scale α) (e : Endpointer τ α) (pieces : List (List Int16)) :
    Outcome (List (List (SpeechEvent τ))) := do
  let (events, e) ← e.pushEach s pieces
  .ok (events ++ [e.finish.1])

def listen (s : Scale α) (e : Endpointer τ α) (pieces : List (List Int16)) : Outcome (List (SpeechEvent τ)) :=
  (e.calls s pieces).map List.flatten

theorem hearSame (s : Scale α) (e : Endpointer τ α) (frame : List Int16) : Same e (e.hear s frame).2 := by
  unfold hear
  refine .trans ?_ ((insertSame _ _).trans (concludeSame _))
  exact ⟨rfl, rfl, rfl, rfl, rfl, rfl⟩

theorem hearAllSame (s : Scale α) (e : Endpointer τ α) (frames : List (List Int16)) :
    Same e (e.hearAll s frames).2 := by
  induction frames generalizing e with
  | nil => exact .refl e
  | cons frame rest ih => exact (e.hearSame s frame).trans (ih _)

theorem hearPending (s : Scale α) (e : Endpointer τ α) (pending : Fifo Int16) (frame : List Int16) :
    { e with pending }.hear s frame = ((e.hear s frame).1, { (e.hear s frame).2 with pending }) := by
  unfold hear
  rw [← concludePending, ← insertPending]

theorem hearAllPending (s : Scale α) (e : Endpointer τ α) (pending : Fifo Int16) (frames : List (List Int16)) :
    { e with pending }.hearAll s frames = ((e.hearAll s frames).1, { (e.hearAll s frames).2 with pending }) := by
  induction frames generalizing e with
  | nil => rfl
  | cons frame rest ih => simp only [hearAll, hearPending, ih]

theorem hearAllAppend (s : Scale α) (e : Endpointer τ α) (first second : List (List Int16)) :
    e.hearAll s (first ++ second) =
      let (events, e) := e.hearAll s first
      let (more, e) := e.hearAll s second
      (events ++ more, e) := by
  induction first generalizing e with
  | nil => rfl
  | cons frame rest ih => simp [hearAll, ih]

/-! ### Pieces of a stream -/

theorem processFramesHear (s : Scale α) (e : Endpointer τ α) {frames : List (List Int16)}
    (sizes : ∀ f ∈ frames, f.length = e.detector.frameSize) :
    e.processFrames s frames = .ok (e.hearAll s frames) := by
  induction frames generalizing e with
  | nil => rfl
  | cons frame rest ih =>
    have size := sizes frame List.mem_cons_self
    have heard : e.processFrame s frame = .ok (e.hear s frame) := by
      simp [processFrame, Activity.Detector.classify, size, hear, bind, Except.bind]
    have later := ih (e.hear s frame).2 fun f mem => by
      rw [(e.hearSame s frame).frameSize]
      exact sizes f (List.mem_cons_of_mem frame mem)
    simp [processFrames, heard, later, hearAll, bind, Except.bind]

/-- The last frame, which is not whole yet, has room for a sample. -/
def Open (e : Endpointer τ α) : Prop := e.pending.size < e.detector.frameSize

theorem pushHear (s : Scale α) {e : Endpointer τ α} (room : e.Open) (samples : List Int16) :
    let parts := Pieces.gather (e.detector.frameSize - 1) e.pending samples
    e.push s samples = .ok ((e.hearAll s parts.1).1, { (e.hearAll s parts.1).2 with pending := parts.2 }) := by
  intro parts
  have room : e.pending.size < e.detector.frameSize := room
  have sizes := Pieces.gatherLengths (e.detector.frameSize - 1) e.pending samples (by omega)
  have whole : ∀ f ∈ parts.1, f.length = e.detector.frameSize := fun f mem => by
    have size := sizes f mem
    omega
  have heard := e.processFramesHear s whole
  simp only [push]
  rw [heard]

theorem pushOpen (s : Scale α) {e e' : Endpointer τ α} (room : e.Open) {samples : List Int16}
    {events : List (SpeechEvent τ)} (ok : e.push s samples = .ok (events, e')) : e'.Open ∧ Same e e' := by
  have heard := pushHear s room samples
  rw [ok] at heard
  cases heard
  have same := e.hearAllSame s (Pieces.gather (e.detector.frameSize - 1) e.pending samples).1
  have room : e.pending.size < e.detector.frameSize := room
  have left := Pieces.gatherSize (e.detector.frameSize - 1) e.pending samples (by omega)
  constructor
  · change _ < _
    rw [same.frameSize]
    dsimp only
    omega
  · exact same.trans ⟨rfl, rfl, rfl, rfl, rfl, rfl⟩

/-- What pieces of a stream tell together, and where they leave the endpointer, is told by the stream alone. -/
theorem pushEachHear (s : Scale α) {e : Endpointer τ α} (room : e.Open) (pieces : List (List Int16)) :
    let parts := Pieces.gather (e.detector.frameSize - 1) e.pending pieces.flatten
    ∃ events, e.pushEach s pieces = .ok (events, { (e.hearAll s parts.1).2 with pending := parts.2 }) ∧
      events.flatten = (e.hearAll s parts.1).1 := by
  induction pieces generalizing e with
  | nil => exact ⟨[], rfl, rfl⟩
  | cons piece rest ih =>
    let first := Pieces.gather (e.detector.frameSize - 1) e.pending piece
    let next : Endpointer τ α := { (e.hearAll s first.1).2 with pending := first.2 }
    have pushed : e.push s piece = .ok ((e.hearAll s first.1).1, next) := pushHear s room piece
    obtain ⟨room', same⟩ := pushOpen s room pushed
    obtain ⟨events, later, joined⟩ := ih room'
    have size : next.detector.frameSize = e.detector.frameSize := same.frameSize
    have parts := Pieces.gatherAppend (e.detector.frameSize - 1) e.pending piece rest.flatten
    rw [size] at later joined
    simp only [next, hearAllPending] at later joined
    refine ⟨(e.hearAll s first.1).1 :: events, ?_, ?_⟩
    · simp only [List.flatten_cons, parts, hearAllAppend]
      simp only [pushEach, pushed, bind, Except.bind]
      rw [later]
    · simp only [List.flatten_cons, parts, hearAllAppend, joined]
      rfl

theorem callsHear (s : Scale α) {e : Endpointer τ α} (room : e.Open) (pieces : List (List Int16)) :
    let parts := Pieces.gather (e.detector.frameSize - 1) e.pending pieces.flatten
    let heard := e.hearAll s parts.1
    e.listen s pieces = .ok (heard.1 ++ { heard.2 with pending := parts.2 }.finish.1) := by
  intro parts heard
  obtain ⟨events, pushed, joined⟩ := pushEachHear s room pieces
  simp only [listen, calls, pushed, bind, Except.bind, Except.map]
  rw [List.flatten_append, joined]
  simp [heard, parts]

end Endpointer

end SpeechDecoder
