import Mathlib.Data.Nat.Basic
import SpeechDecoder.Models
import SpeechDecoder.Proofs.Outcome

/-! The sizes that binary model files state. What is accepted holds as many values as its dimensions say. A file can
still state more than a word counts, and matrices without states are accepted but cannot be counted. -/
namespace SpeechDecoder

theorem checkedProductIs {first : Nat} {others : List Nat} {product : Nat}
    (ok : checkedProduct first others = .ok product) : product = others.foldl (· * ·) first := by
  induction others generalizing first with
  | nil => exact (Except.ok.inj ok).symm
  | cons n rest ih =>
    obtain ⟨next, small, ok⟩ := Outcome.bindOk ok
    unfold checkedWord at small
    split at small
    · cases small
      exact ih ok
    · cases small

theorem checkedWordFault {n : Nat} {cause : Fault} :
    checkedWord n = .error cause ↔ cause = .overflow ∧ Nat.pow 2 wordBits ≤ n := by
  unfold checkedWord
  split
  · rename_i less
    simp only [reduceCtorEq, Nat.not_le_of_lt less, and_false]
  · rename_i more
    simp only [Except.error.injEq, Nat.le_of_not_lt more, and_true, eq_comm]

theorem checkedRoomFault {values bytes : Nat} {cause : Fault} :
    checkedRoom values bytes = .error cause ↔ cause = .capacity ∧ Nat.pow 2 (wordBits - 1) ≤ values * bytes := by
  unfold checkedRoom
  split
  · rename_i less
    simp only [reduceCtorEq, Nat.not_le_of_lt less, and_false]
  · rename_i more
    simp only [Except.error.injEq, Nat.le_of_not_lt more, and_true, eq_comm]

theorem orFaultFault {α : Type} {x : Except Fault α} {cause : Fault} :
    orFault x = .error (.fault cause) ↔ x = .error cause := by
  cases x <;> simp [orFault]

/-- Two counts never multiply to more than a word, but three may. -/
theorem checkedProductFault {first second : Nat} (small : first < 2147483648) (small' : second < 2147483648)
    {cause : Fault} :
    checkedProduct first [second] ≠ .error cause ∧ ∀ third,
      (checkedProduct first [second, third] = .error cause ↔
        cause = .overflow ∧ Nat.pow 2 wordBits ≤ first * second * third) := by
  have word : checkedWord (first * second) = .ok (first * second) := by
    refine if_pos ?_
    have less := Nat.mul_lt_mul'' small small'
    have wide : Nat.pow 2 wordBits = 18446744073709551616 := rfl
    omega
  refine ⟨?_, fun third => ?_⟩
  · simp only [checkedProduct, word, bind, Except.bind]
    exact fun failed => by cases failed
  · rw [← checkedWordFault]
    simp only [checkedProduct, word, bind, Except.bind]
    cases checkedWord (first * second * third) <;> simp

namespace Model
open ParameterFile (Reader Problem)

namespace Reading
variable {α β : Type}

/-- What a file states before its values: how many there are, and its dimensions. -/
structure Stated where
  total : Nat
  first : Nat
  others : List Nat

def Stated.product (s : Stated) : Nat := s.others.foldl (· * ·) s.first

/-- The values of a file that states its sizes so. -/
def sized (s : Stated) : Reading (List Float32) := do
  let product ← orFault (checkedProduct s.first s.others)
  if s.total ≠ product then refuse (.size s.total (s.first :: s.others))
  let words ← step (Reader.words s.total)
  return words.map Float32.ofBits

theorem valuesSized (first : Nat) (others : List Nat) :
    values first others = (do
      let total ← count "value count"
      sized ⟨total, first, others⟩) := rfl

/-- A file whose header ends where a reader begins. -/
def Opens (files : FileTree) (path : String) (r : Reader) : Prop :=
  ∃ bytes, files.read path = .ok bytes ∧ Reader.ofBytes path bytes = .ok r

/-- A file that states its sizes so, as `stated` reads them. -/
def States (stated : Reading Stated) (files : FileTree) (path : String) (s : Stated) : Prop :=
  ∃ r r', Opens files path r ∧ stated r = .ok (s, r')

/-- A reading that may be refused but does nothing that a program cannot do. -/
def Harmless (x : Reading α) : Prop := ∀ r cause, x r ≠ .error (.fault cause)

theorem bindOk {x : Reading α} {f : α → Reading β} {r r' : Reader} {b : β} (ok : (x >>= f) r = .ok (b, r')) :
    ∃ a between, x r = .ok (a, between) ∧ f a between = .ok (b, r') := by
  obtain ⟨⟨a, between⟩, first, last⟩ := Outcome.bindOk (x := x r) (f := fun p => f p.1 p.2) ok
  exact ⟨a, between, first, last⟩

theorem bindFault {x : Reading α} {f : α → Reading β} {r : Reader} {cause : Fault} :
    (x >>= f) r = .error (.fault cause) ↔
      x r = .error (.fault cause) ∨ ∃ a between, x r = .ok (a, between) ∧ f a between = .error (.fault cause) := by
  change (x r >>= fun p => f p.1 p.2) = _ ↔ _
  cases x r with
  | error e => simp [bind, Except.bind]
  | ok p =>
    refine ⟨fun failed => .inr ⟨p.1, p.2, rfl, failed⟩, ?_⟩
    rintro (failed | ⟨a, between, same, failed⟩)
    · cases failed
    · cases same
      exact failed

theorem Harmless.bind {x : Reading α} {f : α → Reading β} (first : Harmless x) (later : ∀ a, Harmless (f a)) :
    Harmless (x >>= f) := by
  intro r cause failed
  rcases bindFault.mp failed with failed | ⟨a, between, _, failed⟩
  · exact first r cause failed
  · exact later a between cause failed

theorem pureHarmless (a : α) : Harmless (pure a : Reading α) := by
  intro r cause failed
  cases failed

theorem stepHarmless (s : Reader.Step α) : Harmless (step s) := by
  intro r cause failed
  unfold step at failed
  split at failed <;> cases failed

theorem refuseHarmless (p : Problem) : Harmless (refuse p : Reading α) := by
  intro r cause failed
  cases failed

theorem Harmless.check {c : Prop} [Decidable c] {p : Problem} {f : Unit → Reading β} (rest : Harmless (f ())) :
    Harmless (if c then (refuse p : Reading Unit) >>= f else f ()) := by
  split
  · exact (refuseHarmless p).bind fun _ => rest
  · exact rest

theorem checkOk {c : Prop} [Decidable c] {p : Problem} {f : Unit → Reading β} {r r' : Reader} {b : β}
    (ok : (if c then (refuse p : Reading Unit) >>= f else f ()) r = .ok (b, r')) : ¬ c ∧ f () r = .ok (b, r') := by
  split at ok
  · obtain ⟨_, _, refused, _⟩ := bindOk ok
    cases refused
  · exact ⟨‹_›, ok⟩

theorem countHarmless (what : String) : Harmless (count what) := stepHarmless _

theorem countSmall {what : String} {r r' : Reader} {n : Nat} (ok : count what r = .ok (n, r')) :
    n < 2147483648 := by
  have small (w : UInt32) : Word32.toInteger w < 2147483648 := by
    unfold Word32.toInteger
    have size : UInt32.size = 4294967296 := rfl
    have bound := w.toNat_lt
    split <;> omega
  unfold count step at ok
  split at ok
  · rename_i a r₁ counted
    cases ok
    unfold Reader.count Reader.integer at counted
    split at counted
    · rename_i m r₂ read
      split at read
      · rename_i w r₃ _
        cases read
        split at counted
        · cases counted
        · cases counted
          have := small w
          omega
      · cases read
    · cases counted
  · cases ok

theorem wordsFromLength {n : Nat} {r r' : Reader} {ws : List UInt32} (ok : Reader.wordsFrom n r = (.ok ws, r')) :
    ws.length = n := by
  induction n generalizing r ws with
  | zero =>
    cases ok
    rfl
  | succ n ih =>
    unfold Reader.wordsFrom at ok
    split at ok
    · cases ok
    · split at ok
      · rename_i later
        cases ok
        rw [List.length_cons, ih later]
      · cases ok

theorem wordsLength {n : Nat} {r r' : Reader} {ws : List UInt32} (ok : step (Reader.words n) r = .ok (ws, r')) :
    ws.length = n := by
  unfold step at ok
  split at ok
  · rename_i read
    cases ok
    unfold Reader.words at read
    split at read
    · cases read
    · exact wordsFromLength read
  · cases ok

theorem sizedOk {s : Stated} {r r' : Reader} {values : List Float32} (ok : sized s r = .ok (values, r')) :
    values.length = s.product := by
  obtain ⟨product, r₁, multiplied, ok⟩ := bindOk ok
  have whole : product = s.product := by
    cases known : checkedProduct s.first s.others with
    | error cause =>
      rw [known] at multiplied
      cases multiplied
    | ok n =>
      rw [known] at multiplied
      cases multiplied
      exact checkedProductIs known
  dsimp only at ok
  split at ok
  · obtain ⟨_, _, refused, _⟩ := bindOk ok
    cases refused
  · rename_i same
    obtain ⟨words, r₂, read, ok⟩ := bindOk ok
    cases ok
    rw [List.length_map, wordsLength read, Decidable.not_not.mp same, whole]

theorem sizedFault {s : Stated} {r : Reader} {cause : Fault} :
    sized s r = .error (.fault cause) ↔ checkedProduct s.first s.others = .error cause := by
  unfold sized
  rw [bindFault]
  cases known : checkedProduct s.first s.others with
  | error c =>
    constructor
    · rintro (failed | ⟨product, r', multiplied, _⟩)
      · cases failed
        rfl
      · cases multiplied
    · rintro same
      cases same
      exact .inl rfl
  | ok product =>
    have harmless : Harmless (do
        if s.total ≠ product then refuse (.size s.total (s.first :: s.others))
        let words ← step (Reader.words s.total)
        return words.map Float32.ofBits) := by
      have read : Harmless (do
          let words ← step (Reader.words s.total)
          return words.map Float32.ofBits) := (stepHarmless _).bind fun words => pureHarmless _
      dsimp only
      split
      · exact (refuseHarmless _).bind fun _ => read
      · exact read
    constructor
    · rintro (failed | ⟨product', r', multiplied, failed⟩)
      · cases failed
      · cases multiplied
        exact absurd failed (harmless _ _)
    · intro same
      cases same

variable {stated : Reading Stated} {f : Stated → List Float32 → α} {files : FileTree} {path : String}

theorem runOpened {r : Reader} (opens : Opens files path r) (body : Reading α) :
    run files path body = (body r >>= fun p =>
      match p.2.finish with
      | .error problem => .error (problem.failure path)
      | .ok () => .ok p.1) := by
  obtain ⟨bytes, read, opened⟩ := opens
  unfold run
  rw [read]
  dsimp only [fileResult, bind, Except.bind]
  split
  · cases opened.symm.trans ‹_›
  · cases opened.symm.trans ‹_›
    rfl

theorem runUnopened (unopened : ∀ r, ¬Opens files path r) (body : Reading α) :
    ∃ reason, run files path body = .error (.model path reason) := by
  cases read : files.read path with
  | error e => exact ⟨e.message, by simp only [run, read, fileResult, bind, Except.bind]⟩
  | ok bytes =>
    cases opened : Reader.ofBytes path bytes with
    | error p => exact ⟨p.message, by simp only [run, read, fileResult, opened, bind, Except.bind, Problem.failure]⟩
    | ok r => exact absurd ⟨bytes, read, opened⟩ (unopened r)

theorem runFault {body : Reading α} {cause : Fault} :
    run files path body = .error (.fault cause) ↔ ∃ r, Opens files path r ∧ body r = .error (.fault cause) := by
  constructor
  · intro failed
    by_cases opened : ∃ r, Opens files path r
    · obtain ⟨r, opens⟩ := opened
      rw [runOpened opens] at failed
      refine ⟨r, opens, ?_⟩
      cases known : body r with
      | error e =>
        rw [known] at failed
        simpa [bind, Except.bind] using failed
      | ok p =>
        rw [known] at failed
        simp only [bind, Except.bind] at failed
        split at failed <;> cases failed
    · obtain ⟨reason, refused⟩ := runUnopened (not_exists.mp opened) body
      rw [refused] at failed
      cases failed
  · rintro ⟨r, opens, failed⟩
    rw [runOpened opens, failed]
    rfl

theorem runOk {body : Reading α} {a : α} (ok : run files path body = .ok a) :
    ∃ r r', Opens files path r ∧ body r = .ok (a, r') := by
  by_cases opened : ∃ r, Opens files path r
  · obtain ⟨r, opens⟩ := opened
    rw [runOpened opens] at ok
    obtain ⟨⟨b, r'⟩, read, ok⟩ := Outcome.bindOk ok
    dsimp only at ok
    split at ok
    · cases ok
    · cases ok
      exact ⟨r, r', opens, read⟩
  · obtain ⟨reason, refused⟩ := runUnopened (not_exists.mp opened) body
    rw [refused] at ok
    cases ok

/-- A file of values after their sizes is a fault only where the sizes multiply to more than a word. -/
theorem runSizedFault (harmless : Harmless stated) {cause : Fault} :
    run files path (do let s ← stated; let values ← sized s; return f s values) = .error (.fault cause) ↔
      ∃ s, States stated files path s ∧ checkedProduct s.first s.others = .error cause := by
  have rest (s : Stated) (r : Reader) :
      (do let values ← sized s; return f s values : Reading α) r = .error (.fault cause) ↔
        checkedProduct s.first s.others = .error cause := by
    rw [bindFault, sizedFault]
    exact or_iff_left fun ⟨values, r', _, failed⟩ => pureHarmless _ _ _ failed
  rw [runFault]
  constructor
  · rintro ⟨r, opens, failed⟩
    rcases bindFault.mp failed with failed | ⟨s, r', states, failed⟩
    · exact absurd failed (harmless r cause)
    · exact ⟨s, ⟨r, r', opens, states⟩, (rest s r').mp failed⟩
  · rintro ⟨s, ⟨r, r', opens, states⟩, failed⟩
    exact ⟨r, opens, bindFault.mpr (.inr ⟨s, r', states, (rest s r').mpr failed⟩)⟩

theorem runThreeFault (harmless : Harmless stated)
    (three : ∀ r r' s, stated r = .ok (s, r') →
      s.first < 2147483648 ∧ ∃ second < 2147483648, ∃ third, s.others = [second, third]) {cause : Fault} :
    run files path (do let s ← stated; let values ← sized s; return f s values) = .error (.fault cause) ↔
      cause = .overflow ∧ ∃ s, States stated files path s ∧ Nat.pow 2 wordBits ≤ s.product := by
  have wide {s : Stated} (states : States stated files path s) :
      checkedProduct s.first s.others = .error cause ↔ cause = .overflow ∧ Nat.pow 2 wordBits ≤ s.product := by
    obtain ⟨r, r', _, read⟩ := states
    obtain ⟨small, second, small', third, others⟩ := three r r' s read
    rw [others, (checkedProductFault small small').2, Stated.product, others]
    rfl
  rw [runSizedFault harmless]
  constructor
  · rintro ⟨s, states, failed⟩
    obtain ⟨why, wide⟩ := (wide states).mp failed
    exact ⟨why, s, states, wide⟩
  · rintro ⟨why, s, states, more⟩
    exact ⟨s, states, (wide states).mpr ⟨why, more⟩⟩

theorem runSizedOk {a : α}
    (ok : run files path (do let s ← stated; let values ← sized s; return f s values) = .ok a) :
    ∃ s values, States stated files path s ∧ values.length = s.product ∧ a = f s values := by
  obtain ⟨r, r', opens, ok⟩ := runOk ok
  obtain ⟨s, r₁, states, ok⟩ := bindOk ok
  obtain ⟨values, r₂, read, ok⟩ := bindOk ok
  cases ok
  exact ⟨s, values, ⟨r, r₁, opens, states⟩, sizedOk read, rfl⟩

end Reading

open Reading (Stated States Harmless sized)

def Transitions.stated : Reading Stated := do
  let matrices ← Reading.count "tmat count"
  let sources ← Reading.count "source states"
  let targets ← Reading.count "destination states"
  if targets ≠ sources + 1 then Reading.refuse (.destinations (sources + 1) targets)
  let total ← Reading.count "value count"
  return ⟨total, matrices, [sources, targets]⟩

def Moments.stated : Reading Stated := do
  let codebooks ← Reading.count "codebook count"
  let streams ← Reading.count "stream count"
  let densities ← Reading.count "density count"
  if streams ≠ 1 then Reading.refuse (.streams streams)
  let dimension ← Reading.count "vector length"
  let total ← Reading.count "value count"
  return ⟨total, codebooks, [densities, dimension]⟩

def Weights.stated : Reading Stated := do
  let senones ← Reading.count "senone count"
  let streams ← Reading.count "stream count"
  let densities ← Reading.count "density count"
  if streams ≠ 1 then Reading.refuse (.streams streams)
  let total ← Reading.count "value count"
  return ⟨total, senones, [densities]⟩

theorem Transitions.contentsSized :
    contents = do
      let s ← stated
      let values ← sized s
      return (s.others.headD 0, values) := by
  unfold contents stated
  simp only [Reading.valuesSized, bind_assoc]
  refine bind_congr fun matrices => bind_congr fun sources => bind_congr fun targets => ?_
  split
  · rfl
  · simp only [bind_assoc, pure_bind]
    rfl

theorem Moments.contentsSized :
    contents = do
      let s ← stated
      let values ← sized s
      return ⟨s.first, s.others.headD 0, s.others.getD 1 0, values⟩ := by
  unfold contents stated
  simp only [Reading.valuesSized, bind_assoc]
  refine bind_congr fun codebooks => bind_congr fun streams => bind_congr fun densities => ?_
  split
  · rfl
  · simp only [bind_assoc, pure_bind]
    rfl

theorem Weights.contentsSized :
    contents = do
      let s ← stated
      let values ← sized s
      return (s.others.headD 0, values) := by
  unfold contents stated
  simp only [Reading.valuesSized, bind_assoc]
  refine bind_congr fun senones => bind_congr fun streams => bind_congr fun densities => ?_
  split
  · rfl
  · simp only [bind_assoc, pure_bind]
    rfl

/-! ### What files state -/

theorem Transitions.statedIs {r r' : Reader} {s : Stated} (ok : stated r = .ok (s, r')) :
    s.first < 2147483648 ∧ ∃ states < 2147483648, s.others = [states, states + 1] := by
  obtain ⟨matrices, r₁, first, ok⟩ := Reading.bindOk ok
  obtain ⟨sources, r₂, second, ok⟩ := Reading.bindOk ok
  obtain ⟨targets, r₃, third, ok⟩ := Reading.bindOk ok
  obtain ⟨fits, ok⟩ := Reading.checkOk ok
  obtain ⟨total, r₄, _, ok⟩ := Reading.bindOk ok
  cases ok
  exact ⟨Reading.countSmall first, sources, Reading.countSmall second, by rw [Decidable.not_not.mp fits]⟩

theorem Moments.statedIs {r r' : Reader} {s : Stated} (ok : stated r = .ok (s, r')) :
    s.first < 2147483648 ∧ ∃ densities < 2147483648, ∃ dimension, s.others = [densities, dimension] := by
  obtain ⟨codebooks, r₁, first, ok⟩ := Reading.bindOk ok
  obtain ⟨streams, r₂, _, ok⟩ := Reading.bindOk ok
  obtain ⟨densities, r₃, third, ok⟩ := Reading.bindOk ok
  obtain ⟨_, ok⟩ := Reading.checkOk ok
  obtain ⟨dimension, r₄, _, ok⟩ := Reading.bindOk ok
  obtain ⟨total, r₅, _, ok⟩ := Reading.bindOk ok
  cases ok
  exact ⟨Reading.countSmall first, densities, Reading.countSmall third, dimension, rfl⟩

theorem Weights.statedIs {r r' : Reader} {s : Stated} (ok : stated r = .ok (s, r')) :
    s.first < 2147483648 ∧ ∃ densities < 2147483648, s.others = [densities] := by
  obtain ⟨senones, r₁, first, ok⟩ := Reading.bindOk ok
  obtain ⟨streams, r₂, _, ok⟩ := Reading.bindOk ok
  obtain ⟨densities, r₃, third, ok⟩ := Reading.bindOk ok
  obtain ⟨_, ok⟩ := Reading.checkOk ok
  obtain ⟨total, r₄, _, ok⟩ := Reading.bindOk ok
  cases ok
  exact ⟨Reading.countSmall first, densities, Reading.countSmall third, rfl⟩

theorem Transitions.statedHarmless : Harmless stated := by
  refine (Reading.countHarmless _).bind fun matrices => (Reading.countHarmless _).bind fun sources => ?_
  refine (Reading.countHarmless _).bind fun targets => Harmless.check ?_
  exact (Reading.countHarmless _).bind fun total => Reading.pureHarmless _

theorem Moments.statedHarmless : Harmless stated := by
  refine (Reading.countHarmless _).bind fun codebooks => (Reading.countHarmless _).bind fun streams => ?_
  refine (Reading.countHarmless _).bind fun densities => Harmless.check ?_
  refine (Reading.countHarmless _).bind fun dimension => (Reading.countHarmless _).bind fun total => ?_
  exact Reading.pureHarmless _

theorem Weights.statedHarmless : Harmless stated := by
  refine (Reading.countHarmless _).bind fun senones => (Reading.countHarmless _).bind fun streams => ?_
  refine (Reading.countHarmless _).bind fun densities => Harmless.check ?_
  exact (Reading.countHarmless _).bind fun total => Reading.pureHarmless _

variable {files : FileTree} {path : String} {cause : Fault}

/-! ### Transition matrices -/

theorem Transitions.readFault :
    Reading.run files path contents = .error (.fault cause) ↔
      cause = .overflow ∧ ∃ s, States stated files path s ∧ Nat.pow 2 wordBits ≤ s.product := by
  rw [contentsSized]
  refine Reading.runThreeFault statedHarmless fun r r' s read => ?_
  obtain ⟨small, sources, small', others⟩ := statedIs read
  exact ⟨small, sources, small', sources + 1, others⟩

theorem Transitions.readOk {states : Nat} {values : List Float32}
    (ok : Reading.run files path contents = .ok (states, values)) :
    ∃ total matrices, States stated files path ⟨total, matrices, [states, states + 1]⟩ ∧
      values.length = matrices * states * (states + 1) := by
  rw [contentsSized] at ok
  obtain ⟨⟨total, first, others⟩, held, stated, size, same⟩ := Reading.runSizedOk ok
  obtain ⟨r, r', _, read⟩ := id stated
  obtain ⟨_, sources, _, rfl⟩ := statedIs read
  cases same
  exact ⟨total, first, stated, size⟩

section
variable [Elementary]

theorem Transitions.scoresFault {floor : Float32} {states place : Nat} {probabilities : List Float32}
    (failed : scoresFrom floor states place probabilities = .error (.fault cause)) :
    states = 0 ∧ probabilities ≠ [] := by
  induction probabilities generalizing place with
  | nil => cases failed
  | cons p rest ih =>
    refine ⟨?_, List.cons_ne_nil p rest⟩
    by_contra some
    have scored (e : Problem) (bad : scoreOf floor states place p = .error e) : e ≠ .fault cause := by
      unfold scoreOf checkedMod at bad
      rw [if_neg some] at bad
      dsimp only at bad
      rintro rfl
      split at bad
      · cases bad
      · split at bad
        · split at bad <;> cases bad
        · split at bad <;> cases bad
    unfold scoresFrom at failed
    cases first : scoreOf floor states place p with
    | error e =>
      rw [first] at failed
      cases failed
      exact scored _ first rfl
    | ok x =>
      rw [first] at failed
      cases later : scoresFrom floor states (place + 1) rest with
      | error e =>
        simp only [bind, Except.bind, later] at failed
        cases failed
        exact some (ih later).1
      | ok xs =>
        simp only [bind, Except.bind, later] at failed
        cases failed

theorem Transitions.scoresLength {floor : Float32} {states place : Nat} {probabilities values : List Float32}
    (ok : scoresFrom floor states place probabilities = .ok values) : values.length = probabilities.length := by
  induction probabilities generalizing place values with
  | nil =>
    cases ok
    rfl
  | cons p rest ih =>
    obtain ⟨x, _, ok⟩ := Outcome.bindOk ok
    obtain ⟨xs, later, ok⟩ := Outcome.bindOk ok
    cases ok
    rw [List.length_cons, List.length_cons, ih later]

theorem Transitions.loadFault {floor : Float32} :
    load files path floor = .error (.fault cause) ↔
      cause = .overflow ∧ ∃ s, States stated files path s ∧ Nat.pow 2 wordBits ≤ s.product := by
  rw [← readFault]
  unfold load
  cases read : Reading.run files path contents with
  | error e => simp [bind, Except.bind]
  | ok held =>
    obtain ⟨states, values⟩ := held
    obtain ⟨total, matrices, _, size⟩ := readOk read
    simp only [bind, Except.bind, reduceCtorEq, iff_false]
    intro failed
    cases scored : scoresFrom floor states 0 values with
    | ok scores =>
      simp only [ofProbabilities, scored, bind, Except.bind, Except.mapError] at failed
      cases failed
    | error e =>
      simp only [ofProbabilities, scored, bind, Except.bind, Except.mapError] at failed
      cases e with
      | fault c =>
        -- without states there are no values
        obtain ⟨rfl, some⟩ := scoresFault scored
        exact some (List.length_eq_zero_iff.mp (by simpa using size))
      | negative place => cases failed
      | backward matrix => cases failed

theorem Transitions.loadOk {floor : Float32} {t : Transitions Float32} (ok : load files path floor = .ok t) :
    ∃ total matrices, States stated files path ⟨total, matrices, [t.states, t.states + 1]⟩ ∧
      t.values.size = matrices * t.states * (t.states + 1) := by
  obtain ⟨⟨states, probabilities⟩, read, ok⟩ := Outcome.bindOk ok
  obtain ⟨total, matrices, stated, size⟩ := readOk read
  obtain ⟨values, scored, ok⟩ := Outcome.bindOk (Outcome.mapErrorOk ok)
  cases ok
  exact ⟨total, matrices, stated, (scoresLength scored).trans size⟩

end

/-! ### Densities -/

theorem Moments.readFault :
    Reading.run files path contents = .error (.fault cause) ↔
      cause = .overflow ∧ ∃ s, States stated files path s ∧ Nat.pow 2 wordBits ≤ s.product := by
  rw [contentsSized]
  exact Reading.runThreeFault statedHarmless fun _ _ _ => statedIs

theorem Moments.readOk {m : Moments} (ok : Reading.run files path contents = .ok m) :
    ∃ total, States stated files path ⟨total, m.codebooks, [m.densities, m.dimension]⟩ ∧
      m.values.length = m.codebooks * m.densities * m.dimension := by
  rw [contentsSized] at ok
  obtain ⟨⟨total, first, others⟩, held, stated, size, rfl⟩ := Reading.runSizedOk ok
  obtain ⟨r, r', _, read⟩ := id stated
  obtain ⟨_, densities, _, dimension, rfl⟩ := statedIs read
  exact ⟨total, stated, size⟩

/-- Means and variances of as many densities of one dimension. -/
def Moments.Fits (m v : Moments) : Prop :=
  m.codebooks = v.codebooks ∧ m.densities = v.densities ∧ m.dimension = v.dimension

section
variable [Elementary] {meanPath variancePath : String} {floor : Float32}

theorem Gaussians.loadFault :
    load files meanPath variancePath floor = .error (.fault cause) ↔
      Reading.run files meanPath Moments.contents = .error (.fault cause) ∨
        ∃ means, Reading.run files meanPath Moments.contents = .ok means ∧
          (Reading.run files variancePath Moments.contents = .error (.fault cause) ∨
            ∃ variances, Reading.run files variancePath Moments.contents = .ok variances ∧ means.Fits variances ∧
              cause = .capacity ∧ Nat.pow 2 (wordBits - 1) ≤ means.codebooks * means.densities * 4) := by
  unfold load
  cases Reading.run files meanPath Moments.contents with
  | error e => simp [bind, Except.bind]
  | ok means =>
    cases Reading.run files variancePath Moments.contents with
    | error e => simp [bind, Except.bind]
    | ok variances =>
      simp only [bind, Except.bind, reduceCtorEq, Except.ok.injEq, false_or, exists_eq_left']
      by_cases fits : means.Fits variances
      · rw [if_neg (by simpa [Moments.Fits] using fits)]
        rw [← checkedRoomFault, ← orFaultFault]
        cases orFault (checkedRoom (means.codebooks * means.densities) 4) with
        | error e => simp [fits]
        | ok _ => simp
      · rw [if_pos (by simpa [Moments.Fits, imp_iff_not_or, not_and_or] using fits)]
        simp [fits]

theorem Gaussians.loadMade {g : Gaussians} (ok : load files meanPath variancePath floor = .ok g) :
    ∃ means variances, Reading.run files meanPath Moments.contents = .ok means ∧
      Reading.run files variancePath Moments.contents = .ok variances ∧ means.Fits variances ∧
      g = ofMoments means.codebooks means.densities means.dimension means.values variances.values floor := by
  obtain ⟨means, read, ok⟩ := Outcome.bindOk ok
  obtain ⟨variances, read', ok⟩ := Outcome.bindOk ok
  obtain ⟨fits, ok⟩ := Outcome.checkOk ok
  obtain ⟨_, _, ok⟩ := Outcome.bindOk ok
  cases ok
  exact ⟨means, variances, read, read', by simpa [Moments.Fits, not_or] using fits, rfl⟩

theorem Gaussians.loadOk {g : Gaussians} (ok : load files meanPath variancePath floor = .ok g) :
    (∃ total, States Moments.stated files meanPath ⟨total, g.codebooks, [g.densities, g.dimension]⟩) ∧
      (∃ total, States Moments.stated files variancePath ⟨total, g.codebooks, [g.densities, g.dimension]⟩) ∧
      g.means.size = g.codebooks * g.densities * g.dimension ∧
      g.precisions.size = g.codebooks * g.densities * g.dimension := by
  obtain ⟨means, variances, read, read', ⟨codebooks, densities, dimension⟩, rfl⟩ := loadMade ok
  obtain ⟨total, stated, size⟩ := Moments.readOk read
  obtain ⟨total', stated', size'⟩ := Moments.readOk read'
  rw [← codebooks, ← densities, ← dimension] at stated' size'
  exact ⟨⟨total, stated⟩, ⟨total', stated'⟩, by simp [ofMoments, size], by simp [ofMoments, size']⟩

/-! ### Mixture weights -/

theorem Weights.loadHarmless : load files path floor ≠ .error (.fault cause) := by
  unfold load
  cases read : Reading.run files path contents with
  | error e =>
    rintro failed
    cases failed
    rw [contentsSized, Reading.runSizedFault statedHarmless] at read
    obtain ⟨s, ⟨r, r', _, stated⟩, failed⟩ := read
    obtain ⟨small, densities, small', others⟩ := statedIs stated
    rw [others] at failed
    exact (checkedProductFault small small').1 failed
  | ok held => exact fun failed => by cases failed

theorem Weights.countsLength (densities : Nat) (counts : List Float32) :
    (ofCounts densities counts floor).logs.size = counts.length := by
  have lengths (pieces : List (List Float32)) :
      (pieces.flatMap (normalize floor)).length = pieces.flatten.length := by
    induction pieces with
    | nil => rfl
    | cons piece rest ih => simp [normalize, ih]
  rw [ofCounts, List.size_toArray, lengths, Pieces.flattenOfList]

theorem Weights.loadOk {w : Weights} (ok : load files path floor = .ok w) :
    ∃ total senones, States stated files path ⟨total, senones, [w.densities]⟩ ∧
      w.logs.size = senones * w.densities := by
  obtain ⟨⟨densities, counts⟩, read, ok⟩ := Outcome.bindOk ok
  cases ok
  rw [contentsSized] at read
  obtain ⟨⟨total, first, others⟩, held, stated, size, same⟩ := Reading.runSizedOk read
  obtain ⟨r, r', _, found⟩ := id stated
  obtain ⟨_, densities', _, rfl⟩ := statedIs found
  cases same
  exact ⟨total, first, stated, (countsLength _ _).trans size⟩

end

end Model

namespace Models

/-- Matrices without states cannot be counted. -/
theorem checkFault (features : Feature.Settings) (k : Search.Knowledge Float32) {cause : Fault} :
    check features k = .error (.fault cause) ↔ cause = .divisionByZero ∧ k.transitions.states = 0 := by
  have counted : k.transitions.count = .error cause ↔ cause = .divisionByZero ∧ k.transitions.states = 0 := by
    unfold Model.Transitions.count checkedDiv
    split
    · rename_i none
      have none : k.transitions.states = 0 := (Nat.mul_eq_zero.mp none).resolve_right (Nat.succ_ne_zero _)
      simp only [Except.error.injEq, none, and_true, eq_comm]
    · rename_i some
      have some : k.transitions.states ≠ 0 := fun none => some (by rw [none, Nat.zero_mul])
      simp only [reduceCtorEq, some, and_false]
  rw [← counted, ← orFaultFault]
  unfold check
  cases orFault k.transitions.count with
  | error e => simp only [bind, Except.bind, Except.error.injEq]
  | ok held =>
    simp only [bind, Except.bind, reduceCtorEq, iff_false]
    intro failed
    split at failed
    · cases failed
    · split at failed
      · cases failed
      · split at failed
        · cases failed
        · split at failed <;> cases failed

end Models

namespace Model
open Reading (States)

/-- Loading a binary model file is a fault only where the dimensions that it states multiply to more than a word, and
for densities also where there is no room for as many. What is loaded holds as many values as its dimensions say. The
parts that do not fit are refused, but matrices without states, which a file may state, cannot be counted. -/
theorem faultsOfSizes [Elementary] (files : FileTree) :
    (∀ path floor cause, Transitions.load files path floor = .error (.fault cause) ↔
      cause = .overflow ∧ ∃ s, States Transitions.stated files path s ∧ Nat.pow 2 wordBits ≤ s.product) ∧
    (∀ path cause, Reading.run files path Moments.contents = .error (.fault cause) ↔
      cause = .overflow ∧ ∃ s, States Moments.stated files path s ∧ Nat.pow 2 wordBits ≤ s.product) ∧
    (∀ meanPath variancePath floor cause, Gaussians.load files meanPath variancePath floor = .error (.fault cause) ↔
      Reading.run files meanPath Moments.contents = .error (.fault cause) ∨
        ∃ means, Reading.run files meanPath Moments.contents = .ok means ∧
          (Reading.run files variancePath Moments.contents = .error (.fault cause) ∨
            ∃ variances, Reading.run files variancePath Moments.contents = .ok variances ∧ means.Fits variances ∧
              cause = .capacity ∧ Nat.pow 2 (wordBits - 1) ≤ means.codebooks * means.densities * 4)) ∧
    (∀ path floor cause, Weights.load files path floor ≠ .error (.fault cause)) ∧
    (∀ path floor t, Transitions.load files path floor = .ok t →
      ∃ total matrices, States Transitions.stated files path ⟨total, matrices, [t.states, t.states + 1]⟩ ∧
        t.values.size = matrices * t.states * (t.states + 1)) ∧
    (∀ meanPath variancePath floor g, Gaussians.load files meanPath variancePath floor = .ok g →
      (∃ total, States Moments.stated files meanPath ⟨total, g.codebooks, [g.densities, g.dimension]⟩) ∧
        (∃ total, States Moments.stated files variancePath ⟨total, g.codebooks, [g.densities, g.dimension]⟩) ∧
        g.means.size = g.codebooks * g.densities * g.dimension ∧
        g.precisions.size = g.codebooks * g.densities * g.dimension) ∧
    (∀ path floor w, Weights.load files path floor = .ok w →
      ∃ total senones, States Weights.stated files path ⟨total, senones, [w.densities]⟩ ∧
        w.logs.size = senones * w.densities) ∧
    ∀ features k cause, Models.check features k = .error (.fault cause) ↔
      cause = .divisionByZero ∧ k.transitions.states = 0 :=
  ⟨fun _ _ _ => Transitions.loadFault, fun _ _ => Moments.readFault, fun _ _ _ _ => Gaussians.loadFault,
    fun _ _ _ => Weights.loadHarmless, fun _ _ _ => Transitions.loadOk, fun _ _ _ _ => Gaussians.loadOk,
    fun _ _ _ => Weights.loadOk, fun features k _ => Models.checkFault features k⟩

/-- One phone of one state, and three matrices without states. -/
def smallFiles : FileTree := ⟨[
  (["t"], .file (ParameterFile.write [] [1, 1, 2, 2, 0x3F000000, 0x3F000000])),
  (["z"], .file (ParameterFile.write [] [3, 0, 1, 0])),
  (["m"], .file (ParameterFile.write [] [1, 1, 1, 1, 1, 0])),
  (["v"], .file (ParameterFile.write [] [1, 1, 1, 1, 1, 0x3F800000])),
  (["w"], .file (ParameterFile.write [] [1, 1, 1, 1, 0x3F800000]))]⟩

theorem smallSizes :
    let _ := Elementary.system
    (∃ t matrices, Transitions.load smallFiles "t" 0 = .ok t ∧ t.values.size = matrices * t.states * (t.states + 1)) ∧
      (∃ t, Transitions.load smallFiles "z" 0 = .ok t ∧ ∀ features k, k.transitions = t →
        Models.check features k = .error (.fault .divisionByZero)) ∧
      (∃ g, Gaussians.load smallFiles "m" "v" 0 = .ok g ∧
        g.precisions.size = g.codebooks * g.densities * g.dimension) ∧
      ∃ w senones, Weights.load smallFiles "w" 0 = .ok w ∧ w.logs.size = senones * w.densities := by
  intro _
  have one : ((Transitions.load smallFiles "t" 0).map fun t => t.states).toOption = some 1 := by decide +kernel
  have none : ((Transitions.load smallFiles "z" 0).map fun t => t.states).toOption = some 0 := by decide +kernel
  have moments : ((Gaussians.load smallFiles "m" "v" 0).map fun g => g.codebooks).toOption = some 1 := by
    decide +kernel
  have weights : ((Weights.load smallFiles "w" 0).map fun w => w.densities).toOption = some 1 := by decide +kernel
  obtain ⟨t, first, _⟩ := Outcome.mapOk one
  obtain ⟨z, second, none⟩ := Outcome.mapOk none
  obtain ⟨g, third, _⟩ := Outcome.mapOk moments
  obtain ⟨w, fourth, _⟩ := Outcome.mapOk weights
  obtain ⟨_, _, _, _, matrices, densities, mixed, checks⟩ := faultsOfSizes smallFiles
  obtain ⟨_, held, _, size⟩ := matrices "t" 0 t first
  obtain ⟨_, _, _, size'⟩ := densities "m" "v" 0 g third
  obtain ⟨_, senones, _, size''⟩ := mixed "w" 0 w fourth
  refine ⟨⟨t, held, first, size⟩, ⟨z, second, fun features k same => ?_⟩, ⟨g, third, size'⟩, w, senones, fourth, size''⟩
  exact (checks features k .divisionByZero).mpr ⟨rfl, by rw [same, none]⟩

end Model

end SpeechDecoder
