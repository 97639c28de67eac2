import SpeechDecoder.Proofs.Search.Tracing

/-! What holds of a search whatever it was asked: tokens and exits are where alignments lead, and the table of
exits is well formed, also in the lattice of a result. -/
namespace SpeechDecoder.Search

open Model (History)

variable {α : Type} [Score α]

section
variable {k : Knowledge α} {frames : List (Frame α)} {allowed : Nat → Place → α → Prop} {h : History} {a : α}

theorem Path.append (later : List (Frame α)) {t : Nat} {place : Place} (path : Path k frames allowed t place h a) :
    Path k (frames ++ later) allowed t place h a := by
  have still {t : Nat} {frame : Frame α} (now : frames[t]? = some frame) : (frames ++ later)[t]? = some frame := by
    rw [List.getElem?_append_left (List.getElem?_eq_some_iff.mp now).1, now]
  induction path with
  | start first => exact .start first
  | enter _ now here inside may ih => exact .enter ih (still now) here inside may
  | go _ now here inside may ih => exact .go ih (still now) here inside may
  | cross _ here further may ih => exact .cross ih here further may
  | leave _ here last may ih => exact .leave ih here last may
  | next _ first may ih => exact .next ih first may

theorem Comes.append {t : Nat} {exits : Array (Exit α)} {place : Place} {token : Token α}
    (comes : Comes k frames exits t place token) (later : List (Frame α)) :
    Comes k (frames ++ later) exits t place token := by
  obtain ⟨before, stays, known, begins, ride⟩ := comes
  exact ⟨before, stays, known, ⟨begins.live, begins.path.append later⟩, ride.append later⟩

theorem Traced.append {t : Nat} {words : List (WordModel α)} {exits : Array (Exit α)}
    (traced : Traced k frames t words exits) (later : List (Frame α)) :
    Traced k (frames ++ later) t words exits := by
  refine ⟨traced.shape,
    fun word phone state m x found held live => (traced.states word phone state m x found held live).append later,
    fun word phone m found live => (traced.entries word phone m found live).append later,
    fun place word e found named => ?_⟩
  obtain ⟨before, origin, earlier, known, comes, same⟩ := traced.ridden place word e found named
  exact ⟨before, origin, earlier, known, comes.append later, same⟩

end

namespace Plain

def Shaped (k : Knowledge α) (words : List (WordModel α)) : Prop :=
  ∀ word phone, (phoneAt words word phone).map PhoneModel.clear = k.phone? word phone

structure Served (k : Knowledge α) (p : Plain α) : Prop where
  knowledge : p.knowledge = k
  shape : Shaped k p.words
  searching : p.phase = .active → Table k p.frames p.exits ∧
    ∃ frames, frames.length = p.frames ∧ Traced k frames p.frames p.words p.exits
  finished : ∀ r, p.result = some r → ∃ t exits, Table k t exits ∧ r.lattice = Lattice.ofExits k exits t
  resting : p.phase ≠ .active → p.exits = #[]
  decoded : ∀ r, p.result = some r → p.phase ≠ .active ∧ r.lattice.frames = p.frames ∧
    (r.hypothesis, r.segments) = r.lattice.best k ∧
    ∃ frames words, Traced k frames r.lattice.frames words r.lattice.exits

theorem makeShaped (k : Knowledge α) : Shaped k (make k).words := by
  intro word phone
  unfold phoneAt Knowledge.phone? make
  rw [List.getElem?_map, Array.getElem?_toList]
  cases k.lexicon.words[word]? with
  | none => rfl
  | some w =>
    simp only [Option.map_some, Option.bind_some, WordModel.make, List.getElem?_map, Option.map_map]
    exact congrArg (Option.map · _) (funext fun id => PhoneModel.makeClear k.phones id)

theorem clearAt (words : List (WordModel α)) (word phone : Nat) :
    phoneAt (words.map WordModel.clear) word phone = (phoneAt words word phone).map PhoneModel.clear :=
  phoneAtMap PhoneModel.clear words word phone

theorem clearShaped {k : Knowledge α} {words : List (WordModel α)} (shape : Shaped k words) :
    Shaped k (words.map WordModel.clear) := by
  intro word phone
  rw [clearAt, Option.map_map, ← shape]
  cases phoneAt words word phone with
  | none => rfl
  | some m => exact congrArg some m.clearClear

theorem startTraced [Score.Ordered α] {p p₀ : Plain α} (shape : Shaped p.knowledge p.words)
    (started : p.start = .ok p₀) (frames : List (Frame α)) :
    p₀.knowledge = p.knowledge ∧ p₀.phase = .active ∧ p₀.frames = 0 ∧
      p₀.exits = #[Exit.root p.knowledge] ∧ p₀.words = offerAll p.knowledge Score.impossible
        #[Exit.root p.knowledge] (p.words.map WordModel.clear) 0 ∧ p₀.result = none ∧
      Traced p.knowledge frames 0 (p.words.map WordModel.clear) #[Exit.root p.knowledge] ∧
      Traced p.knowledge frames 0 p₀.words p₀.exits := by
  unfold start at started
  split at started
  · cases started
  cases started
  have cleared : Traced p.knowledge frames 0 (p.words.map WordModel.clear) #[Exit.root p.knowledge] := by
    refine ⟨clearShaped shape, fun word phone state m x found held live => ?_,
      fun word phone m found live => ?_, fun place word e found named => ?_⟩
    · rw [clearAt] at found
      obtain ⟨m₀, _, rfl⟩ := Option.map_eq_some_iff.mp found
      rw [m₀.clearStates x (List.mem_of_getElem? held), Token.deadNotLive] at live
      cases live
    · rw [clearAt] at found
      obtain ⟨m₀, _, rfl⟩ := Option.map_eq_some_iff.mp found
      have dead : (Token.dead : Token α).isLive = true := live
      rw [Token.deadNotLive] at dead
      cases dead
    · have mem := Array.mem_of_getElem? found
      rw [List.mem_toArray, List.mem_singleton] at mem
      rw [mem] at named
      cases named
  refine ⟨rfl, rfl, rfl, rfl, rfl, rfl, cleared, ?_⟩
  have known : #[Exit.root p.knowledge][0]? = some (Exit.root p.knowledge) := rfl
  exact cleared.offer Score.impossible known rfl fun word m first => .start first

theorem rootTable (k : Knowledge α) : Table k 0 #[Exit.root k] :=
  ⟨rfl, fun place e found => by simp at found⟩

theorem Served.step [Score.Ordered α] {k : Knowledge α} {p : Plain α} (served : Served k p) {frame : Frame α}
    (active : p.phase = .active) : Served k (p.step frame) := by
  obtain ⟨rfl, shape, searching, finished, _, decoded⟩ := served
  obtain ⟨table, frames, size, traced⟩ := searching active
  have now : (frames ++ [frame])[p.frames]? = some frame := by simp [← size]
  have before := traced.append [frame]
  have after := before.step now
  exact ⟨rfl, after.shape, fun _ => ⟨table.step before now, frames ++ [frame], by simp [size, Plain.step], after⟩,
    finished, fun rest => absurd active rest, fun r found => absurd active (decoded r found).1⟩

theorem Served.perform [Score.Ordered α] {k : Knowledge α} {p p' : Plain α} (served : Served k p) {op : Op α}
    (done : p.perform op = .ok p') : Served k p' := by
  cases op with
  | start =>
    obtain ⟨rfl, shape, _⟩ := served
    obtain ⟨same, active, zero, exits, words, none, _, traced⟩ := startTraced shape done []
    have unfinished {r : Result α} (found : p'.result = some r) : False := by
      rw [none] at found
      cases found
    refine ⟨same, traced.shape, fun _ => ⟨?_, [], zero.symm, by rw [zero]; exact traced⟩,
      fun r found => (unfinished found).elim, fun rest => absurd active rest, fun r found => (unfinished found).elim⟩
    rw [zero, exits]
    exact rootTable p.knowledge
  | advance frame =>
    change p.advance frame = .ok p' at done
    unfold advance at done
    split at done
    · cases done
    · split at done
      · cases done
      · cases done
        exact served.step (Decidable.not_not.mp ‹_›)
  | finish =>
    change p.finish = .ok p' at done
    unfold finish at done
    split at done
    · cases done
    · cases done
      obtain ⟨rfl, shape, searching, _⟩ := served
      obtain ⟨table, frames, _, traced⟩ := searching (Decidable.not_not.mp ‹_›)
      refine ⟨rfl, shape, fun active => (by cases active), fun r found => ?_, fun _ => rfl, fun r found => ?_⟩
      · cases found
        exact ⟨p.frames, p.exits, table, rfl⟩
      · cases found
        exact ⟨fun active => (by cases active), rfl, rfl, frames, p.words, traced⟩
  | reset =>
    cases done
    exact ⟨served.knowledge, served.shape, fun active => (by cases active), fun r found => (by cases found),
      fun _ => rfl, fun r found => by cases found⟩

theorem afterKeeps {holds : Plain α → Prop} (kept : ∀ p op p', holds p → p.perform op = .ok p' → holds p')
    (ops : List (Op α)) {p : Plain α} (first : holds p) : holds (p.after ops) := by
  induction ops generalizing p with
  | nil => exact first
  | cons op rest ih =>
    refine ih ?_
    change holds ((p.perform op).toOption.getD p)
    cases done : p.perform op with
    | error _ => exact first
    | ok p' => exact kept p op p' first done

theorem afterServed [Score.Ordered α] (k : Knowledge α) (ops : List (Op α)) : Served k ((make k).after ops) := by
  have first : Served k (make k) :=
    ⟨rfl, makeShaped k, fun active => (by cases active), fun r found => (by cases found), fun _ => rfl,
      fun r found => by cases found⟩
  exact afterKeeps (fun _ _ _ served done => served.perform done) ops first

end Plain

end SpeechDecoder.Search
