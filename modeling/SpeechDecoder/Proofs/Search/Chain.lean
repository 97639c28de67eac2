import SpeechDecoder.Proofs.Search.Optimality

/-! The chain of exits that links lead back over, from an exit to the root. Each link leads to an earlier place of the
table, so that what holds of the root and of an exit behind another holds along every chain. An utterance, frame by
frame from its start, ends with a table whose exits are where rides over its frames lead. -/
namespace SpeechDecoder.Search

variable {α : Type}

namespace Lattice

theorem traceBackRoot {l : Lattice α} {place : Nat} {e : Exit α} (found : l.exit? place = some e)
    (unnamed : e.word = none) (count : Nat) : l.traceBack (count + 1) (some place) = [] := by
  simp only [traceBack, found, unnamed, Option.isSome_none, Bool.false_eq_true, if_false]

theorem traceBackWord {l : Lattice α} {place word : Nat} {e : Exit α} (found : l.exit? place = some e)
    (named : e.word = some word) (count : Nat) :
    l.traceBack (count + 1) (some place) = place :: l.traceBack count e.previous := by
  simp only [traceBack, found, named, Option.isSome_some, if_true]

variable [Score α]

/-- The exits along the best complete path, without the root. -/
def bestPath (l : Lattice α) : List Nat :=
  match l.bestFinal? with
  | none => []
  | some (place, _) => l.path place

theorem bestSegments (k : Knowledge α) (l : Lattice α) : (l.best k).2 = l.segments k
    (l.bestPath.map fun i => (i, (l.exit? i).elim Score.zero Exit.languageScore)) := by
  unfold best bestPath
  cases l.bestFinal? <;> rfl

theorem preferredEither (best : Option (Nat × α)) (new : Nat × α) :
    preferred best new = some new ∨ preferred best new = best := by
  cases best with
  | none => exact .inl rfl
  | some old => exact ite_eq_or_eq _ (some new) (some old)

theorem preferredMem {finals : List (Nat × α)} {first : Option (Nat × α)} {b : Nat × α}
    (found : finals.foldl preferred first = some b) : b ∈ finals ∨ first = some b := by
  induction finals generalizing first with
  | nil => exact .inr found
  | cons new rest ih =>
    rcases ih found with mem | same
    · exact .inl (List.mem_cons_of_mem new mem)
    · rcases preferredEither first new with taken | kept
      · cases taken.symm.trans same
        exact .inl List.mem_cons_self
      · exact .inr (kept.symm.trans same)

theorem bestFinalIs {k : Knowledge α} {exits : Array (Exit α)} {frames place : Nat} {score : α}
    (best : (ofExits k exits frames).bestFinal? = some (place, score)) :
    ∃ e word, exits[place]? = some e ∧ e.word = some word ∧ e.endFrame = frames ∧
      score = e.score + k.leave e.history := by
  have mem : (place, score) ∈ (ofExits k exits frames).finals := (preferredMem best).resolve_right (by simp)
  obtain ⟨e, found, final, same⟩ := memFinals.mp mem
  simp only [isFinal, Bool.and_eq_true, beq_iff_eq] at final
  obtain ⟨⟨_, named⟩, ends⟩ := final
  obtain ⟨word, named⟩ := Option.isSome_iff_exists.mp named
  exact ⟨e, word, found, named, ends, same⟩

end Lattice

section
variable {k : Knowledge α} {frames : List (Frame α)} {t : Nat} {words : List (WordModel α)}
  {exits : Array (Exit α)} [Score α]

/-- What holds of the root, and of an exit behind another of which it holds, holds of each exit with its chain. -/
theorem Traced.chained (traced : Traced k frames t words exits) (table : Table k t exits)
    (holds : List Nat → Nat → Exit α → Prop) (root : holds [] 0 (Exit.root k))
    (link : ∀ (chain : List Nat) (origin place word : Nat) (before e : Exit α), holds chain origin before →
      exits[origin]? = some before → origin < place → exits[place]? = some e →
      Comes k frames exits e.endFrame (.exit word) ⟨e.score, origin⟩ →
      e = before.after k origin word e.endFrame e.score → holds (place :: chain) place e)
    (l : Lattice α) (same : l.exits = exits) {place : Nat} {e : Exit α} (found : exits[place]? = some e)
    {count : Nat} (enough : place < count) : holds (l.traceBack count (some place)) place e := by
  -- a link leads to a smaller place, so that the chain is over before the count is
  induction place using Nat.strong_induction_on generalizing e count with
  | _ place ih =>
    obtain ⟨count, rfl⟩ := Nat.exists_eq_add_one_of_ne_zero (Nat.ne_zero_of_lt enough)
    have here : l.exit? place = some e := by rw [Lattice.exit?, same, found]
    cases named : e.word with
    | none =>
      cases place with
      | zero =>
        cases found.symm.trans table.root
        rw [Lattice.traceBackRoot here rfl]
        exact root
      | succ n =>
        -- only the root has no word
        obtain ⟨_, _, _, _, _, _, made⟩ := (table.left n e found).1
        rw [made] at named
        cases named
    | some word =>
      obtain ⟨before, origin, earlier, known, comes, made⟩ := traced.ridden place word e found named
      rw [Lattice.traceBackWord here named, (Exit.behindOf made).linked]
      exact link _ origin place word before e (ih origin earlier known (by omega)) known earlier found comes made

end

variable [Score α]

theorem Plain.runTraced [Score.Ordered α] {k : Knowledge α} (past : List (Frame α)) {rest : List (Frame α)}
    {p : Plain α} (knowledge : p.knowledge = k) (time : p.frames = past.length)
    (traced : Traced k (past ++ rest) p.frames p.words p.exits) (table : Table k p.frames p.exits) :
    let q := rest.foldl step p
    q.knowledge = k ∧ q.frames = (past ++ rest).length ∧ Traced k (past ++ rest) q.frames q.words q.exits ∧
      Table k q.frames q.exits := by
  induction rest generalizing past p with
  | nil => exact ⟨knowledge, by simpa using time, traced, table⟩
  | cons frame rest ih =>
    subst knowledge
    have now : (past ++ frame :: rest)[p.frames]? = some frame := by simp [time]
    have all : past ++ frame :: rest = (past ++ [frame]) ++ rest := by simp
    have traced' := traced.step now
    have table' := table.step traced now
    rw [all] at traced' ⊢
    exact ih (past ++ [frame]) (p := p.step frame) rfl (by simp [step, time]) traced' table'

theorem Plain.startActive (p : Plain α) (idle : p.phase = .idle) : ∃ p₀, p.start = .ok p₀ := by
  unfold Plain.start
  rw [if_neg (by simp [idle])]
  exact ⟨_, rfl⟩

/-- A whole utterance, from a search that is idle: its exits are where alignments of its frames lead. -/
theorem Engine.utteranceTraced [Score.Ordered α] (k : Knowledge α) (ops : List (Op α))
    (idle : ((make k).after ops).phase = .idle) (frames : List (Frame α))
    (sizes : ∀ f ∈ frames, f.values.length = k.scorer.dimension) :
    ∃ e e' words exits, ((make k).after ops).start = .ok e ∧ (frames.foldlM advance e >>= finish) = .ok e' ∧
      Traced k frames frames.length words exits ∧ Table k frames.length exits ∧
      let l := Lattice.ofExits k exits frames.length
      e'.result = some ⟨(l.best k).1, (l.best k).2, l⟩ := by
  have follows := (makeFollows k).after ops
  have served := Plain.afterServed k ops
  generalize (make k).after ops = e₀, (Plain.make k).after ops = p₀ at *
  obtain ⟨rfl, shape, _⟩ := served
  obtain ⟨p₁, started⟩ := p₀.startActive (follows.phase ▸ idle)
  obtain ⟨same, active, zero, exits, _, _, _, traced⟩ := Plain.startTraced shape started frames
  have answer := follows.start
  rw [started] at answer
  generalize first : e₀.start = left at answer
  cases answer with
  | @follows e _ next =>
    have active' : e.phase = .active := next.phase.trans active
    obtain ⟨e', all, last, active'', _⟩ := next.run active' (by rw [same]; exact sizes)
    have table : Table p₀.knowledge p₁.frames p₁.exits := by
      rw [zero, exits]
      exact Plain.rootTable _
    rw [← zero] at traced
    obtain ⟨same', frames', traced', table'⟩ := Plain.runTraced [] same zero traced table
    rw [List.nil_append] at frames' traced'
    rw [frames'] at traced' table'
    obtain ⟨e'', closed, result⟩ := finishResult active''
    rw [last.knowledge, last.exits, last.frames, same', frames'] at result
    exact ⟨e, e'', _, _, rfl, by rw [all]; exact closed, traced', table', result⟩

theorem Engine.afterUtterance {e₀ e e' : Engine α} {frames : List (Frame α)} (started : e₀.start = .ok e)
    (done : (frames.foldlM advance e >>= finish) = .ok e') :
    e₀.after (.start :: frames.map .advance ++ [.finish]) = e' := by
  have first : e₀.after (.start :: frames.map .advance ++ [.finish]) =
      e.after (frames.map .advance ++ [.finish]) := by
    change ((e₀.start).toOption.getD e₀).after _ = _
    rw [started]
    rfl
  rw [first]
  clear first started
  induction frames generalizing e with
  | nil =>
    change (e.finish).toOption.getD e = e'
    rw [show e.finish = .ok e' from done]
    rfl
  | cons frame rest ih =>
    rw [List.foldlM_cons, bind_assoc] at done
    obtain ⟨next, moved, done⟩ := Outcome.bindOk done
    change ((e.advance frame).toOption.getD e).after _ = _
    rw [moved]
    exact ih done

end SpeechDecoder.Search
