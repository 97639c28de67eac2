/-! Calls one after another on something that has a state. A call leaves a state behind also where it fails. Where a
call that fails leaves the state that it found, the calls that fail can be left out. -/
namespace SpeechDecoder.Calls

variable {σ ω β ε : Type}

def after (call : σ → ω → Except ε β × σ) (s : σ) (ops : List ω) : σ := ops.foldl (fun s op => (call s op).2) s

def answers (call : σ → ω → Except ε β × σ) (s : σ) : List ω → List (Except ε β)
  | [] => []
  | op :: rest => (call s op).1 :: answers call (call s op).2 rest

/-- The calls that do not fail. -/
def granted (call : σ → ω → Except ε β × σ) (s : σ) : List ω → List ω
  | [] => []
  | op :: rest =>
    if (call s op).1.isOk then op :: granted call (call s op).2 rest else granted call (call s op).2 rest

section
variable {call : σ → ω → Except ε β × σ} {s t : σ} {op : ω}

theorem afterCall {answer : Except ε β} (told : call s op = (answer, t)) (rest : List ω) :
    after call s (op :: rest) = after call t rest := by
  simp only [after, List.foldl_cons, told]

theorem grantedOk {b : β} (told : call s op = (.ok b, t)) (rest : List ω) :
    granted call s (op :: rest) = op :: granted call t rest := by
  rw [granted, told]
  rfl

theorem grantedError {e : ε} (told : call s op = (.error e, t)) (rest : List ω) :
    granted call s (op :: rest) = granted call t rest := by
  rw [granted, told]
  rfl

end

/-- What a call keeps that holds of the state, and that a failing call leaves the state alone. -/
structure Atomic (call : σ → ω → Except ε β × σ) (holds : σ → Prop) : Prop where
  kept : ∀ s op, holds s → holds (call s op).2
  untouched : ∀ s op, holds s → (call s op).1.isOk = false → (call s op).2 = s

theorem Atomic.after {call : σ → ω → Except ε β × σ} {holds : σ → Prop} (atomic : Atomic call holds) {s : σ}
    (first : holds s) (ops : List ω) : holds (Calls.after call s ops) := by
  induction ops generalizing s with
  | nil => exact first
  | cons op rest ih => exact ih (atomic.kept s op first)

theorem Atomic.granted {call : σ → ω → Except ε β × σ} {holds : σ → Prop} (atomic : Atomic call holds) {s : σ}
    (first : holds s) (ops : List ω) :
    answers call s (Calls.granted call s ops) = (answers call s ops).filter Except.isOk ∧
      Calls.after call s (Calls.granted call s ops) = Calls.after call s ops := by
  induction ops generalizing s with
  | nil => exact ⟨rfl, rfl⟩
  | cons op rest ih =>
    obtain ⟨same, last⟩ := ih (atomic.kept s op first)
    simp only [Calls.granted, answers, List.filter_cons]
    split
    · exact ⟨congrArg ((call s op).1 :: ·) same, last⟩
    · rename_i failed
      have stays := atomic.untouched s op first (by simpa using failed)
      rw [stays] at same last ⊢
      refine ⟨same, last.trans ?_⟩
      exact congrArg (fun t => Calls.after call t rest) stays.symm

end SpeechDecoder.Calls
