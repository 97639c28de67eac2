import SpeechDecoder.Proofs.Bounds.Parsed
import SpeechDecoder.Proofs.Model.Sizes

/-! What the counts of a header say of the phones that are read under it, and the counts that no program can add up or
make room for. -/
namespace SpeechDecoder.Model.PhoneSet

open Outcome (bindOk checkOk bindError checkError)

/-- A text whose header reads so, and the lines after it. -/
def Opens (text : String) (h : Header) (rows : List (List Char)) : Prop :=
  ∃ first rest, contentLines text.toList = first :: rest ∧ (Text.after? formatVersion.toList first).isSome ∧
    readHeader {} rest = .ok (h, rows)

structure Header.Consistent (h : Header) : Prop where
  phones : h.phones ≠ 0
  phoneSenones : h.phoneSenones ≠ 0
  matrices : h.matrices ≠ 0
  senones : h.phoneSenones ≤ h.senones

/-- The state map has each state of each row, and its exit. -/
structure Header.Mapped (h : Header) (states : Nat) : Prop where
  some : 0 < states
  each : h.stateMap = (states + 1) * (h.phones + h.triphones)

/-- The counts with which reading is a fault: the rows are more than a word counts, there is no room for the phones, or
the fields of a row, if there is one, are more than a word counts. -/
inductive Header.Fails (h : Header) (rows : List (List Char)) : Fault → Prop where
  | rows (consistent : h.Consistent) (many : Nat.pow 2 wordBits ≤ h.phones + h.triphones) : h.Fails rows .overflow
  | room {states : Nat} (consistent : h.Consistent) (few : h.phones + h.triphones < Nat.pow 2 wordBits)
      (mapped : h.Mapped states) (large : Nat.pow 2 (wordBits - 1) ≤ h.phones * phoneBytes) : h.Fails rows .capacity
  | fields {states : Nat} (consistent : h.Consistent) (few : h.phones + h.triphones < Nat.pow 2 wordBits)
      (mapped : h.Mapped states) (small : h.phones * phoneBytes < Nat.pow 2 (wordBits - 1)) (some : rows ≠ [])
      (wide : Nat.pow 2 wordBits ≤ 6 + states + 1) : h.Fails rows .overflow

/-- What a phone of so many states has under a header. -/
structure Header.Allows (h : Header) (states : Nat) (p : Phone) : Prop where
  paired : p.senones.length = states
  below : ∀ id ∈ p.senones, id < h.phoneSenones
  matrix : p.matrix < h.matrices

/-- The phones that a header counts, found by their names. -/
structure Header.Describes (h : Header) (s : PhoneSet) : Prop where
  consistent : h.Consistent
  mapped : h.Mapped s.states
  phones : s.phones.length = h.phones
  triphones : s.triphones = h.triphones
  distinct : (s.phones.map Phone.name).Nodup
  inverse : ∀ name id, s.id? name = some id ↔ ∃ p, s.phone? id = some p ∧ p.name = name
  senones : s.senones = h.senones
  matrices : s.matrices = h.matrices
  each : ∀ p ∈ s.phones, h.Allows s.states p

/-! ### The counts -/

section
variable {h : Header} {rows : List (List Char)}

theorem Header.consistentIff :
    h.Consistent ↔ ¬ (h.phones = 0 ∨ h.phoneSenones = 0 ∨ h.matrices = 0 ∨ h.senones < h.phoneSenones) := by
  simp only [not_or, Nat.not_lt]
  exact ⟨fun c => ⟨c.phones, c.phoneSenones, c.matrices, c.senones⟩, fun ⟨a, b, c, d⟩ => ⟨a, b, c, d⟩⟩

theorem wordIs {n m : Nat} : orFault (checkedWord n) = .ok m ↔ n < Nat.pow 2 wordBits ∧ m = n := by
  unfold checkedWord
  split
  · rename_i less
    exact ⟨fun same => ⟨less, (Except.ok.inj same).symm⟩, fun ⟨_, same⟩ => congrArg Except.ok same.symm⟩
  · rename_i more
    exact ⟨fun same => (by cases same), fun ⟨less, _⟩ => absurd less more⟩

theorem wordFault {n : Nat} {cause : Fault} :
    orFault (checkedWord n) = .error (.fault cause) ↔ cause = .overflow ∧ Nat.pow 2 wordBits ≤ n := by
  rw [← checkedWordFault]
  cases checkedWord n <;> simp [orFault]

theorem roomFault {values bytes : Nat} {cause : Fault} :
    orFault (checkedRoom values bytes) = .error (.fault cause) ↔
      cause = .capacity ∧ Nat.pow 2 (wordBits - 1) ≤ values * bytes := by
  rw [← checkedRoomFault]
  cases checkedRoom values bytes <;> simp [orFault]

theorem roomIs {values bytes : Nat} {u : Unit} :
    orFault (checkedRoom values bytes) = .ok u ↔ values * bytes < Nat.pow 2 (wordBits - 1) := by
  unfold checkedRoom
  split
  · rename_i less
    exact ⟨fun _ => less, fun _ => rfl⟩
  · rename_i more
    exact ⟨fun same => (by cases same), fun less => absurd less more⟩

/-- Nothing divides by the number of rows without rows: a header without phones was refused before. -/
theorem Header.statesIs (consistent : h.Consistent) (few : h.phones + h.triphones < Nat.pow 2 wordBits) :
    h.states =
      if h.stateMap % (h.phones + h.triphones) ≠ 0 ∨ h.stateMap / (h.phones + h.triphones) < 2 then .error .stateMap
      else .ok (h.stateMap / (h.phones + h.triphones) - 1) := by
  have rows : h.phones + h.triphones ≠ 0 := fun none => consistent.phones (Nat.eq_zero_of_add_eq_zero_right none)
  have counted := wordIs.mpr ⟨few, rfl⟩
  have rest : checkedMod h.stateMap (h.phones + h.triphones) = .ok (h.stateMap % (h.phones + h.triphones)) :=
    if_neg rows
  have mapped : checkedDiv h.stateMap (h.phones + h.triphones) = .ok (h.stateMap / (h.phones + h.triphones)) :=
    if_neg rows
  unfold Header.states
  rw [if_neg (Header.consistentIff.mp consistent), counted]
  simp only [bind, Except.bind, rest, mapped, orFault]

theorem Header.statesFault {cause : Fault} :
    h.states = .error (.fault cause) ↔
      h.Consistent ∧ cause = .overflow ∧ Nat.pow 2 wordBits ≤ h.phones + h.triphones := by
  by_cases consistent : h.Consistent
  · by_cases few : h.phones + h.triphones < Nat.pow 2 wordBits
    · rw [statesIs consistent few]
      refine ⟨fun failed => ?_, fun ⟨_, _, many⟩ => absurd few (Nat.not_lt_of_le many)⟩
      split at failed <;> cases failed
    · have many := wordFault.mpr ⟨rfl, Nat.le_of_not_lt few⟩
      unfold Header.states
      rw [if_neg (Header.consistentIff.mp consistent)]
      simp only [many, bind, Except.bind, Except.error.injEq, Problem.fault.injEq]
      exact ⟨fun same => ⟨consistent, same.symm, Nat.le_of_not_lt few⟩, fun ⟨_, same, _⟩ => same.symm⟩
  · unfold Header.states
    rw [if_pos (not_not.mp fun allowed => consistent (Header.consistentIff.mpr allowed))]
    exact ⟨fun failed => (by cases failed), fun ⟨allowed, _⟩ => absurd allowed consistent⟩

theorem Header.statesMade {states : Nat} :
    h.states = .ok states ↔ h.Consistent ∧ h.phones + h.triphones < Nat.pow 2 wordBits ∧ h.Mapped states := by
  constructor
  · intro made
    obtain ⟨consistent, few⟩ : h.Consistent ∧ h.phones + h.triphones < Nat.pow 2 wordBits := by
      unfold Header.states at made
      obtain ⟨allowed, made⟩ := checkOk made
      obtain ⟨_, counted, _⟩ := bindOk made
      exact ⟨Header.consistentIff.mpr allowed, (wordIs.mp counted).1⟩
    rw [statesIs consistent few] at made
    split at made
    · cases made
    · rename_i whole
      cases made
      obtain ⟨even, more⟩ := not_or.mp whole
      refine ⟨consistent, few, by omega, ?_⟩
      rw [Nat.sub_add_cancel (by omega), Nat.div_mul_cancel (Nat.dvd_of_mod_eq_zero (not_not.mp even))]
  · rintro ⟨consistent, few, some, each⟩
    have rows : 0 < h.phones + h.triphones := Nat.add_pos_left (Nat.pos_of_ne_zero consistent.phones) _
    rw [statesIs consistent few, each, Nat.mul_mod_left, Nat.mul_div_cancel _ rows]
    exact if_neg (by omega)

/-! ### The lines -/

/-- Lines that may be refused, but are read without doing what no program can do. -/
def Harmless {α : Type} (x : Except Problem α) : Prop := ∀ cause, x ≠ .error (.fault cause)

theorem harmlessOk {α : Type} (a : α) : Harmless (.ok a : Except Problem α) := fun cause failed => by cases failed

theorem Harmless.bind {α β : Type} {x : Except Problem α} {f : α → Except Problem β} (first : Harmless x)
    (later : ∀ a, Harmless (f a)) : Harmless (x >>= f) := by
  intro cause failed
  rcases bindError.mp failed with failed | ⟨a, _, failed⟩
  · exact first cause failed
  · exact later a cause failed

theorem Harmless.check {α : Type} {c : Prop} [Decidable c] {p : Problem} {f : Unit → Except Problem α}
    (refused : Harmless (.error p : Except Problem Unit)) (rest : Harmless (f ())) :
    Harmless (if c then (.error p : Except Problem Unit) >>= f else f ()) := by
  intro cause failed
  rcases checkError.mp failed with ⟨_, same⟩ | ⟨_, failed⟩
  · exact refused cause (congrArg Except.error same)
  · exact rest cause failed

theorem Counts.readHarmless (c : Counts) (line : List Char) : Harmless (c.read line) := by
  unfold Counts.read
  split
  · split
    · nofun
    · split <;> nofun
  · nofun

theorem readHeaderHarmless (c : Counts) (lines : List (List Char)) : Harmless (readHeader c lines) := by
  induction lines generalizing c with
  | nil =>
    unfold readHeader
    split <;> nofun
  | cons line rest ih =>
    unfold readHeader
    split
    · nofun
    · split
      · exact ih _
      · rename_i p read
        rintro cause failed
        cases failed
        exact c.readHarmless line cause read

theorem readSenonesHarmless (line : String) (limit : Nat) (fields : List (List Char)) :
    Harmless (readSenones line limit fields) := by
  induction fields with
  | nil => nofun
  | cons field rest ih =>
    unfold readSenones
    split
    · nofun
    · split
      · nofun
      · exact ih.bind fun _ => harmlessOk _

theorem readFillerHarmless (line mark : String) : Harmless (readFiller line mark) := by
  unfold readFiller
  split <;> nofun

theorem readMatrixHarmless (line : String) (matrices : Nat) (field : List Char) :
    Harmless (readMatrix line matrices field) := by
  unfold readMatrix
  split
  · nofun
  · split <;> nofun

theorem readRowFault {states matrices limit : Nat} {line : List Char} {cause : Fault} :
    readRow states matrices limit line = .error (.fault cause) ↔
      cause = .overflow ∧ Nat.pow 2 wordBits ≤ 6 + states + 1 := by
  refine bindError.trans ⟨?_, fun wide => .inl (wordFault.mpr wide)⟩
  rintro (wide | ⟨width, _, failed⟩)
  · exact wordFault.mp wide
  · refine absurd failed (Harmless.check (by nofun) ?_ cause)
    split
    · refine (readFillerHarmless _ _).bind fun filler => (readMatrixHarmless _ _ _).bind fun matrix => ?_
      exact (readSenonesHarmless _ _ _).bind fun senones => Harmless.check (by nofun) (harmlessOk _)
    · nofun

theorem addPhoneHarmless (s : PhoneSet) (line : String) (r : Row) : Harmless (s.addPhone line r) := by
  unfold addPhone
  split
  · nofun
  · split <;> nofun

theorem lookupHarmless (s : PhoneSet) (line name : String) : Harmless (s.lookup line name) := by
  unfold lookup
  split <;> nofun

theorem addTriphoneHarmless (s : PhoneSet) (line : String) (r : Row) : Harmless (s.addTriphone line r) := by
  refine (lookupHarmless _ _ _).bind fun base => (lookupHarmless _ _ _).bind fun _ => ?_
  refine (lookupHarmless _ _ _).bind fun _ => Harmless.check (by nofun) (Harmless.check (by nofun) (harmlessOk _))

/-! ### The rows -/

theorem addPhoneKeeps {s s' : PhoneSet} {line : String} {r : Row} (added : s.addPhone line r = .ok s') :
    (s.id? r.name).isNone ∧ s' = { s with phones := s.phones ++ [⟨r.name, r.filler, r.matrix, r.senones⟩] } := by
  unfold addPhone at added
  split at added
  · cases added
  · split at added
    · cases added
    · rename_i new
      cases added
      exact ⟨by simpa using new, rfl⟩

theorem addTriphoneKeeps {s s' : PhoneSet} {line : String} {r : Row} (added : s.addTriphone line r = .ok s') :
    s' = { s with triphones := s.triphones + 1 } := by
  obtain ⟨_, _, added⟩ := bindOk added
  obtain ⟨_, _, added⟩ := bindOk added
  obtain ⟨_, _, added⟩ := bindOk added
  obtain ⟨_, added⟩ := checkOk added
  obtain ⟨_, added⟩ := checkOk added
  cases added
  rfl

/-- What so many rows leave, of which the first are the phones. -/
structure Held (h : Header) (states done : Nat) (s : PhoneSet) : Prop where
  phones : s.phones.length = min done h.phones
  triphones : s.triphones = done - h.phones
  distinct : (s.phones.map Phone.name).Nodup
  emitting : s.states = states
  senones : s.senones = h.senones
  matrices : s.matrices = h.matrices
  each : ∀ p ∈ s.phones, h.Allows states p

theorem startHeld (h : Header) (states : Nat) : Held h states 0 ⟨[], 0, states, h.senones, h.matrices⟩ where
  phones := (Nat.zero_min _).symm
  triphones := (Nat.zero_sub _).symm
  distinct := List.nodup_nil
  emitting := rfl
  senones := rfl
  matrices := rfl
  each := fun p none => by cases none

theorem nameUnknown {s : PhoneSet} {name : String} : (s.id? name).isNone ↔ name ∉ s.phones.map Phone.name := by
  simp [id?]

variable {s s' : PhoneSet} {states done : Nat}

theorem Held.phone (held : Held h states done s) (first : done < h.phones) {line : List Char} {text : String} {r : Row}
    (row : readRow states h.matrices h.phoneSenones line = .ok r) (added : s.addPhone text r = .ok s') :
    Held h states (done + 1) s' := by
  obtain ⟨matrix, paired, below⟩ := readRowOk row
  obtain ⟨new, rfl⟩ := addPhoneKeeps added
  have length := held.phones
  have counted := held.triphones
  refine ⟨?_, ?_, ?_, held.emitting, held.senones, held.matrices, fun p mem => ?_⟩
  · rw [List.length_append, List.length_singleton]
    omega
  · dsimp only
    omega
  · rw [List.map_append, List.map_singleton]
    refine List.nodup_append.mpr ⟨held.distinct, List.pairwise_singleton _ _, fun name old other latest same => ?_⟩
    rw [same, List.mem_singleton.mp latest] at old
    exact nameUnknown.mp new old
  · rcases List.mem_append.mp mem with old | latest
    · exact held.each p old
    · rw [List.mem_singleton.mp latest]
      exact ⟨paired, below, matrix⟩

theorem Held.triphone (held : Held h states done s) (last : ¬ done < h.phones) {text : String} {r : Row}
    (added : s.addTriphone text r = .ok s') : Held h states (done + 1) s' := by
  have length := held.phones
  have counted := held.triphones
  cases addTriphoneKeeps added
  refine ⟨?_, ?_, held.distinct, held.emitting, held.senones, held.matrices, held.each⟩ <;> dsimp only <;> omega

theorem Held.run (held : Held h states done s) {left : Nat} {lines : List (List Char)}
    (read : readRows h s done left lines = .ok s') : Held h states (done + left) s' := by
  induction left generalizing s done lines with
  | zero =>
    cases read
    exact held
  | succ left ih =>
    cases lines with
    | nil => cases read
    | cons line rest =>
      obtain ⟨r, row, read⟩ := bindOk read
      rw [Nat.add_left_comm, Nat.add_comm left]
      rw [held.emitting] at row
      split at read
      · rename_i first
        obtain ⟨next, added, read⟩ := bindOk read
        rw [if_pos first] at row
        exact Nat.add_right_comm done left 1 ▸ ih (held.phone first row added) read
      · rename_i last
        obtain ⟨next, added, read⟩ := bindOk read
        exact ih (held.triphone last added) read

/-- No later row is a fault where the first is none: all have as many fields. -/
theorem readRowsFault {left : Nat} {lines : List (List Char)} {cause : Fault} :
    readRows h s done left lines = .error (.fault cause) ↔
      cause = .overflow ∧ left ≠ 0 ∧ lines ≠ [] ∧ Nat.pow 2 wordBits ≤ 6 + s.states + 1 := by
  induction left generalizing s done lines with
  | zero => exact ⟨fun failed => (by cases failed), fun ⟨_, more, _⟩ => absurd rfl more⟩
  | succ left ih =>
    cases lines with
    | nil => exact ⟨fun failed => (by cases failed), fun ⟨_, _, more, _⟩ => absurd rfl more⟩
    | cons line rest =>
      refine bindError.trans ⟨?_, fun ⟨same, _, _, wide⟩ => .inl (readRowFault.mpr ⟨same, wide⟩)⟩
      rintro (failed | ⟨r, row, failed⟩)
      · obtain ⟨same, wide⟩ := readRowFault.mp failed
        exact ⟨same, Nat.succ_ne_zero _, List.cons_ne_nil _ _, wide⟩
      · have later (next : PhoneSet) (same : next.states = s.states)
            (failed : readRows h next (done + 1) left rest = .error (.fault cause)) :
            cause = .overflow ∧ left + 1 ≠ 0 ∧ line :: rest ≠ [] ∧ Nat.pow 2 wordBits ≤ 6 + s.states + 1 := by
          obtain ⟨cause, _, _, wide⟩ := ih.mp failed
          exact ⟨cause, Nat.succ_ne_zero _, List.cons_ne_nil _ _, same ▸ wide⟩
        split at failed
        · rcases bindError.mp failed with failed | ⟨next, added, failed⟩
          · exact absurd failed (addPhoneHarmless _ _ _ _)
          · exact later next (by rw [(addPhoneKeeps added).2]) failed
        · rcases bindError.mp failed with failed | ⟨next, added, failed⟩
          · exact absurd failed (addTriphoneHarmless _ _ _ _)
          · exact later next (by rw [addTriphoneKeeps added]) failed

theorem idInverse (distinct : (s.phones.map Phone.name).Nodup) {name : String} {id : Nat} :
    s.id? name = some id ↔ ∃ p, s.phone? id = some p ∧ p.name = name := by
  refine List.findIdx?_eq_some_iff_getElem.trans ⟨fun ⟨inside, same, _⟩ => ?_, fun ⟨p, found, same⟩ => ?_⟩
  · exact ⟨s.phones[id], List.getElem?_eq_getElem inside, beq_iff_eq.mp same⟩
  · obtain ⟨inside, rfl⟩ := List.getElem?_eq_some_iff.mp found
    refine ⟨inside, beq_iff_eq.mpr same, fun earlier before again => ?_⟩
    have places := List.pairwise_iff_getElem.mp distinct earlier id (by simp; omega) (by simpa using inside) before
    exact places (by simpa [same] using again)

/-! ### The text -/

/-- What is read under a header. -/
def Header.load (h : Header) (rows : List (List Char)) : Except Problem PhoneSet := do
  let states ← h.states
  orFault (checkedRoom h.phones phoneBytes)
  readRows h ⟨[], 0, states, h.senones, h.matrices⟩ 0 (h.phones + h.triphones) rows

theorem Opens.load {text : String} (opens : Opens text h rows) : ofText text = h.load rows := by
  obtain ⟨first, rest, lines, version, read⟩ := opens
  unfold ofText
  rw [lines]
  refine (if_neg (by simpa [Option.isSome_iff_ne_none] using version)).trans ?_
  rw [read]
  rfl

theorem ofTextFault {text : String} {cause : Fault} :
    ofText text = .error (.fault cause) ↔ ∃ h rows, Opens text h rows ∧ h.load rows = .error (.fault cause) := by
  constructor
  · intro failed
    unfold ofText ofLines at failed
    split at failed
    · cases failed
    · rename_i first rest lines
      rcases checkError.mp failed with ⟨_, failed⟩ | ⟨version, failed⟩
      · cases failed
      · rcases bindError.mp failed with failed | ⟨⟨h, rows⟩, read, failed⟩
        · exact absurd failed (readHeaderHarmless _ _ _)
        · exact ⟨h, rows, ⟨first, rest, lines, by simpa [Option.isSome_iff_ne_none] using version, read⟩, failed⟩
  · rintro ⟨h, rows, opens, failed⟩
    rw [opens.load, failed]

theorem ofTextMade {text : String} (read : ofText text = .ok s) : ∃ h rows, Opens text h rows ∧ h.load rows = .ok s := by
  unfold ofText ofLines at read
  split at read
  · cases read
  · rename_i first rest lines
    obtain ⟨version, read⟩ := checkOk read
    obtain ⟨⟨h, rows⟩, header, read⟩ := bindOk read
    exact ⟨h, rows, ⟨first, rest, lines, by simpa [Option.isSome_iff_ne_none] using version, header⟩, read⟩

theorem Header.loadFault {cause : Fault} : h.load rows = .error (.fault cause) ↔ h.Fails rows cause := by
  constructor
  · intro failed
    rcases bindError.mp failed with failed | ⟨states, counted, failed⟩
    · obtain ⟨consistent, rfl, many⟩ := statesFault.mp failed
      exact .rows consistent many
    · obtain ⟨consistent, few, mapped⟩ := statesMade.mp counted
      rcases bindError.mp failed with failed | ⟨_, made, failed⟩
      · obtain ⟨rfl, large⟩ := roomFault.mp failed
        exact .room consistent few mapped large
      · obtain ⟨rfl, _, some, wide⟩ := readRowsFault.mp failed
        exact .fields consistent few mapped (roomIs.mp made) some wide
  · rintro (⟨consistent, many⟩ | ⟨consistent, few, mapped, large⟩ | ⟨consistent, few, mapped, small, some, wide⟩)
    · exact bindError.mpr (.inl (statesFault.mpr ⟨consistent, rfl, many⟩))
    · exact bindError.mpr (.inr ⟨_, statesMade.mpr ⟨consistent, few, mapped⟩,
        bindError.mpr (.inl (roomFault.mpr ⟨rfl, large⟩))⟩)
    · have rows : h.phones + h.triphones ≠ 0 := fun none => consistent.phones (Nat.eq_zero_of_add_eq_zero_right none)
      exact bindError.mpr (.inr ⟨_, statesMade.mpr ⟨consistent, few, mapped⟩,
        bindError.mpr (.inr ⟨(), roomIs.mpr small, readRowsFault.mpr ⟨rfl, rows, some, wide⟩⟩)⟩)

theorem Header.loadDescribes (read : h.load rows = .ok s) : h.Describes s := by
  obtain ⟨states, counted, read⟩ := bindOk read
  obtain ⟨_, _, read⟩ := bindOk read
  obtain ⟨consistent, _, mapped⟩ := statesMade.mp counted
  have held := (startHeld h states).run read
  cases held.emitting
  have length := held.phones
  have triphones := held.triphones
  exact ⟨consistent, mapped, by omega, by omega, held.distinct, fun _ _ => idInverse held.distinct, held.senones,
    held.matrices, held.each⟩

end

/-- Reading the phones is a fault only where the counts of a header are too large, and the phones are those that the
header counts. -/
theorem faultsOfCounts (text : String) :
    (∀ cause, ofText text = .error (.fault cause) ↔ ∃ h rows, Opens text h rows ∧ h.Fails rows cause) ∧
    ofText text ≠ .error (.fault .divisionByZero) ∧
    ∀ s, ofText text = .ok s → ∃ h rows, Opens text h rows ∧ h.Describes s := by
  have faults (cause : Fault) :
      ofText text = .error (.fault cause) ↔ ∃ h rows, Opens text h rows ∧ h.Fails rows cause := by
    simp only [ofTextFault, Header.loadFault]
  refine ⟨faults, fun failed => ?_, fun s read => ?_⟩
  · obtain ⟨h, rows, _, fails⟩ := (faults _).mp failed
    cases fails
  · obtain ⟨h, rows, opens, loaded⟩ := ofTextMade read
    exact ⟨h, rows, opens, Header.loadDescribes loaded⟩

/-- One phone, and that phone in context, of a single state. -/
def oneInContext : String :=
  "0.3\n1 n_base\n1 n_tri\n4 n_state_map\n1 n_tied_state\n1 n_tied_ci_state\n1 n_tied_tmat\n" ++
    "A - - - n/a 0 0 N\nA A A s n/a 0 0 N\n"

/-- More rows than a word counts. -/
def tooMany : String :=
  "0.3\n18446744073709551615 n_base\n1 n_tri\n4 n_state_map\n1 n_tied_state\n1 n_tied_ci_state\n1 n_tied_tmat\n"

theorem oneCounted :
    (∃ h rows, Opens oneInContext h rows ∧ h.Describes ⟨[⟨"A", false, 0, [0]⟩], 1, 1, 1, 1⟩) ∧
      ∃ h rows, Opens tooMany h rows ∧ h.Fails rows .overflow := by
  have one : ofText oneInContext = .ok ⟨[⟨"A", false, 0, [0]⟩], 1, 1, 1, 1⟩ := by decide +kernel
  have many : ofText tooMany = .error (.fault .overflow) := by decide +kernel
  exact ⟨(faultsOfCounts oneInContext).2.2 _ one, ((faultsOfCounts tooMany).1 .overflow).mp many⟩

end SpeechDecoder.Model.PhoneSet
