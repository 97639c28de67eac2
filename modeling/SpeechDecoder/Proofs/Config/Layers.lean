import SpeechDecoder.Config.Settings
import SpeechDecoder.Proofs.Calls
import SpeechDecoder.Proofs.Outcome

/-! Options after calls that set them, of which some fail, and after a parameter file. Of each option the last call
that sets it counts, else the last line that names it, else its default. A line is objected to where it names an option
that no call has set and what it gives cannot be read. -/
namespace SpeechDecoder.Config

open Outcome (bindOk bindError)

inductive Given where
  | text (s : String)
  | integer (n : Int)
  | number (x : Float)
  | flag (b : Bool)

structure Setter where
  key : String
  given : Given

/-- What an option of a kind holds that is given this. -/
def Given.held? : Given → Kind → Option Value
  | .text s, kind => Value.read? kind s
  | .integer n, .integer => some (.integer n)
  | .integer n, .number => some (.number (Binary.ofInteger n))
  | .number x, .number => some (.number x)
  | .flag b, .flag => some (.flag b)
  | _, _ => none

def Given.problem (e : Entry) : Given → Problem
  | .text s => .unreadable e.name e.kind s
  | .integer _ => .cannotSet e.name e.kind .integer
  | .number _ => .cannotSet e.name e.kind .number
  | .flag _ => .cannotSet e.name e.kind .flag

def perform (c : Config) (s : Setter) : Except Problem Config :=
  match s.given with
  | .text t => c.setText s.key t
  | .integer n => c.setInteger s.key n
  | .number x => c.setNumber s.key x
  | .flag b => c.setFlag s.key b

def attempt (c : Config) (s : Setter) : Except Problem Unit × Config :=
  match c.perform s with
  | .ok next => (.ok (), next)
  | .error p => (.error p, c)

/-- What a call sets an option to, unless it is for another one or fails. -/
def Setter.sets? (e : Entry) (s : Setter) : Option Value :=
  if nameOf s.key = e.name then s.given.held? e.kind else none

/-- The second field of a line whose first one names an option. -/
def told? (e : Entry) (line : List Char) : Option String :=
  match Text.fields line with
  | key :: text :: _ => if nameOf (String.ofList key) = e.name then some (String.ofList text) else none
  | _ => none

/-- What the last of these gives that gives anything. -/
def last? {α β : Type} (gives? : α → Option β) (all : List α) : Option β := all.reverse.findSome? gives?

theorem lastCons {α β : Type} (gives? : α → Option β) (a : α) (rest : List α) :
    last? gives? (a :: rest) = (last? gives? rest).or (gives? a) := by
  simp only [last?, List.reverse_cons, List.findSome?_append, List.findSome?_singleton]

theorem lastGiven {α β : Type} {gives? : α → Option β} {all : List α} {b : β} (given : last? gives? all = some b) :
    ∃ a ∈ all, gives? a = some b := by
  obtain ⟨a, mem, gives⟩ := List.exists_of_findSome?_eq_some given
  exact ⟨a, List.mem_reverse.mp mem, gives⟩

/-! ### Calls -/

theorem lookupNamed {key key' : String} {e : Entry} (listed : lookup? key = some e) (named : nameOf key' = e.name) :
    lookup? key' = some e := by
  rw [← listed, lookup?, lookup?, named, nameOfLookup listed]

theorem listedOnce {key key' : String} {e e' : Entry} (listed : lookup? key = some e) (listed' : lookup? key' = some e')
    (same : e.name = e'.name) : e = e' :=
  Option.some.inj ((lookupNamed listed ((nameOfLookup listed').symm.trans same.symm)).symm.trans listed')

theorem heldKind {g : Given} {kind : Kind} {v : Value} (held : g.held? kind = some v) : v.kind = kind := by
  cases g with
  | text s => exact Value.kindRead held
  | _ => cases kind <;> cases held <;> rfl

theorem performIs (c : Config) (s : Setter) : c.perform s =
    match lookup? s.key with
    | none => .error (.unknown s.key)
    | some e =>
      match s.given.held? e.kind with
      | some v => .ok (c.choose e v)
      | none => .error (s.given.problem e) := by
  obtain ⟨key, given⟩ := s
  simp only [perform, setText, setInteger, setNumber, setFlag, entry]
  cases lookup? key with
  | none => cases given <;> rfl
  | some e =>
    obtain ⟨_, kind, _, _⟩ := e
    cases given with
    | text t => rfl
    | _ => cases kind <;> rfl

theorem performOk {c next : Config} {s : Setter} : c.perform s = .ok next ↔
    ∃ e v, lookup? s.key = some e ∧ s.given.held? e.kind = some v ∧ next = c.choose e v := by
  rw [performIs]
  cases lookup? s.key with
  | none => simp
  | some e =>
    dsimp only
    cases held : s.given.held? e.kind <;> simp [held, eq_comm]

theorem attemptAtomic : Calls.Atomic attempt fun _ => True := by
  refine ⟨fun _ _ _ => trivial, fun c s _ failed => ?_⟩
  unfold attempt at failed ⊢
  split at failed
  · cases failed
  · rfl

theorem attemptGranted (c : Config) (s : Setter) :
    (c.attempt s).1.isOk ↔ ∃ e, lookup? s.key = some e ∧ (s.given.held? e.kind).isSome := by
  unfold attempt
  split
  · rename_i next done
    obtain ⟨e, v, listed, held, _⟩ := performOk.mp done
    exact iff_of_true rfl ⟨e, listed, Option.isSome_of_eq_some held⟩
  · rename_i p refused
    refine iff_of_false (by simp [Except.isOk, Except.toBool]) ?_
    rintro ⟨e, listed, some⟩
    obtain ⟨v, held⟩ := Option.isSome_iff_exists.mp some
    cases refused.symm.trans (performOk.mpr ⟨e, v, listed, held, rfl⟩)

theorem setsSome {e : Entry} {key : String} (listed : lookup? key = some e) {s : Setter} {v : Value} :
    s.sets? e = some v ↔ lookup? s.key = some e ∧ s.given.held? e.kind = some v := by
  unfold Setter.sets?
  rw [Option.ite_none_right_eq_some]
  constructor
  · rintro ⟨named, held⟩
    exact ⟨lookupNamed listed named, held⟩
  · rintro ⟨here, held⟩
    exact ⟨(nameOfLookup here).symm, held⟩

theorem attemptChosen {e : Entry} {key : String} (listed : lookup? key = some e) (c : Config) (s : Setter) :
    (c.attempt s).2.chosen.lookup e.name = (s.sets? e).or (c.chosen.lookup e.name) ∧
      (c.attempt s).2.supplied = c.supplied := by
  unfold attempt
  split
  · rename_i next done
    obtain ⟨e', v, here, held, rfl⟩ := performOk.mp done
    refine ⟨?_, rfl⟩
    change List.lookup e.name ((e'.name, v) :: c.chosen) = _
    rw [List.lookup_cons]
    by_cases same : e.name = e'.name
    · obtain rfl := listedOnce listed here same
      rw [beq_self_eq_true, (setsSome listed).mpr ⟨here, held⟩, Option.some_or]
    · have other : s.sets? e = none := if_neg fun named => same (named.symm.trans (nameOfLookup here).symm)
      rw [beq_eq_false_iff_ne.mpr same, other, Option.none_or]
  · rename_i p refused
    have none : s.sets? e = none := by
      refine Option.eq_none_iff_forall_ne_some.mpr fun v sets => ?_
      obtain ⟨here, held⟩ := (setsSome listed).mp sets
      cases refused.symm.trans (performOk.mpr ⟨e, v, here, held, rfl⟩)
    rw [none, Option.none_or]
    exact ⟨rfl, rfl⟩

theorem afterChosen {e : Entry} {key : String} (listed : lookup? key = some e) (c : Config) (setters : List Setter) :
    (Calls.after attempt c setters).chosen.lookup e.name =
        (last? (Setter.sets? e) setters).or (c.chosen.lookup e.name) ∧
      (Calls.after attempt c setters).supplied = c.supplied := by
  induction setters generalizing c with
  | nil => exact ⟨rfl, rfl⟩
  | cons s rest ih =>
    obtain ⟨here, still⟩ := attemptChosen listed c s
    obtain ⟨later, last⟩ := ih (c.attempt s).2
    refine ⟨later.trans ?_, last.trans still⟩
    rw [here, lastCons, Option.or_assoc]

/-! ### Lines -/

/-- A line names an option that no call has set, with a text that is not of its kind. -/
def Objects (c : Config) (line : List Char) : Prop :=
  ∃ key e text, lookup? key = some e ∧ c.isChosen e.name = false ∧ told? e line = some text ∧
    Value.read? e.kind text = none

theorem toldIs {e : Entry} {line : List Char} {text : String} : told? e line = some text ↔
    ∃ first second rest, Text.fields line = first :: second :: rest ∧ nameOf (String.ofList first) = e.name ∧
      String.ofList second = text := by
  unfold told?
  split
  · rename_i first second rest fields
    constructor
    · intro told
      obtain ⟨named, same⟩ := Option.ite_none_right_eq_some.mp told
      exact ⟨first, second, rest, fields, named, Option.some.inj same⟩
    · rintro ⟨_, _, _, fields', named, rfl⟩
      cases fields.symm.trans fields'
      exact if_pos named
  · rename_i short
    refine iff_of_false (by simp) ?_
    rintro ⟨first, second, rest, fields, _⟩
    exact short first second rest fields

theorem toldOne {key key' : String} {e e' : Entry} (listed : lookup? key = some e) (listed' : lookup? key' = some e')
    {line : List Char} {text text' : String} (first : told? e line = some text) (last : told? e' line = some text') :
    e = e' ∧ text = text' := by
  obtain ⟨_, _, _, fields, named, rfl⟩ := toldIs.mp first
  obtain ⟨_, _, _, fields', named', rfl⟩ := toldIs.mp last
  cases fields.symm.trans fields'
  exact ⟨listedOnce listed listed' (named.symm.trans named'), rfl⟩

theorem supplyLineIs (c : Config) (line : List Char) :
    (c.supplyLine line = .ok c ∧
      ∀ key e, lookup? key = some e → c.isChosen e.name = false → told? e line = none) ∨
    ∃ key e text, lookup? key = some e ∧ c.isChosen e.name = false ∧ told? e line = some text ∧
      c.supplyLine line =
        match Value.read? e.kind text with
        | some v => .ok { c with supplied := (e.name, v) :: c.supplied }
        | none => .error (.unreadableParameter e.name e.kind text) := by
  unfold supplyLine
  split
  · rename_i first second rest fields
    have named {e : Entry} {key text : String} (listed : lookup? key = some e) (told : told? e line = some text) :
        lookup? (String.ofList first) = some e := by
      obtain ⟨_, _, _, fields', named, _⟩ := toldIs.mp told
      cases fields.symm.trans fields'
      exact lookupNamed listed named
    cases here : lookup? (String.ofList first) with
    | none =>
      refine .inl ⟨rfl, fun key e listed _ => Option.eq_none_iff_forall_ne_some.mpr fun text told => ?_⟩
      cases here.symm.trans (named listed told)
    | some e =>
      cases chosen : c.isChosen e.name with
      | true =>
        refine .inl ⟨by simp [chosen], fun key e' listed free => ?_⟩
        refine Option.eq_none_iff_forall_ne_some.mpr fun text told => ?_
        cases here.symm.trans (named listed told)
        cases chosen.symm.trans free
      | false =>
        have told : told? e line = some (String.ofList second) :=
          toldIs.mpr ⟨first, second, rest, fields, (nameOfLookup here).symm, rfl⟩
        refine .inr ⟨_, e, _, here, chosen, told, ?_⟩
        dsimp only
        rw [chosen]
        rfl
  · rename_i short
    refine .inl ⟨rfl, fun key e _ _ => Option.eq_none_iff_forall_ne_some.mpr fun text told => ?_⟩
    obtain ⟨first, second, rest, fields, _⟩ := toldIs.mp told
    exact short first second rest fields

theorem supplyLineFails {c : Config} {line : List Char} :
    (∃ p, c.supplyLine line = .error p) ↔ c.Objects line := by
  rcases c.supplyLineIs line with ⟨same, silent⟩ | ⟨key, e, text, listed, free, told, is⟩
  · refine iff_of_false (fun ⟨p, failed⟩ => by cases same.symm.trans failed) ?_
    rintro ⟨key, e, text, listed, free, told, _⟩
    cases (silent key e listed free).symm.trans told
  · rw [is]
    cases read : Value.read? e.kind text with
    | none => exact iff_of_true ⟨_, rfl⟩ ⟨key, e, text, listed, free, told, read⟩
    | some v =>
      refine iff_of_false (fun ⟨p, failed⟩ => by cases failed) ?_
      rintro ⟨key', e', text', listed', _, told', unread⟩
      obtain ⟨rfl, rfl⟩ := toldOne listed listed' told told'
      cases read.symm.trans unread

theorem supplyLineOk {c next : Config} {line : List Char} (supplied : c.supplyLine line = .ok next) :
    next.chosen = c.chosen ∧
      ∀ key e, lookup? key = some e → c.isChosen e.name = false → next.supplied.lookup e.name =
        ((told? e line).bind (Value.read? e.kind)).or (c.supplied.lookup e.name) := by
  rcases c.supplyLineIs line with ⟨same, silent⟩ | ⟨key, e, text, listed, _, told, is⟩
  · cases same.symm.trans supplied
    refine ⟨rfl, fun key e listed free => ?_⟩
    rw [silent key e listed free, Option.bind_none, Option.none_or]
  · rw [is] at supplied
    split at supplied
    · rename_i v read
      cases supplied
      refine ⟨rfl, fun key' e' listed' _ => ?_⟩
      change List.lookup e'.name ((e.name, v) :: c.supplied) = _
      rw [List.lookup_cons]
      by_cases same : e'.name = e.name
      · obtain rfl := listedOnce listed' listed same
        rw [beq_self_eq_true, told, Option.bind_some, read, Option.some_or]
      · have none : told? e' line = none := by
          refine Option.eq_none_iff_forall_ne_some.mpr fun text' told' => same ?_
          rw [(toldOne listed' listed told' told).1]
        rw [beq_eq_false_iff_ne.mpr same, none, Option.bind_none, Option.none_or]
    · cases supplied

theorem objectsAlike {c c' : Config} (same : c'.chosen = c.chosen) {line : List Char} :
    c'.Objects line ↔ c.Objects line := by
  unfold Objects isChosen
  rw [same]

theorem supplyLinesFails {c : Config} {lines : List (List Char)} :
    (∃ p, c.supplyLines lines = .error p) ↔ ∃ line ∈ lines, c.Objects line := by
  induction lines generalizing c with
  | nil => exact iff_of_false (fun ⟨p, failed⟩ => by cases failed) (by simp)
  | cons line rest ih =>
    simp only [List.mem_cons, exists_eq_or_imp]
    constructor
    · rintro ⟨p, failed⟩
      rcases bindError.mp failed with first | ⟨next, first, later⟩
      · exact .inl (supplyLineFails.mp ⟨p, first⟩)
      · obtain ⟨line', mem, objects⟩ := ih.mp ⟨p, later⟩
        exact .inr ⟨line', mem, (objectsAlike (supplyLineOk first).1).mp objects⟩
    · rintro (objects | ⟨line', mem, objects⟩)
      · obtain ⟨p, first⟩ := supplyLineFails.mpr objects
        exact ⟨p, bindError.mpr (.inl first)⟩
      · cases first : c.supplyLine line with
        | error p => exact ⟨p, bindError.mpr (.inl first)⟩
        | ok next =>
          obtain ⟨p, later⟩ := ih.mpr ⟨line', mem, (objectsAlike (supplyLineOk first).1).mpr objects⟩
          exact ⟨p, bindError.mpr (.inr ⟨next, first, later⟩)⟩

/-- What calls have set is not touched. Where no line objects, every text that is told can be read, and the last
counts. -/
theorem supplyLinesOk {c next : Config} {lines : List (List Char)} (supplied : c.supplyLines lines = .ok next) :
    next.chosen = c.chosen ∧
      ∀ key e, lookup? key = some e → c.isChosen e.name = false → next.supplied.lookup e.name =
        ((last? (told? e) lines).bind (Value.read? e.kind)).or (c.supplied.lookup e.name) := by
  induction lines generalizing c with
  | nil =>
    cases supplied
    exact ⟨rfl, fun key e _ _ => rfl⟩
  | cons line rest ih =>
    obtain ⟨mid, first, later⟩ := bindOk supplied
    obtain ⟨same, here⟩ := supplyLineOk first
    obtain ⟨last, behind⟩ := ih later
    refine ⟨last.trans same, fun key e listed free => ?_⟩
    have open' : mid.isChosen e.name = false := by rwa [isChosen, same]
    rw [behind key e listed open', here key e listed free, lastCons]
    cases told : last? (told? e) rest with
    | none => rfl
    | some text =>
      cases read : Value.read? e.kind text with
      | some v => simp [read]
      | none =>
        -- a later line would have objected
        obtain ⟨line', mem, named⟩ := lastGiven told
        have objects : mid.Objects line' := ⟨key, e, text, listed, open', named, read⟩
        obtain ⟨p, failed⟩ := supplyLinesFails.mpr ⟨line', mem, objects⟩
        cases later.symm.trans failed

/-! ### Kinds -/

theorem lookupSchema {e : Entry} (listed : e ∈ schema) : lookup? e.name = some e := by
  have each : ∀ e ∈ schema, lookup? e.name = some e := by decide +kernel
  exact each e listed

theorem nameStays {e : Entry} (listed : e ∈ schema) : nameOf e.name = e.name :=
  (nameOfLookup (lookupSchema listed)).symm

theorem defaultRead {e : Entry} (listed : e ∈ schema) : e.initial?.isSome = e.default.isSome := by
  have each : ∀ e ∈ schema, e.initial?.isSome = e.default.isSome := by decide +kernel
  exact each e listed

theorem lastSetKind {e : Entry} {setters : List Setter} {v : Value} (set : last? (Setter.sets? e) setters = some v) :
    v.kind = e.kind := by
  obtain ⟨s, _, sets⟩ := lastGiven set
  exact heldKind (Option.ite_none_right_eq_some.mp sets).2

theorem explicitIs {e : Entry} (listed : e ∈ schema) {key : String} (named : nameOf key = e.name) (c : Config) :
    c.isExplicit key = (c.chosen.lookup e.name).isSome := by
  rw [isExplicit, lookupNamed (lookupSchema listed) named]
  rfl

theorem explicitIff {c : Config} {key : String} : c.isExplicit key = true ↔
    ∃ e ∈ schema, nameOf key = e.name ∧ (c.chosen.lookup e.name).isSome := by
  constructor
  · intro explicit
    cases listed : lookup? key with
    | none =>
      rw [isExplicit, listed] at explicit
      cases explicit
    | some e =>
      have inside := memOfLookup listed
      have named := (nameOfLookup listed).symm
      exact ⟨e, inside, named, explicitIs inside named c ▸ explicit⟩
  · rintro ⟨e, inside, named, some⟩
    rw [explicitIs inside named]
    exact some

theorem getIs {e : Entry} (listed : e ∈ schema) {key : String} (named : nameOf key = e.name) (c : Config) :
    c.get key = .ok (c.valueOf? e) := by
  rw [get, entry, lookupNamed (lookupSchema listed) named]
  rfl

theorem objectsIff {c : Config} {line : List Char} : c.Objects line ↔
    ∃ e ∈ schema, ∃ text, told? e line = some text ∧ c.isExplicit e.name = false ∧
      Value.read? e.kind text = none := by
  constructor
  · rintro ⟨key, e, text, listed, free, told, unread⟩
    have inside := memOfLookup listed
    refine ⟨e, inside, text, told, ?_, unread⟩
    rwa [explicitIs inside (nameStays inside)]
  · rintro ⟨e, inside, text, told, free, unread⟩
    rw [explicitIs inside (nameStays inside)] at free
    exact ⟨e.name, e, text, lookupSchema inside, free, told, unread⟩

/-- After any calls and then the lines of a file, an option has the value that was set last by a call, or else by a
line, or else its default. Calls that fail change nothing, and a file fails where a line cannot be read that counts. -/
theorem callsThenLines (setters : List Setter) (text : String) :
    let c := Calls.after attempt initial setters
    let lines := Text.lines text.toList
    Calls.after attempt initial (Calls.granted attempt initial setters) = c ∧
    (∀ (c : Config) (s : Setter),
      ((c.attempt s).1.isOk ↔ ∃ e, lookup? s.key = some e ∧ (s.given.held? e.kind).isSome) ∧
      ((c.attempt s).1.isOk = false → (c.attempt s).2 = c)) ∧
    (∀ key, c.isExplicit key = true ↔ ∃ e ∈ schema, nameOf key = e.name ∧ (last? (Setter.sets? e) setters).isSome) ∧
    ((∃ p, c.supply text = .error p) ↔ ∃ line ∈ lines, ∃ e ∈ schema, ∃ told, told? e line = some told ∧
      c.isExplicit e.name = false ∧ Value.read? e.kind told = none) ∧
    ∀ merged, c.supply text = .ok merged →
      (∀ key, merged.isExplicit key = c.isExplicit key) ∧
      ∀ e ∈ schema, ∀ key, nameOf key = e.name →
        merged.get key = .ok ((last? (Setter.sets? e) setters).or
          (((last? (told? e) lines).bind (Value.read? e.kind)).or e.initial?)) ∧
        e.initial?.isSome = e.default.isSome ∧ ∀ v, merged.get key = .ok (some v) → v.kind = e.kind := by
  intro c lines
  have chosen {e : Entry} (inside : e ∈ schema) : c.chosen.lookup e.name = last? (Setter.sets? e) setters := by
    rw [(afterChosen (lookupSchema inside) initial setters).1]
    exact Option.or_none
  refine ⟨(attemptAtomic.granted trivial setters).2,
    fun c s => ⟨attemptGranted c s, attemptAtomic.untouched c s trivial⟩, fun key => ?_, ?_, fun merged supplied => ?_⟩
  · rw [explicitIff]
    exact exists_congr fun e => and_congr_right fun inside => by rw [chosen inside]
  · change (∃ p, c.supplyLines lines = .error p) ↔ _
    simp only [supplyLinesFails, objectsIff]
  · obtain ⟨same, told⟩ := supplyLinesOk supplied
    refine ⟨fun key => by unfold isExplicit isChosen; rw [same], fun e inside key named => ?_⟩
    have value : merged.valueOf? e = (last? (Setter.sets? e) setters).or
        (((last? (told? e) lines).bind (Value.read? e.kind)).or e.initial?) := by
      rw [valueOf?, same, chosen inside]
      cases set : last? (Setter.sets? e) setters with
      | some v => rfl
      | none =>
        have free : c.isChosen e.name = false := by rw [isChosen, chosen inside, set]; rfl
        have empty : c.supplied = [] := (afterChosen (lookupSchema inside) initial setters).2
        rw [told e.name e (lookupSchema inside) free, empty, List.lookup_nil, Option.or_none]
    refine ⟨by rw [getIs inside named, value], defaultRead inside, fun v got => ?_⟩
    rw [getIs inside named, value] at got
    rcases Option.or_eq_some_iff.mp (Except.ok.inj got) with set | ⟨_, other⟩
    · exact lastSetKind set
    · rcases Option.or_eq_some_iff.mp other with told | ⟨_, first⟩
      · obtain ⟨t, _, read⟩ := Option.bind_eq_some_iff.mp told
        exact Value.kindRead read
      · obtain ⟨t, _, read⟩ := Option.bind_eq_some_iff.mp first
        exact Value.kindRead read

theorem filtersThenLines :
    let setters : List Setter := [⟨"-nfilt", .text "20"⟩, ⟨"nfilt", .flag true⟩, ⟨"bogus", .integer 1⟩]
    let text := "-nfilt x\n-ncep 12 13\n-ncep\n-bogus 1\n-ncep 10\n"
    ∃ merged, (Calls.after attempt initial setters).supply text = .ok merged ∧
      merged.get "nfilt" = .ok (some (.integer 20)) ∧ merged.isExplicit "-nfilt" = true ∧
      merged.get "-ncep" = .ok (some (.integer 10)) ∧ merged.isExplicit "ncep" = false ∧
      merged.get "frate" = .ok (some (.integer 100)) ∧ merged.get "hmm" = .ok none := by
  intro setters text
  have fits : (((Calls.after attempt initial setters).supply text).map fun _ => ()).toOption = some () := by
    decide +kernel
  obtain ⟨merged, supplied, _⟩ := Outcome.mapOk fits
  obtain ⟨_, _, explicit, _, layered⟩ := callsThenLines setters text
  obtain ⟨marks, values⟩ := layered merged supplied
  have filters := (values schema[17] (by decide +kernel) "nfilt" (by decide +kernel)).1
  have cepstra := (values schema[20] (by decide +kernel) "-ncep" (by decide +kernel)).1
  have frames := (values schema[14] (by decide +kernel) "frate" (by decide +kernel)).1
  have folder := (values schema[0] (by decide +kernel) "hmm" (by decide +kernel)).1
  have set : last? (Setter.sets? schema[17]) setters = some (.integer 20) := rfl
  have told : last? (told? schema[20]) (Text.lines text.toList) = some "10" := by decide +kernel
  have untold : last? (told? schema[14]) (Text.lines text.toList) = none ∧
      last? (told? schema[0]) (Text.lines text.toList) = none := by
    decide +kernel
  refine ⟨merged, supplied, ?_, ?_, ?_, ?_, ?_, ?_⟩
  · rw [filters, set, Option.some_or]
  · rw [marks, explicit]
    exact ⟨schema[17], by decide +kernel, by decide +kernel, congrArg Option.isSome set⟩
  · rw [cepstra, told]
    rfl
  · rw [marks, Bool.eq_false_iff, ne_eq, explicit]
    rintro ⟨e, inside, named, some⟩
    obtain rfl : schema[20] = e := by
      have each : ∀ e ∈ schema, nameOf "ncep" = e.name → schema[20] = e := by decide +kernel
      exact each e inside named
    cases some
  · rw [frames, untold.1]
    rfl
  · rw [folder, untold.2]
    rfl

end SpeechDecoder.Config
