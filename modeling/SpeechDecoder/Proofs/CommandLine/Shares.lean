import SpeechDecoder.Proofs.CommandLine.Inputs
import SpeechDecoder.Proofs.CommandLine.Output
import SpeechDecoder.Proofs.Search.WellFormed

/-! Inputs shared among workers. However they are shared, each is decoded as if it were the only one; the report is
that of what they give in their order, and the run fails when one of them fails or the report does not fit. -/
namespace SpeechDecoder.CommandLine
open Session (Reached)

/-- Results of so many inputs in the order of their places. -/
def collect (count : Nat) (results : List (Nat × Outcome (List Utterance))) : List (Outcome (List Utterance)) :=
  (List.range count).filterMap fun place => results.lookup place

section
variable [Elementary]

/-- An input, decoded by a worker; a session that it leaves in an utterance is given up for a new one. -/
def work (files : FileTree) (a : Arguments) (m : Models) (s : Session) (input : String) :
    Outcome (List Utterance) × Session :=
  let (result, t) := (Session.Doing.decodeInput files a input).run s
  (result, if t.inUtterance then .ofModels m else t)

/-- What a worker gives for its share, by the places of its inputs among all. -/
def workShare (files : FileTree) (a : Arguments) (m : Models) (s : Session) :
    List (String × Nat) → List (Nat × Outcome (List Utterance))
  | [] => []
  | (input, place) :: rest =>
    let (result, s) := work files a m s input
    (place, result) :: workShare files a m s rest

def workShares (files : FileTree) (a : Arguments) (m : Models) (shares : List (List (String × Nat))) :
    List (Outcome (List Utterance)) :=
  collect a.inputs.length (shares.flatMap (workShare files a m (.ofModels m)))

/-- The run with its inputs shared among workers. -/
def runShared (files : FileTree) (room : Option Nat) (a : Arguments) (shares : List (List (String × Nat))) :
    List UInt8 × Option Trouble :=
  match a.config with
  | .error trouble => ([], some trouble)
  | .ok config =>
    match Models.load files config with
    | .error f => ([], some ⟨"failed to load models", some f.message⟩)
    | .ok m => report a.format room (workShares files a m shares)

/-- What an input gives on a new session. -/
def alone (files : FileTree) (a : Arguments) (m : Models) (input : String) : Outcome (List Utterance) :=
  (decodeInput files a (.ofModels m) input).map Prod.fst

variable {files : FileTree} {a : Arguments} {m : Models} {s : Session}

theorem decodedAlone (files : FileTree) (a : Arguments) (fit : m.Fit) (reached : Reached m s)
    (idle : s.inUtterance = false) (input : String) :
    (∃ f, decodeInput files a s input = .error f ∧ alone files a m input = .error f ∧
      (Session.Doing.decodeInput files a input).run s = (.error f, s)) ∨
    ∃ us t, decodeInput files a s input = .ok (us, t) ∧ alone files a m input = .ok us ∧
      (Session.Doing.decodeInput files a input).run s = (.ok us, t) ∧ Reached m t ∧ t.inUtterance = false := by
  have settles := Session.Doing.inputSettles fit reached idle files a input
  have beside := inputBeside reached idle files a input
  unfold alone
  generalize decodeInput files a s input = x, decodeInput files a (.ofModels m) input = y at settles beside
  cases beside with
  | failed f => exact .inl ⟨f, rfl, rfl, settles⟩
  | @made x y same => exact .inr ⟨x.1, x.2, rfl, congrArg Except.ok same.symm, settles⟩

theorem workAlone (files : FileTree) (a : Arguments) (fit : m.Fit) (reached : Reached m s)
    (idle : s.inUtterance = false) (input : String) :
    ∃ t, work files a m s input = (alone files a m input, t) ∧ Reached m t ∧ t.inUtterance = false := by
  rcases decodedAlone files a fit reached idle input with
    ⟨f, _, failed, ran⟩ | ⟨us, t, _, given, ran, reached', idle'⟩
  · exact ⟨s, by simp [work, ran, failed, idle], reached, idle⟩
  · exact ⟨t, by simp [work, ran, given, idle'], reached', idle'⟩

theorem shareAlone (fit : m.Fit) (reached : Reached m s) (idle : s.inUtterance = false)
    (share : List (String × Nat)) :
    workShare files a m s share = share.map fun p => (p.2, alone files a m p.1) := by
  induction share generalizing s with
  | nil => rfl
  | cons p rest ih =>
    obtain ⟨t, worked, reached, idle⟩ := workAlone files a fit reached idle p.1
    simp only [workShare, worked, ih reached idle, List.map_cons]

theorem inputsAlone (fit : m.Fit) (reached : Reached m s) (idle : s.inUtterance = false) (inputs : List String) :
    decodeInputs files a s inputs = inputs.map (alone files a m) := by
  induction inputs generalizing s with
  | nil => rfl
  | cons input rest ih =>
    rcases decodedAlone files a fit reached idle input with
      ⟨f, decoded, failed, _⟩ | ⟨us, t, decoded, given, _, reached', idle'⟩
    · simp only [decodeInputs, decoded, failed, ih reached idle, List.map_cons]
    · simp only [decodeInputs, decoded, given, ih reached' idle', List.map_cons]

end

/-! ### Results in the order of the inputs -/

theorem lookupPlace {β : Type} {given : Nat → Option β} {results : List (Nat × β)}
    (each : ∀ p ∈ results, given p.1 = some p.2) {place : Nat} (there : ∃ x, (place, x) ∈ results) :
    results.lookup place = given place := by
  induction results with
  | nil => simp at there
  | cons p rest ih =>
    obtain ⟨first, y⟩ := p
    by_cases here : place = first
    · simp [here, each (first, y) List.mem_cons_self]
    · obtain ⟨x, mem⟩ := there
      have later : (place, x) ∈ rest := by simpa [here] using mem
      have next := ih (fun q mem => each q (List.mem_cons_of_mem (first, y) mem)) ⟨x, later⟩
      simpa [List.lookup_cons, beq_false_of_ne here] using next

theorem inPlaces {β : Type} (all : List β) : (List.range all.length).filterMap (all[·]?) = all := by
  induction all with
  | nil => rfl
  | cons x rest ih => simpa [List.range_succ_eq_map, List.filterMap_map, Function.comp_def] using ih

theorem collectShared (inputs : List String) (give : String → Outcome (List Utterance)) {shared : List (String × Nat)}
    (whole : shared.Perm inputs.zipIdx) :
    collect inputs.length (shared.map fun p => (p.2, give p.1)) = inputs.map give := by
  have each : ∀ p ∈ shared.map fun p => (p.2, give p.1), (inputs.map give)[p.1]? = some p.2 := by
    intro p mem
    obtain ⟨q, mem', rfl⟩ := List.mem_map.mp mem
    have there : inputs[q.2]? = some q.1 := List.mem_zipIdx_iff_getElem?.mp (whole.mem_iff.mp mem')
    simp [there]
  have found : ∀ place ∈ List.range inputs.length,
      (shared.map fun p => (p.2, give p.1)).lookup place = (inputs.map give)[place]? := by
    intro place mem
    have less : place < inputs.length := List.mem_range.mp mem
    have there : inputs[place]? = some inputs[place] := List.getElem?_eq_getElem less
    have given : (inputs[place], place) ∈ shared := whole.mem_iff.mpr (List.mem_zipIdx_iff_getElem?.mpr there)
    exact lookupPlace each ⟨_, List.mem_map_of_mem given⟩
  have order := inPlaces (inputs.map give)
  rw [List.length_map] at order
  rw [collect, List.filterMap_congr found, order]

section
variable [Elementary] {files : FileTree} {a : Arguments} {m : Models}

theorem sharesAlone (fit : m.Fit) {shares : List (List (String × Nat))} (shared : shares.flatten.Perm a.inputs.zipIdx) :
    workShares files a m shares = a.inputs.map (alone files a m) := by
  have each : shares.flatMap (workShare files a m (.ofModels m)) =
      shares.flatten.map fun p => (p.2, alone files a m p.1) := by
    rw [List.map_flatten, List.flatMap]
    congr 1
    exact List.map_congr_left fun share _ => shareAlone fit .made rfl share
  rw [workShares, each, collectShared a.inputs _ shared]

theorem reportedAlone (inputs : List String) :
    reported (inputs.map (alone files a m)) = inputs.flatMap fun input => (alone files a m input).toOption.getD [] := by
  rw [reported, List.flatMap_map]
  congr 1
  funext input
  cases alone files a m input with
  | error f => rfl
  | ok us => rfl

/-- Whatever the workers, what is reported is the report of the utterances of the inputs that do not fail by
themselves, in their order. With the models loaded the run fails exactly when an input fails or there is no room. -/
theorem inputsIndependent {config : Config} (settings : a.config = .ok config)
    (loaded : Models.load files config = .ok m) {shares : List (List (String × Nat))}
    (shared : shares.flatten.Perm a.inputs.zipIdx) :
    let utterances := a.inputs.flatMap fun input => (alone files a m input).toOption.getD []
    let whole := (report a.format none [.ok utterances]).1
    workShares files a m shares = a.inputs.map (alone files a m) ∧
      reported (workShares files a m shares) = utterances ∧
      (∀ room, runShared files room a shares = run files room a) ∧
      (∀ room, (∀ n, room = some n → whole.length ≤ n) → (runShared files room a shares).1 = whole ∧
        ((runShared files room a shares).2.isSome ↔ ∃ input ∈ a.inputs, (alone files a m input).isOk = false)) ∧
      ∀ n, n < whole.length → (runShared files (some n) a shares).1 = whole.take n ∧
        (runShared files (some n) a shares).2.isSome := by
  intro utterances whole
  have fit : m.Fit := by
    obtain ⟨_, _, _, _, _, _, _, _, _, _, _, _, _, made⟩ := Models.loadMade loaded
    exact Models.ofPartsFit _ _ _ _ _ _ m made
  let results := a.inputs.map (alone files a m)
  have worked : workShares files a m shares = results := sharesAlone fit shared
  have told : reported results = utterances := reportedAlone a.inputs
  have runs (room : Option Nat) : runShared files room a shares = report a.format room results := by
    simp only [runShared, settings, loaded, worked]
  have alike (room : Option Nat) : run files room a = report a.format room results := by
    simp only [run, settings, loaded, inputsAlone fit .made rfl a.inputs, results]
  have fails : (verdict results).isSome ↔ ∃ input ∈ a.inputs, (alone files a m input).isOk = false := by
    simp [verdictFails, results]
  obtain ⟨free, limited⟩ := reportWithin a.format results
  have one : reported [.ok utterances] = utterances := List.append_nil utterances
  have same : (report a.format none results).1 = whole := reportSame a.format none (told.trans one.symm)
  rw [same] at limited
  refine ⟨worked, worked ▸ told, fun room => (runs room).trans (alike room).symm, fun room enough => ?_,
    fun n less => ?_⟩
  · rw [← fails, runs]
    cases room with
    | none => exact ⟨same, by rw [free]⟩
    | some n => simp [(limited n).1 (enough n rfl)]
  · rw [runs]
    exact (limited n).2 less

end

set_option maxRecDepth 10000 in
/-- One worker has all three inputs, the last one first, and meets between two of them one that does not exist; the
other worker has nothing to do. -/
theorem missingInputAlone :
    let _ := Elementary.system
    let files : FileTree :=
      ⟨(["x.raw"], .file [1, 0, 2, 0]) :: (["y.raw"], .file [3, 0]) :: Search.Engine.oneWordFiles.nodes⟩
    let a : Arguments := ⟨"m", "d", "l", none, ["feat=1s_c", "ncep=1", "ceplen=1", "cmninit=1"], .hyp, some 3, 2, true,
      false, .warn, ["x.raw", "missing", "y.raw"]⟩
    let shares : List (List (String × Nat)) := [[("y.raw", 2), ("missing", 1), ("x.raw", 0)], []]
    ∃ config m, a.config = .ok config ∧ Models.load files config = .ok m ∧ shares.flatten.Perm a.inputs.zipIdx ∧
      (alone files a m "x.raw").toOption.map List.length = some 1 ∧ (alone files a m "missing").isOk = false ∧
      (alone files a m "y.raw").toOption.map List.length = some 1 ∧
      workShares files a m shares = a.inputs.map (alone files a m) ∧
      runShared files none a shares = run files none a ∧ (runShared files none a shares).2.isSome = true := by
  intro _ files a shares
  have known : ((a.config.map fun config => ((Models.load files config).map fun m =>
      ((alone files a m "x.raw").toOption.map List.length, (alone files a m "missing").isOk,
        (alone files a m "y.raw").toOption.map List.length)).toOption).toOption) =
      some (some (some 1, false, some 1)) := by decide +kernel
  obtain ⟨config, settings, inner⟩ := Outcome.mapOk known
  obtain ⟨m, loaded, each⟩ := Outcome.mapOk inner
  obtain ⟨first, others⟩ := Prod.mk.inj each
  obtain ⟨fails, last⟩ := Prod.mk.inj others
  have shared : shares.flatten.Perm a.inputs.zipIdx := List.reverse_perm a.inputs.zipIdx
  obtain ⟨worked, _, same, fitting, _⟩ := inputsIndependent settings loaded shared
  refine ⟨config, m, settings, loaded, shared, first, fails, last, worked, same none, ?_⟩
  exact (fitting none fun n none => by cases none).2.mpr ⟨"missing", by simp [a], fails⟩

end SpeechDecoder.CommandLine
