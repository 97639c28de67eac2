import SpeechDecoder.Proofs.Search.Ride

/-! Every live token, and every exit, is where an alignment leads, with its score, whatever is pruned. A token has
ridden through its word from the exit that is its origin. -/
namespace SpeechDecoder.Search

open Model (History)

variable {α : Type}

def addedPlaces (exits exits' : Array (Exit α)) : List Nat :=
  (List.range (exits'.size - exits.size)).map (exits.size + ·)

theorem leAdded {exits exits' : Array (Exit α)} {place : Nat} (added : place ∈ addedPlaces exits exits') :
    exits.size ≤ place := by
  obtain ⟨i, _, rfl⟩ := List.mem_map.mp added
  exact Nat.le_add_right _ i

theorem addedExits {exits exits' : Array (Exit α)} {new : List (Exit α)}
    (more : exits'.toList = exits.toList ++ new) :
    (∀ (i : Nat) (e : Exit α), exits[i]? = some e → exits'[i]? = some e) ∧
      (∀ origin ∈ addedPlaces exits exits', ∃ e ∈ new, exits'[origin]? = some e) ∧
      ∀ e ∈ new, ∃ origin ∈ addedPlaces exits exits', exits'[origin]? = some e := by
  have size : exits'.size = exits.size + new.length := by
    simpa using congrArg List.length more
  have at' (i : Nat) : exits'[i]? = (exits.toList ++ new)[i]? := by
    rw [← more, Array.getElem?_toList]
  have later (i : Nat) : exits'[exits.size + i]? = new[i]? := by
    rw [at', List.getElem?_append_right (by simp), Array.length_toList, Nat.add_sub_cancel_left]
  refine ⟨fun i e found => ?_, fun origin mem => ?_, fun e mem => ?_⟩
  · have inside := (Array.getElem?_eq_some_iff.mp found).1
    rw [at', List.getElem?_append_left (by simpa using inside), Array.getElem?_toList, found]
  · obtain ⟨i, inside, rfl⟩ := List.mem_map.mp mem
    have bound : i < new.length := by
      have := List.mem_range.mp inside
      omega
    exact ⟨new[i], List.getElem_mem bound, by rw [later, List.getElem?_eq_getElem bound]⟩
  · obtain ⟨i, bound, rfl⟩ := List.getElem_of_mem mem
    refine ⟨exits.size + i, List.mem_map.mpr ⟨i, List.mem_range.mpr (by omega), rfl⟩, ?_⟩
    rw [later, List.getElem?_eq_getElem bound]

theorem addedCases {exits exits' : Array (Exit α)} {new : List (Exit α)} (more : exits'.toList = exits.toList ++ new)
    {place : Nat} {e : Exit α} (found : exits'[place]? = some e) :
    exits[place]? = some e ∨ place ∈ addedPlaces exits exits' ∧ e ∈ new := by
  have inside := (Array.getElem?_eq_some_iff.mp found).1
  rw [← Array.getElem?_toList, more] at found
  by_cases old : place < exits.toList.length
  · rw [List.getElem?_append_left old, Array.getElem?_toList] at found
    exact .inl found
  · rw [List.getElem?_append_right (Nat.le_of_not_lt old)] at found
    rw [Array.length_toList] at old
    exact .inr ⟨List.mem_map.mpr ⟨place - exits.size, List.mem_range.mpr (by omega), by omega⟩,
      List.mem_of_getElem? found⟩

variable [Score α]

structure Entered (k : Knowledge α) (before : Exit α) (t : Nat) (place : Place) : Prop where
  earlier : before.endFrame + place.delay ≤ t
  live : Score.isLive (before.score + (k.enter place.word before.history).1) = true

/-- The score of a way that enters a word from an exit. -/
def Exit.onward (k : Knowledge α) (before : Exit α) (word : Nat) : α :=
  before.score + (k.enter word before.history).1

/-- What the exit of a word has from the exit that the word was entered from. -/
structure Exit.Behind (k : Knowledge α) (e before : Exit α) (origin word : Nat) : Prop where
  named : e.word = some word
  linked : e.previous = some origin
  starts : e.startFrame = before.endFrame
  history : e.history = (k.enter word before.history).2
  language : e.languageScore = (k.enter word before.history).1

theorem Exit.behindOf {k : Knowledge α} {before e : Exit α} {origin word : Nat} {score : α}
    (same : e = before.after k origin word e.endFrame score) : e.Behind k before origin word := by
  rw [same]
  exact ⟨rfl, rfl, rfl, rfl, rfl⟩

/-- A word is entered from an exit that an alignment leads to. -/
structure Begins (k : Knowledge α) (frames : List (Frame α)) (before : Exit α) (word : Nat) : Prop where
  live : Score.isLive (before.onward k word) = true
  path : Path k frames anyScore before.endFrame (.entry word 0) before.history (before.onward k word)

def staysLive (a x : α) : Prop := Score.isLive (a + x) = true

/-- A ride leads to a place with the score of a token, from the exit that is its origin. -/
def Comes (k : Knowledge α) (frames : List (Frame α)) (exits : Array (Exit α)) (t : Nat) (place : Place)
    (token : Token α) : Prop :=
  ∃ before stays, exits[token.origin]? = some before ∧ Begins k frames before place.word ∧
    Ride k frames staysLive place.word before.endFrame (before.onward k place.word) t place stays token.score

/-- An exit is where a token has left its word, which it had entered from an earlier one. -/
def Exit.Ridden (k : Knowledge α) (frames : List (Frame α)) (exits : Array (Exit α)) (place word : Nat)
    (e : Exit α) : Prop :=
  ∃ before origin, origin < place ∧ exits[origin]? = some before ∧
    Comes k frames exits e.endFrame (.exit word) ⟨e.score, origin⟩ ∧
    e = before.after k origin word e.endFrame e.score

structure Traced (k : Knowledge α) (frames : List (Frame α)) (t : Nat) (words : List (WordModel α))
    (exits : Array (Exit α)) : Prop where
  shape : ∀ word phone, (phoneAt words word phone).map PhoneModel.clear = k.phone? word phone
  states : ∀ (word phone state : Nat) (m : PhoneModel α) (x : Token α), phoneAt words word phone = some m →
    m.states[state]? = some x → x.isLive = true → Comes k frames exits t (.state word phone state) x
  entries : ∀ (word phone : Nat) (m : PhoneModel α), phoneAt words word phone = some m →
    m.entry.isLive = true → Comes k frames exits t (.entry word phone) m.entry
  ridden : ∀ (place word : Nat) (e : Exit α), exits[place]? = some e → e.word = some word →
    e.Ridden k frames exits place word

section
variable {k : Knowledge α} {frames : List (Frame α)} {t : Nat} {exits : Array (Exit α)}

namespace Comes
variable {place : Place} {token : Token α}

theorem more (comes : Comes k frames exits t place token) {exits' : Array (Exit α)}
    (more : ∀ (i : Nat) (e : Exit α), exits[i]? = some e → exits'[i]? = some e) :
    Comes k frames exits' t place token := by
  obtain ⟨before, stays, found, rest⟩ := comes
  exact ⟨before, stays, more _ _ found, rest⟩

theorem led (comes : Comes k frames exits t place token) : ∃ before, exits[token.origin]? = some before ∧
    Path k frames anyScore t place (place.after k before.history) token.score ∧ Entered k before t place := by
  obtain ⟨before, stays, found, begins, ride⟩ := comes
  exact ⟨before, found, ride.path begins.path, ride.delayed, begins.live⟩

end Comes

theorem Exit.Ridden.more {place word : Nat} {e : Exit α} (ridden : e.Ridden k frames exits place word)
    {exits' : Array (Exit α)} (more : ∀ (i : Nat) (e : Exit α), exits[i]? = some e → exits'[i]? = some e) :
    e.Ridden k frames exits' place word := by
  obtain ⟨before, origin, earlier, known, comes, same⟩ := ridden
  exact ⟨before, origin, earlier, more _ _ known, comes.more more, same⟩

theorem Exit.Ridden.later {place place' word : Nat} {e : Exit α} (ridden : e.Ridden k frames exits place word)
    (le : place ≤ place') : e.Ridden k frames exits place' word := by
  obtain ⟨before, origin, earlier, rest⟩ := ridden
  exact ⟨before, origin, Nat.lt_of_lt_of_le earlier le, rest⟩

theorem Exit.Ridden.path {place word : Nat} {e : Exit α} (ridden : e.Ridden k frames exits place word) :
    Path k frames anyScore e.endFrame (.exit word) e.history e.score := by
  obtain ⟨before, origin, _, known, comes, same⟩ := ridden
  obtain ⟨before', known', path, _⟩ := comes.led
  cases known.symm.trans known'
  rw [(behindOf same).history]
  exact path

end

theorem Traced.exits {k : Knowledge α} {frames : List (Frame α)} {t : Nat} {words : List (WordModel α)}
    {table : Array (Exit α)} (traced : Traced k frames t words table) (place word : Nat) (e : Exit α)
    (found : table[place]? = some e) (named : e.word = some word) :
    Path k frames anyScore e.endFrame (.exit word) e.history e.score :=
  (traced.ridden place word e found named).path

variable {k : Knowledge α} {frames : List (Frame α)} {t : Nat} {words : List (WordModel α)}
  {exits : Array (Exit α)}

theorem Traced.phone (traced : Traced k frames t words exits) {word phone : Nat} {m : PhoneModel α}
    (found : phoneAt words word phone = some m) : k.phone? word phone = some m.clear := by
  rw [← traced.shape, found]
  rfl

theorem Traced.map (traced : Traced k frames t words exits) {words' : List (WordModel α)}
    {f : Nat → Nat → PhoneModel α → PhoneModel α}
    (at' : ∀ word phone, phoneAt words' word phone = (phoneAt words word phone).map (f word phone))
    (shape : ∀ word phone m, (f word phone m).clear = m.clear)
    (states : ∀ word phone m (state : Nat) (x : Token α), (f word phone m).states[state]? = some x →
      x.isLive = true → m.states[state]? = some x)
    (entries : ∀ word phone m, phoneAt words word phone = some m → (f word phone m).entry.isLive = true →
      Comes k frames exits t (.entry word phone) (f word phone m).entry) :
    Traced k frames t words' exits := by
  refine ⟨fun word phone => ?_, fun word phone state m x found held live => ?_, fun word phone m found live => ?_,
    traced.ridden⟩
  · rw [at', Option.map_map, ← traced.shape]
    cases phoneAt words word phone with
    | none => rfl
    | some m => exact congrArg some (shape word phone m)
  · rw [at'] at found
    obtain ⟨m₀, before, rfl⟩ := Option.map_eq_some_iff.mp found
    exact traced.states word phone state m₀ x before (states word phone m₀ state x held live) live
  · rw [at'] at found
    obtain ⟨m₀, before, rfl⟩ := Option.map_eq_some_iff.mp found
    exact entries word phone m₀ before live

theorem Traced.offer (traced : Traced k frames t words exits) (threshold : α) {origin : Nat} {e : Exit α}
    (known : exits[origin]? = some e) (now : e.endFrame = t) (ways : ∀ word m, k.phone? word 0 = some m →
      Path k frames anyScore t (.entry word 0) e.history (e.onward k word)) :
    Traced k frames t (Plain.offerAll k threshold exits words origin) exits := by
  subst now
  unfold Plain.offerAll
  rw [known]
  refine traced.map (Plain.offerAt k threshold e origin words) (fun word phone m => ?_)
    (fun word phone m state x held _ => ?_) fun word phone m found live => ?_
  · split
    · split <;> rfl
    · rfl
  · split at held
    · split at held <;> exact held
    · exact held
  · split at live
    · rename_i first
      subst first
      split at live
      · rename_i weak
        rw [if_pos rfl, if_pos weak]
        exact traced.entries word 0 m found live
      · rename_i weak
        rw [if_pos rfl, if_neg weak]
        rcases m.entry.betterIs ⟨e.score + (k.enter word e.history).1, origin⟩ with old | new
        · have same : (m.offer ⟨e.score + (k.enter word e.history).1, origin⟩).entry = m.entry := old
          rw [same] at live ⊢
          exact traced.entries word 0 m found live
        · have same : (m.offer ⟨e.score + (k.enter word e.history).1, origin⟩).entry = _ := new
          rw [same] at live ⊢
          have first := traced.phone found
          exact ⟨e, [], known, ⟨live, ways word _ first⟩, .begin first⟩
    · rename_i later
      rw [if_neg later]
      exact traced.entries word phone m found live

theorem Traced.offerEach (traced : Traced k frames t words exits) (threshold : α) {origins : List Nat}
    (ends : ∀ origin ∈ origins, ∃ e word, exits[origin]? = some e ∧ e.word = some word ∧ e.endFrame = t) :
    Traced k frames t (origins.foldl (Plain.offerAll k threshold exits) words) exits := by
  induction origins generalizing words with
  | nil => exact traced
  | cons origin rest ih =>
    obtain ⟨e, word, known, named, here⟩ := ends origin List.mem_cons_self
    refine ih (traced.offer threshold known here fun next m first => ?_)
      fun o mem => ends o (List.mem_cons_of_mem _ mem)
    have path := traced.exits origin word e known named
    rw [here] at path
    exact .next path first trivial

def recorded (k : Knowledge α) (endFrame : Nat) (exits : Array (Exit α)) (leaving : List (Nat × Token α)) :
    List (Exit α) :=
  leaving.filterMap fun x =>
    exits[x.2.origin]?.map fun before => before.after k x.2.origin x.1 endFrame x.2.score

theorem recordEach {endFrame : Nat} {leaving : List (Nat × Token α)}
    (known : ∀ x ∈ leaving, ∃ before, exits[x.2.origin]? = some before) {exits' : Array (Exit α)}
    (more : ∀ (i : Nat) (e : Exit α), exits[i]? = some e → exits'[i]? = some e) :
    (leaving.foldl (Engine.recordExit k endFrame) exits').toList =
      exits'.toList ++ recorded k endFrame exits leaving := by
  induction leaving generalizing exits' with
  | nil => simp [recorded]
  | cons x rest ih =>
    obtain ⟨before, found⟩ := known x List.mem_cons_self
    have step : Engine.recordExit k endFrame exits' x =
        exits'.push (before.after k x.2.origin x.1 endFrame x.2.score) := by
      simp only [Engine.recordExit, more _ _ found]
    rw [List.foldl_cons, step, ih (fun y mem => known y (List.mem_cons_of_mem x mem)) fun i e at' => ?_]
    · simp [recorded, found]
    · have inside := (Array.getElem?_eq_some_iff.mp (more i e at')).1
      rw [Array.getElem?_push_lt inside]
      exact (Array.getElem?_eq_getElem inside).symm.trans (more i e at')

theorem recordAllIs {endFrame : Nat} {leaving : List (Nat × Token α)}
    (known : ∀ x ∈ leaving, ∃ before, exits[x.2.origin]? = some before) :
    (Engine.recordAll k endFrame exits leaving).toList = exits.toList ++
      recorded k endFrame exits (Engine.cap (fun x => x.2.score) k.params.maxExits leaving).1 := by
  exact recordEach (fun x mem => known x (Engine.capMem mem)) fun _ _ at' => at'

theorem limitAt (k : Knowledge α) (words : List (WordModel α)) : ∃ dropped : List Nat, ∀ word phone,
    phoneAt (Plain.limited k words) word phone =
      (phoneAt words word phone).map fun m => if word ∈ dropped then m.clear else m := by
  let dropped := (Engine.cap (Plain.bestScore words) k.params.maxActive
    ((List.range words.length).filter fun w => Score.isLive (Plain.bestScore words w))).2
  refine ⟨dropped, fun word phone => ?_⟩
  change phoneAt (words.mapIdx fun w x => if w ∈ dropped then x.clear else x) word phone = _
  unfold phoneAt
  rw [List.getElem?_mapIdx]
  cases words[word]? with
  | none => rfl
  | some w =>
    simp only [Option.map_some, Option.bind_some]
    split
    · exact List.getElem?_map
    · exact Option.map_id'.symm

variable [Score.Ordered α]

theorem Traced.move (traced : Traced k frames t words exits) {frame : Frame α} (now : frames[t]? = some frame) :
    Traced k frames (t + 1) (Plain.move k frame words).1 exits := by
  refine ⟨fun word phone => ?_, fun word phone state m x found held live => ?_, fun word phone m found live => ?_,
    traced.ridden⟩
  · rw [Plain.moveAt, Option.map_map, ← traced.shape]
    cases phoneAt words word phone with
    | none => rfl
    | some m => exact congrArg some (m.movedClear _ _)
  · rw [Plain.moveAt] at found
    obtain ⟨m₀, before, rfl⟩ := Option.map_eq_some_iff.mp found
    have here := traced.phone before
    obtain ⟨inside, came⟩ := PhoneModel.movedFrom held live
    have size : state < m₀.clear.states.length := by simpa [PhoneModel.clear] using inside
    rcases came with ⟨rfl, alive, rfl⟩ | ⟨source, _, token, there, alive, passes, rfl⟩
    · obtain ⟨origin, stays, known, begins, ride⟩ := traced.entries word phone m₀ before alive
      exact ⟨origin, _, known, begins, Ride.enter (m := m₀.clear) ride now here size⟩
    · obtain ⟨origin, stays, known, begins, ride⟩ := traced.states word phone source m₀ token before there alive
      exact ⟨origin, _, known, begins, Ride.go (m := m₀.clear) ride now here size passes⟩
  · rw [Plain.moveAt] at found
    obtain ⟨m₀, _, rfl⟩ := Option.map_eq_some_iff.mp found
    have dead : (Token.dead : Token α).isLive = true := live
    rw [Token.deadNotLive] at dead
    cases dead

theorem Traced.prune (traced : Traced k frames t words exits) (threshold : α) :
    Traced k frames t (words.map (WordModel.prune threshold)) exits := by
  refine traced.map (f := fun _ _ => PhoneModel.prune threshold) (phoneAtMap _ words) (fun _ _ m => ?_)
    (fun _ _ m state x held live => ?_) traced.entries
  · simp only [PhoneModel.clear, PhoneModel.prune, List.map_map]
    rfl
  · simp only [PhoneModel.prune, List.getElem?_map] at held
    obtain ⟨y, before, rfl⟩ := Option.map_eq_some_iff.mp held
    split at live
    · rw [Token.deadNotLive] at live
      cases live
    · rename_i kept
      rw [before, if_neg kept]

theorem Traced.limit (traced : Traced k frames t words exits) :
    Traced k frames t (Plain.limited k words) exits := by
  obtain ⟨dropped, at'⟩ := limitAt k words
  refine traced.map (f := fun word _ m => if word ∈ dropped then m.clear else m) at'
    (fun word _ m => ?_) (fun word _ m state x held live => ?_) fun word phone m found live => ?_
  · split
    · exact m.clearClear
    · rfl
  · split at held
    · rw [m.clearStates x (List.mem_of_getElem? held), Token.deadNotLive] at live
      cases live
    · exact held
  · split at live
    · have dead : (Token.dead : Token α).isLive = true := live
      rw [Token.deadNotLive] at dead
      cases dead
    · rename_i out
      rw [if_neg out]
      exact traced.entries word phone m found live

theorem Traced.crossing (traced : Traced k frames t words exits) {threshold : α} {word phone : Nat}
    {m : PhoneModel α} (found : phoneAt words word phone = some m) {token : Token α}
    (offered : Plain.crossingTo k threshold words word phone = some token) :
    Comes k frames exits t (.entry word phone) token := by
  cases phone with
  | zero => cases offered
  | succ before =>
    obtain ⟨p, there, crossing⟩ := Option.bind_eq_some_iff.mp offered
    obtain ⟨alive, rfl⟩ := Plain.crossingIs crossing
    obtain ⟨source, held, at', live, came⟩ := PhoneModel.leavingFrom alive
    obtain ⟨origin, stays, known, begins, ride⟩ := traced.states word before source p held there at' live
    have size : p.clear.states.length = p.states.length := by simp [PhoneModel.clear]
    rw [came] at alive
    refine ⟨origin, stays, ?_, begins, ?_⟩
    · rw [came]
      exact known
    · rw [came, Token.add, Token.add, ← size]
      exact Ride.cross (m := p.clear) ride (traced.phone there) (traced.phone found) (size ▸ alive)

theorem Traced.cross (traced : Traced k frames t words exits) (threshold : α) :
    Traced k frames t (words.map (WordModel.cross k.transitions k.params.phonePenalty threshold)) exits := by
  refine traced.map (f := fun word phone => WordModel.takes (Plain.crossingTo k threshold words word phone))
    (Plain.crossAt k threshold words) (fun word phone m => ?_) (fun word phone m state x held _ => ?_)
    fun word phone m found live => ?_
  · unfold WordModel.takes
    split <;> rfl
  · unfold WordModel.takes at held
    split at held <;> exact held
  · cases offered : Plain.crossingTo k threshold words word phone with
    | none =>
      rw [offered] at live
      exact traced.entries word phone m found live
    | some token =>
      rw [offered] at live
      rcases m.entry.betterIs token with old | new
      · have same : (m.offer token).entry = m.entry := old
        change (m.offer token).entry.isLive = true at live
        change Comes k frames exits t (.entry word phone) (m.offer token).entry
        rw [same] at live ⊢
        exact traced.entries word phone m found live
      · have same : (m.offer token).entry = token := new
        change Comes k frames exits t (.entry word phone) (m.offer token).entry
        rw [same]
        exact traced.crossing found offered

theorem Traced.comesOut (traced : Traced k frames t words exits) {threshold : α} {word : Nat} {token : Token α}
    (mem : (word, token) ∈ Plain.leavingTokens k threshold words) :
    token.isLive = true ∧ Comes k frames exits t (.exit word) token := by
  obtain ⟨phone, p, here, last, live, _, rfl⟩ := Plain.memLeaving.mp mem
  obtain ⟨source, held, at', alive, came⟩ := PhoneModel.leavingFrom live
  obtain ⟨before, stays, known, begins, ride⟩ := traced.states word phone source p held here at' alive
  have none : k.phone? word (phone + 1) = none := by
    rw [← traced.shape, last]
    rfl
  have size : p.clear.states.length = p.states.length := by simp [PhoneModel.clear]
  have passes := live
  rw [came] at passes
  refine ⟨live, before, stays, ?_, begins, ?_⟩
  · rw [came]
    exact known
  · rw [came, Token.add, ← size]
    exact Ride.leave (m := p.clear) ride (traced.phone here) none (size ▸ passes)

theorem Traced.leaving (traced : Traced k frames t words exits) {threshold : α} {word : Nat} {token : Token α}
    (mem : (word, token) ∈ Plain.leavingTokens k threshold words) :
    token.isLive = true ∧ ∃ before, exits[token.origin]? = some before ∧
      Path k frames anyScore t (.exit word) (k.enter word before.history).2 token.score ∧
      Entered k before t (.exit word) :=
  ⟨(traced.comesOut mem).1, (traced.comesOut mem).2.led⟩

theorem Traced.recorded (traced : Traced k frames t words exits) (threshold : α) :
    (Engine.recordAll k t exits (Plain.leavingTokens k threshold words)).toList = exits.toList ++
      recorded k t exits
        (Engine.cap (fun x => x.2.score) k.params.maxExits (Plain.leavingTokens k threshold words)).1 := by
  refine recordAllIs fun x mem => ?_
  obtain ⟨_, before, known, _⟩ := traced.leaving mem
  exact ⟨before, known⟩

def Exit.Left (k : Knowledge α) (exits : Array (Exit α)) (e : Exit α) : Prop :=
  ∃ before origin word, exits[origin]? = some before ∧ Entered k before e.endFrame (.exit word) ∧
    Score.isLive e.score = true ∧ e = before.after k origin word e.endFrame e.score

theorem Traced.memRecorded (traced : Traced k frames t words exits) {threshold : α}
    {e : Exit α} (mem : e ∈ Search.recorded k t exits
      (Engine.cap (fun x => x.2.score) k.params.maxExits (Plain.leavingTokens k threshold words)).1) :
    e.endFrame = t ∧ e.Left k exits ∧ ∃ word, e.word = some word ∧ e.Ridden k frames exits exits.size word := by
  obtain ⟨⟨word, token⟩, inside, given⟩ := List.mem_filterMap.mp mem
  obtain ⟨before, known, rfl⟩ := Option.map_eq_some_iff.mp given
  obtain ⟨live, comes⟩ := traced.comesOut (Engine.capMem inside)
  obtain ⟨before', known', _, entered⟩ := comes.led
  cases known.symm.trans known'
  have earlier : token.origin < exits.size := (Array.getElem?_eq_some_iff.mp known).1
  exact ⟨rfl, ⟨before, token.origin, word, known, entered, live, rfl⟩, word, rfl, before, token.origin, earlier,
    known, comes, rfl⟩

theorem Traced.record (traced : Traced k frames t words exits) (threshold : α) :
    Traced k frames t words (Engine.recordAll k t exits (Plain.leavingTokens k threshold words)) := by
  have more := traced.recorded threshold
  obtain ⟨old, _, _⟩ := addedExits more
  refine ⟨traced.shape, fun word phone state m x found held live => ?_, fun word phone m found live => ?_,
    fun place word e found named => ?_⟩
  · exact (traced.states word phone state m x found held live).more old
  · exact (traced.entries word phone m found live).more old
  · rcases addedCases more found with before | ⟨added, new⟩
    · exact (traced.ridden place word e before named).more old
    · obtain ⟨_, _, word', same, ridden⟩ := traced.memRecorded new
      cases same.symm.trans named
      exact (ridden.later (leAdded added)).more old

theorem Traced.step {p : Plain α} (traced : Traced p.knowledge frames p.frames p.words p.exits) {frame : Frame α}
    (now : frames[p.frames]? = some frame) :
    Traced p.knowledge frames (p.step frame).frames (p.step frame).words (p.step frame).exits := by
  let k := p.knowledge
  let best := (Plain.move k frame p.words).2
  have stay : Traced k frames (p.frames + 1) (Plain.survive k best (Plain.move k frame p.words).1) p.exits :=
    (((traced.move now).prune _).limit).cross _
  refine (stay.record (best + k.params.wordBeam)).offerEach _ fun origin mem => ?_
  obtain ⟨_, new, _⟩ := addedExits (stay.recorded (best + k.params.wordBeam))
  obtain ⟨e, mem, found⟩ := new origin mem
  obtain ⟨here, _, word, named, _⟩ := stay.memRecorded mem
  exact ⟨e, word, found, named, here⟩

structure Table (k : Knowledge α) (t : Nat) (exits : Array (Exit α)) : Prop where
  root : exits[0]? = some (Exit.root k)
  left : ∀ (place : Nat) (e : Exit α), exits[place + 1]? = some e → e.Left k exits ∧ e.endFrame ≤ t

theorem Table.record (table : Table k t exits) (traced : Traced k frames (t + 1) words exits) (threshold : α) :
    Table k (t + 1) (Engine.recordAll k (t + 1) exits (Plain.leavingTokens k threshold words)) := by
  have more := traced.recorded threshold
  obtain ⟨old, _, _⟩ := addedExits more
  have kept {e : Exit α} : e.Left k exits → e.Left k
      (Engine.recordAll k (t + 1) exits (Plain.leavingTokens k threshold words)) := by
    rintro ⟨before, origin, word, known, rest⟩
    exact ⟨before, origin, word, old _ _ known, rest⟩
  refine ⟨old _ _ table.root, fun place e found => ?_⟩
  rcases addedCases more found with before | ⟨_, new⟩
  · obtain ⟨left, ends⟩ := table.left place e before
    exact ⟨kept left, Nat.le_succ_of_le ends⟩
  · obtain ⟨here, left, _⟩ := traced.memRecorded new
    exact ⟨kept left, Nat.le_of_eq here⟩

theorem Table.step {p : Plain α} (table : Table p.knowledge p.frames p.exits)
    (traced : Traced p.knowledge frames p.frames p.words p.exits) {frame : Frame α}
    (now : frames[p.frames]? = some frame) : Table p.knowledge (p.step frame).frames (p.step frame).exits :=
  table.record ((((traced.move now).prune _).limit).cross _) _

end SpeechDecoder.Search
