import SpeechDecoder.Proofs.Feature.Drawing

/-! The means of a whole utterance. A running mean has a weight that is told by the number of the cepstrum it is taken
off, and a sum of each coefficient over the cepstra before; the mean of an utterance has the sums over all of them. -/
namespace SpeechDecoder.Feature

/-- The coefficient `i` of the cepstrum `t`. -/
def coefficient? (cepstra : List (List Float32)) (i t : Nat) : Option Float32 := cepstra[t]?.bind (·[i]?)

def plus (sum : Float32) : Option Float32 → Float32
  | some x => sum + x
  | none => sum

/-- From 500 on the weight grows by one with each cepstrum, and behind 800 it starts again. -/
def runningWeight (t : Nat) : Float32 := Binary.ofNatural32 (500 + t % 301)

/-- The sum of one coefficient before the cepstrum `t`, weighted so. -/
def runningSum (initial : Float32) (coefficient : Nat → Option Float32) : Nat → Float32
  | 0 => initial * 500
  | t + 1 =>
    let sum := plus (runningSum initial coefficient t) (coefficient t)
    if t % 301 = 300 then sum * (500 / 801) else sum

def lessRunning (initial : List Float32) (cepstra : List (List Float32)) : List (List Float32) :=
  cepstra.mapIdx fun t cepstrum => cepstrum.mapIdx fun i x =>
    match initial[i]? with
    | some first => x - runningSum first (coefficient? cepstra i) t / runningWeight t
    | none => x

/-- Only what the first cepstrum has a coefficient for has a mean. -/
def lessMean (cepstra : List (List Float32)) : List (List Float32) :=
  cepstra.map fun cepstrum => cepstrum.mapIdx fun i x =>
    if i < (cepstra.headD []).length then
      x - (cepstra.map (·[i]?)).foldl plus 0 / Binary.ofNatural32 cepstra.length
    else x

theorem lessRunningLength (initial : List Float32) (cepstra : List (List Float32)) :
    (lessRunning initial cepstra).length = cepstra.length := List.length_mapIdx

theorem lessMeanLength (cepstra : List (List Float32)) : (lessMean cepstra).length = cepstra.length :=
  List.length_map _

theorem lessRunningSized {c : Nat} (initial : List Float32) {cepstra : List (List Float32)}
    (all : ∀ x ∈ cepstra, x.length = c) : ∀ x ∈ lessRunning initial cepstra, x.length = c := by
  intro x mem
  obtain ⟨t, inside, rfl⟩ := List.mem_mapIdx.mp mem
  rw [List.length_mapIdx]
  exact all _ (List.getElem_mem inside)

theorem lessMeanSized {c : Nat} {cepstra : List (List Float32)} (all : ∀ x ∈ cepstra, x.length = c) :
    ∀ x ∈ lessMean cepstra, x.length = c := by
  intro x mem
  obtain ⟨y, inside, rfl⟩ := List.mem_map.mp mem
  rw [List.length_mapIdx]
  exact all y inside

/-! ### Coefficient by coefficient -/

theorem pairedLength (f : Float32 → Float32 → Float32) (xs ys : List Float32) :
    (paired f xs ys).length = xs.length := by
  rw [paired, List.length_append, List.length_zipWith, List.length_drop]
  omega

theorem pairedAt (f : Float32 → Float32 → Float32) (xs ys : List Float32) (i : Nat) :
    (paired f xs ys)[i]? = xs[i]?.map fun x => (ys[i]?.map (f x)).getD x := by
  induction xs generalizing ys i with
  | nil => simp [paired]
  | cons x rest ih =>
    cases ys with
    | nil => simp [paired]
    | cons y ys =>
      have tail : paired f (x :: rest) (y :: ys) = f x y :: paired f rest ys := rfl
      rw [tail]
      cases i with
      | zero => rfl
      | succ i => exact ih ys i

theorem plusIs (sum : Float32) (x : Option Float32) : plus sum x = (x.map (sum + ·)).getD sum := by
  cases x <;> rfl

/-! ### The running mean -/

namespace RunningMean

def after (m : RunningMean) (cepstra : List (List Float32)) : RunningMean :=
  cepstra.foldl (fun m cepstrum => (m.apply cepstrum).2) m

theorem applyValues (m : RunningMean) (cepstrum : List Float32) :
    (m.apply cepstrum).1 = paired (fun x s => x - s / m.weight) cepstrum m.sum := by
  unfold apply
  dsimp only
  split <;> rfl

theorem weightNext : ∀ k < 300, ¬ mostWeight < Binary.ofNatural32 (500 + k) + 1 ∧
    Binary.ofNatural32 (500 + k) + 1 = Binary.ofNatural32 (500 + (k + 1)) := by
  decide +kernel

theorem weightAgain : mostWeight < Binary.ofNatural32 800 + 1 ∧ Binary.ofNatural32 800 + 1 = 801 ∧
    usualWeight = Binary.ofNatural32 500 := by
  decide +kernel

/-- What a cepstrum adds to a mean whose weight is that before the cepstrum `t`. -/
theorem applyRunning {m : RunningMean} {t : Nat} (weight : m.weight = runningWeight t) (cepstrum : List Float32) :
    (m.apply cepstrum).2.weight = runningWeight (t + 1) ∧ (m.apply cepstrum).2.sum =
      if t % 301 = 300 then (paired (· + ·) m.sum cepstrum).map (· * (500 / 801))
      else paired (· + ·) m.sum cepstrum := by
  unfold apply
  rw [weight, runningWeight, runningWeight]
  -- a turn has 301 cepstra, of which the last one brings the weight above 800
  by_cases last : t % 301 = 300
  · obtain ⟨passed, top, least⟩ := weightAgain
    have first : (t + 1) % 301 = 0 := by omega
    rw [last, first, if_pos rfl, if_pos passed, top]
    exact ⟨least, rfl⟩
  · have inside : t % 301 < 300 := by omega
    obtain ⟨within, next⟩ := weightNext (t % 301) inside
    have following : (t + 1) % 301 = t % 301 + 1 := by omega
    rw [following, if_neg last, if_neg within]
    exact ⟨next, rfl⟩

theorem afterRunning (initial : List Float32) {cepstra : List (List Float32)} {t : Nat} (inside : t ≤ cepstra.length) :
    ((make initial).after (cepstra.take t)).weight = runningWeight t ∧
      ∀ i, ((make initial).after (cepstra.take t)).sum[i]? =
        initial[i]?.map fun first => runningSum first (coefficient? cepstra i) t := by
  induction t with
  | zero => exact ⟨weightAgain.2.2, fun i => List.getElem?_map⟩
  | succ t ih =>
    obtain ⟨weight, sums⟩ := ih (Nat.le_of_succ_le inside)
    have next : (make initial).after (cepstra.take (t + 1)) =
        (((make initial).after (cepstra.take t)).apply cepstra[t]).2 := by
      rw [List.take_add_one, List.getElem?_eq_getElem inside, after, List.foldl_append]
      rfl
    rw [next]
    generalize (make initial).after (cepstra.take t) = m at weight sums
    obtain ⟨weight', sum⟩ := applyRunning weight cepstra[t]
    refine ⟨weight', fun i => ?_⟩
    have here : coefficient? cepstra i t = cepstra[t][i]? := by
      rw [coefficient?, List.getElem?_eq_getElem inside, Option.bind_some]
    have added : (paired (· + ·) m.sum cepstra[t])[i]? =
        initial[i]?.map fun first => plus (runningSum first (coefficient? cepstra i) t) (coefficient? cepstra i t) := by
      rw [pairedAt, sums, Option.map_map, here]
      congr 1
      funext first
      exact (plusIs _ _).symm
    rw [sum]
    simp only [runningSum]
    split
    · rw [List.getElem?_map, added, Option.map_map]
      rfl
    · exact added

theorem lessRunningAt (initial : List Float32) {cepstra : List (List Float32)} {t : Nat} {cepstrum : List Float32}
    (here : cepstra[t]? = some cepstrum) :
    (lessRunning initial cepstra)[t]? = some (((make initial).after (cepstra.take t)).apply cepstrum).1 := by
  obtain ⟨inside, rfl⟩ := List.getElem?_eq_some_iff.mp here
  obtain ⟨weight, sums⟩ := afterRunning initial (Nat.le_of_lt inside)
  rw [lessRunning, List.getElem?_mapIdx, here, Option.map_some, applyValues, weight]
  congr 1
  refine List.ext_getElem? fun i => ?_
  rw [pairedAt, sums, List.getElem?_mapIdx]
  congr 1
  funext x
  cases initial[i]? <;> rfl

end RunningMean

/-! ### The mean of all -/

theorem sumAt (cepstra : List (List Float32)) (start : List Float32) (i : Nat) :
    (cepstra.foldl (paired (· + ·)) start)[i]? = start[i]?.map fun x => (cepstra.map (·[i]?)).foldl plus x := by
  induction cepstra generalizing start with
  | nil => exact Option.map_id'.symm
  | cons cepstrum rest ih =>
    rw [List.foldl_cons, ih, pairedAt, Option.map_map]
    congr 1
    funext x
    rw [Function.comp_apply, ← plusIs]
    rfl

theorem centeredMean (cepstra : List (List Float32)) : centered cepstra = lessMean cepstra := by
  cases cepstra with
  | nil => rfl
  | cons first rest =>
    refine List.map_congr_left fun cepstrum _ => List.ext_getElem? fun i => ?_
    rw [pairedAt, List.getElem?_map, sumAt, List.getElem?_map, Option.map_map, Option.map_map, List.getElem?_mapIdx]
    congr 1
    funext x
    by_cases inside : i < first.length
    · have known : i < ((first :: rest).headD []).length := inside
      rw [if_pos known, List.getElem?_eq_getElem inside]
      rfl
    · have unknown : ¬ i < ((first :: rest).headD []).length := inside
      rw [if_neg unknown, List.getElem?_eq_none (Nat.le_of_not_lt inside)]
      rfl

end SpeechDecoder.Feature
