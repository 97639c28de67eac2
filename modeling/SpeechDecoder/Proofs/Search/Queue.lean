import SpeechDecoder.Search.Queue

/-! A queue gives out its items in their order: nothing that is left goes before what is taken out. -/
namespace SpeechDecoder.Search

structure Ranking {β : Type} (before : β → β → Bool) : Prop where
  oneWay : ∀ x y, before x y = true → before y x = false
  through : ∀ x y z, before x z = true → before x y = true ∨ before y z = true

namespace Queue
variable {β : Type} {before : β → β → Bool}

/-- Nothing goes before an item above it. -/
def Heaped (before : β → β → Bool) : Queue β → Prop
  | empty => True
  | node _ x l r => (∀ y ∈ l.toList ++ r.toList, before y x = false) ∧ Heaped before l ∧ Heaped before r

theorem branchItems (x : β) (a b : Queue β) : (branch x a b).toList.Perm (x :: (a.toList ++ b.toList)) := by
  unfold branch
  split
  · exact .refl _
  · exact List.perm_append_comm.cons x

theorem branchHeaped {x : β} {a b : Queue β} (first : ∀ y ∈ a.toList ++ b.toList, before y x = false)
    (left : a.Heaped before) (right : b.Heaped before) : (branch x a b).Heaped before := by
  unfold branch
  split
  · exact ⟨first, left, right⟩
  · exact ⟨fun y mem => first y (List.perm_append_comm.mem_iff.mp mem), right, left⟩

theorem mergeItems (a b : Queue β) : (merge before a b).toList.Perm (a.toList ++ b.toList) := by
  induction a generalizing b with
  | empty => exact .refl _
  | node n x l r _ merged =>
    unfold merge
    induction b with
    | empty => simp [graft, toList]
    | node m y l' r' _ grafted =>
      unfold graft
      split
      · refine (branchItems y _ _).trans (.trans (.cons y ?_) List.perm_middle.symm)
        exact (grafted.append_left l'.toList).trans (List.perm_append_comm_assoc l'.toList _ r'.toList)
      · refine (branchItems x _ _).trans (.cons x ?_)
        refine ((merged _).append_left l.toList).trans (.of_eq ?_)
        exact (List.append_assoc _ _ _).symm

theorem mergeHeaped (ranking : Ranking before) {a b : Queue β} (left : a.Heaped before) (right : b.Heaped before) :
    (merge before a b).Heaped before := by
  induction a generalizing b with
  | empty => exact right
  | node n x l r _ merged =>
    obtain ⟨first, heapedLeft, heapedRight⟩ := left
    have below {x y z : β} (above : before y x = false) (under : before z y = false) : before z x = false := by
      cases ahead : before z x with
      | false => rfl
      | true => rcases ranking.through z y x ahead with other | other <;> simp_all
    unfold merge
    induction b with
    | empty => exact ⟨first, heapedLeft, heapedRight⟩
    | node m y l' r' _ grafted =>
      obtain ⟨first', heapedLeft', heapedRight'⟩ := right
      unfold graft
      split
      · -- `y` goes first, and above all that is below `x`
        rename_i ahead
        have items : (merge before (node n x l r) r').toList.Perm _ := mergeItems _ _
        refine branchHeaped (fun z mem => ?_) heapedLeft' (grafted heapedRight')
        rcases List.mem_append.mp mem with old | moved
        · exact first' z (List.mem_append_left _ old)
        · rcases List.mem_append.mp (items.mem_iff.mp moved) with under | old
          · rcases List.mem_cons.mp under with rfl | deeper
            · exact ranking.oneWay y z ahead
            · exact below (ranking.oneWay y x ahead) (first z deeper)
          · exact first' z (List.mem_append_right _ old)
      · rename_i behind
        have above : before y x = false := Bool.eq_false_iff.mpr behind
        have items : (merge before r (node m y l' r')).toList.Perm _ := mergeItems _ _
        refine branchHeaped (fun z mem => ?_) heapedLeft (merged heapedRight ⟨first', heapedLeft', heapedRight'⟩)
        rcases List.mem_append.mp mem with old | moved
        · exact first z (List.mem_append_left _ old)
        · rcases List.mem_append.mp (items.mem_iff.mp moved) with old | under
          · exact first z (List.mem_append_right _ old)
          · rcases List.mem_cons.mp under with rfl | deeper
            · exact above
            · exact below above (first' z deeper)

theorem pushItems (q : Queue β) (x : β) : (q.push before x).toList.Perm (x :: q.toList) :=
  (mergeItems q _).trans (List.perm_append_comm.trans (.refl (x :: q.toList)))

theorem pushHeaped (ranking : Ranking before) {q : Queue β} (heaped : q.Heaped before) (x : β) :
    (q.push before x).Heaped before := by
  refine mergeHeaped ranking heaped ⟨fun y mem => ?_, trivial, trivial⟩
  cases mem

theorem popEmpty {q : Queue β} (none : q.pop? before = none) : q.toList = [] := by
  cases q with
  | empty => rfl
  | node n x l r => cases none

theorem popItems {q rest : Queue β} {x : β} (popped : q.pop? before = some (x, rest)) :
    q.toList.Perm (x :: rest.toList) := by
  cases q with
  | empty => cases popped
  | node n z l r =>
    cases popped
    exact (mergeItems l r).symm.cons x

theorem popFirst (ranking : Ranking before) {q rest : Queue β} {x : β} (heaped : q.Heaped before)
    (popped : q.pop? before = some (x, rest)) :
    rest.Heaped before ∧ ∀ y ∈ rest.toList, before y x = false := by
  cases q with
  | empty => cases popped
  | node n z l r =>
    cases popped
    have items : (merge before l r).toList.Perm _ := mergeItems l r
    obtain ⟨first, left, right⟩ := heaped
    exact ⟨mergeHeaped ranking left right, fun y mem => first y (items.mem_iff.mp mem)⟩

end Queue

end SpeechDecoder.Search
