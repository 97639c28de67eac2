import SpeechDecoder.Fifo

/-! Cutting a list into pieces of one size. -/
namespace SpeechDecoder.Pieces

/-- Adds items to an open piece, which is whole at `n + 1` items; then the next is opened. -/
def gather {α : Type} (n : Nat) : Fifo α → List α → List (List α) × Fifo α
  | piece, [] => ([], piece)
  | piece, x :: rest =>
    let piece := piece.push x
    if n < piece.size then
      let (whole, last) := gather n .empty rest
      (piece.toList :: whole, last)
    else gather n piece rest

/-- Pieces of `n` items, the last one shorter; pieces of nothing are pieces of one. -/
def ofList {α : Type} (n : Nat) (xs : List α) : List (List α) :=
  let (whole, last) := gather (n - 1) .empty xs
  if last.size = 0 then whole else whole ++ [last.toList]

theorem gatherFlatten {α : Type} (n : Nat) (piece : Fifo α) (xs : List α) :
    (gather n piece xs).1.flatten ++ (gather n piece xs).2.toList = piece.toList ++ xs := by
  fun_induction gather n piece xs with
  | case1 piece => exact (List.append_nil _).symm
  | case2 piece x rest piece' h whole last same ih =>
    rw [same] at ih
    rw [List.flatten_cons, List.append_assoc, ih, Fifo.toListEmpty, List.nil_append,
      Fifo.toListPush, List.append_assoc, List.singleton_append]
  | case3 piece x rest piece' h ih =>
    rw [ih, Fifo.toListPush, List.append_assoc, List.singleton_append]

theorem gatherSize {α : Type} (n : Nat) (piece : Fifo α) (xs : List α) (room : piece.size ≤ n) :
    (gather n piece xs).2.size ≤ n := by
  fun_induction gather n piece xs with
  | case1 piece => exact room
  | case2 piece x rest piece' h whole last same ih =>
    rw [same] at ih
    exact ih (Nat.zero_le n)
  | case3 piece x rest piece' h ih => exact ih (Nat.le_of_not_lt h)

theorem gatherLengths {α : Type} (n : Nat) (piece : Fifo α) (xs : List α)
    (room : piece.size ≤ n) : ∀ whole ∈ (gather n piece xs).1, whole.length = n + 1 := by
  fun_induction gather n piece xs with
  | case1 piece => intro whole mem; cases mem
  | case2 piece x rest piece' h whole last same ih =>
    rw [same] at ih
    intro whole mem
    rcases List.mem_cons.1 mem with rfl | mem
    · rw [← Fifo.sizeEq]
      exact Nat.le_antisymm (Nat.succ_le_succ room) h
    · exact ih (Nat.zero_le n) whole mem
  | case3 piece x rest piece' h ih => exact ih (Nat.le_of_not_lt h)

theorem flattenOfList {α : Type} (n : Nat) (xs : List α) : (ofList n xs).flatten = xs := by
  have all := gatherFlatten (n - 1) .empty xs
  unfold ofList
  generalize gather (n - 1) .empty xs = parts at all ⊢
  obtain ⟨whole, last⟩ := parts
  rw [Fifo.toListEmpty, List.nil_append] at all
  dsimp only
  split
  · next none =>
    rw [Fifo.sizeEq, List.length_eq_zero_iff] at none
    rw [none, List.append_nil] at all
    exact all
  · rw [List.flatten_append, List.flatten_singleton]
    exact all

end SpeechDecoder.Pieces
