/-! Queues that give their items out in the order in which they came in. Items come in at the head of
`back`, which is turned over when `front` has none left. -/
namespace SpeechDecoder

structure Fifo (β : Type) where
  size : Nat
  front : List β
  back : List β
  counted : size = front.length + back.length
  deriving Repr

namespace Fifo
variable {β : Type}

def empty : Fifo β := ⟨0, [], [], rfl⟩

def ofList (xs : List β) : Fifo β := ⟨xs.length, xs, [], rfl⟩

/-- The items, first come first. -/
def toList (q : Fifo β) : List β := q.front ++ q.back.reverse

def push (q : Fifo β) (x : β) : Fifo β :=
  ⟨q.size + 1, q.front, x :: q.back, by simp [q.counted, Nat.add_assoc]⟩

def pop? (q : Fifo β) : Option (β × Fifo β) :=
  match taken : q.front with
  | x :: rest => some (x, ⟨q.size - 1, rest, q.back, by simp [q.counted, taken, Nat.add_right_comm]⟩)
  | [] =>
    match q.back.reverse with
    | [] => none
    | x :: rest => some (x, ofList rest)

theorem sizeEq (q : Fifo β) : q.size = q.toList.length := by
  simp [toList, q.counted]

theorem toListEmpty : (empty : Fifo β).toList = [] := rfl

theorem toListPush (q : Fifo β) (x : β) : (q.push x).toList = q.toList ++ [x] := by
  simp [push, toList]

theorem popToList (q : Fifo β) :
    (q.pop?).map (fun p => (p.1, p.2.toList)) =
      match q.toList with
      | [] => none
      | x :: rest => some (x, rest) := by
  obtain ⟨size, front, back, counted⟩ := q
  cases front with
  | cons x rest => simp [pop?, toList]
  | nil =>
    simp only [pop?, toList, List.nil_append]
    cases back.reverse with
    | nil => rfl
    | cons x rest => simp [ofList]

end Fifo

end SpeechDecoder
