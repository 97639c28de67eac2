/-! Priority queues as leftist heaps: the right spine of each part is its shortest way down, so that a
merge, which only walks right spines, takes few steps. `before` says which of two items goes first. -/
namespace SpeechDecoder.Search

inductive Queue (β : Type) where
  | empty
  | node (rank : Nat) (first : β) (left right : Queue β)
  deriving Repr

namespace Queue
variable {β : Type}

def rank : Queue β → Nat
  | empty => 0
  | node n _ _ _ => n

def size : Queue β → Nat
  | empty => 0
  | node _ _ l r => l.size + r.size + 1

def toList : Queue β → List β
  | empty => []
  | node _ x l r => x :: (l.toList ++ r.toList)

/-- Puts an item above two queues, the shorter spine on the right. -/
def branch (x : β) (a b : Queue β) : Queue β :=
  if b.rank ≤ a.rank then node (b.rank + 1) x a b else node (a.rank + 1) x b a

/-- Merges `whole`, which is `x` above `left` and a right part, with a queue; `mergeRight` merges that
right part. -/
def graft (before : β → β → Bool) (x : β) (left whole : Queue β)
    (mergeRight : Queue β → Queue β) : Queue β → Queue β
  | empty => whole
  | node n y l r =>
    if before y x then branch y l (graft before x left whole mergeRight r)
    else branch x left (mergeRight (node n y l r))

def merge (before : β → β → Bool) : Queue β → Queue β → Queue β
  | empty => id
  | node n x l r => graft before x l (node n x l r) (merge before r)

def push (before : β → β → Bool) (q : Queue β) (x : β) : Queue β :=
  merge before q (node 1 x empty empty)

def pop? (before : β → β → Bool) : Queue β → Option (β × Queue β)
  | empty => none
  | node _ x l r => some (x, merge before l r)

end Queue

end SpeechDecoder.Search
