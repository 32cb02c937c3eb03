/-!
The order of work that may be done at once. Parts that are done at once share no data, so doing them at once
comes to doing them in some order, up to the first one that fails.
-/

namespace ChunkSort

/-- Who comes next, as a place among those that still wait. When the turns are over, the others follow in order. -/
abbrev Turns := List Nat

def inTurn : Nat → Turns := fun _ => []

/-- A list in the order of the turns. A turn that nobody has is passed over. -/
def Turns.arrange {α : Type} : Turns → List α → List α
  | [], l => l
  | turn :: turns, l =>
    match l[turn]? with
    | some a => a :: arrange turns (l.eraseIdx turn)
    | none => arrange turns l

/-- Maps all elements at once. Of several failures it is the first one by the turns that counts. -/
def collect {α β ε : Type} (turns : Turns) (f : α → Except ε β) (l : List α) : Except ε (List β) := do
  let _ ← (turns.arrange l).mapM f
  l.mapM f

/-- What the threads of a pool do first. Of the operations of a job only the first one that fails shows its
order, so all of them go by the same one. -/
structure Schedule where
  /-- The rows that are measured before they are copied. -/
  rows : Turns := []
  /-- The lanes of each pass. -/
  lanes : Nat → Turns := inTurn
  /-- The steps of the merges that are under way together, by round and group. -/
  tasks : Nat → Nat → Turns := fun _ => inTurn

end ChunkSort
