import ChunkSort.Chunk.Store

/-!
Comparators, and the ready-made ones: by column keys, by row identity, by properties of one column, and
comparators that fail on chosen records.
-/

namespace ChunkSort

abbrev Comparator := Record → Record → Except DataError Ordering

/-- Whether a failed comparison is charged to the right operand: it cannot be compared with itself while
the left one can. -/
def Comparator.chargesRight (cmp : Comparator) (a b : Record) : Bool := (cmp a a).isOk && !(cmp b b).isOk

/-- One column of a lexicographic order. Where nulls stand does not depend on the direction. -/
structure SortKey where
  column : Nat
  descending : Bool := false
  nullsFirst : Bool := false

namespace SortKey

def ascending (column : Nat) : SortKey := { column }

def directed (k : SortKey) (o : Ordering) : Ordering := if k.descending then o.swap else o

def compareValues (k : SortKey) : Value → Value → Except DataError Ordering
  | .null, .null => .ok .eq
  | .null, _ => .ok (if k.nullsFirst then .lt else .gt)
  | _, .null => .ok (if k.nullsFirst then .gt else .lt)
  | .int64 a, .int64 b => .ok (k.directed (compare a.toInt b.toInt))
  | .float64 a, .float64 b => .ok (k.directed (compare (FloatBits.rank a) (FloatBits.rank b)))
  | .bytes a, .bytes b => .ok (k.directed (compare a b))
  | a, b =>
    .error (.comparator s!"column {k.column} holds incomparable values {a.kind.name} and {b.kind.name}")

def compareRecords (k : SortKey) (a b : Record) : Except DataError Ordering := do
  k.compareValues (← a.value k.column) (← b.value k.column)

end SortKey

namespace Comparator

def byKeys : List SortKey → Comparator
  | [], _, _ => .ok .eq
  | k :: ks, a, b => do
    match ← k.compareRecords a b with
    | .eq => byKeys ks a b
    | o => return o

def byId : Comparator := fun a b => do return compare (← a.id) (← b.id)

def reversed (cmp : Comparator) : Comparator := fun a b => (cmp a b).map Ordering.swap

def bySlot : Comparator := fun a b => .ok (compare a.slot b.slot)

def constant (o : Ordering) : Comparator := fun _ _ => .ok o

def failing (text : String) : Comparator := fun _ _ => .error (.comparator text)

def byMeasure (column : Nat) (measure : Value → Except DataError Int) : Comparator := fun a b => do
  let u ← measure (← a.value column)
  let v ← measure (← b.value column)
  return compare u v

def byLength (column : Nat) : Comparator := byMeasure column fun
  | .bytes payload => .ok payload.length
  | v => .error (.comparator s!"bytes expected, found {v.kind.name}")

def poisoned (column : Nat) (v : Value) (text : String) (cmp : Comparator) : Comparator := fun a b => do
  if (← a.value column).numericEq v then
    throw (.comparator text)
  if (← b.value column).numericEq v then
    throw (.comparator text)
  cmp a b

end Comparator
end ChunkSort
