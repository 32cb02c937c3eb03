import ChunkSort.Chunk.Store

/-!
Batches: the rows that come in from outside, and which of their columns and rows are taken.
-/

namespace ChunkSort

/-- A numbered block of rows that is read cell by cell. Rows that are not visible take no part. -/
structure Batch where
  id : UInt32
  rows : Nat
  columns : Nat
  value : Nat → Nat → Except DataError Value
  visible : Nat → Bool := fun _ => true

def rowId (batch : UInt32) (row : Nat) : UInt64 := batch.toUInt64 <<< 32 ||| UInt64.ofNat row

namespace Batch

/-- The visibility that a mask gives: rows past its end are visible. -/
def masked (mask : Option (Array Bool)) (row : Nat) : Bool := (mask.bind (·[row]?)).getD true

def ofRows (id : UInt32) (columns : Nat) (rows : Array (Array Value)) (mask : Option (Array Bool)) : Batch where
  id := id
  rows := rows.size
  columns := columns
  value row column :=
    match rows[row]? with
    | none => .error (.rowOutOfRange row rows.size)
    | some values =>
      match values[column]? with
      | none => .error (.columnOutOfRange column values.size)
      | some v => .ok v
  visible := masked mask

def ofColumns (id : UInt32) (columns : Array (Array Value)) (mask : Option (Array Bool)) : Batch where
  id := id
  rows := (columns[0]?.map Array.size).getD 0
  columns := columns.size
  value row column :=
    match columns[column]? with
    | none => .error (.columnOutOfRange column columns.size)
    | some values =>
      match values[row]? with
      | none => .error (.rowOutOfRange row values.size)
      | some v => .ok v
  visible := masked mask

def source (b : Batch) (projection : Option (List Nat)) (row : Nat) : SourceRow where
  id := .ok (rowId b.id row)
  value column :=
    match projection with
    | none => b.value row column
    | some selected =>
      match selected[column]? with
      | none => .error (.columnOutOfRange column selected.length)
      | some column => b.value row column

/-- The first `wanted` visible ones among `left` rows from `row` on, and where the search stopped. -/
def pick (b : Batch) : (left row wanted : Nat) → List Nat × Nat
  | 0, row, _ | _ + 1, row, 0 => ([], row)
  | left + 1, row, wanted + 1 =>
    if b.visible row then
      let (picked, stop) := b.pick left (row + 1) wanted
      (row :: picked, stop)
    else
      b.pick left (row + 1) (wanted + 1)

def nextVisible (b : Batch) : (left row : Nat) → Nat
  | 0, row => row
  | left + 1, row => if b.visible row then row else b.nextVisible left (row + 1)

theorem pick_bounds (b : Batch) (left row wanted : Nat) :
    row + (b.pick left row wanted).1.length ≤ (b.pick left row wanted).2 ∧
      (b.pick left row wanted).2 ≤ row + left := by
  fun_induction b.pick left row wanted <;> simp_all <;> omega

theorem le_of_mem_pick (b : Batch) (left row wanted i r : Nat)
    (h : (b.pick left row wanted).1[i]? = some r) : row + i ≤ r ∧ r < row + left := by
  fun_induction b.pick left row wanted generalizing i with
  | case1 | case2 => simp at h
  | case3 left row wanted _ picked stop hp ih =>
    cases i with
    | zero => simp at h; omega
    | succ i => have := ih i (by simpa [hp] using h); omega
  | case4 left row wanted _ ih => have := ih i h; omega

theorem nextVisible_bounds (b : Batch) (left row : Nat) :
    row ≤ b.nextVisible left row ∧ b.nextVisible left row ≤ row + left := by
  fun_induction b.nextVisible left row <;> omega

end Batch
end ChunkSort
