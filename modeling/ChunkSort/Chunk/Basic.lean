import ChunkSort.Chunk.Store

/-!
Chunks: bounded columnar buffers of rows with a permutation index. Row data is written once and never
moves; sorting reorders the index alone. The index is padded to a power of two, and every entry at or
past the row count holds `padding`.
-/

namespace ChunkSort

inductive Status where
  | success
  | noSpace
  | fault
  deriving DecidableEq

/-- The index entry that stands after every row. -/
def padding : UInt32 := 0xFFFFFFFF

def blankIndex (capacity : Nat) : Array UInt32 := Array.replicate (paddedSize capacity) padding

structure Chunk where
  id : Nat
  store : ColumnStore
  side : SideBuffer
  index : Array UInt32
  rows : Nat
  capacity : Nat
  status : Status

structure SlotRange where
  start : Nat
  stop : Nat

namespace Chunk

def empty (id : Nat) (schema : List ColumnType) (capacity : Nat) (sideLimit : Option Nat) : Chunk where
  id := id
  store := .empty schema capacity
  side := { limit := sideLimit }
  index := blankIndex capacity
  rows := 0
  capacity := capacity
  status := .success

def schema (c : Chunk) : List ColumnType := c.store.schema

def isEmpty (c : Chunk) : Bool := c.rows = 0

def freeRows (c : Chunk) : Nat := c.capacity - c.rows

def withStatus (c : Chunk) (status : Status) : Chunk := { c with status }

/-- The record at a slot, whether or not a row is there. -/
def recordAt (c : Chunk) (slot : Nat) : Record := ⟨c.store, c.side, slot⟩

def record? (c : Chunk) (slot : Nat) : Option Record := if slot < c.rows then some (c.recordAt slot) else none

def value (c : Chunk) (slot column : Nat) : Except DataError Value :=
  if slot < c.rows then c.store.value c.side slot column else .error (.rowOutOfRange slot c.rows)

def slotRecords (c : Chunk) : List Record := (List.range c.rows).map c.recordAt

def sortedRecords (c : Chunk) : List Record := (c.index.extract 0 c.rows).toList.map (c.recordAt ·.toNat)

def sortedIds (c : Chunk) : Except DataError (List UInt64) := c.sortedRecords.mapM Record.id

def first? (c : Chunk) : Option Record := if c.isEmpty then none else c.index[0]?.map (c.recordAt ·.toNat)

def reserve (c : Chunk) (wanted : Nat) : SlotRange × Chunk :=
  let stop := c.rows + min wanted c.freeRows
  (⟨c.rows, stop⟩, { c with rows := stop })

def fill (c : Chunk) (start : Nat) (rows : List SourceRow) : Except DataError Chunk := do
  let (store, side) ← c.store.fill c.side start rows
  let index ← overwrite c.index start ((List.range' start rows.length).map UInt32.ofNat)
  return { c with store, side, index }

def append (c : Chunk) (rows : List SourceRow) : Except DataError Chunk :=
  let (range, c) := c.reserve rows.length
  c.fill range.start (rows.take (range.stop - range.start))

theorem rows_append_le {c c' : Chunk} {rows : List SourceRow} (h : c.append rows = .ok c') :
    c'.rows ≤ c.rows + rows.length := by
  simp only [append, fill, reserve, bind, Except.bind] at h
  split at h
  · contradiction
  · split at h
    · contradiction
    · cases h
      simp only
      omega

/-- Drops every row. Cells keep their leftovers until they are written again. -/
def clear (c : Chunk) : Chunk := { c with rows := 0, index := blankIndex c.capacity, side := c.side.clear }

def single (id : Nat) (r : Record) : Except DataError Chunk :=
  (empty id r.store.schema 1 none).append [r.toSource]

/-- A copy of the first record in index order, and the chunk number that is free afterwards. Only an
empty chunk takes no number. -/
def head (c : Chunk) (next : Nat) : Except DataError (Option Chunk) × Nat :=
  match c.first? with
  | none => (.ok none, next)
  | some r => ((single next r).map some, next + 1)

end Chunk

structure Layout where
  schema : List ColumnType
  capacity : Nat
  sideLimit : Option Nat
  capacity_pos : 0 < capacity
  capacity_le : capacity ≤ maxCapacity

namespace Layout

def build (schema : List ColumnType) (capacity : Nat) (sideLimit : Option Nat) : Except SortError Layout :=
  if h : 0 < capacity ∧ capacity ≤ maxCapacity then
    .ok ⟨schema, capacity, sideLimit, h.1, h.2⟩
  else
    .error (.contractViolation (.capacityOutOfRange capacity))

def chunk (l : Layout) (id : Nat) : Chunk := .empty id l.schema l.capacity l.sideLimit

/-- A merge destination. Its side buffer is unlimited since merged payloads may be spread unevenly. -/
def destination (l : Layout) (id : Nat) : Chunk := .empty id l.schema l.capacity none

end Layout
end ChunkSort
