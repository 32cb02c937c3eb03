import ChunkSort.SideBuffer

/-!
Row data of a chunk, column by column. A column holds one optional cell for each slot; the cells of a
variable-length column refer to the side buffer that goes with the store.
-/

namespace ChunkSort

abbrev ColumnType.Cell : ColumnType → Type
  | .int64 => Int64
  | .float64 => UInt64
  | .varLen => PayloadRef

namespace ColumnType

def decode (side : SideBuffer) : (type : ColumnType) → Option type.Cell → Except DataError Value
  | _, none => .ok .null
  | .int64, some v => .ok (.int64 v)
  | .float64, some bits => .ok (.float64 bits)
  | .varLen, some ref => (side.get ref).map .bytes

def encode (column : Nat) (side : SideBuffer) :
    (type : ColumnType) → Value → Except DataError (Option type.Cell × SideBuffer)
  | _, .null => .ok (none, side)
  | .int64, .int64 v => .ok (some v, side)
  | .float64, .float64 bits => .ok (some bits, side)
  | .varLen, .bytes payload =>
    match side.push payload with
    | some (ref, side) => .ok (some ref, side)
    | none => .error (.sideBufferFull payload.length side.reportedRoom)
  | type, v => .error (.typeMismatch column type v.kind)

def payloadLength (column : Nat) : ColumnType → Value → Except DataError Nat
  | _, .null => .ok 0
  | .int64, .int64 _ => .ok 0
  | .float64, .float64 _ => .ok 0
  | .varLen, .bytes payload => .ok payload.length
  | type, v => .error (.typeMismatch column type v.kind)

end ColumnType

/-- A row to copy from. Reading a column or the identifier may fail. -/
structure SourceRow where
  id : Except DataError UInt64
  value : Nat → Except DataError Value

def SourceRow.payloadSizeFrom (row : SourceRow) (column : Nat) : List ColumnType → Except DataError Nat
  | [] => .ok 0
  | type :: types => do
    let length ← type.payloadLength column (← row.value column)
    return length + (← row.payloadSizeFrom (column + 1) types)

/-- Checks a row against a schema and gives the side buffer bytes that it takes. -/
def SourceRow.payloadSize (row : SourceRow) (schema : List ColumnType) : Except DataError Nat :=
  row.payloadSizeFrom 0 schema

def overwrite {α : Type} (slots : Array α) (start : Nat) : List α → Except DataError (Array α)
  | [] => .ok slots
  | v :: vs =>
    if h : start < slots.size then overwrite (slots.set start v h) (start + 1) vs else .error (.outOfBounds start)

structure Column where
  type : ColumnType
  cells : Array (Option type.Cell)

namespace Column

def empty (type : ColumnType) (capacity : Nat) : Column := ⟨type, Array.replicate capacity none⟩

def write (c : Column) (column slot : Nat) (side : SideBuffer) (v : Value) :
    Except DataError (Column × SideBuffer) :=
  if h : slot < c.cells.size then do
    let (cell, side) ← c.type.encode column side v
    return ({ c with cells := c.cells.set slot cell h }, side)
  else
    .error (.outOfBounds slot)

def fill (column slot : Nat) (c : Column) (side : SideBuffer) :
    List SourceRow → Except DataError (Column × SideBuffer)
  | [] => .ok (c, side)
  | row :: rows => do
    let (c, side) ← c.write column slot side (← row.value column)
    fill column (slot + 1) c side rows

end Column

structure ColumnStore where
  columns : List Column
  ids : Array UInt64

namespace ColumnStore

def empty (schema : List ColumnType) (capacity : Nat) : ColumnStore where
  columns := schema.map (Column.empty · capacity)
  ids := Array.replicate capacity 0

def schema (s : ColumnStore) : List ColumnType := s.columns.map Column.type

def slots (s : ColumnStore) : Nat := s.ids.size

def value (s : ColumnStore) (side : SideBuffer) (slot column : Nat) : Except DataError Value :=
  match s.columns[column]? with
  | none => .error (.columnOutOfRange column s.columns.length)
  | some c =>
    match c.cells[slot]? with
    | none => .error (.rowOutOfRange slot s.slots)
    | some cell => c.type.decode side cell

def fillColumns (rows : List SourceRow) (start column : Nat) (side : SideBuffer) :
    List Column → Except DataError (List Column × SideBuffer)
  | [] => .ok ([], side)
  | c :: cs => do
    let (c, side) ← c.fill column start side rows
    let (cs, side) ← fillColumns rows start (column + 1) side cs
    return (c :: cs, side)

/-- Copies the rows into the slots from `start` on. Identifiers come after all columns. -/
def fill (s : ColumnStore) (side : SideBuffer) (start : Nat) (rows : List SourceRow) :
    Except DataError (ColumnStore × SideBuffer) := do
  let (columns, side) ← fillColumns rows start 0 side s.columns
  let ids ← overwrite s.ids start (← rows.mapM SourceRow.id)
  return (⟨columns, ids⟩, side)

end ColumnStore

/-- One row of a store, as comparators see it. -/
structure Record where
  store : ColumnStore
  side : SideBuffer
  slot : Nat

namespace Record

def value (r : Record) (column : Nat) : Except DataError Value := r.store.value r.side r.slot column

def id (r : Record) : Except DataError UInt64 :=
  match r.store.ids[r.slot]? with
  | some id => .ok id
  | none => .error (.outOfBounds r.slot)

def toSource (r : Record) : SourceRow := ⟨r.id, r.value⟩

end Record
end ChunkSort
