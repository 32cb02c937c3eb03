import ChunkSort.Chunk.Basic
import ChunkSort.Spill.Layout
import ChunkSort.Spill.MessagePack

/-!
How the parts of a chunk are encoded in a spill file.
-/

namespace ChunkSort

structure Format (α : Type) where
  encode : α → List UInt8
  decode : List UInt8 → Except String α
  /-- The values that the format has room for. -/
  Fits : α → Prop

namespace Spill

structure Codec where
  descriptor : Format Descriptor
  store : Format ColumnStore
  index : Format (Array UInt32)
  status : Format Status

end Spill

namespace MessagePack

abbrev IsWord (n : Nat) : Prop := n < 0x10000000000000000

abbrev IsLength (n : Nat) : Prop := n < 0x100000000

/-! ### Column stores -/

def typeNumber : ColumnType → Nat
  | .int64 => 0
  | .float64 => 1
  | .varLen => 2

def encodeType (type : ColumnType) : List UInt8 := variant (typeNumber type) nil

def encodeCell : (type : ColumnType) → type.Cell → List UInt8
  | .int64, v => int v.toInt
  | .float64, bits => float64 bits
  | .varLen, ref => array [nat ref.offset, nat ref.length]

def CellFits : (type : ColumnType) → type.Cell → Prop
  | .varLen, ref => IsWord ref.offset ∧ IsWord ref.length
  | _, _ => True

def encodeColumn (c : Column) : List UInt8 :=
  variant (typeNumber c.type) (array (c.cells.toList.map (optional (encodeCell c.type))))

def encodeStore (s : ColumnStore) : List UInt8 :=
  array [array (s.schema.map encodeType), array (s.columns.map encodeColumn),
    array (s.ids.toList.map fun id => nat id.toNat)]

def encodeIndex (index : Array UInt32) : List UInt8 := array (index.toList.map fun e => nat e.toNat)

namespace Reader

def numberedType : Reader ColumnType := do
  match ← variant with
  | 0 => return .int64
  | 1 => return .float64
  | 2 => return .varLen
  | _ => throw "unknown column type"

def type : Reader ColumnType := do
  let type ← numberedType
  nil
  return type

def cell : (type : ColumnType) → Reader type.Cell
  | .int64 => do return Int64.ofInt (← int)
  | .float64 => float64
  | .varLen => do
    tuple 2
    let offset ← nat
    return ⟨offset, ← nat⟩

def column : Reader Column := do
  let type ← numberedType
  return ⟨type, (← array (optional (cell type))).toArray⟩

def store : Reader ColumnStore := do
  tuple 3
  let _ ← array type
  let columns ← array column
  let ids ← array nat
  return ⟨columns, (ids.map UInt64.ofNat).toArray⟩

def index : Reader (Array UInt32) := do return ((← array nat).map UInt32.ofNat).toArray

end Reader

def storeFormat : Format ColumnStore where
  encode := encodeStore
  decode := Reader.store.decode
  Fits s := IsLength s.columns.length ∧ IsLength s.ids.size ∧
    ∀ c ∈ s.columns, IsLength c.cells.size ∧ ∀ cell, some cell ∈ c.cells → CellFits c.type cell

def indexFormat : Format (Array UInt32) where
  encode := encodeIndex
  decode := Reader.index.decode
  Fits index := IsLength index.size

/-! ### Status and header -/

def statusNumber : Status → Nat
  | .success => 0
  | .noSpace => 1
  | .fault => 2

def encodeStatus (status : Status) : List UInt8 := variant (statusNumber status) nil

def fields (d : Spill.Descriptor) : List Nat :=
  [d.chunk, d.rows, d.capacity, d.sideLimit, d.storeLength, d.indexLength, d.statusLength, d.sideLength]

def encodeDescriptor (d : Spill.Descriptor) : List UInt8 := array ((fields d).map nat)

namespace Reader

def status : Reader Status := do
  let number ← variant
  nil
  match number with
  | 0 => return .success
  | 1 => return .noSpace
  | 2 => return .fault
  | _ => throw "unknown status"

def descriptor : Reader Spill.Descriptor := do
  match ← array nat with
  | [chunk, rows, capacity, sideLimit, storeLength, indexLength, statusLength, sideLength] =>
    return { chunk, rows, capacity, sideLimit, storeLength, indexLength, statusLength, sideLength }
  | _ => throw "eight numbers expected"

end Reader

def statusFormat : Format Status where
  encode := encodeStatus
  decode := Reader.status.decode
  Fits _ := True

def descriptorFormat : Format Spill.Descriptor where
  encode := encodeDescriptor
  decode := Reader.descriptor.decode
  Fits d := ∀ n ∈ fields d, IsWord n

def codec : Spill.Codec where
  descriptor := descriptorFormat
  store := storeFormat
  index := indexFormat
  status := statusFormat

end MessagePack
end ChunkSort
