import ChunkSort.Proofs.Chunk.Cells
import ChunkSort.Proofs.PowerOfTwo

/-!
Well-formed chunks: what every operation keeps, and what the rows of such a chunk read as. Cells past the row
count are left out on purpose, they may hold anything.
-/

namespace ChunkSort

def ColumnStore.rowAt (s : ColumnStore) (side : SideBuffer) (slot : Nat) : Row :=
  ⟨s.ids[slot]?.getD 0, s.columns.map (·.valueAt side slot)⟩

theorem ColumnStore.value_eq_ok_iff {s : ColumnStore} {side : SideBuffer} {slot column : Nat} {v : Value} :
    s.value side slot column = .ok v ↔ ∃ c, s.columns[column]? = some c ∧ c.Shows side slot v := by
  constructor
  · intro h
    unfold value at h
    split at h
    · cases h
    next c hc =>
      split at h
      · cases h
      next cell hcell => exact ⟨c, hc, cell, hcell, h⟩
  · rintro ⟨c, hc, cell, hcell, hd⟩
    simp only [value, hc, hcell, hd]

structure Shape where
  schema : List ColumnType
  capacity : Nat
  sideLimit : Option Nat

namespace Chunk

def shape (c : Chunk) : Shape := ⟨c.schema, c.capacity, c.side.limit⟩

theorem schema_of_shape {c c' : Chunk} (h : c'.shape = c.shape) : c'.schema = c.schema := congrArg Shape.schema h

def entries (c : Chunk) : List UInt32 := c.index.toList.take c.rows

def rowAt (c : Chunk) (slot : Nat) : Row := c.store.rowAt c.side slot

def slotRows (c : Chunk) : List Row := (List.range c.rows).map c.rowAt

def sortedRows (c : Chunk) : List Row := c.entries.map fun e => c.rowAt e.toNat

/-- The records that a comparator may be asked about. -/
def Live (c : Chunk) (r : Record) : Prop := ∃ slot < c.rows, r = c.recordAt slot

/-- The index leads to each row once, and holds padding behind that. -/
structure Indexed (c : Chunk) : Prop where
  capacity_le : c.capacity ≤ maxCapacity
  rows_le : c.rows ≤ c.capacity
  index_size : c.index.size = paddedSize c.capacity
  index_perm : (c.index.toList.take c.rows).Perm ((List.range c.rows).map UInt32.ofNat)
  index_padding : ∀ e ∈ c.index.toList.drop c.rows, e = padding

structure WellFormed (c : Chunk) : Prop extends c.Indexed where
  side_le : ∀ limit ∈ c.side.limit, c.side.used ≤ limit
  ids_size : c.store.ids.size = c.capacity
  cells_size : ∀ column ∈ c.store.columns, column.cells.size = c.capacity
  resolves : ∀ column ∈ c.store.columns, ∀ slot < c.rows, ∀ ref ∈ column.ref? slot,
    ref.offset + ref.length ≤ c.side.used

end Chunk

/-! ### Entries -/

theorem toNat_ofNat_of_lt {n : Nat} (h : n < maxCapacity) : (UInt32.ofNat n).toNat = n :=
  UInt32.toNat_ofNat_of_lt' (Nat.lt_trans h (by decide))

theorem ofNat_ne_padding {n : Nat} (h : n < maxCapacity) : UInt32.ofNat n ≠ padding := by
  intro he
  have := congrArg UInt32.toNat he
  rw [toNat_ofNat_of_lt h] at this
  subst this
  exact absurd h (by decide)

theorem maxCapacity_eq : maxCapacity = 1 <<< 30 := by decide

namespace Chunk.Indexed

variable {c : Chunk} (h : c.Indexed)
include h

theorem rows_le_max : c.rows ≤ maxCapacity := Nat.le_trans h.rows_le h.capacity_le

theorem rows_le_index : c.rows ≤ c.index.size := by
  rw [h.index_size]
  exact Nat.le_trans h.rows_le (le_paddedSize _)

theorem length_entries : c.entries.length = c.rows := by
  rw [entries, List.length_take, Array.length_toList]
  exact Nat.min_eq_left h.rows_le_index

theorem entries_of_rows (hz : c.rows = 0) : c.entries = [] :=
  List.eq_nil_of_length_eq_zero (h.length_entries.trans hz)

theorem lt_of_mem_entries {e : UInt32} (he : e ∈ c.entries) : e.toNat < c.rows := by
  obtain ⟨slot, hs, rfl⟩ := List.mem_map.mp (h.index_perm.mem_iff.mp he)
  have := List.mem_range.mp hs
  rwa [toNat_ofNat_of_lt (Nat.lt_of_lt_of_le this h.rows_le_max)]

theorem ne_padding_of_mem_entries {e : UInt32} (he : e ∈ c.entries) : e ≠ padding := by
  obtain ⟨slot, hs, rfl⟩ := List.mem_map.mp (h.index_perm.mem_iff.mp he)
  exact ofNat_ne_padding (Nat.lt_of_lt_of_le (List.mem_range.mp hs) h.rows_le_max)

theorem entries_toNat_perm : (c.entries.map UInt32.toNat).Perm (List.range c.rows) := by
  have key := h.index_perm.map UInt32.toNat
  rw [List.map_map] at key
  have hid : (List.range c.rows).map (UInt32.toNat ∘ UInt32.ofNat) = List.range c.rows := by
    conv_rhs => rw [← List.map_id (List.range c.rows)]
    apply List.map_congr_left
    intro slot hs
    exact toNat_ofNat_of_lt (Nat.lt_of_lt_of_le (List.mem_range.mp hs) h.rows_le_max)
  rwa [hid] at key

end Chunk.Indexed

namespace Chunk.WellFormed

variable {c : Chunk} (h : c.WellFormed)
include h

theorem sortedRows_perm : c.sortedRows.Perm c.slotRows := by
  have key := h.entries_toNat_perm.map c.rowAt
  rwa [List.map_map] at key

theorem length_sortedRows : c.sortedRows.length = c.rows := by
  rw [Chunk.sortedRows, List.length_map, h.length_entries]

theorem sortedRows_of_rows (hz : c.rows = 0) : c.sortedRows = [] :=
  List.eq_nil_of_length_eq_zero (h.length_sortedRows.trans hz)

/-! ### Reading rows -/

theorem shows {column : Column} (hc : column ∈ c.store.columns) {slot : Nat} (hs : slot < c.rows) :
    column.Shows c.side slot (column.valueAt c.side slot) :=
  Column.shows_valueAt (by rw [h.cells_size column hc]; exact Nat.lt_of_lt_of_le hs h.rows_le)
    (h.resolves column hc slot hs)

theorem gives {slot : Nat} (hs : slot < c.rows) : (c.recordAt slot).toSource.Gives c.schema (c.rowAt slot) where
  id := by
    have hi : slot < c.store.ids.size := by
      rw [h.ids_size]
      exact Nat.lt_of_lt_of_le hs h.rows_le
    simp only [Record.toSource, Record.id, Chunk.recordAt, Array.getElem?_eq_getElem hi, Chunk.rowAt,
      ColumnStore.rowAt, Option.getD_some]
  fits := by
    rw [Row.Fits, Chunk.schema, ColumnStore.schema, Chunk.rowAt, ColumnStore.rowAt, List.forall₂_map_left_iff,
      List.forall₂_map_right_iff, List.forall₂_same]
    exact fun column hc => (h.shows hc hs).accepts
  values := by
    intro i v hv
    rw [Chunk.rowAt, ColumnStore.rowAt, List.getElem?_map, Option.map_eq_some_iff] at hv
    obtain ⟨column, hc, rfl⟩ := hv
    rw [Nat.zero_add]
    exact ColumnStore.value_eq_ok_iff.mpr ⟨column, hc, h.shows (List.mem_of_getElem? hc) hs⟩

end Chunk.WellFormed

namespace Chunk

theorem sortedRecords_eq (c : Chunk) : c.sortedRecords = c.entries.map fun e => c.recordAt e.toNat := by
  rw [sortedRecords, entries, Array.toList_extract, List.extract_eq_take_drop, Nat.sub_zero, List.drop_zero]

theorem WellFormed.fits_of_mem {c : Chunk} (h : c.WellFormed) {row : Row} (hr : row ∈ c.sortedRows) :
    row.Fits c.schema := by
  obtain ⟨e, he, rfl⟩ := List.mem_map.mp hr
  exact (h.gives (h.lt_of_mem_entries he)).fits

/-! ### Chunks without rows, and chunks that differ in their index -/

@[simp] theorem length_blankIndex (capacity : Nat) : (blankIndex capacity).size = paddedSize capacity :=
  Array.size_replicate

theorem mem_blankIndex {capacity : Nat} {e : UInt32} (h : e ∈ (blankIndex capacity).toList) : e = padding := by
  rw [blankIndex, Array.toList_replicate] at h
  exact List.eq_of_mem_replicate h

theorem wellFormed_empty (id : Nat) (schema : List ColumnType) {capacity : Nat} (hc : capacity ≤ maxCapacity)
    (sideLimit : Option Nat) : (Chunk.empty id schema capacity sideLimit).WellFormed where
  capacity_le := hc
  rows_le := Nat.zero_le _
  index_size := length_blankIndex capacity
  index_perm := .refl _
  index_padding _ he := mem_blankIndex (List.mem_of_mem_drop he)
  side_le _ _ := Nat.zero_le _
  ids_size := Array.size_replicate
  cells_size column hc := by
    obtain ⟨type, _, rfl⟩ := List.mem_map.mp hc
    exact Array.size_replicate
  resolves _ _ _ hs := absurd hs (Nat.not_lt_zero _)

@[simp] theorem schema_empty (id : Nat) (schema : List ColumnType) (capacity : Nat) (sideLimit : Option Nat) :
    (Chunk.empty id schema capacity sideLimit).schema = schema := by
  rw [Chunk.schema, ColumnStore.schema, Chunk.empty, ColumnStore.empty, List.map_map]
  exact List.map_id _

@[simp] theorem shape_empty (id : Nat) (schema : List ColumnType) (capacity : Nat) (sideLimit : Option Nat) :
    (Chunk.empty id schema capacity sideLimit).shape = ⟨schema, capacity, sideLimit⟩ := by
  rw [shape, schema_empty]
  rfl

theorem WellFormed.clear {c : Chunk} (h : c.WellFormed) : c.clear.WellFormed where
  capacity_le := h.capacity_le
  rows_le := Nat.zero_le _
  index_size := length_blankIndex c.capacity
  index_perm := .refl _
  index_padding _ he := mem_blankIndex (List.mem_of_mem_drop he)
  side_le _ _ := Nat.zero_le _
  ids_size := h.ids_size
  cells_size := h.cells_size
  resolves _ _ _ hs := absurd hs (Nat.not_lt_zero _)

theorem WellFormed.withStatus {c : Chunk} (h : c.WellFormed) (status : Status) : (c.withStatus status).WellFormed :=
  { h with }

theorem Indexed.reindex {c : Chunk} (h : c.Indexed) {index : Array UInt32} (hsize : index.size = c.index.size)
    (hperm : (index.toList.take c.rows).Perm c.entries) (hpad : ∀ e ∈ index.toList.drop c.rows, e = padding)
    (status : Status) : Indexed { c with index, status } where
  capacity_le := h.capacity_le
  rows_le := h.rows_le
  index_size := hsize.trans h.index_size
  index_perm := hperm.trans h.index_perm
  index_padding := hpad

theorem WellFormed.reindex {c : Chunk} (h : c.WellFormed) {index : Array UInt32}
    (hsize : index.size = c.index.size) (hperm : (index.toList.take c.rows).Perm c.entries)
    (hpad : ∀ e ∈ index.toList.drop c.rows, e = padding) (status : Status) :
    WellFormed { c with index, status } :=
  { h with toIndexed := h.toIndexed.reindex hsize hperm hpad status }

end Chunk
end ChunkSort
