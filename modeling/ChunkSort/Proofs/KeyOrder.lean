import Mathlib
import ChunkSort.Proofs.Chunk.Load
import ChunkSort.Proofs.Chunk.Sort
import ChunkSort.Proofs.FloatOrder
import ChunkSort.Proofs.Keys

/-!
What keys mean. A key puts the nulls of its column on one side of the other values, and those in the order of their
type; of a list of keys the first one that tells two records apart decides.
-/

namespace ChunkSort

def Record.Stored (schema : List ColumnType) (r : Record) : Prop :=
  ∃ c : Chunk, c.WellFormed ∧ c.schema = schema ∧ c.Live r

theorem Record.Stored.exists_reads {schema : List ColumnType} {r : Record} (h : r.Stored schema) :
    ∃ row, r.Reads schema row := by
  obtain ⟨c, hc, rfl, hr⟩ := h
  exact hr.exists_reads hc

/-- How a key ranks values. Where nulls stand does not depend on the direction, everything else does. -/
structure SortKey.Ranks (k : SortKey) (ord : Value → Value → Ordering) : Prop where
  nulls : ord .null .null = .eq
  null_left : ∀ {v}, v ≠ .null → ord .null v = if k.nullsFirst then .lt else .gt
  null_right : ∀ {v}, v ≠ .null → ord v .null = if k.nullsFirst then .gt else .lt
  integers : ∀ a b : Int64, ord (.int64 a) (.int64 b) = k.directed (compare a.toInt b.toInt)
  floats : ∀ a b, ord (.float64 a) (.float64 b) = k.directed (FloatBits.totalOrder a b)
  payloads : ∀ a b, ord (.bytes a) (.bytes b) = k.directed (compare a b)

theorem SortKey.order_ranks (k : SortKey) : k.Ranks k.order where
  nulls := k.order_null
  null_left := k.order_null_left
  null_right := k.order_null_right
  integers := k.order_int64
  floats := k.order_float64
  payloads := k.order_bytes

def firstDifference (keys : List SortKey) (u v : Row) : Ordering :=
  ((keys.map fun k => k.order (u.value k.column) (v.value k.column)).find? (· ≠ .eq)).getD .eq

theorem keysOrder_eq_firstDifference (keys : List SortKey) (u v : Row) :
    keysOrder keys u v = firstDifference keys u v := by
  induction keys with
  | nil => rfl
  | cons k ks ih =>
    rw [keysOrder, ih, firstDifference, firstDifference, List.map_cons]
    cases k.order (u.value k.column) (v.value k.column) <;> rfl

theorem keysOrder_self (keys : List SortKey) (u : Row) : keysOrder keys u u = .eq := by
  have h := (keysOrder_preorders keys).swap (a := u) (b := u) trivial trivial
  cases ho : keysOrder keys u u with
  | eq => rfl
  | lt | gt =>
    rw [ho] at h
    cases h

namespace Comparator

/-- Keys within the schema are a total preorder of its records, the lexicographic one. -/
theorem byKeys_lexicographic {keys : List SortKey} {schema : List ColumnType}
    (h : ∀ k ∈ keys, k.column < schema.length) :
    (byKeys keys).TotalOn (Record.Stored schema) ∧
      (∀ r, r.Stored schema → byKeys keys r r = .ok .eq) ∧
      (∀ a b, a.Stored schema → b.Stored schema → ∃ u v, a.Reads schema u ∧ b.Reads schema v ∧
        byKeys keys a b = .ok (firstDifference keys u v)) ∧
      (∀ k : SortKey, k.Ranks k.order) ∧ FloatBits.IsTotalOrder FloatBits.totalOrder := by
  have horders := byKeys_orders h
  refine ⟨horders.totalOn.mono fun _ hr => hr.exists_reads, fun r hr => ?_, fun a b ha hb => ?_,
    SortKey.order_ranks, FloatBits.totalOrder_isTotalOrder⟩
  · obtain ⟨u, hu⟩ := hr.exists_reads
    rw [horders.answers hu hu, keysOrder_self]
  · obtain ⟨u, hu⟩ := ha.exists_reads
    obtain ⟨v, hv⟩ := hb.exists_reads
    exact ⟨u, v, hu, hv, by rw [horders.answers hu hv, keysOrder_eq_firstDifference]⟩

def gradeSchema : List ColumnType := [.int64, .float64, .varLen]

def gradeKeys : List SortKey := [⟨0, true, true⟩, ⟨1, true, false⟩]

def gradeChunk (id : UInt32) (bits : UInt64) : Chunk :=
  ((Chunk.empty id.toNat gradeSchema 2 none).load (.ofRows id 3 #[#[.null, .float64 bits, .bytes [7]]] none) none 0).state

theorem gradeChunk_stored (id : UInt32) (bits : UInt64) :
    ((gradeChunk id bits).recordAt 0).Stored gradeSchema := by
  have hnew : (Chunk.empty id.toNat gradeSchema 2 none).WellFormed := Chunk.wellFormed_empty _ _ (by decide) _
  have h := hnew.load (.ofRows id 3 #[#[.null, .float64 bits, .bytes [7]]] none) none 0 {}
  exact ⟨_, h.1, (Chunk.schema_of_shape h.2).trans (Chunk.schema_empty ..), 0, by cbv, rfl⟩

theorem byKeys_lexicographic_grades :
    byKeys gradeKeys ((gradeChunk 0 0x7FF8000000000001).recordAt 0) ((gradeChunk 1 0x8000000000000000).recordAt 0) =
        .ok .lt ∧
      byKeys gradeKeys ((gradeChunk 1 0x8000000000000000).recordAt 0) ((gradeChunk 0 0x7FF8000000000001).recordAt 0) =
        .ok .gt := by
  have hlt : byKeys gradeKeys ((gradeChunk 0 0x7FF8000000000001).recordAt 0)
      ((gradeChunk 1 0x8000000000000000).recordAt 0) = .ok .lt := by cbv
  have htotal : (byKeys gradeKeys).TotalOn (Record.Stored gradeSchema) := (byKeys_lexicographic (by decide)).1
  obtain ⟨o, ho, hswap⟩ := htotal.answers (gradeChunk_stored 0 _) (gradeChunk_stored 1 _)
  rw [hlt] at ho
  cases ho
  exact ⟨hlt, hswap⟩

end Comparator
end ChunkSort
