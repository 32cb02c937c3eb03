import ChunkSort.Proofs.Comparator

/-!
Orders by keys. The nulls of a column stand on one side of its other values, which stand in the order of their contents.
-/

namespace ChunkSort

namespace Value

def number : Value → Int
  | .int64 v => v.toInt
  | .float64 bits => FloatBits.rank bits
  | _ => 0

def payload : Value → List UInt8
  | .bytes payload => payload
  | _ => []

def order (a b : Value) : Ordering := (compare a.number b.number).then (compare a.payload b.payload)

end Value

namespace SortKey

/-- Whether the value stands on the far side of the nulls, or is a null that stands behind everything else. -/
def far (k : SortKey) (v : Value) : Bool := decide (v = .null) != k.nullsFirst

def order (k : SortKey) (a b : Value) : Ordering := (compare (k.far a) (k.far b)).then (k.directed (a.order b))

theorem order_preorders (k : SortKey) : Preorders (fun _ => True) k.order := by
  have hvalues : Preorders (fun _ => True) Value.order :=
    ((Preorders.of_transCmp (fun _ => True) compare).comap fun _ _ => trivial).lex
      ((Preorders.of_transCmp (fun _ => True) compare).comap fun _ _ => trivial)
  have hdirected : Preorders (fun _ => True) fun a b : Value => k.directed (a.order b) := by
    unfold directed
    cases k.descending with
    | false => exact hvalues
    | true => exact hvalues.reversed
  exact ((Preorders.of_transCmp (fun _ => True) compare).comap fun _ _ => trivial).lex hdirected

theorem directed_eq (k : SortKey) : k.directed .eq = .eq := by
  unfold directed
  split <;> rfl

theorem order_of_far_eq {k : SortKey} {a b : Value} (h : k.far a = k.far b) : k.order a b = k.directed (a.order b) := by
  -- Both values are null, or neither is.
  have hself : compare (k.far b) (k.far b) = .eq := Std.ReflCmp.compare_self
  rw [order, h, hself]
  rfl

theorem order_null_left (k : SortKey) {v : Value} (hv : v ≠ .null) :
    k.order .null v = if k.nullsFirst then .lt else .gt := by
  simp only [order, far, hv]
  cases k.nullsFirst <;> rfl

theorem order_null_right (k : SortKey) {v : Value} (hv : v ≠ .null) :
    k.order v .null = if k.nullsFirst then .gt else .lt := by
  simp only [order, far, hv]
  cases k.nullsFirst <;> rfl

theorem order_null (k : SortKey) : k.order .null .null = .eq := (order_of_far_eq rfl).trans k.directed_eq

theorem compareValues_null_left (k : SortKey) {v : Value} (hv : v ≠ .null) :
    k.compareValues .null v = .ok (k.order .null v) := by
  rw [k.order_null_left hv]
  cases v with
  | null => exact absurd rfl hv
  | int64 | float64 | bytes => rfl

theorem compareValues_null_right (k : SortKey) {v : Value} (hv : v ≠ .null) :
    k.compareValues v .null = .ok (k.order v .null) := by
  rw [k.order_null_right hv]
  cases v with
  | null => exact absurd rfl hv
  | int64 | float64 | bytes => rfl

theorem order_int64 (k : SortKey) (a b : Int64) :
    k.order (.int64 a) (.int64 b) = k.directed (compare a.toInt b.toInt) :=
  (order_of_far_eq (a := .int64 a) (b := .int64 b) rfl).trans (congrArg k.directed Ordering.then_eq)

theorem order_float64 (k : SortKey) (a b : UInt64) :
    k.order (.float64 a) (.float64 b) = k.directed (compare (FloatBits.rank a) (FloatBits.rank b)) :=
  (order_of_far_eq (a := .float64 a) (b := .float64 b) rfl).trans (congrArg k.directed Ordering.then_eq)

theorem order_bytes (k : SortKey) (a b : List UInt8) : k.order (.bytes a) (.bytes b) = k.directed (compare a b) :=
  order_of_far_eq (a := .bytes a) (b := .bytes b) rfl

theorem compareValues_eq (k : SortKey) {type : ColumnType} {a b : Value} (ha : type.Accepts a) (hb : type.Accepts b) :
    k.compareValues a b = .ok (k.order a b) := by
  match type, a, b, ha, hb with
  | _, .null, .null, _, _ =>
    rw [k.order_null]
    rfl
  | _, .null, .int64 _, _, _ | _, .null, .float64 _, _, _ | _, .null, .bytes _, _, _ =>
    exact k.compareValues_null_left (by nofun)
  | _, .int64 _, .null, _, _ | _, .float64 _, .null, _, _ | _, .bytes _, .null, _, _ =>
    exact k.compareValues_null_right (by nofun)
  | .int64, .int64 a, .int64 b, _, _ =>
    rw [k.order_int64]
    rfl
  | .float64, .float64 a, .float64 b, _, _ =>
    rw [k.order_float64]
    rfl
  | .varLen, .bytes a, .bytes b, _, _ =>
    rw [k.order_bytes]
    rfl

end SortKey

def Row.value (row : Row) (column : Nat) : Value := row.values.getD column .null

def keysOrder : List SortKey → Row → Row → Ordering
  | [], _, _ => .eq
  | k :: ks, u, v => (k.order (u.value k.column) (v.value k.column)).then (keysOrder ks u v)

theorem keysOrder_preorders (keys : List SortKey) : Preorders (fun _ => True) (keysOrder keys) := by
  induction keys with
  | nil => exact ⟨fun _ _ => rfl, fun _ _ _ _ h => h⟩
  | cons k ks ih => exact (k.order_preorders.comap fun _ _ => trivial).lex ih

theorem Record.Reads.value {r : Record} {schema : List ColumnType} {row : Row} (h : r.Reads schema row) {column : Nat}
    (hc : column < schema.length) :
    r.value column = .ok (row.value column) ∧ schema[column].Accepts (row.value column) := by
  obtain ⟨v, hget, hread, haccepts⟩ := h.exists_value hc
  have hvalue : row.value column = v := by rw [Row.value, List.getD_eq_getElem?_getD, hget, Option.getD_some]
  rw [hvalue]
  exact ⟨hread, haccepts⟩

theorem Comparator.byKeys_orders {keys : List SortKey} {schema : List ColumnType}
    (h : ∀ k ∈ keys, k.column < schema.length) : (byKeys keys).Orders schema (keysOrder keys) where
  answers {a b u v} ha hb := by
    induction keys with
    | nil => rfl
    | cons k ks ih =>
      obtain ⟨hk, hks⟩ := List.forall_mem_cons.mp h
      obtain ⟨hau, hu⟩ := ha.value hk
      obtain ⟨hbv, hv⟩ := hb.value hk
      have hcompare : k.compareRecords a b = .ok (k.order (u.value k.column) (v.value k.column)) := by
        simp only [SortKey.compareRecords, hau, hbv, bind, Except.bind, k.compareValues_eq hu hv]
      simp only [byKeys, keysOrder, hcompare, bind, Except.bind, ih hks]
      cases k.order (u.value k.column) (v.value k.column) <;> rfl
  preorders := (keysOrder_preorders keys).comap fun _ _ => trivial

end ChunkSort
