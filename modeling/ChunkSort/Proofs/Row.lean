import ChunkSort.Chunk.Store
import ChunkSort.Proofs.Outcome

/-!
Rows by content: an identifier and the column values, wherever they are read from.
-/

namespace ChunkSort

structure Row where
  id : UInt64
  values : List Value
  deriving DecidableEq

def ColumnType.Accepts : ColumnType → Value → Prop
  | _, .null | .int64, .int64 _ | .float64, .float64 _ | .varLen, .bytes _ => True
  | _, _ => False

def Value.payloadLength : Value → Nat
  | .bytes payload => payload.length
  | _ => 0

def totalLength (lengths : List Nat) : Nat := lengths.foldr (· + ·) 0

@[simp] theorem totalLength_nil : totalLength [] = 0 := rfl

@[simp] theorem totalLength_cons (n : Nat) (lengths : List Nat) : totalLength (n :: lengths) = n + totalLength lengths := rfl

@[simp] theorem totalLength_append (xs ys : List Nat) : totalLength (xs ++ ys) = totalLength xs + totalLength ys := by
  induction xs with
  | nil => exact (Nat.zero_add _).symm
  | cons n xs ih => simp [ih, Nat.add_assoc]

theorem totalLength_le_of_sublist {xs ys : List Nat} (h : xs.Sublist ys) : totalLength xs ≤ totalLength ys := by
  induction h with
  | slnil => exact Nat.le_refl _
  | cons n _ ih => exact Nat.le_trans ih (Nat.le_add_left _ n)
  | cons_cons n _ ih => exact Nat.add_le_add_left ih n

namespace Row

def Fits (schema : List ColumnType) (row : Row) : Prop := List.Forall₂ ColumnType.Accepts schema row.values

def payloadLength (row : Row) : Nat := totalLength (row.values.map Value.payloadLength)

end Row

namespace SourceRow

def read (row : SourceRow) (columns : Nat) : Except DataError Row := do
  let id ← row.id
  return ⟨id, ← (List.range columns).mapM row.value⟩

def ReadsFrom (row : SourceRow) (column : Nat) (values : List Value) : Prop :=
  ∀ i v, values[i]? = some v → row.value (column + i) = .ok v

/-- The row can be read, and its content fits the schema. -/
structure Gives (source : SourceRow) (schema : List ColumnType) (row : Row) : Prop where
  id : source.id = .ok row.id
  fits : row.Fits schema
  values : source.ReadsFrom 0 row.values

theorem readsFrom_cons {row : SourceRow} {column : Nat} {v : Value} {vs : List Value} :
    row.ReadsFrom column (v :: vs) ↔ row.value column = .ok v ∧ row.ReadsFrom (column + 1) vs := by
  constructor
  · intro h
    refine ⟨h 0 v rfl, fun i w hw => ?_⟩
    rw [Nat.add_assoc, Nat.add_comm 1 i]
    exact h (i + 1) w hw
  · rintro ⟨hv, hvs⟩ i w hw
    cases i with
    | zero =>
      cases hw
      exact hv
    | succ i =>
      rw [← Nat.add_assoc, Nat.add_right_comm]
      exact hvs i w hw

theorem mapM_value_eq {row : SourceRow} {column : Nat} {values : List Value} (h : row.ReadsFrom column values) :
    (List.range' column values.length).mapM row.value = .ok values := by
  rw [mapM_eq_ok_iff]
  induction values generalizing column with
  | nil => exact .nil
  | cons v vs ih =>
    obtain ⟨hv, hvs⟩ := readsFrom_cons.mp h
    exact .cons hv (ih hvs)

theorem Gives.read {source : SourceRow} {schema : List ColumnType} {row : Row} (h : source.Gives schema row) :
    source.read schema.length = .ok row := by
  have hv := mapM_value_eq h.values
  rw [← h.fits.length_eq, ← List.range_eq_range'] at hv
  simp only [SourceRow.read, h.id, hv, bind, Except.bind, pure, Except.pure]

theorem Gives.unique {source : SourceRow} {schema : List ColumnType} {row row' : Row} (h : source.Gives schema row)
    (h' : source.Gives schema row') : row = row' := Except.ok.inj (h.read.symm.trans h'.read)

end SourceRow

theorem ColumnType.payloadLength_eq_ok_iff {column n : Nat} {type : ColumnType} {v : Value} :
    type.payloadLength column v = .ok n ↔ type.Accepts v ∧ n = v.payloadLength := by
  cases type <;> cases v <;>
    simp [ColumnType.payloadLength, ColumnType.Accepts, Value.payloadLength, eq_comm]

namespace SourceRow

theorem payloadSizeFrom_eq_ok_iff {row : SourceRow} {column n : Nat} {types : List ColumnType} :
    row.payloadSizeFrom column types = .ok n ↔ ∃ values, List.Forall₂ ColumnType.Accepts types values ∧
      row.ReadsFrom column values ∧ n = totalLength (values.map Value.payloadLength) := by
  induction types generalizing column n with
  | nil =>
    simp only [payloadSizeFrom, Except.ok.injEq, List.forall₂_nil_left_iff]
    constructor
    · rintro rfl
      exact ⟨[], rfl, fun i v h => by simp at h, rfl⟩
    · rintro ⟨_, rfl, _, rfl⟩
      rfl
  | cons type types ih =>
    constructor
    · intro h
      cases hv : row.value column with
      | error e => simp [payloadSizeFrom, hv, bind, Except.bind] at h
      | ok v =>
        cases hl : type.payloadLength column v with
        | error e => simp [payloadSizeFrom, hv, hl, bind, Except.bind] at h
        | ok l =>
          cases hr : row.payloadSizeFrom (column + 1) types with
          | error e => simp [payloadSizeFrom, hv, hl, hr, bind, Except.bind] at h
          | ok r =>
            simp only [payloadSizeFrom, hv, hl, hr, bind, Except.bind, pure, Except.pure, Except.ok.injEq] at h
            obtain ⟨ha, rfl⟩ := ColumnType.payloadLength_eq_ok_iff.mp hl
            obtain ⟨values, hf, hvs, rfl⟩ := ih.mp hr
            exact ⟨v :: values, .cons ha hf, readsFrom_cons.mpr ⟨hv, hvs⟩, h.symm⟩
    · rintro ⟨_, hf, hvs, rfl⟩
      cases hf with
      | @cons _ v _ values ha hf =>
        obtain ⟨hv, hvs⟩ := readsFrom_cons.mp hvs
        have hl : type.payloadLength column v = .ok v.payloadLength := ColumnType.payloadLength_eq_ok_iff.mpr ⟨ha, rfl⟩
        have hr := ih.mpr ⟨values, hf, hvs, rfl⟩
        simp only [payloadSizeFrom, hv, hl, hr, bind, Except.bind, pure, Except.pure, List.map_cons, totalLength_cons]

theorem exists_payloadSizeFrom_iff {row : SourceRow} {column : Nat} {types : List ColumnType} :
    (∃ n, row.payloadSizeFrom column types = .ok n) ↔
      ∀ i type, types[i]? = some type → ∃ v, row.value (column + i) = .ok v ∧ type.Accepts v := by
  simp only [payloadSizeFrom_eq_ok_iff]
  constructor
  · rintro ⟨_, values, hf, hvs, rfl⟩ i type hi
    obtain ⟨hlt, rfl⟩ := List.getElem?_eq_some_iff.mp hi
    have hlt' : i < values.length := hf.length_eq ▸ hlt
    exact ⟨values[i], hvs i _ (List.getElem?_eq_getElem hlt'), hf.get hlt hlt'⟩
  · intro h
    induction types generalizing column with
    | nil => exact ⟨_, [], .nil, nofun, rfl⟩
    | cons type types ih =>
      obtain ⟨v, hv, ha⟩ := h 0 type rfl
      obtain ⟨_, values, hf, hvs, _⟩ := ih fun i t hi => by
        rw [Nat.add_assoc, Nat.add_comm 1 i]
        exact h (i + 1) t hi
      exact ⟨_, v :: values, .cons ha hf, readsFrom_cons.mpr ⟨hv, hvs⟩, rfl⟩

theorem cause_of_payloadSizeFrom {row : SourceRow} {column : Nat} {types : List ColumnType} {cause : DataError}
    (h : row.payloadSizeFrom column types = .error cause) :
    (∃ i, row.value i = .error cause) ∨ ∃ i type found, cause = .typeMismatch i type found := by
  induction types generalizing column with
  | nil => cases h
  | cons type types ih =>
    unfold payloadSizeFrom at h
    cases hv : row.value column with
    | error cause' =>
      rw [hv] at h
      cases h
      exact .inl ⟨column, hv⟩
    | ok v =>
      rw [hv] at h
      change type.payloadLength column v >>= _ = _ at h
      cases hl : type.payloadLength column v with
      | error cause' =>
        rw [hl] at h
        cases h
        refine .inr ?_
        cases type <;> cases v <;> cases hl <;> exact ⟨_, _, _, rfl⟩
      | ok n =>
        rw [hl] at h
        cases hrest : row.payloadSizeFrom (column + 1) types with
        | error cause' =>
          simp only [hrest, bind, Except.bind, Except.error.injEq] at h
          exact ih (h ▸ hrest)
        | ok m =>
          simp only [hrest, bind, Except.bind, pure, Except.pure, reduceCtorEq] at h

theorem Gives.payloadSize {source : SourceRow} {schema : List ColumnType} {row : Row}
    (h : source.Gives schema row) : source.payloadSize schema = .ok row.payloadLength :=
  payloadSizeFrom_eq_ok_iff.mpr ⟨row.values, h.fits, h.values, rfl⟩

theorem exists_gives_of_payloadSize {source : SourceRow} {schema : List ColumnType} {id : UInt64} {n : Nat}
    (hid : source.id = .ok id) (h : source.payloadSize schema = .ok n) :
    ∃ row, source.Gives schema row ∧ row.id = id ∧ row.payloadLength = n := by
  obtain ⟨values, hf, hvs, rfl⟩ := payloadSizeFrom_eq_ok_iff.mp h
  exact ⟨⟨id, values⟩, ⟨hid, hf, hvs⟩, rfl, rfl⟩

end SourceRow

def readAll (schema : List ColumnType) (sources : List SourceRow) : Except DataError (List Row) :=
  sources.mapM (·.read schema.length)

theorem readAll_eq {schema : List ColumnType} {sources : List SourceRow} {rows : List Row}
    (h : List.Forall₂ (fun r row => SourceRow.Gives r schema row) sources rows) :
    readAll schema sources = .ok rows :=
  mapM_eq_ok_iff.mpr (h.imp fun _ _ hg => hg.read)

end ChunkSort
