import ChunkSort.Proofs.Chunk.WellFormed

/-!
Rows that were checked can always be copied into free slots. The copy goes column by column while the check
counts row by row, so the room is accounted for by what is left of each row.
-/

namespace ChunkSort

section Overwrite

variable {α : Type} {slots t : Array α} {start : Nat} {vs : List α}

theorem exists_overwrite (h : start + vs.length ≤ slots.size) : ∃ t, overwrite slots start vs = .ok t := by
  induction vs generalizing slots start with
  | nil => exact ⟨slots, rfl⟩
  | cons v vs ih =>
    rw [List.length_cons] at h
    rw [overwrite, dif_pos (by omega)]
    exact ih (by rw [Array.size_set]; omega)

theorem overwrite_cons_eq_ok {v : α} (h : overwrite slots start (v :: vs) = .ok t) :
    ∃ hlt : start < slots.size, overwrite (slots.set start v hlt) (start + 1) vs = .ok t := by
  unfold overwrite at h
  split at h
  next hlt => exact ⟨hlt, h⟩
  next => cases h

theorem size_of_overwrite (h : overwrite slots start vs = .ok t) : t.size = slots.size := by
  induction vs generalizing slots start with
  | nil =>
    cases h
    rfl
  | cons v vs ih =>
    obtain ⟨hlt, h⟩ := overwrite_cons_eq_ok h
    exact (ih h).trans (Array.size_set ..)

theorem toList_of_overwrite (h : overwrite slots start vs = .ok t) :
    t.toList = slots.toList.take start ++ vs ++ slots.toList.drop (start + vs.length) := by
  induction vs generalizing slots start with
  | nil =>
    cases h
    simp
  | cons v vs ih =>
    obtain ⟨hlt, h⟩ := overwrite_cons_eq_ok h
    rw [ih h, Array.toList_set, List.take_add_one, List.take_set_of_le (Nat.le_refl _), List.getElem?_set_self hlt,
      List.drop_set_of_lt (by omega), List.length_cons, show start + 1 + vs.length = start + (vs.length + 1) by omega]
    simp

theorem getElem?_overwrite_below {i : Nat} (h : overwrite slots start vs = .ok t) (hi : i < start) :
    t[i]? = slots[i]? := by
  induction vs generalizing slots start with
  | nil =>
    cases h
    rfl
  | cons v vs ih =>
    obtain ⟨hlt, h⟩ := overwrite_cons_eq_ok h
    rw [ih h (Nat.lt_succ_of_lt hi), Array.getElem?_set_ne hlt (Nat.ne_of_gt hi)]

theorem getElem?_overwrite_added {i : Nat} (h : overwrite slots start vs = .ok t) (hi : i < vs.length) :
    t[start + i]? = vs[i]? := by
  induction vs generalizing slots start i with
  | nil => cases hi
  | cons v vs ih =>
    obtain ⟨hlt, h⟩ := overwrite_cons_eq_ok h
    cases i with
    | zero =>
      rw [Nat.add_zero, getElem?_overwrite_below h (Nat.lt_succ_self _), Array.getElem?_set_self]
      rfl
    | succ i =>
      rw [← Nat.add_assoc, Nat.add_right_comm, ih h (Nat.lt_of_succ_lt_succ hi), List.getElem?_cons_succ]

end Overwrite

namespace Column

theorem write_eq_ok_iff {c c' : Column} {column slot : Nat} {side side' : SideBuffer} {v : Value} :
    c.write column slot side v = .ok (c', side') ↔ ∃ (hlt : slot < c.cells.size) (cell : Option c.type.Cell),
      c.type.encode column side v = .ok (cell, side') ∧ c' = { c with cells := c.cells.set slot cell hlt } := by
  unfold write
  split
  next hlt =>
    rw [except_bind_eq_ok]
    constructor
    · rintro ⟨⟨cell, side₁⟩, he, h⟩
      cases h
      exact ⟨hlt, cell, he, rfl⟩
    · rintro ⟨_, cell, he, rfl⟩
      exact ⟨(cell, side'), he, rfl⟩
  next hge =>
    constructor
    · intro h
      cases h
    · rintro ⟨hlt, -⟩
      exact absurd hlt hge

theorem fill_grows {column slot : Nat} {c c' : Column} {side side' : SideBuffer} {rows : List SourceRow}
    (h : fill column slot c side rows = .ok (c', side')) :
    ∃ values, List.Forall₂ (fun (r : SourceRow) v => r.value column = .ok v) rows values ∧
      side.Grows (totalLength (values.map Value.payloadLength)) side' ∧ Rewritten slot rows.length c c' ∧
      ∀ i v, values[i]? = some v → c'.Shows side' (slot + i) v := by
  induction rows generalizing c side slot with
  | nil =>
    cases h
    exact ⟨[], .nil, .refl _, ⟨_, rfl, rfl, fun _ _ => rfl⟩, fun i v hi => by simp at hi⟩
  | cons row rows ih =>
    obtain ⟨v, hv, h⟩ := except_bind_eq_ok.mp h
    obtain ⟨⟨c₁, side₁⟩, hwrite, h⟩ := except_bind_eq_ok.mp h
    obtain ⟨hlt, cell, he, rfl⟩ := write_eq_ok_iff.mp hwrite
    obtain ⟨hg, hd⟩ := ColumnType.encode_grows he
    obtain ⟨values, hvs, hg', ⟨⟨cells', rfl, hs, heq⟩⟩, hshow⟩ := ih h
    rw [Array.size_set] at hs
    refine ⟨v :: values, .cons hv hvs, hg.trans hg', ⟨cells', rfl, hs, ?_⟩, ?_⟩
    · intro k hk
      rw [List.length_cons] at hk
      rw [heq k (by omega), Array.getElem?_set_ne hlt (by omega)]
    · intro i w hw
      cases i with
      | zero =>
        cases hw
        refine ⟨cell, ?_, ColumnType.decode_grows hg' hd⟩
        rw [Nat.add_zero, heq slot (by omega), Array.getElem?_set_self]
      | succ i =>
        rw [← Nat.add_assoc, Nat.add_right_comm]
        exact hshow i w hw

theorem exists_fill {type : ColumnType} (cells : Array (Option type.Cell)) {side : SideBuffer} {column : Nat} (slot : Nat)
    {rows : List SourceRow} {values : List Value}
    (hv : List.Forall₂ (fun (r : SourceRow) v => r.value column = .ok v ∧ type.Accepts v) rows values)
    (hb : slot + values.length ≤ cells.size) (ht : side.Takes (totalLength (values.map Value.payloadLength))) :
    ∃ c' side', fill column slot ⟨type, cells⟩ side rows = .ok (c', side') := by
  induction hv generalizing cells side slot with
  | nil => exact ⟨_, side, rfl⟩
  | @cons row v rows values hrow _ ih =>
    obtain ⟨hread, hacc⟩ := hrow
    rw [List.map_cons, totalLength_cons] at ht
    rw [List.length_cons] at hb
    have hlt : slot < cells.size := by omega
    obtain ⟨cell, side₁, he⟩ := ColumnType.encode_of_accepts hacc (ht.mono (Nat.le_add_right _ _)) column
    obtain ⟨hg, _⟩ := ColumnType.encode_grows he
    obtain ⟨c', side', hf⟩ := ih (cells.set slot cell hlt) (slot + 1) (by rw [Array.size_set]; omega) (hg.takes ht)
    have hwrite := (write_eq_ok_iff (c := ⟨type, cells⟩)).mpr ⟨hlt, cell, he, rfl⟩
    exact ⟨c', side', except_bind_eq_ok.mpr ⟨v, hread, except_bind_eq_ok.mpr ⟨_, hwrite, hf⟩⟩⟩

theorem fill_spec {type : ColumnType} (cells : Array (Option type.Cell)) {side : SideBuffer} {column : Nat} (slot : Nat)
    {rows : List SourceRow} {values : List Value}
    (hv : List.Forall₂ (fun (r : SourceRow) v => r.value column = .ok v ∧ type.Accepts v) rows values)
    (hb : slot + values.length ≤ cells.size) (ht : side.Takes (totalLength (values.map Value.payloadLength))) :
    ∃ c' side', Column.fill column slot ⟨type, cells⟩ side rows = .ok (c', side') ∧
      side.Grows (totalLength (values.map Value.payloadLength)) side' ∧ Rewritten slot values.length ⟨type, cells⟩ c' ∧
      ∀ i v, values[i]? = some v → c'.Shows side' (slot + i) v := by
  obtain ⟨c', side', hf⟩ := exists_fill cells slot hv hb ht
  obtain ⟨values', hvs, hg, hw, hshow⟩ := fill_grows hf
  have hunique : Relator.RightUnique fun (r : SourceRow) v => r.value column = Except.ok v :=
    fun _ _ _ h h' => Except.ok.inj (h.symm.trans h')
  obtain rfl : values' = values := List.right_unique_forall₂' hunique hvs (hv.imp fun _ _ h => h.1)
  rw [hv.length_eq] at hw
  exact ⟨c', side', hf, hg, hw, hshow⟩

end Column

namespace ColumnStore

def restLength (contents : List Row) (column : Nat) : Nat :=
  totalLength (contents.map fun row => totalLength ((row.values.drop column).map Value.payloadLength))

/-- A source whose columns from `column` on hold the values of a row, and fit the columns. -/
def Supplies (cs : List Column) (column : Nat) (r : SourceRow) (row : Row) : Prop :=
  r.ReadsFrom column (row.values.drop column) ∧
    List.Forall₂ ColumnType.Accepts (cs.map Column.type) (row.values.drop column)

theorem Supplies.head {c : Column} {cs : List Column} {column : Nat} {r : SourceRow} {row : Row}
    (h : Supplies (c :: cs) column r row) :
    ∃ v, row.values.drop column = v :: row.values.drop (column + 1) ∧ row.values.getD column .null = v ∧
      r.value column = .ok v ∧ c.type.Accepts v ∧ Supplies cs (column + 1) r row := by
  obtain ⟨hr, ha⟩ := h
  rw [List.map_cons] at ha
  obtain ⟨v, vs, hv, hvs, he⟩ := List.forall₂_cons_left_iff.mp ha
  have hrest : row.values.drop (column + 1) = vs := by
    rw [← List.drop_drop, he, List.drop_one, List.tail_cons]
  rw [he] at hr
  obtain ⟨hhead, htail⟩ := SourceRow.readsFrom_cons.mp hr
  have hget : row.values.getD column .null = v := by
    have := congrArg (·[0]?) he
    rw [List.getElem?_drop, Nat.add_zero] at this
    rw [List.getD_eq_getElem?_getD, this]
    rfl
  exact ⟨v, by rw [hrest, he], hget, hhead, hv, ⟨hrest ▸ htail, hrest ▸ hvs⟩⟩

theorem Supplies.restLength_eq {c : Column} {cs : List Column} {column : Nat} {rows : List SourceRow}
    {contents : List Row} (h : List.Forall₂ (Supplies (c :: cs) column) rows contents) :
    restLength contents column = totalLength ((contents.map (·.values.getD column .null)).map Value.payloadLength) +
      restLength contents (column + 1) := by
  induction h with
  | nil => rfl
  | @cons _ row _ _ hr _ ih =>
    obtain ⟨v, he, hg, _, _, _⟩ := hr.head
    simp only [restLength, List.map_cons, totalLength_cons, he, hg] at ih ⊢
    omega

theorem Supplies.done {column : Nat} {rows : List SourceRow} {contents : List Row}
    (h : List.Forall₂ (Supplies [] column) rows contents) :
    restLength contents column = 0 ∧ ∀ row ∈ contents, row.values.drop column = [] := by
  induction h with
  | nil => exact ⟨rfl, fun _ hm => absurd hm List.not_mem_nil⟩
  | cons hr _ ih =>
    have hd := List.forall₂_nil_left_iff.mp hr.2
    constructor
    · simp only [restLength, List.map_cons, totalLength_cons, hd, List.map_nil, totalLength_nil, Nat.zero_add] at ih ⊢
      exact ih.1
    · exact List.forall_mem_cons.mpr ⟨hd, ih.2⟩

theorem fillColumns_spec {start : Nat} (column : Nat) {side : SideBuffer} {cs : List Column} {rows : List SourceRow}
    {contents : List Row} (hr : List.Forall₂ (Supplies cs column) rows contents)
    (hb : ∀ c ∈ cs, start + contents.length ≤ c.cells.size) (ht : side.Takes (restLength contents column)) :
    ∃ cs' side', fillColumns rows start column side cs = .ok (cs', side') ∧
      side.Grows (restLength contents column) side' ∧
      List.Forall₂ (Column.Rewritten start contents.length) cs cs' ∧
      ∀ i row, contents[i]? = some row →
        List.Forall₂ (fun (c : Column) v => c.Shows side' (start + i) v) cs' (row.values.drop column) := by
  induction cs generalizing column side with
  | nil =>
    obtain ⟨hz, hd⟩ := Supplies.done hr
    refine ⟨[], side, rfl, hz ▸ .refl side, .nil, fun i row hi => ?_⟩
    rw [hd row (List.mem_of_getElem? hi)]
    exact .nil
  | cons c cs ih =>
    have hsum := Supplies.restLength_eq hr
    have hheads : List.Forall₂ (fun (r : SourceRow) v => r.value column = .ok v ∧ c.type.Accepts v) rows
        (contents.map (·.values.getD column .null)) := by
      rw [List.forall₂_map_right_iff]
      refine hr.imp fun r row h => ?_
      obtain ⟨v, _, hg, hv, ha, _⟩ := h.head
      exact hg.symm ▸ ⟨hv, ha⟩
    have htails : List.Forall₂ (Supplies cs (column + 1)) rows contents := hr.imp fun r row h => by
      obtain ⟨_, _, _, _, _, ht⟩ := h.head
      exact ht
    -- Payloads of the later columns come behind those of this one, so its references still resolve.
    obtain ⟨c', side₁, hf, hg₁, hw, hshow⟩ := Column.fill_spec c.cells start hheads
      (by rw [List.length_map]; exact hb c (List.mem_cons_self ..)) (ht.mono (hsum ▸ Nat.le_add_right _ _))
    obtain ⟨cs', side', hfs, hg₂, hws, hshows⟩ := ih (column + 1) htails (fun d hd => hb d (List.mem_cons_of_mem _ hd))
      (hg₁.takes (hsum ▸ ht))
    rw [List.length_map] at hw
    refine ⟨c' :: cs', side', ?_, hsum ▸ hg₁.trans hg₂, .cons hw hws, fun i row hi => ?_⟩
    · simp only [fillColumns, hf, hfs, bind, Except.bind, pure, Except.pure]
    · obtain ⟨r, _, hsup⟩ := exists_left_of_forall₂ hr (List.mem_of_getElem? hi)
      obtain ⟨v, he, hv, _, _, _⟩ := hsup.head
      rw [he]
      refine .cons ?_ (hshows i row hi)
      have hval : (contents.map (·.values.getD column .null))[i]? = some v := by
        rw [List.getElem?_map, hi, Option.map_some, hv]
      exact (hshow i v hval).grows hg₂

theorem fillColumns_grows {rows : List SourceRow} {start column : Nat} {side side' : SideBuffer} {cs cs' : List Column}
    (h : fillColumns rows start column side cs = .ok (cs', side')) :
    (∃ n, side.Grows n side') ∧ List.Forall₂ (Column.Rewritten start rows.length) cs cs' ∧
      ∀ i row, rows[i]? = some row → ∃ values,
        List.Forall₂ (fun (c : Column) v => c.Shows side' (start + i) v) cs' values ∧ row.ReadsFrom column values := by
  induction cs generalizing column side cs' with
  | nil =>
    cases h
    exact ⟨⟨0, .refl _⟩, .nil, fun _ _ _ => ⟨[], .nil, fun _ _ h => by simp at h⟩⟩
  | cons c cs ih =>
    obtain ⟨⟨c₁, side₁⟩, hf, h⟩ := except_bind_eq_ok.mp h
    obtain ⟨⟨cs₁, side₂⟩, hfs, h⟩ := except_bind_eq_ok.mp h
    cases h
    obtain ⟨vs, hvs, hg, hw, hshow⟩ := Column.fill_grows hf
    obtain ⟨⟨n, hg'⟩, hws, hshows⟩ := ih hfs
    refine ⟨⟨_, hg.trans hg'⟩, .cons hw hws, fun i row hi => ?_⟩
    obtain ⟨values, hvalues, hread⟩ := hshows i row hi
    obtain ⟨hlt, rfl⟩ := List.getElem?_eq_some_iff.mp hi
    have hlt' : i < vs.length := hvs.length_eq ▸ hlt
    have hhere := hshow i vs[i] (List.getElem?_eq_getElem hlt')
    exact ⟨vs[i] :: values, .cons (hhere.grows hg') hvalues,
      SourceRow.readsFrom_cons.mpr ⟨hvs.get hlt hlt', hread⟩⟩

theorem fill_grows {s s' : ColumnStore} {side side' : SideBuffer} {start : Nat} {rows : List SourceRow}
    (h : s.fill side start rows = .ok (s', side')) :
    (∃ n, side.Grows n side') ∧ List.Forall₂ (Column.Rewritten start rows.length) s.columns s'.columns ∧
      (∃ ids, List.Forall₂ (fun (r : SourceRow) id => r.id = .ok id) rows ids ∧
        overwrite s.ids start ids = .ok s'.ids) ∧
      ∀ i row, rows[i]? = some row → ∃ values,
        List.Forall₂ (fun (c : Column) v => c.Shows side' (start + i) v) s'.columns values ∧ row.ReadsFrom 0 values := by
  obtain ⟨⟨columns, side₁⟩, hf, h⟩ := except_bind_eq_ok.mp h
  obtain ⟨ids, hi, h⟩ := except_bind_eq_ok.mp h
  obtain ⟨ids', hids, h⟩ := except_bind_eq_ok.mp h
  cases h
  obtain ⟨hg, hw, hshows⟩ := fillColumns_grows hf
  exact ⟨hg, hw, ⟨ids, mapM_eq_ok_iff.mp hi, hids⟩, hshows⟩

theorem schema_of_rewritten {s s' : ColumnStore} {start n : Nat}
    (h : List.Forall₂ (Column.Rewritten start n) s.columns s'.columns) : s'.schema = s.schema := by
  rw [schema, schema, ← List.forall₂_eq_eq_eq, List.forall₂_map_left_iff, List.forall₂_map_right_iff]
  exact h.flip.imp fun c' c hw => hw.type_eq

/-- The rows stand in the slots from `start` on, and nothing else was written. -/
structure Filled (s : ColumnStore) (start : Nat) (contents : List Row) (s' : ColumnStore) (side' : SideBuffer) :
    Prop where
  ids : overwrite s.ids start (contents.map Row.id) = .ok s'.ids
  columns : List.Forall₂ (Column.Rewritten start contents.length) s.columns s'.columns
  shows : ∀ i row, contents[i]? = some row →
    List.Forall₂ (fun (c : Column) v => c.Shows side' (start + i) v) s'.columns row.values

theorem fill_spec {s : ColumnStore} {side : SideBuffer} (start : Nat) {rows : List SourceRow} {contents : List Row}
    (hr : List.Forall₂ (fun r row => SourceRow.Gives r s.schema row) rows contents)
    (hb : ∀ c ∈ s.columns, start + contents.length ≤ c.cells.size) (hi : start + contents.length ≤ s.ids.size)
    (ht : side.Takes (totalLength (contents.map Row.payloadLength))) :
    ∃ s' side', s.fill side start rows = .ok (s', side') ∧
      side.Grows (totalLength (contents.map Row.payloadLength)) side' ∧ s.Filled start contents s' side' := by
  obtain ⟨cs', side', hf, hg, hw, hs⟩ := fillColumns_spec 0 (hr.imp fun r row h => ⟨h.values, h.fits⟩) hb ht
  have hids : rows.mapM SourceRow.id = .ok (contents.map Row.id) := by
    rw [mapM_eq_ok_iff, List.forall₂_map_right_iff]
    exact hr.imp fun r row h => h.id
  have hlength : start + (contents.map Row.id).length ≤ s.ids.size := by rwa [List.length_map]
  obtain ⟨ids, hw'⟩ := exists_overwrite hlength
  refine ⟨⟨cs', ids⟩, side', ?_, hg, hw', hw, hs⟩
  simp only [fill, hf, hids, hw', bind, Except.bind, pure, Except.pure]

namespace Filled

variable {s s' : ColumnStore} {side side' : SideBuffer} {start n : Nat} {contents : List Row}
  (h : s.Filled start contents s' side')
include h

theorem schema_eq : s'.schema = s.schema := schema_of_rewritten h.columns

theorem rowAt_below {slot : Nat} (hs : slot < start) (hg : side.Grows n side')
    (hshow : ∀ c ∈ s.columns, c.Shows side slot (c.valueAt side slot)) :
    s'.rowAt side' slot = s.rowAt side slot := by
  have hid : s'.ids[slot]? = s.ids[slot]? := getElem?_overwrite_below h.ids hs
  have hvalues : s'.columns.map (·.valueAt side' slot) = s.columns.map (·.valueAt side slot) := by
    rw [eq_comm, ← List.forall₂_eq_eq_eq, List.forall₂_map_left_iff, List.forall₂_map_right_iff]
    refine ((List.forall₂_and_left _ _).mpr ⟨hshow, h.columns⟩).imp fun c c' ⟨hv, hw⟩ => ?_
    exact (((hw.shows_iff (.inl hs)).mpr hv).grows hg).valueAt_eq.symm
  rw [rowAt, rowAt, hid, hvalues]

theorem rowAt_added {i : Nat} {row : Row} (hi : contents[i]? = some row) : s'.rowAt side' (start + i) = row := by
  have hid : s'.ids[start + i]? = some row.id := by
    obtain ⟨hlt, _⟩ := List.getElem?_eq_some_iff.mp hi
    have hlen : (contents.map Row.id).length = contents.length := List.length_map _
    rw [getElem?_overwrite_added h.ids (hlen.symm ▸ hlt), List.getElem?_map, hi, Option.map_some]
  have hvalues : s'.columns.map (·.valueAt side' (start + i)) = row.values := by
    rw [← List.map_id row.values, ← List.forall₂_eq_eq_eq, List.forall₂_map_left_iff, List.forall₂_map_right_iff]
    exact (h.shows i row hi).imp fun c v hv => hv.valueAt_eq
  rw [rowAt, hid, hvalues, Option.getD_some]

end Filled
end ColumnStore

namespace Chunk

/-- `c'` is `c` with the rows behind its own, in the slots as well as in the index. -/
structure Appended (c : Chunk) (contents : List Row) (c' : Chunk) : Prop where
  wellFormed : c'.WellFormed
  id : c'.id = c.id
  schema : c'.schema = c.schema
  capacity : c'.capacity = c.capacity
  rows : c'.rows = c.rows + contents.length
  side : c.side.Grows (totalLength (contents.map Row.payloadLength)) c'.side
  entries : c'.entries = c.entries ++ (List.range' c.rows contents.length).map UInt32.ofNat
  rowAt_below : ∀ slot < c.rows, c'.rowAt slot = c.rowAt slot
  rowAt_added : ∀ i row, contents[i]? = some row → c'.rowAt (c.rows + i) = row

theorem Appended.withStatus {c c' : Chunk} {contents : List Row} (h : c.Appended contents c') (status : Status) :
    c.Appended contents (c'.withStatus status) :=
  { h with wellFormed := h.wellFormed.withStatus status }

theorem Appended.shape {c c' : Chunk} {contents : List Row} (h : c.Appended contents c') : c'.shape = c.shape := by
  rw [Chunk.shape, h.schema, h.capacity, h.side.limit, Chunk.shape]

theorem Appended.added {c c' : Chunk} {contents : List Row} (h : c.Appended contents c') :
    (List.range' c.rows contents.length).map c'.rowAt = contents := by
  apply List.ext_getElem?
  intro i
  rw [List.getElem?_map]
  cases hi : contents[i]? with
  | none =>
    have hle := List.getElem?_eq_none_iff.mp hi
    rw [List.getElem?_eq_none (by rwa [List.length_range']), Option.map_none]
  | some row =>
    obtain ⟨hlt, _⟩ := List.getElem?_eq_some_iff.mp hi
    rw [List.getElem?_range' hlt, Option.map_some, Nat.one_mul, h.rowAt_added i row hi]

theorem Appended.slotRows {c c' : Chunk} {contents : List Row} (h : c.Appended contents c') :
    c'.slotRows = c.slotRows ++ contents := by
  rw [Chunk.slotRows, h.rows, List.range_eq_range', ← List.range'_append_1, List.map_append, Nat.zero_add, h.added,
    ← List.range_eq_range']
  congr 1
  exact List.map_congr_left fun slot hs => h.rowAt_below slot (List.mem_range.mp hs)

theorem Appended.sortedRows {c c' : Chunk} {contents : List Row} (h : c.Appended contents c') (hc : c.WellFormed) :
    c'.sortedRows = c.sortedRows ++ contents := by
  rw [Chunk.sortedRows, h.entries, List.map_append, List.map_map]
  congr 1
  · apply List.map_congr_left
    intro e he
    exact h.rowAt_below _ (hc.lt_of_mem_entries he)
  · conv_rhs => rw [← h.added]
    apply List.map_congr_left
    intro slot hs
    have hlt := (List.mem_range'_1.mp hs).2
    rw [Function.comp_apply, toNat_ofNat_of_lt (Nat.lt_of_lt_of_le (h.rows ▸ hlt) h.wellFormed.rows_le_max)]

def extended (c : Chunk) (n : Nat) (store : ColumnStore) (side : SideBuffer) (index : Array UInt32) : Chunk :=
  { c with store, side, index, rows := c.rows + n }

theorem append_eq_bind (c : Chunk) (rows : List SourceRow) : c.append rows = do
    let (store, side) ← c.store.fill c.side c.rows (rows.take c.freeRows)
    let index ← overwrite c.index c.rows ((List.range' c.rows (rows.take c.freeRows).length).map UInt32.ofNat)
    return c.extended (rows.take c.freeRows).length store side index := by
  have htake : rows.take (min rows.length c.freeRows) = rows.take c.freeRows := by
    rw [Nat.min_comm, ← List.take_eq_take_min]
  have hlength : (rows.take c.freeRows).length = min rows.length c.freeRows := by rw [List.length_take, Nat.min_comm]
  simp only [append, reserve, fill, Nat.add_sub_cancel_left, htake, extended, hlength]

theorem append_eq_ok_iff {c c' : Chunk} {rows : List SourceRow} :
    c.append rows = .ok c' ↔ ∃ store side index, c.store.fill c.side c.rows (rows.take c.freeRows) = .ok (store, side) ∧
      overwrite c.index c.rows ((List.range' c.rows (rows.take c.freeRows).length).map UInt32.ofNat) = .ok index ∧
      c.extended (rows.take c.freeRows).length store side index = c' := by
  rw [append_eq_bind, except_bind_eq_ok]
  constructor
  · rintro ⟨⟨store, side⟩, hf, h⟩
    obtain ⟨index, hi, h⟩ := except_bind_eq_ok.mp h
    exact ⟨store, side, index, hf, hi, Except.ok.inj h⟩
  · rintro ⟨store, side, index, hf, hi, rfl⟩
    exact ⟨(store, side), hf, except_bind_eq_ok.mpr ⟨index, hi, rfl⟩⟩

section Extended

variable {c : Chunk} {contents : List Row} {n : Nat} {store : ColumnStore} {side : SideBuffer} {index : Array UInt32}
  (hc : c.WellFormed) (hfree : contents.length ≤ c.freeRows)
  (hi : overwrite c.index c.rows ((List.range' c.rows contents.length).map UInt32.ofNat) = .ok index)
include hi

theorem toList_index_extended : (c.extended contents.length store side index).index.toList = c.entries ++
      (List.range' c.rows contents.length).map UInt32.ofNat ++ c.index.toList.drop (c.rows + contents.length) := by
  rw [extended, toList_of_overwrite hi, List.length_map, List.length_range', entries]

include hc

theorem entries_extended : (c.extended contents.length store side index).entries =
    c.entries ++ (List.range' c.rows contents.length).map UInt32.ofNat := by
  rw [entries, toList_index_extended hi]
  apply List.take_left'
  rw [List.length_append, hc.length_entries, List.length_map, List.length_range']
  rfl

include hfree

theorem WellFormed.extended (hs : c.store.Filled c.rows contents store side) (hg : c.side.Grows n side)
    (ht : c.side.Takes n) : (c.extended contents.length store side index).WellFormed where
  capacity_le := hc.capacity_le
  rows_le := by
    have := hc.rows_le
    rw [freeRows] at hfree
    simp only [Chunk.extended]
    omega
  index_size := (size_of_overwrite hi).trans hc.index_size
  index_perm := by
    change ((c.extended contents.length store side index).entries).Perm _
    rw [entries_extended hc hi, List.range_eq_range', Chunk.extended, ← List.range'_append_1, List.map_append,
      Nat.zero_add, ← List.range_eq_range']
    exact hc.index_perm.append_right _
  index_padding e he := by
    rw [toList_index_extended hi, List.drop_left' (by
      rw [List.length_append, hc.length_entries, List.length_map, List.length_range']
      rfl)] at he
    rw [← List.drop_drop] at he
    exact hc.index_padding e (List.mem_of_mem_drop he)
  side_le limit hl := by
    change side.used ≤ limit
    rw [hg.used]
    exact ht limit (hg.limit ▸ hl)
  ids_size := (size_of_overwrite hs.ids).trans hc.ids_size
  cells_size column' hcol := by
    obtain ⟨column, hmem, hw⟩ := exists_left_of_forall₂ hs.columns hcol
    exact hw.size_eq.trans (hc.cells_size column hmem)
  resolves column' hcol slot hslot ref href := by
    by_cases hlt : slot < c.rows
    · obtain ⟨column, hmem, hw⟩ := exists_left_of_forall₂ hs.columns hcol
      rw [hw.ref?_eq (.inl hlt)] at href
      exact Nat.le_trans (hc.resolves column hmem slot hlt ref href) (hg.used ▸ Nat.le_add_right _ _)
    · simp only [Chunk.extended] at hslot
      obtain ⟨i, rfl⟩ := Nat.exists_eq_add_of_le (Nat.le_of_not_lt hlt)
      have hlt' : i < contents.length := by omega
      obtain ⟨v, _, hv⟩ := exists_right_of_forall₂ (hs.shows i _ (List.getElem?_eq_getElem hlt')) hcol
      exact hv.resolves ref href

theorem appended_extended (hs : c.store.Filled c.rows contents store side)
    (hg : c.side.Grows (totalLength (contents.map Row.payloadLength)) side)
    (ht : c.side.Takes (totalLength (contents.map Row.payloadLength))) :
    c.Appended contents (c.extended contents.length store side index) where
  wellFormed := hc.extended hfree hi hs hg ht
  id := rfl
  schema := hs.schema_eq
  capacity := rfl
  rows := rfl
  side := hg
  entries := entries_extended hc hi
  rowAt_below _ hslot := hs.rowAt_below hslot hg fun _ hcol => hc.shows hcol hslot
  rowAt_added _ _ := hs.rowAt_added

end Extended

theorem append_spec {c : Chunk} (hc : c.WellFormed) {rows : List SourceRow} {contents : List Row}
    (hr : List.Forall₂ (fun r row => SourceRow.Gives r c.schema row) rows contents)
    (hfree : contents.length ≤ c.freeRows) (ht : c.side.Takes (totalLength (contents.map Row.payloadLength))) :
    ∃ c', c.append rows = .ok c' ∧ c.Appended contents c' := by
  have hslots : c.rows + contents.length ≤ c.capacity := by
    have := hc.rows_le
    rw [freeRows] at hfree
    omega
  obtain ⟨store, side, hf, hg, hs⟩ := ColumnStore.fill_spec c.rows hr
    (fun column hcol => (hc.cells_size column hcol).symm ▸ hslots) (hc.ids_size.symm ▸ hslots) ht
  have hindex : c.rows + ((List.range' c.rows contents.length).map UInt32.ofNat).length ≤ c.index.size := by
    rw [List.length_map, List.length_range', hc.index_size]
    exact Nat.le_trans hslots (le_paddedSize c.capacity)
  obtain ⟨index, hi⟩ := exists_overwrite hindex
  have hall : rows.take c.freeRows = rows := List.take_of_length_le (hr.length_eq ▸ hfree)
  refine ⟨c.extended contents.length store side index, ?_, appended_extended hc hfree hi hs hg ht⟩
  rw [append_eq_ok_iff, hall, hr.length_eq]
  exact ⟨store, side, index, hf, hi, rfl⟩

/-! ### The first row -/

theorem first?_eq (c : Chunk) : c.first? = c.sortedRecords.head? := by
  rw [sortedRecords_eq, List.head?_map, entries, List.head?_take, first?, isEmpty]
  by_cases hr : c.rows = 0
  · simp only [hr, decide_true, if_true, Option.map_none]
  · simp only [hr, decide_false, Bool.false_eq_true, if_false, List.head?_eq_getElem?, Array.getElem?_toList]

theorem exists_first {c : Chunk} (hc : c.WellFormed) (hr : 0 < c.rows) :
    ∃ slot < c.rows, c.first? = some (c.recordAt slot) ∧ c.sortedRows.head? = some (c.rowAt slot) := by
  have hlen := hc.length_entries
  cases he : c.entries with
  | nil =>
    rw [he] at hlen
    exact absurd hlen (Nat.ne_of_lt hr)
  | cons e es =>
    refine ⟨e.toNat, hc.lt_of_mem_entries (he ▸ List.mem_cons_self ..), ?_, ?_⟩
    · rw [first?_eq, sortedRecords_eq, he]
      rfl
    · rw [sortedRows, he]
      rfl

theorem head_spec {c : Chunk} (hc : c.WellFormed) (next : Nat) :
    (c.rows = 0 ∧ c.head next = (.ok none, next)) ∨
      ∃ h row, c.head next = (.ok (some h), next + 1) ∧ c.sortedRows.head? = some row ∧
        (empty next c.schema 1 none).Appended [row] h := by
  rcases Nat.eq_zero_or_pos c.rows with hz | hr
  · refine .inl ⟨hz, ?_⟩
    rw [head, first?, isEmpty, decide_eq_true hz]
    rfl
  · obtain ⟨slot, hs, hf, hrow⟩ := exists_first hc hr
    have hsingle : (empty next c.schema 1 none).WellFormed := wellFormed_empty next c.schema (by decide) none
    have hgives : List.Forall₂ (fun r row => SourceRow.Gives r (empty next c.schema 1 none).schema row)
        [(c.recordAt slot).toSource] [c.rowAt slot] := by
      simpa using hc.gives hs
    obtain ⟨h, ha, happ⟩ := append_spec hsingle hgives (Nat.le_refl 1) (fun limit hl => nomatch hl)
    refine .inr ⟨h, c.rowAt slot, ?_, hrow, happ⟩
    rw [head, hf]
    simp only [single]
    change (Except.map some ((empty next c.schema 1 none).append [(c.recordAt slot).toSource]), next + 1) = _
    rw [ha]
    rfl

end Chunk
end ChunkSort
