import ChunkSort.Proofs.Sorter.Correctness

/-!
What a job does not see: the cells of rows that take no part, and those of batch columns that feed no chunk column.
-/

namespace ChunkSort

/-! ### Rows that are copied -/

structure SourceRow.Matches (columns : Nat) (row row' : SourceRow) : Prop where
  id : row'.id = row.id
  value : ∀ column < columns, row'.value column = row.value column

theorem SourceRow.payloadSizeFrom_congr {row row' : SourceRow} {column : Nat} {types : List ColumnType}
    (h : ∀ i < types.length, row'.value (column + i) = row.value (column + i)) :
    row'.payloadSizeFrom column types = row.payloadSizeFrom column types := by
  induction types generalizing column with
  | nil => rfl
  | cons type types ih =>
    have hhead : row'.value column = row.value column := h 0 (Nat.zero_lt_succ _)
    have htail := ih fun i hi => by
      rw [Nat.add_assoc, Nat.add_comm 1 i]
      exact h (i + 1) (Nat.succ_lt_succ hi)
    simp only [payloadSizeFrom, hhead, htail]

theorem SourceRow.Matches.payloadSize {schema : List ColumnType} {row row' : SourceRow}
    (h : Matches schema.length row row') : row'.payloadSize schema = row.payloadSize schema :=
  payloadSizeFrom_congr fun i hi => h.value _ (by rwa [Nat.zero_add])

theorem Column.fill_congr {column : Nat} {rows rows' : List SourceRow}
    (h : List.Forall₂ (fun (r r' : SourceRow) => r'.value column = r.value column) rows rows') (slot : Nat) (c : Column)
    (side : SideBuffer) : Column.fill column slot c side rows' = Column.fill column slot c side rows := by
  induction h generalizing slot c side with
  | nil => rfl
  | cons hr _ ih => simp only [fill, hr, ih]

namespace ColumnStore

theorem fillColumns_congr {column : Nat} {cs : List Column} {rows rows' : List SourceRow}
    (h : List.Forall₂ (fun (r r' : SourceRow) => ∀ i < cs.length, r'.value (column + i) = r.value (column + i)) rows rows')
    (start : Nat) (side : SideBuffer) :
    fillColumns rows' start column side cs = fillColumns rows start column side cs := by
  induction cs generalizing column side with
  | nil => rfl
  | cons c cs ih =>
    have hhead := Column.fill_congr (h.imp fun _ _ hr => hr 0 (Nat.zero_lt_succ _)) start c side
    have htail := @ih (column + 1) (h.imp fun _ _ hr i hi => by
      rw [Nat.add_assoc, Nat.add_comm 1 i]
      exact hr (i + 1) (Nat.succ_lt_succ hi))
    rw [Nat.add_zero] at hhead
    simp only [fillColumns, hhead, htail]

theorem fill_congr {s : ColumnStore} {rows rows' : List SourceRow}
    (h : List.Forall₂ (SourceRow.Matches s.schema.length) rows rows') (side : SideBuffer) (start : Nat) :
    s.fill side start rows' = s.fill side start rows := by
  have hcolumns : fillColumns rows' start 0 side s.columns = fillColumns rows start 0 side s.columns := by
    refine fillColumns_congr (h.imp fun r r' hr i hi => ?_) start side
    rw [Nat.zero_add]
    exact hr.value i (by rwa [schema, List.length_map])
  have hids : rows'.mapM SourceRow.id = rows.mapM SourceRow.id := mapM_congr_forall₂ (h.imp fun _ _ hr => hr.id)
  rw [fill, fill, hcolumns, hids]

end ColumnStore

theorem Chunk.append_congr {c : Chunk} {rows rows' : List SourceRow}
    (h : List.Forall₂ (SourceRow.Matches c.schema.length) rows rows') : c.append rows' = c.append rows := by
  have hfill (n : Nat) : c.store.fill c.side c.rows (rows'.take n) = c.store.fill c.side c.rows (rows.take n) :=
    ColumnStore.fill_congr (List.forall₂_take n h) c.side c.rows
  simp only [append, reserve, fill, h.length_eq, hfill, List.length_take]

/-! ### Batches -/

namespace Batch

variable {b b' : Batch} {left row : Nat} (h : ∀ r, row ≤ r → r < row + left → b'.visible r = b.visible r)
include h

theorem pick_congr (wanted : Nat) : b'.pick left row wanted = b.pick left row wanted := by
  fun_induction b.pick left row wanted with
  | case1 => rw [pick]
  | case2 => rw [pick]
  | case3 left row wanted hv picked stop hp ih =>
    have hv' : b'.visible row = true := (h row (Nat.le_refl _) (by omega)).trans hv
    rw [pick, if_pos hv', ih fun r hr hlt => h r (by omega) (by omega), hp]
  | case4 left row wanted hv ih =>
    have hv' : ¬b'.visible row = true := (h row (Nat.le_refl _) (by omega)).symm ▸ hv
    rw [pick, if_neg hv', ih fun r hr hlt => h r (by omega) (by omega)]

theorem nextVisible_congr : b'.nextVisible left row = b.nextVisible left row := by
  fun_induction b.nextVisible left row with
  | case1 => rfl
  | case2 left row hv =>
    rw [nextVisible, if_pos ((h row (Nat.le_refl _) (by omega)).trans hv)]
  | case3 left row hv ih =>
    have hv' : ¬b'.visible row = true := (h row (Nat.le_refl _) (by omega)).symm ▸ hv
    rw [nextVisible, if_neg hv', ih fun r hr hlt => h r (by omega) (by omega)]

end Batch

namespace Sorter

variable {s : Sorter} {cmp : Comparator} {b b' : Batch} {c : Chunk}

def Feeds (s : Sorter) (column : Nat) : Prop :=
  match s.projection with
  | none => column < s.layout.schema.length
  | some selected => column ∈ selected

/-- The batches differ in nothing but cells of rows that are not visible and of columns that feed nothing. -/
structure SeesSame (s : Sorter) (b b' : Batch) : Prop where
  id : b'.id = b.id
  rows : b'.rows = b.rows
  columns : b'.columns = b.columns
  visible : ∀ row < b.rows, b'.visible row = b.visible row
  value : ∀ row < b.rows, b.visible row = true → ∀ column, s.Feeds column → b'.value row column = b.value row column

namespace SeesSame

theorem source (h : s.SeesSame b b') {row : Nat} (hrow : row < b.rows) (hv : b.visible row = true) :
    SourceRow.Matches s.layout.schema.length (b.source s.projection row) (b'.source s.projection row) where
  id := by simp only [Batch.source, h.id]
  value column hcolumn := by
    have hvalue := h.value row hrow hv
    have hlength := s.projection_length
    unfold Feeds at hvalue
    unfold Batch.source
    cases hp : s.projection with
    | none =>
      rw [hp] at hvalue
      exact hvalue column hcolumn
    | some selected =>
      rw [hp] at hvalue hlength
      rw [← hlength selected rfl] at hcolumn
      simp only [List.getElem?_eq_getElem hcolumn]
      exact hvalue _ (List.getElem_mem hcolumn)

theorem place (h : s.SeesSame b b') (hc : c.schema = s.layout.schema) (offset : Nat) (schedule : Schedule) :
    c.place b' s.projection offset schedule = c.place b s.projection offset schedule := by
  have hpick : b'.pick (b.rows - offset) offset c.freeRows = b.pick (b.rows - offset) offset c.freeRows :=
    Batch.pick_congr (fun r _ hlt => h.visible r (by omega)) _
  have hnext (start : Nat) : b'.nextVisible (b.rows - start) start = b.nextVisible (b.rows - start) start :=
    Batch.nextVisible_congr fun r _ hlt => h.visible r (by omega)
  have hsources : List.Forall₂ (SourceRow.Matches c.schema.length)
      ((b.pick (b.rows - offset) offset c.freeRows).1.map (b.source s.projection))
      ((b.pick (b.rows - offset) offset c.freeRows).1.map (b'.source s.projection)) := by
    rw [List.forall₂_map_left_iff, List.forall₂_map_right_iff, List.forall₂_same]
    intro r hr
    obtain ⟨i, hi⟩ := List.mem_iff_getElem?.mp hr
    obtain ⟨hle, hlt⟩ := b.le_of_mem_pick _ _ _ i r hi
    rw [hc]
    exact h.source (by omega) (b.visible_of_mem_pick _ _ _ hr)
  have hsizes := collect_congr_forall₂ schedule.rows (hsources.imp fun _ _ hr => hr.payloadSize)
  have happend (n : Nat) := Chunk.append_congr (List.forall₂_take n hsources)
  unfold Chunk.place
  simp only [h.rows, hpick, hnext, hsizes, happend, List.length_take, List.length_map]

theorem load (h : s.SeesSame b b') (hc : c.schema = s.layout.schema) (offset : Nat) (schedule : Schedule) :
    c.load b' s.projection offset schedule = c.load b s.projection offset schedule := by
  have hviolation : Chunk.loadViolation? b' offset = Chunk.loadViolation? b offset := by
    simp only [Chunk.loadViolation?, h.rows, h.id]
  have hwidth : c.widthError? b' s.projection = c.widthError? b s.projection := by
    simp only [Chunk.widthError?, h.columns]
  unfold Chunk.load
  rw [hviolation, hwidth, h.place hc]

theorem loadBatch (h : s.SeesSame b b') (hc : c.schema = s.layout.schema) (offset : Nat) :
    s.loadBatch (cmp.engine s.schedule) b' offset c = s.loadBatch (cmp.engine s.schedule) b offset c := by
  induction offset, c using Sorter.loadBatch.induct s (cmp.engine s.schedule) b with
  | case1 offset c attempt error hr =>
    have hr' : (c.load b' s.projection offset s.schedule).result = .error error := h.load hc offset s.schedule ▸ hr
    rw [loadBatch_error hr, loadBatch_error hr']
  | case2 offset c attempt o hr hs =>
    have hr' : (c.load b' s.projection offset s.schedule).result = .ok o := h.load hc offset s.schedule ▸ hr
    have hstate : ((cmp.engine s.schedule).load c b' s.projection offset).state = attempt.state :=
      congrArg Attempt.state (h.load hc offset s.schedule)
    rw [loadBatch_success hr hs, loadBatch_success hr' hs, hstate]
  | case3 offset c attempt o hr hs hempty =>
    have hr' : (c.load b' s.projection offset s.schedule).result = .ok o := h.load hc offset s.schedule ▸ hr
    have hempty' : (c.load b' s.projection offset s.schedule).state.isEmpty := h.load hc offset s.schedule ▸ hempty
    rw [loadBatch_oversized hr hs hempty, loadBatch_oversized hr' hs hempty', h.id]
  | case4 offset c attempt o hr hs hempty hlt ih =>
    have hr' : (c.load b' s.projection offset s.schedule).result = .ok o := h.load hc offset s.schedule ▸ hr
    have hempty' : ¬(c.load b' s.projection offset s.schedule).state.isEmpty := h.load hc offset s.schedule ▸ hempty
    have hstate : ((cmp.engine s.schedule).load c b' s.projection offset).state = attempt.state :=
      congrArg Attempt.state (h.load hc offset s.schedule)
    have hrest (number : Nat) := ih number (Chunk.schema_empty ..)
    rw [loadBatch_more hr hs hempty, loadBatch_more hr' hs hempty', hstate]
    simp only [hrest]
    rfl

end SeesSame

theorem loadBatches_congr {batches batches' : List Batch} (h : List.Forall₂ s.SeesSame batches batches') {rows : List Row}
    (hc : s.Filling c rows) {st : JobState} (hst : st.Holds 0) :
    s.loadBatches (cmp.engine s.schedule) batches' c st = s.loadBatches (cmp.engine s.schedule) batches c st := by
  induction h generalizing c rows st with
  | nil => rfl
  | @cons b b' bs bs' hb _ ih =>
    have hloaded := loadBatch_agrees (cmp.engine_confined s.schedule) b (Nat.zero_le b.rows) hc
    simp only [loadBatches, hb.loadBatch hc.ofSchema]
    rw [Job.bind_apply, Job.bind_apply]
    cases hl : s.loadBatch (cmp.engine s.schedule) b 0 c st with
    | error error mid => rfl
    | ok r mid =>
      obtain ⟨hmid, _, _, _, _, hd⟩ := hloaded.of_ok hst hl
      simp only [Job.bind_apply, ih hd.filling hmid]

theorem ingest_congr {batches batches' : List Batch} (h : List.Forall₂ s.SeesSame batches batches') {st : JobState}
    (hst : st.Holds 0) : s.ingest (cmp.engine s.schedule) batches' st = s.ingest (cmp.engine s.schedule) batches st := by
  have hloads (c : Chunk) (mid : JobState) (hmid : s.newChunk st = .ok c mid) :
      s.loadBatches (cmp.engine s.schedule) batches' c mid = s.loadBatches (cmp.engine s.schedule) batches c mid := by
    cases hmid
    exact loadBatches_congr h (s.filling_chunk st.next) ⟨hst.resident, hst.limit⟩
  simp only [ingest, Job.bind_apply]
  cases hn : s.newChunk st with
  | error error mid => rfl
  | ok c mid => simp only [hloads c mid hn]

def littered (id : UInt32) : Batch :=
  .ofColumns id #[#[.float64 0, .bytes [1, 2], .int64 5], #[.int64 2, .bytes [3, 4, 5], .int64 3]]
    (some #[true, false, true])

end Sorter
end ChunkSort
