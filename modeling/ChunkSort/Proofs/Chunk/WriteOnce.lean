import Mathlib
import ChunkSort.Proofs.Chunk.Load
import ChunkSort.Proofs.Chunk.Merge
import ChunkSort.Spill.SpilledChunk

/-!
Row data is written once. A row that was copied into a slot reads as its source from then on, whatever is done to
the chunk and whether or not it succeeds.
-/

namespace ChunkSort

namespace Chunk

variable {c c' : Chunk}

structure Allocated (c : Chunk) : Prop where
  rows_le : c.rows ≤ c.capacity
  ids_size : c.store.ids.size = c.capacity
  cells_size : ∀ column ∈ c.store.columns, column.cells.size = c.capacity

theorem WellFormed.allocated (h : c.WellFormed) : c.Allocated := ⟨h.rows_le, h.ids_size, h.cells_size⟩

theorem Allocated.reserve (h : c.Allocated) (wanted : Nat) : (c.reserve wanted).2.Allocated where
  rows_le := by
    have hrows := h.rows_le
    simp only [Chunk.reserve, freeRows]
    omega
  ids_size := h.ids_size
  cells_size := h.cells_size

/-- The row at a slot reads as the source, through its record as well as cell by cell. -/
def Holds (c : Chunk) (slot : Nat) (source : SourceRow) : Prop :=
  ∃ r id, c.record? slot = some r ∧ r.id = .ok id ∧ source.id = .ok id ∧ ∀ column < c.schema.length,
    ∃ v, r.value column = .ok v ∧ c.value slot column = .ok v ∧ source.value column = .ok v

theorem holds_iff {slot : Nat} {source : SourceRow} :
    c.Holds slot source ↔ slot < c.rows ∧ (∃ id, c.store.ids[slot]? = some id ∧ source.id = .ok id) ∧
      ∀ column < c.schema.length, ∃ v, c.store.value c.side slot column = .ok v ∧ source.value column = .ok v := by
  have hid {id : UInt64} : (c.recordAt slot).id = .ok id ↔ c.store.ids[slot]? = some id := by
    simp only [Record.id, recordAt]
    cases c.store.ids[slot]? <;> simp
  constructor
  · rintro ⟨r, id, hr, hrid, hsource, hvalues⟩
    simp only [record?, Option.ite_none_right_eq_some, Option.some.injEq] at hr
    obtain ⟨hslot, rfl⟩ := hr
    refine ⟨hslot, ⟨id, hid.mp hrid, hsource⟩, fun column hcolumn => ?_⟩
    obtain ⟨v, hv, _, hsv⟩ := hvalues column hcolumn
    exact ⟨v, hv, hsv⟩
  · rintro ⟨hslot, ⟨id, hrid, hsource⟩, hvalues⟩
    refine ⟨c.recordAt slot, id, if_pos hslot, hid.mpr hrid, hsource, fun column hcolumn => ?_⟩
    obtain ⟨v, hv, hsv⟩ := hvalues column hcolumn
    exact ⟨v, hv, (if_pos hslot).trans hv, hsv⟩

structure Extends (c : Chunk) (sources : List SourceRow) (c' : Chunk) : Prop where
  allocated : c'.Allocated
  rows : c'.rows = c.rows + sources.length
  kept : ∀ slot source, c.Holds slot source → c'.Holds slot source
  added : ∀ i source, sources[i]? = some source → c'.Holds (c.rows + i) source

theorem Allocated.append (h : c.Allocated) {rows : List SourceRow} (happ : c.append rows = .ok c') :
    c.Extends (rows.take c.freeRows) c' := by
  obtain ⟨store, side, index, hf, -, rfl⟩ := append_eq_ok_iff.mp happ
  generalize hs : rows.take c.freeRows = sources at hf ⊢
  have hroom : c.rows + sources.length ≤ c.capacity := by
    have hrows := h.rows_le
    have hlength : sources.length ≤ c.freeRows := hs ▸ List.length_take_le ..
    rw [freeRows] at hlength
    omega
  obtain ⟨⟨n, hg⟩, hw, ⟨ids, hids, hsids⟩, hshows⟩ := ColumnStore.fill_grows hf
  have hschema : (c.extended sources.length store side index).schema = c.schema := ColumnStore.schema_of_rewritten hw
  refine ⟨⟨hroom, ?ids_size, ?cells_size⟩, rfl, fun slot source hold => ?kept, fun i source hi => ?added⟩
  case ids_size =>
    change store.ids.size = c.capacity
    rw [size_of_overwrite hsids, h.ids_size]
  case cells_size =>
    intro column' hc'
    obtain ⟨column, hc, hrewritten⟩ := exists_left_of_forall₂ hw hc'
    exact hrewritten.size_eq.trans (h.cells_size column hc)
  case kept =>
    obtain ⟨hslot, ⟨id, hid, hsource⟩, hvalues⟩ := holds_iff.mp hold
    refine holds_iff.mpr ⟨Nat.lt_add_right _ hslot, ⟨id, ?_, hsource⟩, fun column hcolumn => ?_⟩
    · change store.ids[slot]? = some id
      rwa [getElem?_overwrite_below hsids hslot]
    · rw [hschema] at hcolumn
      obtain ⟨v, hv, hsv⟩ := hvalues column hcolumn
      obtain ⟨data, hdata, hshow⟩ := ColumnStore.value_eq_ok_iff.mp hv
      obtain ⟨hlt, rfl⟩ := List.getElem?_eq_some_iff.mp hdata
      have hlt' : column < store.columns.length := hw.length_eq ▸ hlt
      have hrewritten := hw.get hlt hlt'
      refine ⟨v, ColumnStore.value_eq_ok_iff.mpr ⟨store.columns[column], List.getElem?_eq_getElem hlt', ?_⟩, hsv⟩
      exact ((hrewritten.shows_iff (.inl hslot)).mpr hshow).grows hg
  case added =>
    obtain ⟨hlt, rfl⟩ := List.getElem?_eq_some_iff.mp hi
    have hlt' : i < ids.length := hids.length_eq ▸ hlt
    obtain ⟨values, hvalues, hread⟩ := hshows i _ hi
    refine holds_iff.mpr ⟨Nat.add_lt_add_left hlt _, ⟨ids[i], ?_, hids.get hlt hlt'⟩, fun column hcolumn => ?_⟩
    · change store.ids[c.rows + i]? = some ids[i]
      rw [getElem?_overwrite_added hsids hlt', List.getElem?_eq_getElem hlt']
    · have hcount : column < store.columns.length := by
        rwa [hschema, schema, ColumnStore.schema, List.length_map, hw.length_eq] at hcolumn
      have hcount' : column < values.length := hvalues.length_eq ▸ hcount
      have hshow := hvalues.get hcount hcount'
      have hv := hread column values[column] (List.getElem?_eq_getElem hcount')
      rw [Nat.zero_add] at hv
      exact ⟨values[column], ColumnStore.value_eq_ok_iff.mpr ⟨_, List.getElem?_eq_getElem hcount, hshow⟩, hv⟩

theorem Extends.withStatus {sources : List SourceRow} (h : c.Extends sources c') (status : Status) :
    c.Extends sources (c'.withStatus status) := ⟨⟨h.allocated.1, h.allocated.2, h.allocated.3⟩, h.rows, h.kept, h.added⟩

theorem Allocated.reindexed (h : c.Allocated) (index : Array UInt32) (status : Status) :
    c.Extends [] { c with index, status } :=
  ⟨⟨h.1, h.2, h.3⟩, rfl, fun _ _ hold => hold, fun i source hi => by simp at hi⟩

theorem sort_state (c : Chunk) (cmp : Comparator) (schedule : Schedule) :
    ∃ index status, (c.sort cmp schedule).state = { c with index, status } := by
  unfold Chunk.sort afterRun
  split <;> exact ⟨_, _, rfl⟩

theorem place_eq_ok {b : Batch} {projection : Option (List Nat)} {offset : Nat} {schedule : Schedule}
    {o : LoadOutcome} (h : c.place b projection offset schedule = .ok (c', o)) :
    ∃ filled, c.append (((b.visibleRows offset).take o.loaded).map (b.source projection)) = .ok filled ∧
      c' = filled.withStatus o.status ∧ o.loaded ≤ c.freeRows := by
  obtain ⟨candidates, stop, hp⟩ : ∃ l n, b.pick (b.rows - offset) offset c.freeRows = (l, n) := ⟨_, _, rfl⟩
  have hlen := b.length_pick_le (b.rows - offset) offset c.freeRows
  have hsplit := b.visibleAmong_pick (b.rows - offset) offset c.freeRows
  simp only [place, hp, bind, Except.bind] at h hlen hsplit
  split at h
  · cases h
  next sizes _ =>
  generalize fittingCount c.side.room sizes = k at h
  rw [← List.map_take, List.length_map] at h
  split at h
  · cases h
  next filled happ =>
  simp only [pure, Except.pure, Except.ok.injEq, Prod.mk.injEq] at h
  obtain ⟨rfl, rfl⟩ := h
  have hcount : (candidates.take k).length ≤ candidates.length := List.length_take_le' ..
  have htake : (b.visibleRows offset).take (candidates.take k).length = candidates.take k := by
    rw [Batch.visibleRows, hsplit (candidates.take k).length, List.take_append_of_le_length (by simp), List.take_take,
      Nat.min_self, List.length_take, ← List.take_eq_take_min]
  refine ⟨filled, ?_, rfl, Nat.le_trans hcount hlen⟩
  dsimp only
  rw [htake, happ]

theorem load_cases (c : Chunk) (b : Batch) (projection : Option (List Nat)) (offset : Nat) (schedule : Schedule) :
    (∃ error status, (c.load b projection offset schedule).result = .error error ∧
      (c.load b projection offset schedule).state = c.withStatus status) ∨
    ∃ o filled, (c.load b projection offset schedule).result = .ok o ∧
      c.append (((b.visibleRows offset).take o.loaded).map (b.source projection)) = .ok filled ∧
      (c.load b projection offset schedule).state = filled.withStatus o.status ∧ o.loaded ≤ c.freeRows := by
  unfold Chunk.load
  cases loadViolation? b offset with
  | some violation => exact .inl ⟨_, c.status, rfl, rfl⟩
  | none =>
    cases hplace : (c.widthError? b projection).elim (c.place b projection offset schedule) .error with
    | error cause => exact .inl ⟨_, .fault, rfl, rfl⟩
    | ok p =>
      cases hwidth : c.widthError? b projection with
      | some cause =>
        rw [hwidth] at hplace
        cases hplace
      | none =>
        rw [hwidth] at hplace
        obtain ⟨filled, happ, hc, hle⟩ := place_eq_ok hplace
        exact .inr ⟨p.2, filled, rfl, happ, hc, hle⟩

end Chunk

/-! ### Whole histories -/

namespace MergeSet

def mergedSources (s : MergeSet) (cmp : Comparator) (schedule : Schedule) : List SourceRow :=
  match (s.merge cmp schedule).result, s.order cmp schedule with
  | .ok _, .ok merged => merged.map fun e => (s.recordOf e).toSource
  | _, _ => []

theorem copied_eq_ok {s : MergeSet} {merged : List UInt32} {low high : Chunk} (h : s.copied merged = .ok (low, high)) :
    (∃ c, s.low.append ((merged.map fun e => (s.recordOf e).toSource).take s.low.capacity) = .ok c ∧
      low = c.withStatus .success) ∧
    ∃ c, s.high.append ((merged.map fun e => (s.recordOf e).toSource).drop s.low.capacity) = .ok c ∧
      high = c.withStatus .success := by
  have copy {c c' : Chunk} {entries : List UInt32} (hcopy : s.copyInto c entries = .ok c') :
      ∃ filled, c.append (entries.map fun e => (s.recordOf e).toSource) = .ok filled ∧ c' = filled.withStatus .success := by
    unfold copyInto at hcopy
    split at hcopy
    next filled happ =>
      cases hcopy
      exact ⟨filled, happ, rfl⟩
    next => cases hcopy
  cases hlow : s.copyInto s.low (merged.take (s.split merged)) with
  | error e => simp [copied, hlow, bind, Except.bind] at h
  | ok c =>
    cases hhigh : s.copyInto s.high (merged.drop (s.split merged)) with
    | error e => simp [copied, hlow, hhigh, bind, Except.bind] at h
    | ok d =>
      simp only [copied, hlow, hhigh, bind, Except.bind, pure, Except.pure, Except.ok.injEq, Prod.mk.injEq] at h
      obtain ⟨rfl, rfl⟩ := h
      rw [← s.take_split, ← s.drop_split, ← List.map_take, ← List.map_drop]
      exact ⟨copy hlow, copy hhigh⟩

theorem merge_destinations (s : MergeSet) (cmp : Comparator) (schedule : Schedule) :
    (s.mergedSources cmp schedule = [] ∧ (∃ status, (s.merge cmp schedule).state.low = s.low.withStatus status) ∧
      ∃ status, (s.merge cmp schedule).state.high = s.high.withStatus status) ∨
    s.Mergeable ∧
      (∃ c, s.low.append ((s.mergedSources cmp schedule).take s.low.capacity) = .ok c ∧
        (s.merge cmp schedule).state.low = c.withStatus .success) ∧
      ∃ c, s.high.append ((s.mergedSources cmp schedule).drop s.low.capacity) = .ok c ∧
        (s.merge cmp schedule).state.high = c.withStatus .success := by
  unfold mergedSources
  generalize hm : s.merge cmp schedule = attempt
  unfold merge afterOrder deliver at hm
  split at hm
  next => exact .inl (hm ▸ ⟨rfl, ⟨s.low.status, rfl⟩, s.high.status, rfl⟩)
  next hviolation =>
  split at hm
  next => exact .inl (hm ▸ ⟨rfl, ⟨.fault, rfl⟩, .fault, rfl⟩)
  next merged horder =>
  split at hm
  next => exact .inl (hm ▸ ⟨rfl, ⟨.fault, rfl⟩, .fault, rfl⟩)
  next sizes _ =>
  split at hm
  next => exact .inl (hm ▸ ⟨rfl, ⟨s.low.status, rfl⟩, s.high.status, rfl⟩)
  next =>
  split at hm
  next => exact .inl (hm ▸ ⟨rfl, ⟨.fault, rfl⟩, .fault, rfl⟩)
  next low high hcopied =>
    subst hm
    simp only [horder]
    exact .inr ⟨layoutViolation?_eq_none_iff.mp hviolation, copied_eq_ok hcopied⟩

end MergeSet

/-- What may be done to a chunk other than consuming it. In a merge it is one of the destinations. -/
inductive Use where
  | load (b : Batch) (projection : Option (List Nat)) (offset : Nat) (schedule : Schedule := {})
  | sort (cmp : Comparator) (schedule : Schedule := {})
  | head (next : Nat)
  | mergeLow (x y high : Chunk) (cmp : Comparator) (schedule : Schedule := {})
  | mergeHigh (x y low : Chunk) (cmp : Comparator) (schedule : Schedule := {})
  /-- The chunk goes to a file and comes back. -/
  | respill

namespace Use

def apply (c : Chunk) : Use → Chunk
  | load b projection offset schedule => (c.load b projection offset schedule).state
  | sort cmp schedule => (c.sort cmp schedule).state
  | head _ => c
  | mergeLow x y high cmp schedule => (MergeSet.merge ⟨x, y, c, high⟩ cmp schedule).state.low
  | mergeHigh x y low cmp schedule => (MergeSet.merge ⟨x, y, low, c⟩ cmp schedule).state.high
  | respill => c.spill.restore

def written (c : Chunk) : Use → List SourceRow
  | load b projection offset schedule =>
    match (c.load b projection offset schedule).result with
    | .ok o => ((b.visibleRows offset).take o.loaded).map (b.source projection)
    | .error _ => []
  | mergeLow x y high cmp schedule => (MergeSet.mergedSources ⟨x, y, c, high⟩ cmp schedule).take c.capacity
  | mergeHigh x y low cmp schedule =>
    ((MergeSet.mergedSources ⟨x, y, low, c⟩ cmp schedule).drop low.capacity).take c.capacity
  | sort _ _ | head _ | respill => []

theorem apply_extends {c : Chunk} (hc : c.Allocated) (u : Use) : c.Extends (u.written c) (u.apply c) := by
  cases u with
  | load b projection offset schedule =>
    rcases c.load_cases b projection offset schedule with ⟨error, status, hr, hs⟩ | ⟨o, filled, hr, happ, hs, hle⟩
    · simp only [written, apply, hr, hs]
      exact hc.reindexed c.index status
    · have key := (hc.append happ).withStatus o.status
      rw [← List.map_take, List.take_take, Nat.min_eq_right hle] at key
      simp only [written, apply, hr, hs]
      exact key
  | sort cmp schedule =>
    obtain ⟨index, status, hs⟩ := c.sort_state cmp schedule
    change c.Extends [] (c.sort cmp schedule).state
    rw [hs]
    exact hc.reindexed index status
  | head next => exact hc.reindexed c.index c.status
  | mergeLow x y high cmp schedule =>
    rcases MergeSet.merge_destinations ⟨x, y, c, high⟩ cmp schedule with ⟨hnil, ⟨status, hs⟩, _⟩ | ⟨hm, ⟨d, happ, hd⟩, _⟩
    · simp only [written, apply, hnil, hs, List.take_nil]
      exact hc.reindexed c.index status
    · have hfree : c.freeRows = c.capacity := by rw [Chunk.freeRows, hm.low_rows, Nat.sub_zero]
      have key := (hc.append happ).withStatus .success
      rw [hfree, List.take_take, Nat.min_self, ← hd] at key
      exact key
  | mergeHigh x y low cmp schedule =>
    rcases MergeSet.merge_destinations ⟨x, y, low, c⟩ cmp schedule with ⟨hnil, _, status, hs⟩ | ⟨hm, _, d, happ, hd⟩
    · simp only [written, apply, hnil, hs, List.drop_nil, List.take_nil]
      exact hc.reindexed c.index status
    · have hfree : c.freeRows = c.capacity := by rw [Chunk.freeRows, hm.high_rows, Nat.sub_zero]
      have key := (hc.append happ).withStatus .success
      rw [hfree, ← hd] at key
      exact key
  | respill => exact hc.reindexed c.index c.status

end Use

namespace Chunk

def after (c : Chunk) (uses : List Use) : Chunk := uses.foldl Use.apply c

variable {c : Chunk}

theorem after_cons (c : Chunk) (u : Use) (uses : List Use) : c.after (u :: uses) = (u.apply c).after uses := rfl

theorem after_append (c : Chunk) (before later : List Use) : c.after (before ++ later) = (c.after before).after later :=
  List.foldl_append ..

theorem Allocated.after (h : c.Allocated) (uses : List Use) : (c.after uses).Allocated := by
  induction uses generalizing c with
  | nil => exact h
  | cons u uses ih => exact ih (u.apply_extends h).allocated

theorem Holds.after (h : c.Allocated) {slot : Nat} {source : SourceRow} (hold : c.Holds slot source) (uses : List Use) :
    (c.after uses).Holds slot source := by
  induction uses generalizing c with
  | nil => exact hold
  | cons u uses ih =>
    have hu := u.apply_extends h
    exact ih hu.allocated (hu.kept slot source hold)

/-- In any history a use adds the rows that it writes behind the others, these read as their sources at the end as
well, and so do the rows that were there before. Sorting writes no row data at all. -/
theorem rows_written_once (c : Chunk) (hc : c.Allocated) (before : List Use) (u : Use) (later : List Use) :
    (u.apply (c.after before)).rows = (c.after before).rows + (u.written (c.after before)).length ∧
      (∀ i source, (u.written (c.after before))[i]? = some source →
        (c.after (before ++ u :: later)).Holds ((c.after before).rows + i) source) ∧
      (∀ slot source, (c.after before).Holds slot source → (c.after (before ++ u :: later)).Holds slot source) ∧
      ∀ cmp schedule, ∃ index status,
        ((c.after before).sort cmp schedule).state = { c.after before with index, status } := by
  have hu := u.apply_extends (hc.after before)
  rw [after_append, after_cons]
  refine ⟨hu.rows, fun i source hi => ?_, fun slot source hold => ?_, sort_state _⟩
  · exact (hu.added i source hi).after hu.allocated later
  · exact (hu.kept slot source hold).after hu.allocated later

def labelled (id : UInt32) : Batch :=
  .ofColumns id #[#[.int64 5, .int64 6, .null], #[.bytes [1, 2], .null, .bytes [3]]] (some #[true, false, true])

def gapped : Chunk := ((Chunk.empty 0 [.int64, .varLen] 4 (some 4)).reserve 1).2

theorem gapped_written_once :
    gapped.Allocated ∧ (gapped.after [.load (labelled 1) none 0, .sort .byId]).rows = 3 ∧
      (gapped.after ([.load (labelled 1) none 0, .sort .byId] ++ .load (labelled 2) none 1 ::
        [.sort (.failing "stop"), .load (labelled 3) none 0, .mergeLow gapped gapped gapped .byId, .respill])).Holds 3
          ((labelled 2).source none 2) := by
  have hc : gapped.Allocated := (wellFormed_empty 0 _ (by decide) _).allocated.reserve 1
  have hrows : (gapped.after [.load (labelled 1) none 0, .sort .byId]).rows = 3 := by cbv
  have hwritten : (Use.written (gapped.after [.load (labelled 1) none 0, .sort .byId]) (.load (labelled 2) none 1))[0]? =
      some ((labelled 2).source none 2) := by cbv
  have key := (rows_written_once gapped hc [.load (labelled 1) none 0, .sort .byId] (.load (labelled 2) none 1)
    [.sort (.failing "stop"), .load (labelled 3) none 0, .mergeLow gapped gapped gapped .byId, .respill]).2.1 0 _ hwritten
  rw [hrows] at key
  exact ⟨hc, hrows, key⟩

end Chunk
end ChunkSort
