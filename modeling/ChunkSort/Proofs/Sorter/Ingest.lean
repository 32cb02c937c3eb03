import ChunkSort.Proofs.Chunk.Load
import ChunkSort.Proofs.Sorter.Handles
import ChunkSort.Proofs.Sorter.Packing

/-!
The first phase of a sort: the visible rows of all batches go to chunks, each of them once and as it is, and are
divided as in the greedy packing of the whole sequence.
-/

namespace ChunkSort
namespace Sorter

variable {s : Sorter}

structure Loading (s : Sorter) (c : Chunk) : Prop extends s.Holdable c where
  capacity : c.capacity = s.layout.capacity

theorem loading_chunk (s : Sorter) (number : Nat) : s.Loading (s.layout.chunk number) where
  wellFormed := Chunk.wellFormed_empty _ _ s.layout.capacity_le _
  ofSchema := Chunk.schema_empty ..
  rows_le := Nat.zero_le _
  status := nofun
  capacity := rfl

/-- Why a batch cannot be loaded: its length, a row that does not fit into a chunk, or a cell that cannot be
read or does not fit its column. -/
def BatchCause (s : Sorter) (b : Batch) (error : SortError) : Prop :=
  (∃ (c : Chunk) (offset : Nat), c.schema = s.layout.schema ∧ offset ≤ b.rows ∧ c.LoadCause b s.projection offset error) ∨
    ∃ row, error = .contractViolation (.oversizedRow row b.id.toNat)

abbrev Reads (s : Sorter) : List SourceRow → List Row → Prop :=
  List.Forall₂ fun r row => SourceRow.Gives r s.layout.schema row

def sources (s : Sorter) (batches : List Batch) : List SourceRow :=
  batches.flatMap fun b => (b.visibleRows 0).map (b.source s.projection)

variable {e : Engine} {cmp : Comparator} {schedule : Schedule}

theorem Loading.load {c : Chunk} (hc : s.Loading c) {b : Batch} {offset : Nat} {c' : Chunk} {o : LoadOutcome}
    {placed : List Nat} {contents : List Row} (hl : c.Loaded b s.projection offset c' o placed contents) :
    s.Loading c' where
  wellFormed := hl.appended.wellFormed
  ofSchema := hl.appended.schema.trans hc.ofSchema
  rows_le := by
    have hle := hl.appended.wellFormed.rows_le
    rwa [hl.appended.capacity, hc.capacity] at hle
  status := by
    rw [hl.status, hl.outcome]
    split <;> nofun
  capacity := hl.appended.capacity.trans hc.capacity

/-! ### Batches that can be loaded -/

structure Accepts (s : Sorter) (b : Batch) : Prop where
  rows_le : b.rows ≤ maxBatchRows
  columns : match s.projection with
    | none => b.columns = s.layout.schema.length
    | some selected => ∀ column ∈ selected, column < b.columns

structure Loadable (s : Sorter) (b : Batch) : Prop extends s.Accepts b where
  rows : ∀ r ∈ b.visibleRows 0, ∃ row, (b.source s.projection r).Gives s.layout.schema row ∧
    ∀ limit ∈ s.layout.sideLimit, row.payloadLength ≤ limit

theorem admits_iff {c : Chunk} (hc : c.schema = s.layout.schema) {b : Batch} {offset : Nat} :
    c.Admits b s.projection offset ↔ offset ≤ b.rows ∧ s.Accepts b := by
  have hviolation : Chunk.loadViolation? b offset = none ↔ offset ≤ b.rows ∧ b.rows ≤ maxBatchRows := by
    simp only [Chunk.loadViolation?]
    split
    next h => simp only [reduceCtorEq, Nat.not_le_of_lt h, false_and]
    next h =>
      split
      next h' => simp only [reduceCtorEq, Nat.not_le_of_lt h', and_false]
      next h' => simp only [Nat.le_of_not_lt h, Nat.le_of_not_lt h', and_self]
  have hwidth : c.widthError? b s.projection = none ↔ match s.projection with
      | none => b.columns = s.layout.schema.length
      | some selected => ∀ column ∈ selected, column < b.columns := by
    have hlength := s.projection_length
    cases hp : s.projection with
    | none => simp only [Chunk.widthError?, Option.bind_none, Option.map_none, Option.getD_none, hc,
        ite_eq_left_iff, reduceCtorEq, imp_false, not_not]
    | some selected =>
      rw [hp] at hlength
      simp only [Chunk.widthError?, Option.bind_some, Option.map_some, Option.getD_some, hlength selected rfl, hc,
        if_true]
      cases hf : selected.find? (b.columns ≤ ·) with
      | none => simpa using hf
      | some column =>
        have hle : b.columns ≤ column := by simpa using List.find?_some hf
        have hmem := List.mem_of_find?_eq_some hf
        exact ⟨nofun, fun h => absurd (h column hmem) (Nat.not_lt_of_le hle)⟩
  constructor
  · intro h
    obtain ⟨hoff, hrows⟩ := hviolation.mp h.violation
    exact ⟨hoff, hrows, hwidth.mp h.width⟩
  · rintro ⟨hoff, h⟩
    exact ⟨hviolation.mpr ⟨hoff, h.rows_le⟩, hwidth.mpr h.columns⟩

theorem Loadable.gives {b : Batch} (hb : s.Loadable b) {offset r : Nat} (hr : r ∈ b.visibleRows offset) :
    ∃ row, (b.source s.projection r).Gives s.layout.schema row ∧ s.layout.Fits [row.payloadLength] := by
  have hall : r ∈ b.visibleRows 0 := by
    rw [Batch.mem_visibleRows] at hr ⊢
    exact ⟨⟨Nat.zero_le r, by omega⟩, hr.2⟩
  obtain ⟨row, hg, hle⟩ := hb.rows r hall
  exact ⟨row, hg, Layout.fits_singleton_iff.mpr hle⟩

/-! ### Chunks that are loaded -/

/-- A chunk that holds these rows by slot, and can take more. -/
structure Filling (s : Sorter) (c : Chunk) (rows : List Row) : Prop extends s.Loading c where
  slotRows : c.slotRows = rows
  limit : c.side.limit = s.layout.sideLimit
  used : c.side.used = totalLength (rows.map Row.payloadLength)

theorem filling_chunk (s : Sorter) (number : Nat) : s.Filling (s.layout.chunk number) [] :=
  { s.loading_chunk number with slotRows := rfl, limit := rfl, used := rfl }

namespace Filling

variable {c : Chunk} {rows : List Row} (hc : s.Filling c rows)
include hc

theorem length_rows : c.rows = rows.length := by
  rw [← hc.slotRows, Chunk.slotRows, List.length_map, List.length_range]

theorem fits : s.layout.Fits (rows.map Row.payloadLength) := by
  refine ⟨?_, fun limit hl => ?_⟩
  · rw [List.length_map, ← hc.length_rows, ← hc.capacity]
    exact hc.wellFormed.rows_le
  · rw [← hc.used]
    exact hc.wellFormed.side_le limit (hc.limit.symm ▸ hl)

theorem fits_of_mem {row : Row} (hrow : row ∈ rows) : s.layout.Fits [row.payloadLength] :=
  hc.fits.sublist ((List.singleton_sublist.mpr hrow).map Row.payloadLength)

theorem hasRoom {row : Row} (h : s.layout.Fits ((rows ++ [row]).map Row.payloadLength)) : c.HasRoom row := by
  obtain ⟨hlen, hle⟩ := h
  rw [List.length_map, List.length_append, List.length_singleton, ← hc.length_rows, ← hc.capacity] at hlen
  refine ⟨by rw [Chunk.freeRows]; omega, fun limit hl => ?_⟩
  have := hle limit (hc.limit ▸ hl)
  simpa [hc.used] using this

theorem load {b : Batch} {offset : Nat} {c' : Chunk} {o : LoadOutcome} {placed : List Nat} {contents : List Row}
    (hl : c.Loaded b s.projection offset c' o placed contents) : s.Filling c' (rows ++ contents) :=
  { hc.toLoading.load hl with
    slotRows := by rw [hl.appended.slotRows, hc.slotRows]
    limit := hl.appended.side.limit.trans hc.limit
    used := by simp [hl.appended.side.used, hc.used] }

theorem sortedRows_perm : c.sortedRows.Perm rows := hc.slotRows ▸ hc.wellFormed.sortedRows_perm

end Filling

/-- A chunk that was loaded with these rows, and sorted then. -/
structure Sealed (s : Sorter) (cmp : Comparator) (rows : List Row) (h : Handle) : Prop where
  sound : s.Sound h
  rows_ne : rows ≠ []
  sorted : ∃ c, s.Filling c rows ∧ c.sort cmp = ⟨h.load, .ok ()⟩

theorem Sealed.rows_pos {rows : List Row} {h : Handle} (hs : s.Sealed cmp rows h) : 0 < h.rows := by
  obtain ⟨c, hc, hsort⟩ := hs.sorted
  have hr := (Chunk.sort_reordered hc.wellFormed cmp {}).1
  rw [hsort] at hr
  have hrows : h.rows = rows.length := h.rows_eq.trans (hr.rows.trans hc.length_rows)
  exact hrows ▸ List.length_pos_of_ne_nil hs.rows_ne

theorem settle_seals (he : e.Confined cmp schedule) {c : Chunk} {rows : List Row} (hc : s.Filling c rows) (hne : rows ≠ []) :
    Job.Agrees 0 (s.settle e c) (s.settle (cmp.engine schedule) c) (s.Sealed cmp rows) (cmp.FailedWithin s.layout.schema rows) :=
  (settle_agrees he hc.toHoldable).mono (fun _ ⟨hsound, hsort⟩ => ⟨hsound, hne, c, hc, hsort⟩)
    fun _ h => h.mono hc.sortedRows_perm.subperm

def FailedAmong (s : Sorter) (cmp : Comparator) (first : List Row) (sources : List SourceRow) (error : SortError) : Prop :=
  cmp.Blamed s.layout.schema error ∧
    ∀ contents, s.Reads sources contents → cmp.FailedWithin s.layout.schema (first ++ contents) error

/-- What became of rows that came to a chunk which held `opened`: they were divided as in the greedy packing, and
the chunk that is open at the end holds `last`. -/
structure Divided (s : Sorter) (cmp : Comparator) (opened : List Row) (sources : List SourceRow) (contents : List Row)
    (closed : List (List Row)) (last : List Row) (r : List Handle × Chunk) : Prop where
  reads : s.Reads sources contents
  fits : ∀ row ∈ contents, s.layout.Fits [row.payloadLength]
  settled : List.Forall₂ (s.Sealed cmp) closed r.1
  filling : s.Filling r.2 last
  packing : ∀ more, s.layout.packFrom Row.payloadLength opened (contents ++ more) =
    closed ++ s.layout.packFrom Row.payloadLength last more

theorem Reads.unique {sources : List SourceRow} {contents contents' : List Row} (h : s.Reads sources contents)
    (h' : s.Reads sources contents') : contents = contents' :=
  List.right_unique_forall₂' (fun _ _ _ hg hg' => hg.unique hg') h h'

theorem exists_of_reads_append {xs ys : List SourceRow} {all : List Row} (h : s.Reads (xs ++ ys) all) :
    ∃ contents rest, s.Reads xs contents ∧ s.Reads ys rest ∧ all = contents ++ rest :=
  ⟨all.take xs.length, all.drop xs.length, (List.forall₂_take_append _ _ _ h.flip).flip,
    (List.forall₂_drop_append _ _ _ h.flip).flip, (List.take_append_drop ..).symm⟩

section FailedAmong

variable {first : List Row} {xs ys : List SourceRow} {error : SortError}

theorem failedAmong_of_failedWithin (h : cmp.FailedWithin s.layout.schema first error) (sources : List SourceRow) :
    s.FailedAmong cmp first sources error :=
  ⟨h.blamed, fun contents _ => h.mono (List.sublist_append_left first contents).subperm⟩

theorem FailedAmong.append_right (h : s.FailedAmong cmp first xs error) (ys : List SourceRow) :
    s.FailedAmong cmp first (xs ++ ys) error := by
  refine ⟨h.1, fun all hall => ?_⟩
  obtain ⟨contents, rest, hreads, _, rfl⟩ := exists_of_reads_append hall
  rw [← List.append_assoc]
  exact (h.2 contents hreads).mono (List.sublist_append_left _ rest).subperm

theorem FailedAmong.append_left {contents opened : List Row}
    (hreads : s.Reads xs contents)
    (hsub : opened.Subperm (first ++ contents)) (h : s.FailedAmong cmp opened ys error) :
    s.FailedAmong cmp first (xs ++ ys) error := by
  refine ⟨h.1, fun all hall => ?_⟩
  obtain ⟨contents', rest, hreads', hrest, rfl⟩ := exists_of_reads_append hall
  obtain rfl := hreads.unique hreads'
  rw [← List.append_assoc]
  exact (h.2 rest hrest).mono ((List.subperm_append_right rest).mpr hsub)

end FailedAmong

namespace Divided

variable {opened contents last : List Row} {sources : List SourceRow} {closed : List (List Row)} {settled : List Handle}
  {c : Chunk}

theorem nil (hc : s.Filling c opened) : s.Divided cmp opened [] [] [] opened ([], c) :=
  ⟨.nil, nofun, .nil, hc, fun _ => rfl⟩

theorem kept (hreads : s.Reads sources contents)
    (hc : s.Filling c (opened ++ contents)) : s.Divided cmp opened sources contents [] (opened ++ contents) ([], c) where
  reads := hreads
  fits _ hrow := hc.fits_of_mem (List.mem_append_right opened hrow)
  settled := .nil
  filling := hc
  packing := Layout.packFrom_append hc.fits

theorem append {ys : List SourceRow} {more : List Row} {closed' : List (List Row)} {last' : List Row}
    {settled' : List Handle} {c' : Chunk} (h : s.Divided cmp opened sources contents closed last (settled, c))
    (h' : s.Divided cmp last ys more closed' last' (settled', c')) :
    s.Divided cmp opened (sources ++ ys) (contents ++ more) (closed ++ closed') last' (settled ++ settled', c') where
  reads := List.rel_append h.reads h'.reads
  fits := List.forall_mem_append.mpr ⟨h.fits, h'.fits⟩
  settled := List.rel_append h.settled h'.settled
  filling := h'.filling
  packing rest := by rw [List.append_assoc, h.packing, h'.packing, List.append_assoc]

theorem close {r : SourceRow} {xs ys : List SourceRow} {more : List Row} {full : Handle} {d : Chunk}
    (hreads : s.Reads xs contents)
    (hc : s.Filling c (opened ++ contents)) (hsealed : s.Sealed cmp (opened ++ contents) full)
    (hnext : ∀ row, r.Gives s.layout.schema row → ¬c.HasRoom row)
    (hrest : s.Divided cmp [] (r :: ys) more closed last (settled, d)) :
    s.Divided cmp opened (xs ++ r :: ys) (contents ++ more) ((opened ++ contents) :: closed) last
      (full :: settled, d) where
  reads := List.rel_append hreads hrest.reads
  fits := List.forall_mem_append.mpr ⟨fun _ hrow => hc.fits_of_mem (List.mem_append_right opened hrow), hrest.fits⟩
  settled := .cons hsealed hrest.settled
  filling := hrest.filling
  packing all := by
    obtain ⟨row, rest, hrow, _, rfl⟩ := List.forall₂_cons_left_iff.mp hrest.reads
    have hfull : ¬s.layout.Fits ((opened ++ contents ++ [row]).map Row.payloadLength) :=
      fun hf => hnext row hrow (hc.hasRoom hf)
    rw [List.append_assoc, Layout.packFrom_append hc.fits, List.cons_append,
      Layout.packFrom_close hfull (hrest.fits row List.mem_cons_self), ← List.cons_append, hrest.packing]
    rfl

theorem rows_eq (h : s.Divided cmp opened sources contents closed last (settled, c)) :
    opened ++ contents = closed.flatten ++ last := by
  -- Both sides are the flattened packing.
  have key := congrArg List.flatten (h.packing [])
  rwa [Layout.flatten_packFrom, List.flatten_append, Layout.flatten_packFrom, List.append_nil, List.append_nil] at key

theorem last_subperm (h : s.Divided cmp opened sources contents closed last (settled, c)) :
    last.Subperm (opened ++ contents) := h.rows_eq ▸ (List.sublist_append_right ..).subperm

end Divided

/-! ### One batch -/

section Equations

variable {b : Batch} {offset : Nat} {c : Chunk}

theorem loadBatch_error {error : SortError} (h : (e.load c b s.projection offset).result = .error error) :
    s.loadBatch e b offset c = throw error := by
  rw [loadBatch]
  split
  next error' h' =>
    rw [h] at h'
    cases h'
    rfl
  next o h' =>
    rw [h] at h'
    cases h'

variable {o : LoadOutcome} (h : (e.load c b s.projection offset).result = .ok o)
include h

theorem loadBatch_success (hs : o.status = .success) :
    s.loadBatch e b offset c = return ([], (e.load c b s.projection offset).state) := by
  rw [loadBatch]
  split
  next error h' =>
    rw [h] at h'
    cases h'
  next o' h' =>
    rw [h] at h'
    cases h'
    rw [dif_pos hs]

theorem loadBatch_oversized (hs : o.status ≠ .success) (hempty : (e.load c b s.projection offset).state.isEmpty) :
    s.loadBatch e b offset c = throw (.contractViolation (.oversizedRow (offset + o.consumed) b.id.toNat)) := by
  rw [loadBatch]
  split
  next error h' =>
    rw [h] at h'
    cases h'
  next o' h' =>
    rw [h] at h'
    cases h'
    rw [dif_neg hs, dif_pos hempty]

theorem loadBatch_more (hs : o.status ≠ .success) (hempty : ¬(e.load c b s.projection offset).state.isEmpty) :
    s.loadBatch e b offset c = do
      let number ← Job.takeNumber
      let settled ← s.settle e (e.load c b s.projection offset).state
      let (more, last) ← s.loadBatch e b (offset + o.consumed) (s.layout.chunk number)
      return (settled :: more, last) := by
  rw [loadBatch]
  split
  next error h' =>
    rw [h] at h'
    cases h'
  next o' h' =>
    rw [h] at h'
    cases h'
    rw [dif_neg hs, dif_neg hempty]

end Equations

theorem loaded_of_ok (he : e.Confined cmp schedule) {b : Batch} {offset : Nat} {c : Chunk} (hc : s.Loading c)
    (hoff : offset ≤ b.rows) {o : LoadOutcome} (h : (e.load c b s.projection offset).result = .ok o) :
    e.load c b s.projection offset = c.load b s.projection offset schedule ∧
      (c.load b s.projection offset schedule).result = .ok o ∧ s.Accepts b ∧
      ∃ placed contents, c.Loaded b s.projection offset (c.load b s.projection offset schedule).state o placed contents := by
  have heq := he.load_eq hc.wellFormed b s.projection hoff
  have hload := Chunk.load_spec hc.wellFormed b s.projection offset schedule
  rw [heq] at h
  rw [h] at hload
  exact ⟨heq, h, ((admits_iff hc.ofSchema).mp hload.1).2, hload.2⟩

theorem Filling.reads {c : Chunk} {rows : List Row} (hc : s.Filling c rows) {b : Batch} {offset : Nat} {c' : Chunk}
    {o : LoadOutcome} {placed : List Nat} {contents : List Row}
    (hl : c.Loaded b s.projection offset c' o placed contents) :
    s.Reads (placed.map (b.source s.projection)) contents :=
  List.forall₂_map_left_iff.mpr (hc.ofSchema ▸ hl.reads)

theorem loadBatch_cause {b : Batch} {offset : Nat} (hoff : offset ≤ b.rows) {c : Chunk} (hc : s.Loading c)
    {error : SortError} (h : (c.load b s.projection offset schedule).result = .error error) :
    s.BatchCause b error ∧ ¬s.Loadable b := by
  have hload := Chunk.load_spec hc.wellFormed b s.projection offset schedule
  rw [h] at hload
  obtain ⟨hcause, hrow, _⟩ := hload
  refine ⟨.inl ⟨c, offset, hc.ofSchema, hoff, hcause⟩, fun hb => ?_⟩
  obtain ⟨r, hr, hnone⟩ := hrow ((admits_iff hc.ofSchema).mpr ⟨hoff, hb.toAccepts⟩)
  obtain ⟨row, hg, _⟩ := hb.gives hr
  exact hnone row (hc.ofSchema ▸ hg)

theorem not_loadable_of_oversized {b : Batch} {offset : Nat} {c c' : Chunk} {opened contents : List Row}
    (hc : s.Filling c opened) {o : LoadOutcome} {placed : List Nat}
    (hl : c.Loaded b s.projection offset c' o placed contents) (hs : o.status ≠ .success) (hempty : c'.isEmpty) :
    ¬s.Loadable b := by
  intro hb
  obtain ⟨next, rest, hvisible, hfull⟩ := hl.full fun hend => hs (hl.outcome.trans (if_pos hend))
  obtain ⟨row, hg, hfits⟩ := hb.gives (hvisible ▸ List.mem_cons_self)
  have hc' := hc.load hl
  have hnil : opened ++ contents = [] := List.eq_nil_of_length_eq_zero (hc'.length_rows ▸ of_decide_eq_true hempty)
  refine hfull row (hc.ofSchema ▸ hg) (hc'.hasRoom ?_)
  rw [hnil]
  exact hfits

theorem loadBatch_agrees (he : e.Confined cmp schedule) (b : Batch) {offset : Nat} (hoff : offset ≤ b.rows) {c : Chunk}
    {opened : List Row} (hc : s.Filling c opened) :
    Job.Agrees 0 (s.loadBatch e b offset c) (s.loadBatch (cmp.engine schedule) b offset c)
      (fun r => s.Accepts b ∧ ∃ contents closed last,
        s.Divided cmp opened ((b.visibleRows offset).map (b.source s.projection)) contents closed last r)
      (fun error => (s.BatchCause b error ∧ ¬s.Loadable b) ∨
        s.FailedAmong cmp opened ((b.visibleRows offset).map (b.source s.projection)) error) := by
  induction offset, c using Sorter.loadBatch.induct s e b generalizing opened with
  | case1 offset c attempt error h =>
    have h' : (c.load b s.projection offset schedule).result = .error error := he.load_eq hc.wellFormed b s.projection hoff ▸ h
    rw [loadBatch_error h, loadBatch_error h']
    exact .throw (.inl (loadBatch_cause hoff hc.toLoading h'))
  | case2 offset c attempt o h hs =>
    obtain ⟨heq, h', haccepts, placed, contents, hl⟩ := loaded_of_ok he hc.toLoading hoff h
    rw [loadBatch_success h hs, loadBatch_success h' hs, heq]
    have hend : offset + o.consumed = b.rows := by
      by_contra hne
      have hout := hl.outcome
      rw [if_neg hne, hs] at hout
      cases hout
    have hreads := hc.reads hl
    rw [hl.visible, hend, b.visibleRows_rows, List.append_nil]
    exact .pure ⟨haccepts, contents, [], _, .kept hreads (hc.load hl)⟩
  | case3 offset c attempt o h hs hempty =>
    obtain ⟨heq, h', _, placed, contents, hl⟩ := loaded_of_ok he hc.toLoading hoff h
    have hempty' : (c.load b s.projection offset schedule).state.isEmpty := heq ▸ hempty
    rw [loadBatch_oversized h hs hempty, loadBatch_oversized h' hs hempty']
    exact .throw (.inl ⟨.inr ⟨_, rfl⟩, not_loadable_of_oversized hc hl hs hempty'⟩)
  | case4 offset c attempt o h hs hempty hlt ih =>
    obtain ⟨heq, h', haccepts, placed, contents, hl⟩ := loaded_of_ok he hc.toLoading hoff h
    have hempty' : ¬(c.load b s.projection offset schedule).state.isEmpty := heq ▸ hempty
    -- The chunk is settled, and the batch goes on with an empty one where the load stopped.
    rw [loadBatch_more h hs hempty, loadBatch_more h' hs hempty', heq]
    obtain ⟨next, rest, hvisible, hfull⟩ := hl.full fun hend => hs (hl.outcome.trans (if_pos hend))
    have hc' := hc.load hl
    have hreads := hc.reads hl
    have hne : opened ++ contents ≠ [] := fun hnil =>
      hempty' (decide_eq_true (hc'.length_rows.trans (congrArg List.length hnil)))
    have hsources : (b.visibleRows offset).map (b.source s.projection) = placed.map (b.source s.projection) ++
        (b.visibleRows (offset + o.consumed)).map (b.source s.projection) := by
      rw [hl.visible, List.map_append]
    rw [hsources]
    refine .bind .takeNumber fun number _ => ?_
    refine ((settle_seals he hc' hne).mono (fun _ h => h) fun error h => ?_).bind ?_
    · exact .inr ((failedAmong_of_failedWithin h _).append_left hreads (.refl _))
    intro full hsealed
    refine ((ih number hl.le_rows (s.filling_chunk number)).mono (fun _ h => h) fun error h => ?_).bind ?_
    · exact h.imp_right fun h => h.append_left hreads (List.nil_subperm ..)
    rintro ⟨settled, last⟩ ⟨_, more, closed, rows, hrest⟩
    rw [hvisible, List.map_cons] at hrest ⊢
    exact .pure ⟨haccepts, _, _, _, .close hreads hc' hsealed (hc.ofSchema ▸ hfull) hrest⟩

/-! ### All batches -/

theorem Divided.loadable {b : Batch} {opened contents last : List Row} {closed : List (List Row)}
    {r : List Handle × Chunk} (hb : s.Accepts b)
    (h : s.Divided cmp opened ((b.visibleRows 0).map (b.source s.projection)) contents closed last r) :
    s.Loadable b where
  toAccepts := hb
  rows r hr := by
    obtain ⟨row, hrow, hg⟩ := exists_right_of_forall₂ (List.forall₂_map_left_iff.mp h.reads) hr
    exact ⟨row, hg, Layout.fits_singleton_iff.mp (h.fits row hrow)⟩

theorem loadBatches_agrees (he : e.Confined cmp schedule) (batches : List Batch) {c : Chunk} {opened : List Row}
    (hc : s.Filling c opened) :
    Job.Agrees 0 (s.loadBatches e batches c) (s.loadBatches (cmp.engine schedule) batches c)
      (fun r => (∀ b ∈ batches, s.Loadable b) ∧ ∃ contents closed last,
        s.Divided cmp opened (s.sources batches) contents closed last r)
      (fun error => (∃ b ∈ batches, s.BatchCause b error ∧ ¬s.Loadable b) ∨
        s.FailedAmong cmp opened (s.sources batches) error) := by
  induction batches generalizing c opened with
  | nil => exact .pure ⟨nofun, [], [], opened, .nil hc⟩
  | cons b bs ih =>
    have hsources : s.sources (b :: bs) = (b.visibleRows 0).map (b.source s.projection) ++ s.sources bs :=
      List.flatMap_cons
    rw [hsources]
    refine ((loadBatch_agrees he b (Nat.zero_le b.rows) hc).mono (fun _ h => h) fun error h => ?_).bind ?_
    · exact h.imp (fun hb => ⟨b, List.mem_cons_self, hb⟩) fun h => h.append_right _
    rintro ⟨settled, c'⟩ ⟨hb, contents, closed, last, hd⟩
    refine ((ih hd.filling).mono (fun _ h => h) fun error h => ?_).bind ?_
    · exact h.imp (fun ⟨b', hm, hb'⟩ => ⟨b', List.mem_cons_of_mem _ hm, hb'⟩) fun h =>
        h.append_left hd.reads hd.last_subperm
    rintro ⟨more, c''⟩ ⟨hbs, contents', closed', last', hd'⟩
    exact .pure ⟨List.forall_mem_cons.mpr ⟨hd.loadable hb, hbs⟩, _, _, _, hd.append hd'⟩

theorem ingest_agrees (he : e.Confined cmp schedule) (batches : List Batch) :
    Job.Agrees 0 (s.ingest e batches) (s.ingest (cmp.engine schedule) batches)
      (fun chunks => (∀ b ∈ batches, s.Loadable b) ∧ ∃ contents,
        s.Reads (s.sources batches) contents ∧ List.Forall₂ (s.Sealed cmp) (s.layout.pack Row.payloadLength contents) chunks)
      (fun error => (∃ b ∈ batches, s.BatchCause b error ∧ ¬s.Loadable b) ∨
        s.FailedAmong cmp [] (s.sources batches) error) := by
  have hnew : Job.Agrees 0 s.newChunk s.newChunk (fun c => s.Filling c [])
      (fun error => (∃ b ∈ batches, s.BatchCause b error ∧ ¬s.Loadable b) ∨
        s.FailedAmong cmp [] (s.sources batches) error) :=
    .bind .takeNumber fun number _ => .pure (s.filling_chunk number)
  refine hnew.bind fun c hc => (loadBatches_agrees he batches hc).bind ?_
  rintro ⟨settled, open_⟩ ⟨hloadable, contents, closed, last, hd⟩
  have hpack : s.layout.pack Row.payloadLength contents = closed ++ s.layout.packFrom Row.payloadLength last [] := by
    rw [← hd.packing, List.append_nil, Layout.pack]
  dsimp only
  split
  next hz =>
    have hnil : last = [] := List.eq_nil_of_length_eq_zero (hd.filling.length_rows ▸ of_decide_eq_true hz)
    refine .pure ⟨hloadable, contents, hd.reads, ?_⟩
    rw [hpack, hnil, Layout.packFrom, if_pos List.isEmpty_nil, List.append_nil]
    exact hd.settled
  next hz =>
    have hne : last ≠ [] := fun hnil => hz (decide_eq_true (hd.filling.length_rows.trans (congrArg List.length hnil)))
    refine ((settle_seals he hd.filling hne).mono (fun _ h => h) fun error h => ?_).bind ?_
    · have hall := failedAmong_of_failedWithin (s := s) h []
      rw [← List.append_nil (s.sources batches)]
      exact .inr (hall.append_left hd.reads hd.last_subperm)
    intro h hsealed
    refine .pure ⟨hloadable, contents, hd.reads, ?_⟩
    rw [hpack, Layout.packFrom, if_neg (by rwa [List.isEmpty_iff])]
    exact List.rel_append hd.settled (.cons hsealed .nil)

/-! ### The settled chunks -/

theorem Sealed.settled {orders : (Row → Row → Ordering) → Prop}
    (ho : ∀ ord, orders ord → cmp.Orders s.layout.schema ord) {rows : List Row} {h : Handle} (hs : s.Sealed cmp rows h) :
    s.Settled orders h ∧ h.load.sortedRows.Perm rows := by
  obtain ⟨c, hc, hsort⟩ := hs.sorted
  obtain ⟨hsettled, hperm⟩ := hs.sound.settled ho hc.toHoldable hsort
  exact ⟨hsettled, hperm.trans hc.sortedRows_perm⟩

theorem settled_of_sealed {orders : (Row → Row → Ordering) → Prop}
    (ho : ∀ ord, orders ord → cmp.Orders s.layout.schema ord) {groups : List (List Row)} {chunks : List Handle}
    (h : List.Forall₂ (s.Sealed cmp) groups chunks) :
    (∀ x ∈ chunks, s.Settled orders x) ∧ (rowsOf chunks).Perm groups.flatten := by
  induction h with
  | nil => exact ⟨nofun, .refl _⟩
  | cons hsealed _ ih =>
    obtain ⟨hsettled, hperm⟩ := hsealed.settled ho
    exact ⟨List.forall_mem_cons.mpr ⟨hsettled, ih.1⟩, hperm.append ih.2⟩

theorem rows_pos_of_sealed {groups : List (List Row)} {chunks : List Handle}
    (h : List.Forall₂ (s.Sealed cmp) groups chunks) : ∀ x ∈ chunks, 0 < x.rows := by
  intro x hx
  obtain ⟨_, _, hs⟩ := exists_left_of_forall₂ h hx
  exact hs.rows_pos

theorem filter_rows_of_sealed {groups : List (List Row)} {chunks : List Handle}
    (h : List.Forall₂ (s.Sealed cmp) groups chunks) : chunks.filter (0 < ·.rows) = chunks :=
  List.filter_eq_self.mpr fun x hx => decide_eq_true (rows_pos_of_sealed h x hx)

end Sorter
end ChunkSort
