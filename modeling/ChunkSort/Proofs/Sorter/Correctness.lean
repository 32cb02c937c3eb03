import Mathlib
import ChunkSort.Proofs.Sorter.Ingest
import ChunkSort.Proofs.Sorter.Tournament

/-!
Whole jobs. A sort or merge that succeeds gives out the rows it was given, each once and as it is, under every
comparator; under a total preorder of the contents it gives them out in order.
-/

namespace ChunkSort

def recordSources (chunks : List Chunk) : List SourceRow := (chunks.flatMap Chunk.slotRecords).map Record.toSource

/-- The records of the run hold `rows`, and in some order these are the contents of the sources. -/
structure SortedRun.Conserves (run : SortedRun) (schema : List ColumnType) (sources : List SourceRow) (rows : List Row) :
    Prop where
  reads : readRecords schema run.records = .ok rows
  perm : ∃ contents, readAll schema sources = .ok contents ∧ rows.Perm contents

/-! ### Slots that are not there -/

/-- The failure is not that a slot was addressed that is not there. -/
def SortError.InBounds : SortError → Prop
  | .fault _ _ (.outOfBounds _) => False
  | _ => True

def Batch.InBounds (b : Batch) : Prop := ∀ row column slot, b.value row column ≠ .error (.outOfBounds slot)

def Comparator.InBounds (cmp : Comparator) (schema : List ColumnType) : Prop :=
  ∀ {a b : Record} {u v : Row}, a.Reads schema u → b.Reads schema v → ∀ slot, cmp a b ≠ .error (.outOfBounds slot)

theorem Batch.inBounds_ofColumns (id : UInt32) (columns : Array (Array Value)) (mask : Option (Array Bool)) :
    (ofColumns id columns mask).InBounds := by
  intro row column slot
  unfold ofColumns
  dsimp only
  split
  next => nofun
  next => split <;> nofun

theorem Comparator.Blamed.inBounds {cmp : Comparator} {schema : List ColumnType} {error : SortError}
    (h : cmp.Blamed schema error) (hcmp : cmp.InBounds schema) : error.InBounds := by
  obtain ⟨chunk, row, cause, a, b, u, v, rfl, ha, hb, he⟩ := h
  cases cause with
  | outOfBounds slot => exact hcmp ha hb slot he
  | _ => trivial

theorem Sorter.BatchCause.inBounds {s : Sorter} {b : Batch} {error : SortError} (h : s.BatchCause b error)
    (hb : b.InBounds) : error.InBounds := by
  rcases h with ⟨c, offset, _, _, ⟨v, _, rfl⟩ | ⟨cause, rfl, hcause⟩⟩ | ⟨row, rfl⟩
  · trivial
  · rcases cause with _ | _ | _ | _ | _ | _ | slot
    case outOfBounds =>
      rcases hcause with hwidth | ⟨row, hsize⟩
      · unfold Chunk.widthError? at hwidth
        split at hwidth
        next => cases hwidth
        next =>
          dsimp only at hwidth
          split at hwidth <;> cases hwidth
      · rcases SourceRow.cause_of_payloadSizeFrom hsize with ⟨column, hvalue⟩ | ⟨_, _, _, hmismatch⟩
        · unfold Batch.source at hvalue
          dsimp only at hvalue
          split at hvalue
          next => exact hb _ _ _ hvalue
          next =>
            split at hvalue
            next => cases hvalue
            next => exact hb _ _ _ hvalue
        · cases hmismatch
    all_goals trivial
  · trivial

namespace Sorter

variable {s : Sorter} {e : Engine} {cmp : Comparator} {orders : (Row → Row → Ordering) → Prop}

theorem rowsOf_reads {chunks : Run} (h : ∀ x ∈ chunks, s.Sound x) :
    List.Forall₂ (fun r row => Record.Reads r s.layout.schema row) (chunks.flatMap (·.load.sortedRecords))
      (rowsOf chunks) :=
  forall₂_flatMap chunks fun x hx => (h x hx).load.ofSchema ▸ (h x hx).load.wellFormed.sortedRecords_reads

theorem SoundRun.reads {chunks : Run} (h : s.SoundRun orders chunks) :
    List.Forall₂ (fun r row => Record.Reads r s.layout.schema row) (chunks.flatMap (·.load.sortedRecords))
      (rowsOf chunks) := rowsOf_reads fun x hx => (h.settled x hx).sound

theorem SoundRun.ids_eq {run : SortedRun} (h : s.SoundRun orders run.chunks) :
    run.ids = .ok ((rowsOf run.chunks).map Row.id) := by
  rw [SortedRun.ids, mapM_eq_ok_iff, List.forall₂_map_right_iff]
  exact h.reads.imp fun _ _ hr => hr.gives.id

theorem SoundRun.records_pairwise {run : SortedRun} (h : s.SoundRun orders run.chunks)
    {ord : Row → Row → Ordering} (hord : orders ord) (ho : cmp.Orders s.layout.schema ord) :
    run.records.Pairwise cmp.Le :=
  pairwise_of_forall₂ h.reads (h.inOrder ord hord) fun _ _ _ _ ha hb hle => (ho.le_iff ha hb).mpr hle

/-! ### Jobs from start to end -/

theorem holds_start (s : Sorter) (next : Nat) : JobState.Holds 0 ⟨next, { limit := s.window }, 0⟩ := ⟨rfl, s.window_ge⟩

theorem runJob_agrees {job job' : Job SortedRun} {Q : SortedRun → Prop} {E : SortError → Prop}
    (h : Job.Agrees 0 job job' Q E) (next : Nat) :
    s.runJob next job = s.runJob next job' ∧ Outcome Q E (s.runJob next job).result := by
  obtain ⟨heq, hout⟩ := h _ (s.holds_start next)
  unfold runJob EStateM.run
  rw [← heq]
  refine ⟨rfl, ?_⟩
  cases hj : job ⟨next, { limit := s.window }, 0⟩ with
  | ok run st =>
    rw [hj] at hout
    exact hout.2
  | error err st =>
    rw [hj] at hout
    exact hout

theorem exists_of_runJob {job : Job SortedRun} {next : Nat} {run : SortedRun} (h : (s.runJob next job).result = .ok run) :
    ∃ st', job ⟨next, { limit := s.window }, 0⟩ = .ok run st' := by
  unfold runJob EStateM.run at h
  cases hj : job ⟨next, { limit := s.window }, 0⟩ with
  | ok run' st' =>
    rw [hj] at h
    cases h
    exact ⟨st', rfl⟩
  | error error st' =>
    rw [hj] at h
    cases h

theorem exists_of_sortBy {batches : List Batch} {next : Nat} {run : SortedRun}
    (h : (s.sortBy cmp batches next).result = .ok run) :
    ∃ settled st st', s.ingest (cmp.engine s.schedule) batches ⟨next, { limit := s.window }, 0⟩ = .ok settled st ∧
      s.merge (cmp.engine s.schedule) settled st = .ok run st' := by
  obtain ⟨st', hjob⟩ := exists_of_runJob h
  obtain ⟨settled, st, hingest, hmerge⟩ := Job.bind_eq_ok.mp hjob
  exact ⟨settled, st, st', hingest, hmerge⟩

theorem ingested {batches : List Batch} {next : Nat} {chunks : List Handle} {st : JobState}
    (h : s.ingest (cmp.engine s.schedule) batches ⟨next, { limit := s.window }, 0⟩ = .ok chunks st) :
    st.Holds 0 ∧ (∀ x ∈ chunks, s.Settled (fun _ => False) x) ∧ ∃ contents, s.Reads (s.sources batches) contents ∧
      List.Forall₂ (s.Sealed cmp) (s.layout.pack Row.payloadLength contents) chunks := by
  obtain ⟨hst, _, contents, hreads, hsealed⟩ :=
    (ingest_agrees (cmp.engine_confined s.schedule) batches).of_ok (s.holds_start next) h
  exact ⟨hst, (settled_of_sealed (orders_none cmp _) hsealed).1, contents, hreads, hsealed⟩

theorem exists_of_mergeBy {chunks : List Chunk} {next : Nat} {run : SortedRun}
    (h : (s.mergeBy cmp chunks next).result = .ok run) :
    ∃ handles st st', s.adopt (cmp.engine s.schedule) chunks ⟨next, { limit := s.window }, 0⟩ = .ok handles st ∧
      s.merge (cmp.engine s.schedule) handles st = .ok run st' := by
  obtain ⟨st', hjob⟩ := exists_of_runJob h
  obtain ⟨handles, st, hadopt, hmerge⟩ := Job.bind_eq_ok.mp hjob
  exact ⟨handles, st, st', hadopt, hmerge⟩

section

variable (ho : ∀ ord, orders ord → cmp.Orders s.layout.schema ord) (he : e.Confined cmp s.schedule)
include ho he

theorem sortWith_agrees (batches : List Batch) (next : Nat) :
    s.sortWith e batches next = s.sortBy cmp batches next ∧
      Outcome (fun run => (∀ b ∈ batches, s.Loadable b) ∧ ∃ contents chunks, s.Reads (s.sources batches) contents ∧
          List.Forall₂ (s.Sealed cmp) (s.layout.pack Row.payloadLength contents) chunks ∧ s.Merged cmp orders chunks run)
        (fun error => (∃ b ∈ batches, s.BatchCause b error ∧ ¬s.Loadable b) ∨
          s.FailedAmong cmp [] (s.sources batches) error)
        (s.sortWith e batches next).result := by
  apply runJob_agrees
  refine (ingest_agrees he batches).bind ?_
  rintro chunks ⟨hloadable, contents, hreads, hsealed⟩
  obtain ⟨hsettled, hperm⟩ := settled_of_sealed ho hsealed
  refine (merge_agrees ho he chunks hsettled).mono (fun run hrun => ⟨hloadable, contents, chunks, hreads, hsealed, hrun⟩)
    fun _ h => .inr ?_
  rw [Layout.pack, Layout.flatten_packFrom] at hperm
  have hall := failedAmong_of_failedWithin (s := s) (h.2.mono hperm.subperm) []
  rw [← List.append_nil (s.sources batches)]
  exact hall.append_left hreads (.refl _)

omit ho he in
theorem Merged.count_settled {run : SortedRun} {groups : List (List Row)} {chunks : List Handle}
    (h : s.Merged cmp orders chunks run) (hsealed : List.Forall₂ (s.Sealed cmp) groups chunks) :
    run.stats.chunks = chunks.length := by
  rw [h.count, filter_rows_of_sealed hsealed]

omit ho he in
theorem Merged.perm_contents {run : SortedRun} {contents : List Row} {chunks : List Handle}
    (h : s.Merged cmp orders chunks run) (ho : ∀ ord, orders ord → cmp.Orders s.layout.schema ord)
    (hsealed : List.Forall₂ (s.Sealed cmp) (s.layout.pack Row.payloadLength contents) chunks) :
    (rowsOf run.chunks).Perm contents := by
  have hperm := h.perm.trans (settled_of_sealed ho hsealed).2
  rwa [Layout.pack, Layout.flatten_packFrom] at hperm

omit ho he in
theorem holdable_of_chunkViolation {c : Chunk} (hc : c.WellFormed) (h : s.chunkViolation? c = none) :
    s.Holdable c := by
  unfold chunkViolation? at h
  split at h
  next => cases h
  next hlayout =>
    split at h
    next => cases h
    next hstatus =>
      obtain ⟨hschema, hrows⟩ := not_or.mp hlayout
      exact ⟨hc, not_not.mp hschema, Nat.le_of_not_lt hrows, hstatus⟩

omit ho he in
theorem faulted_of_chunkViolation {c : Chunk} (hc : c.schema = s.layout.schema ∧ c.rows ≤ s.layout.capacity)
    {v : Violation} (h : s.chunkViolation? c = some v) :
    c.status = .fault ∧ SortError.contractViolation v = .contractViolation (.faultedChunk c.id) := by
  have hlayout : ¬(c.schema ≠ s.layout.schema ∨ s.layout.capacity < c.rows) :=
    not_or.mpr ⟨not_not.mpr hc.1, Nat.not_lt_of_le hc.2⟩
  rw [chunkViolation?, if_neg hlayout] at h
  split at h
  next hstatus =>
    cases h
    exact ⟨hstatus, rfl⟩
  next => cases h

omit ho in
theorem adopt_agrees (chunks : List Chunk) (hwf : ∀ c ∈ chunks, c.WellFormed)
    (hsorted : ∀ c ∈ chunks, InOrder orders c.sortedRows) :
    Job.Agrees 0 (s.adopt e chunks) (s.adopt (cmp.engine s.schedule) chunks)
      (fun handles => (∀ h ∈ handles, s.Settled orders h) ∧ handles.map Handle.load = chunks)
      (fun error => ∃ c ∈ chunks, ∃ v, s.chunkViolation? c = some v ∧ error = .contractViolation v) := by
  unfold adopt
  induction chunks with
  | nil => exact .pure ⟨fun _ h => absurd h List.not_mem_nil, rfl⟩
  | cons c chunks ih =>
    have hrest := ih (fun x hx => hwf x (.tail _ hx)) (fun x hx => hsorted x (.tail _ hx))
    rw [List.mapM_cons, List.mapM_cons]
    cases hv : s.chunkViolation? c with
    | some v => exact (Job.Agrees.throw (Q := fun _ => False) ⟨c, List.mem_cons_self, v, hv, rfl⟩).bind fun _ h => h.elim
    | none =>
      refine (park_agrees he (holdable_of_chunkViolation (hwf c List.mem_cons_self) hv)).bind ?_
      rintro h ⟨hsound, hload⟩
      refine (hrest.mono (fun _ h => h) ?_).bind ?_
      · rintro error ⟨x, hx, hcause⟩
        exact ⟨x, .tail _ hx, hcause⟩
      rintro handles ⟨hsettled, hloads⟩
      refine .pure ⟨?_, ?_⟩
      · rintro x (_ | ⟨_, hx⟩)
        · exact ⟨hsound, hload.symm ▸ hsorted c List.mem_cons_self⟩
        · exact hsettled x hx
      · rw [List.map_cons, hload, hloads]

omit ho he in
theorem adopted {chunks : List Chunk} (hc : ∀ c ∈ chunks, c.WellFormed) {next : Nat} {handles : List Handle} {st : JobState}
    (h : s.adopt (cmp.engine s.schedule) chunks ⟨next, { limit := s.window }, 0⟩ = .ok handles st) :
    st.Holds 0 ∧ (∀ x ∈ handles, s.Settled (fun _ => False) x) ∧ handles.map Handle.load = chunks := by
  have horder : ∀ c ∈ chunks, InOrder (fun _ => False) c.sortedRows := fun _ _ => inOrder_none _
  exact (adopt_agrees (cmp.engine_confined s.schedule) chunks hc horder).of_ok (s.holds_start next) h

omit ho he in
theorem length_filter_loads {chunks : List Chunk} {handles : List Handle} (h : handles.map Handle.load = chunks) :
    (handles.filter (0 < ·.rows)).length = (chunks.filter (0 < ·.rows)).length := by
  rw [← h, List.filter_map, List.length_map]
  congr 2
  funext x
  rw [x.rows_eq]
  rfl

theorem mergeWith_agrees (chunks : List Chunk) (hwf : ∀ c ∈ chunks, c.WellFormed)
    (hsorted : ∀ c ∈ chunks, InOrder orders c.sortedRows) (next : Nat) :
    s.mergeWith e chunks next = s.mergeBy cmp chunks next ∧
      Outcome (fun run => ∃ handles, handles.map Handle.load = chunks ∧ s.Merged cmp orders handles run)
        (fun error => (∃ c ∈ chunks, ∃ v, s.chunkViolation? c = some v ∧ error = .contractViolation v) ∨
          (2 ≤ (chunks.filter (0 < ·.rows)).length ∧
            cmp.FailedWithin s.layout.schema (chunks.flatMap Chunk.sortedRows) error))
        (s.mergeWith e chunks next).result := by
  apply runJob_agrees
  refine ((adopt_agrees he chunks hwf hsorted).mono (fun _ h => h) fun _ h => .inl h).bind ?_
  rintro handles ⟨hsettled, hloads⟩
  refine (merge_agrees ho he handles hsettled).mono (fun run hrun => ⟨handles, hloads, hrun⟩) fun _ h => .inr ?_
  rw [← length_filter_loads hloads, ← hloads, List.flatMap_map]
  exact h

omit ho he in
theorem sortBy_result (s : Sorter) (cmp : Comparator) (batches : List Batch) (next : Nat) :
    Outcome (fun run => (∀ b ∈ batches, s.Loadable b) ∧ ∃ contents chunks, s.Reads (s.sources batches) contents ∧
        List.Forall₂ (s.Sealed cmp) (s.layout.pack Row.payloadLength contents) chunks ∧
        s.Merged cmp (fun _ => False) chunks run)
      (fun error => (∃ b ∈ batches, s.BatchCause b error ∧ ¬s.Loadable b) ∨
        s.FailedAmong cmp [] (s.sources batches) error)
      (s.sortBy cmp batches next).result :=
  (sortWith_agrees (orders_none cmp _) (cmp.engine_confined s.schedule) batches next).2

omit ho he in
theorem mergeBy_result (s : Sorter) (cmp : Comparator) {chunks : List Chunk} (hwf : ∀ c ∈ chunks, c.WellFormed) (next : Nat) :
    Outcome (fun run => ∃ handles, handles.map Handle.load = chunks ∧ s.Merged cmp (fun _ => False) handles run)
      (fun error => (∃ c ∈ chunks, ∃ v, s.chunkViolation? c = some v ∧ error = .contractViolation v) ∨
        (2 ≤ (chunks.filter (0 < ·.rows)).length ∧
          cmp.FailedWithin s.layout.schema (chunks.flatMap Chunk.sortedRows) error))
      (s.mergeBy cmp chunks next).result :=
  (mergeWith_agrees (orders_none cmp _) (cmp.engine_confined s.schedule) chunks hwf (fun _ _ => inOrder_none _) next).2

omit ho he in
theorem Merged.perm_loads {run : SortedRun} {chunks : List Chunk} {handles : List Handle}
    (h : s.Merged cmp orders handles run) (hloads : handles.map Handle.load = chunks) :
    (rowsOf run.chunks).Perm (chunks.flatMap Chunk.sortedRows) := by
  rw [← hloads, List.flatMap_map]
  exact h.perm

end

/-! ### Main results -/

theorem SoundRun.conserves {run : SortedRun} (h : s.SoundRun orders run.chunks) {sources : List SourceRow}
    {contents : List Row} (hreads : s.Reads sources contents) (hperm : (rowsOf run.chunks).Perm contents) :
    run.Conserves s.layout.schema sources (rowsOf run.chunks) :=
  ⟨readRecords_eq h.reads, contents, readAll_eq hreads, hperm⟩

theorem recordSources_reads {chunks : List Chunk} (hc : ∀ c ∈ chunks, c.WellFormed ∧ c.schema = s.layout.schema) :
    s.Reads (recordSources chunks) (chunks.flatMap Chunk.slotRows) := by
  have hslots : List.Forall₂ (fun r row => Record.Reads r s.layout.schema row) (chunks.flatMap Chunk.slotRecords)
      (chunks.flatMap Chunk.slotRows) :=
    forall₂_flatMap chunks fun c hm => (hc c hm).2 ▸ (hc c hm).1.slotRecords_reads
  exact List.forall₂_map_left_iff.mpr (hslots.imp fun _ _ hr => hr.gives)

theorem sortedRows_perm_slotRows {chunks : List Chunk} (hc : ∀ c ∈ chunks, c.WellFormed) :
    (chunks.flatMap Chunk.sortedRows).Perm (chunks.flatMap Chunk.slotRows) :=
  List.Perm.flatMap_left chunks fun c hm => (hc c hm).sortedRows_perm

theorem sources_ids (s : Sorter) (batches : List Batch) :
    (s.sources batches).mapM SourceRow.id = .ok (batches.flatMap fun b => (b.visibleRows 0).map (rowId b.id)) := by
  rw [mapM_eq_ok_iff]
  refine forall₂_flatMap batches fun b _ => ?_
  rw [List.forall₂_map_left_iff, List.forall₂_map_right_iff, List.forall₂_same]
  exact fun _ _ => rfl

theorem ids_of_sources {batches : List Batch} {contents : List Row} (h : s.Reads (s.sources batches) contents) :
    contents.map Row.id = batches.flatMap fun b => (b.visibleRows 0).map (rowId b.id) := by
  have hids : (s.sources batches).mapM SourceRow.id = .ok (contents.map Row.id) := by
    rw [mapM_eq_ok_iff, List.forall₂_map_right_iff]
    exact h.imp fun _ _ hg => hg.id
  exact Except.ok.inj (hids.symm.trans (s.sources_ids batches))

theorem sortWith_conserves (he : e.Confined cmp s.schedule) (batches : List Batch) (next : Nat) :
    s.sortWith e batches next = s.sortBy cmp batches next ∧
      Outcome (fun run => ∃ rows, run.Conserves s.layout.schema (s.sources batches) rows)
        (fun error => (∃ b ∈ batches, s.BatchCause b error) ∨ cmp.Blamed s.layout.schema error)
        (s.sortBy cmp batches next).result := by
  -- No order is asked for, so nothing is asked of the comparator.
  have hnone : ∀ ord, (fun _ => False) ord → cmp.Orders s.layout.schema ord := nofun
  obtain ⟨heq, hout⟩ := sortWith_agrees hnone he batches next
  rw [heq] at hout
  refine ⟨heq, hout.mono ?_ ?_⟩
  · rintro run ⟨_, contents, chunks, hreads, hsealed, hrun⟩
    exact ⟨_, hrun.sound.conserves hreads (hrun.perm_contents hnone hsealed)⟩
  · rintro error (⟨b, hb, hcause, _⟩ | hfailed)
    · exact .inl ⟨b, hb, hcause⟩
    · exact .inr hfailed.1

theorem mergeWith_conserves (he : e.Confined cmp s.schedule) {chunks : List Chunk}
    (hc : ∀ c ∈ chunks, c.WellFormed ∧ c.schema = s.layout.schema ∧ c.rows ≤ s.layout.capacity) (next : Nat) :
    s.mergeWith e chunks next = s.mergeBy cmp chunks next ∧
      Outcome (fun run => ∃ rows, run.Conserves s.layout.schema (recordSources chunks) rows)
        (fun error => (∃ c ∈ chunks, c.status = .fault ∧ error = .contractViolation (.faultedChunk c.id)) ∨
          cmp.Blamed s.layout.schema error)
        (s.mergeBy cmp chunks next).result := by
  have hnone : ∀ ord, (fun _ => False) ord → cmp.Orders s.layout.schema ord := nofun
  obtain ⟨heq, hout⟩ := mergeWith_agrees hnone he chunks (fun c hm => (hc c hm).1) (fun _ _ => nofun) next
  rw [heq] at hout
  refine ⟨heq, hout.mono ?_ ?_⟩
  · rintro run ⟨handles, hloads, hrun⟩
    have hreads := recordSources_reads fun c hm => ⟨(hc c hm).1, (hc c hm).2.1⟩
    have hslots := (hrun.perm_loads hloads).trans (sortedRows_perm_slotRows fun c hm => (hc c hm).1)
    exact ⟨_, hrun.sound.conserves hreads hslots⟩
  · rintro error (⟨c, hm, v, hv, rfl⟩ | hfailed)
    · exact .inl ⟨c, hm, faulted_of_chunkViolation (hc c hm).2 hv⟩
    · exact .inr hfailed.2.blamed

/-- Under a total preorder of the contents a sort gives out all visible rows, in order and as they are. -/
theorem sortBy_sorted (s : Sorter) (cmp : Comparator) (ord : Row → Row → Ordering)
    (ho : cmp.Orders s.layout.schema ord) (batches : List Batch) (next : Nat) (run : SortedRun)
    (h : (s.sortBy cmp batches next).result = .ok run) :
    run.records.Pairwise cmp.Le ∧ ∃ rows, run.Conserves s.layout.schema (s.sources batches) rows ∧
      (rows.map Row.id).Perm (batches.flatMap fun b => (b.visibleRows 0).map (rowId b.id)) ∧
      run.ids = .ok (rows.map Row.id) := by
  have hcmp : ∀ ord', ord' = ord → cmp.Orders s.layout.schema ord' := fun _ he => he ▸ ho
  have hout := (sortWith_agrees hcmp (cmp.engine_confined s.schedule) batches next).2
  change Outcome _ _ (s.sortBy cmp batches next).result at hout
  rw [h] at hout
  obtain ⟨_, contents, chunks, hreads, hsealed, hrun⟩ := hout
  have hperm := hrun.perm_contents hcmp hsealed
  have hids := hperm.map Row.id
  rw [ids_of_sources hreads] at hids
  exact ⟨hrun.sound.records_pairwise rfl ho, _, hrun.sound.conserves hreads hperm, hids, hrun.sound.ids_eq⟩

def pairSorter : Sorter where
  layout := ⟨[.int64], 2, none, by decide, by decide⟩
  window := 4
  projection := some [1]
  spills := true
  window_ge := by decide
  projection_length := by simp

def twoOfThree (id : UInt32) : Batch :=
  .ofColumns id #[#[.null, .null, .null], #[.int64 2, .null, .int64 3]] (some #[true, false, true])

theorem sortBy_sorted_pairs :
    ∃ run, (pairSorter.sortBy Comparator.byId.reversed [twoOfThree 7, twoOfThree 8] 0).result = .ok run ∧
      run.records.Pairwise Comparator.byId.reversed.Le ∧
      ∃ rows, run.Conserves [.int64] (pairSorter.sources [twoOfThree 7, twoOfThree 8]) rows ∧
        (rows.map Row.id).Perm [rowId 7 0, rowId 7 2, rowId 8 0, rowId 8 2] ∧ run.ids = .ok (rows.map Row.id) := by
  have hok : (pairSorter.sortBy Comparator.byId.reversed [twoOfThree 7, twoOfThree 8] 0).result.isOk = true := by cbv
  cases h : (pairSorter.sortBy Comparator.byId.reversed [twoOfThree 7, twoOfThree 8] 0).result with
  | error error =>
    rw [h] at hok
    cases hok
  | ok run =>
    exact ⟨run, rfl, sortBy_sorted pairSorter _ _ (Comparator.byId_orders _).reversed _ 0 run h⟩

def roomyChunk : Chunk := ((Chunk.empty 9 [.int64] 5 (some 0)).load (twoOfThree 7) (some [1]) 0).state

theorem holdable_roomyChunk : pairSorter.Holdable roomyChunk where
  wellFormed := ((Chunk.wellFormed_empty 9 [.int64] (by decide) (some 0)).load (twoOfThree 7) (some [1]) 0 {}).1
  ofSchema := rfl
  rows_le := by decide
  status := by decide

/-- Under a total preorder of the contents a merge of sorted chunks always succeeds, and is in order. -/
theorem mergeBy_sorted (s : Sorter) (cmp : Comparator) (ord : Row → Row → Ordering)
    (ho : cmp.Orders s.layout.schema ord) (chunks : List Chunk) (hc : ∀ c ∈ chunks, s.Holdable c)
    (hs : ∀ c ∈ chunks, c.sortedRecords.Pairwise cmp.Le) (next : Nat) :
    ∃ run, (s.mergeBy cmp chunks next).result = .ok run ∧ run.records.Pairwise cmp.Le ∧
      ∃ rows, run.Conserves s.layout.schema (recordSources chunks) rows := by
  have hcmp : ∀ ord', ord' = ord → cmp.Orders s.layout.schema ord' := fun _ he => he ▸ ho
  have hsorted : ∀ c ∈ chunks, InOrder (· = ord) c.sortedRows := by
    rintro c hm _ rfl
    have hreads := (hc c hm).wellFormed.sortedRecords_reads
    rw [(hc c hm).ofSchema] at hreads
    exact pairwise_of_forall₂ hreads.flip (hs c hm) fun _ _ _ _ hu hv hle => (ho.le_iff hu hv).mp hle
  have hout := (mergeWith_agrees hcmp (cmp.engine_confined s.schedule) chunks (fun c hm => (hc c hm).wellFormed) hsorted next).2
  change Outcome _ _ (s.mergeBy cmp chunks next).result at hout
  cases hres : (s.mergeBy cmp chunks next).result with
  | error error =>
    rw [hres] at hout
    -- Neither cause of a failure is left.
    rcases hout with ⟨c, hm, v, hv, _⟩ | hfailed
    · obtain ⟨hstatus, _⟩ := faulted_of_chunkViolation ⟨(hc c hm).ofSchema, (hc c hm).rows_le⟩ hv
      exact absurd hstatus (hc c hm).status
    · exact absurd hfailed.2.blamed (ho.not_blamed error)
  | ok run =>
    rw [hres] at hout
    obtain ⟨handles, hloads, hrun⟩ := hout
    have hreads := recordSources_reads fun c hm => ⟨(hc c hm).wellFormed, (hc c hm).ofSchema⟩
    have hslots := (hrun.perm_loads hloads).trans (sortedRows_perm_slotRows fun c hm => (hc c hm).wellFormed)
    exact ⟨run, rfl, hrun.sound.records_pairwise rfl ho, _, hrun.sound.conserves hreads hslots⟩

theorem mergeBy_sorted_pairs :
    ∃ run, (pairSorter.mergeBy Comparator.byId [roomyChunk, .empty 1 [.int64] 1 none, roomyChunk] 10).result = .ok run ∧
      run.records.Pairwise Comparator.byId.Le ∧
      ∃ rows, run.Conserves [.int64] (recordSources [roomyChunk, .empty 1 [.int64] 1 none, roomyChunk]) rows := by
  have hempty : pairSorter.Holdable (.empty 1 [.int64] 1 none) :=
    ⟨Chunk.wellFormed_empty _ _ (by decide) _, Chunk.schema_empty .., Nat.zero_le _, nofun⟩
  have hsorted : roomyChunk.sortedRecords.Pairwise Comparator.byId.Le := by
    have hrecords : roomyChunk.sortedRecords = [roomyChunk.recordAt 0, roomyChunk.recordAt 1] := by cbv
    rw [hrecords, List.pairwise_pair]
    exact ⟨.lt, rfl, by decide⟩
  have hnil : (Chunk.empty 1 [.int64] 1 none).sortedRecords.Pairwise Comparator.byId.Le := by
    rw [Chunk.sortedRecords_eq]
    exact .nil
  refine mergeBy_sorted pairSorter _ _ (Comparator.byId_orders _) _ ?_ ?_ 10
  · simp only [List.forall_mem_cons, List.not_mem_nil, false_implies, implies_true, and_true]
    exact ⟨holdable_roomyChunk, hempty, holdable_roomyChunk⟩
  · simp only [List.forall_mem_cons, List.not_mem_nil, false_implies, implies_true, and_true]
    exact ⟨hsorted, hnil, hsorted⟩

end Sorter
end ChunkSort
