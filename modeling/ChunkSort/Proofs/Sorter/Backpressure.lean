import ChunkSort.Proofs.Sorter.Correctness

/-!
The chunks that a sort fills. They are the greedy packing of all visible rows, so it makes no difference where a
batch begins or ends.
-/

namespace ChunkSort
namespace Sorter

variable {s : Sorter} {cmp : Comparator}

theorem exists_handed {groups : List (List Row)} {settled : List Handle}
    (h : List.Forall₂ (s.Sealed cmp) groups settled) :
    ∃ handed : List Chunk, List.Forall₂ s.Filling handed groups ∧
      List.Forall₂ (fun c h => c.sort cmp = ⟨h.load, .ok ()⟩) handed settled := by
  induction h with
  | nil => exact ⟨[], .nil, .nil⟩
  | cons hs _ ih =>
    obtain ⟨c, hc, hsort⟩ := hs.sorted
    obtain ⟨handed, hfilling, hsorts⟩ := ih
    exact ⟨c :: handed, .cons hc hfilling, .cons hsort hsorts⟩

theorem Filling.reads_slots {c : Chunk} {rows : List Row} (hc : s.Filling c rows) :
    readRecords s.layout.schema c.slotRecords = .ok rows :=
  readRecords_eq (hc.ofSchema ▸ hc.slotRows ▸ hc.wellFormed.slotRecords_reads)

/-- How a sort divides the visible rows, `handed` being the chunks that went to the in-chunk sort and came back as
the settled ones. They hold the greedy packing of the rows by slot: what is in a chunk fits, and a chunk is
followed by another one only if the next row does not fit. -/
structure Packs (s : Sorter) (cmp : Comparator) (batches : List Batch) (next : Nat) (run : SortedRun)
    (handed : List Chunk) (rows : List Row) : Prop where
  settled : ∃ settled st, s.ingest (cmp.engine s.schedule) batches ⟨next, { limit := s.window }, 0⟩ = .ok settled st ∧
    List.Forall₂ (fun c h => c.sort cmp = ⟨h.load, .ok ()⟩) handed settled
  visible : readAll s.layout.schema (s.sources batches) = .ok rows
  slots : handed.map (readRecords s.layout.schema ·.slotRecords) = (s.layout.pack Row.payloadLength rows).map .ok
  whole : (s.layout.pack Row.payloadLength rows).flatten = rows
  fits : ∀ group ∈ s.layout.pack Row.payloadLength rows, s.layout.Fits (group.map Row.payloadLength)
  closed : (s.layout.pack Row.payloadLength rows).IsChain fun group following =>
    ∃ row ∈ following.head?, ¬s.layout.Fits ((group ++ [row]).map Row.payloadLength)
  count : run.stats.chunks = handed.length

theorem exists_packs {batches : List Batch} {next : Nat} {run : SortedRun}
    (h : (s.sortBy cmp batches next).result = .ok run) : ∃ handed rows, s.Packs cmp batches next run handed rows := by
  have hnone : ∀ ord, (fun _ => False) ord → cmp.Orders s.layout.schema ord := nofun
  obtain ⟨settled, st, st', hingest, hmerge⟩ := exists_of_sortBy h
  obtain ⟨hst, hsettled, rows, hreads, hsealed⟩ := ingested hingest
  obtain ⟨_, hrun⟩ := (merge_agrees hnone (cmp.engine_confined s.schedule) settled hsettled).of_ok hst hmerge
  obtain ⟨handed, hfilling, hsorts⟩ := exists_handed hsealed
  refine ⟨handed, rows, ⟨settled, st, hingest, hsorts⟩, readAll_eq hreads, ?_, Layout.flatten_packFrom .., ?_,
    Layout.isChain_packFrom .., ?_⟩
  · rw [← List.forall₂_eq_eq_eq, List.forall₂_map_left_iff, List.forall₂_map_right_iff]
    exact hfilling.imp fun _ _ hc => hc.reads_slots
  · intro group hgroup
    obtain ⟨c, _, hc⟩ := exists_left_of_forall₂ hfilling hgroup
    exact hc.fits
  · rw [hrun.count_settled hsealed, hsorts.length_eq]

def slotValues (s : Sorter) (c : Chunk) : Except DataError (List (List Value)) :=
  (readRecords s.layout.schema c.slotRecords).map (List.map Row.values)

theorem Packs.slotValues_eq {batches : List Batch} {next : Nat} {run : SortedRun} {handed : List Chunk} {rows : List Row}
    (h : s.Packs cmp batches next run handed rows) :
    handed.map s.slotValues =
      (s.layout.pack (fun values => totalLength (values.map Value.payloadLength)) (rows.map Row.values)).map .ok := by
  have hvalues : handed.map s.slotValues =
      (handed.map (readRecords s.layout.schema ·.slotRecords)).map (Except.map (List.map Row.values)) := by
    rw [List.map_map]
    rfl
  have hpack := Layout.map_packFrom (l := s.layout) Row.values (fun values => totalLength (values.map Value.payloadLength))
    [] rows
  rw [List.map_nil] at hpack
  rw [hvalues, h.slots, Layout.pack, Layout.pack, ← hpack, List.map_map, List.map_map]
  rfl

/-- A sort that succeeds fills its chunks with the greedy packing of all visible rows. Every other sort of the same
values fills them the same way, however these are spread over batches and whatever is between them. -/
theorem sortBy_packs (s : Sorter) (cmp : Comparator) (batches : List Batch) (next : Nat) (run : SortedRun)
    (h : (s.sortBy cmp batches next).result = .ok run) :
    ∃ handed rows, s.Packs cmp batches next run handed rows ∧
      ∀ cmp' batches' next' run' rows', (s.sortBy cmp' batches' next').result = .ok run' →
        readAll s.layout.schema (s.sources batches') = .ok rows' → rows'.map Row.values = rows.map Row.values →
        ∃ handed', s.Packs cmp' batches' next' run' handed' rows' ∧
          handed'.map s.slotValues = handed.map s.slotValues ∧ run'.stats.chunks = run.stats.chunks := by
  obtain ⟨handed, rows, hpacks⟩ := exists_packs h
  refine ⟨handed, rows, hpacks, fun cmp' batches' next' run' rows' h' hvisible hvalues => ?_⟩
  obtain ⟨handed', rows'', hpacks'⟩ := exists_packs h'
  obtain rfl : rows' = rows'' := Except.ok.inj (hvisible.symm.trans hpacks'.visible)
  have hslots : handed'.map s.slotValues = handed.map s.slotValues := by
    rw [hpacks'.slotValues_eq, hpacks.slotValues_eq, hvalues]
  refine ⟨handed', hpacks', hslots, ?_⟩
  rw [hpacks'.count, hpacks.count, ← List.length_map s.slotValues, hslots, List.length_map]

def fourOfSix : Batch :=
  .ofColumns 5 #[.replicate 6 .null, #[.null, .int64 2, .int64 3, .null, .int64 2, .int64 3]]
    (some #[false, true, true, false, true, true])

theorem sortBy_packs_pairs :
    ∃ run run', (pairSorter.sortBy (.constant .gt) [twoOfThree 7, twoOfThree 8] 0).result = .ok run ∧
      (pairSorter.sortBy Comparator.byId [fourOfSix] 3).result = .ok run' ∧
      ∃ handed handed' rows rows', pairSorter.Packs (.constant .gt) [twoOfThree 7, twoOfThree 8] 0 run handed rows ∧
        pairSorter.Packs Comparator.byId [fourOfSix] 3 run' handed' rows' ∧
        handed'.map pairSorter.slotValues = handed.map pairSorter.slotValues ∧ run'.stats.chunks = run.stats.chunks := by
  have hok : (pairSorter.sortBy (.constant .gt) [twoOfThree 7, twoOfThree 8] 0).result.isOk = true := by cbv
  have hok' : (pairSorter.sortBy Comparator.byId [fourOfSix] 3).result.isOk = true := by cbv
  obtain ⟨run, h⟩ := exists_of_isOk hok
  obtain ⟨run', h'⟩ := exists_of_isOk hok'
  obtain ⟨handed, rows, hpacks, hothers⟩ := sortBy_packs pairSorter _ _ 0 run h
  have hrows : readAll [.int64] (pairSorter.sources [twoOfThree 7, twoOfThree 8]) = .ok
      [⟨rowId 7 0, [.int64 2]⟩, ⟨rowId 7 2, [.int64 3]⟩, ⟨rowId 8 0, [.int64 2]⟩, ⟨rowId 8 2, [.int64 3]⟩] := by cbv
  have hrows' : readAll [.int64] (pairSorter.sources [fourOfSix]) = .ok
      [⟨rowId 5 1, [.int64 2]⟩, ⟨rowId 5 2, [.int64 3]⟩, ⟨rowId 5 4, [.int64 2]⟩, ⟨rowId 5 5, [.int64 3]⟩] := by cbv
  obtain rfl := Except.ok.inj (hrows.symm.trans hpacks.visible)
  obtain ⟨handed', hpacks', hslots, hcount⟩ := hothers _ _ 3 run' _ h' hrows' rfl
  exact ⟨run, run', h, h', handed, handed', _, _, hpacks, hpacks', hslots, hcount⟩

end Sorter
end ChunkSort
