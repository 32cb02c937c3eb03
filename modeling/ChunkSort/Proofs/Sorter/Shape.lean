import Mathlib
import ChunkSort.Proofs.Sorter.Correctness

/-!
The shape of a sorted run. However sparsely chunks were filled at the start, a run holds its rows in full chunks and
one rest, so their number alone says how many chunks there are.
-/

namespace ChunkSort

/-- The run holds `n` rows in as few chunks as they need. -/
structure SortedRun.Compact (run : SortedRun) (capacity n : Nat) : Prop where
  count : run.chunks.length = (n + capacity - 1) / capacity
  full : ∀ h ∈ run.chunks.dropLast, h.rows = capacity
  nonempty : ∀ h ∈ run.chunks, 0 < h.rows
  rows : run.rows = n

namespace Sorter

variable {s : Sorter} {cmp : Comparator} {orders : (Row → Row → Ordering) → Prop} {capacity : Nat} {run : Run}

theorem Packed.pos (hcap : 0 < capacity) (hp : Packed capacity run) : ∀ h ∈ run, 0 < h.load.rows := by
  induction run with
  | nil => exact nofun
  | cons h run ih => exact List.forall_mem_cons.mpr ⟨hp.head_pos hcap, ih hp.tail⟩

theorem Packed.full (hp : Packed capacity run) : ∀ h ∈ run.dropLast, h.load.rows = capacity := by
  induction run with
  | nil => exact nofun
  | cons h run ih =>
    cases run with
    | nil => exact nofun
    | cons h' run =>
      rw [List.dropLast_cons_cons]
      exact List.forall_mem_cons.mpr ⟨hp.head_full (List.cons_ne_nil h' run), ih hp.tail⟩

theorem Packed.count (hcap : 0 < capacity) (hp : Packed capacity run) :
    run.length = (totalLength (run.map (·.load.rows)) + capacity - 1) / capacity := by
  -- Each full chunk counts once, and so does the rest.
  induction run with
  | nil => exact (Nat.div_eq_of_lt (by simpa using hcap)).symm
  | cons h run ih =>
    rw [List.map_cons, totalLength_cons, List.length_cons]
    cases run with
    | nil =>
      obtain ⟨hpos, hle⟩ := hp
      have hrest : h.load.rows + 0 + capacity - 1 = h.load.rows - 1 + capacity := by omega
      rw [List.map_nil, totalLength_nil, hrest, Nat.add_div_right _ hcap,
        Nat.div_eq_of_lt (Nat.lt_of_lt_of_le (Nat.sub_lt hpos Nat.one_pos) hle)]
      rfl
    | cons h' run =>
      rw [hp.head_full (List.cons_ne_nil h' run), ih hp.tail]
      generalize totalLength ((h' :: run).map (·.load.rows)) = n
      rw [show capacity + n + capacity - 1 = n + capacity - 1 + capacity by omega, Nat.add_div_right _ hcap]

theorem SoundRun.length_rowsOf (h : s.SoundRun orders run) :
    (rowsOf run).length = totalLength (run.map (·.load.rows)) := by
  induction run with
  | nil => rfl
  | cons x run ih =>
    simp [h.head.sound.load.wellFormed.length_sortedRows, ih h.tail]

theorem SoundRun.compact {run : SortedRun} (h : s.SoundRun orders run.chunks) :
    run.Compact s.layout.capacity (rowsOf run.chunks).length where
  count := h.length_rowsOf ▸ h.packed.count s.layout.capacity_pos
  full x hx := x.rows_eq.trans (h.packed.full x hx)
  nonempty x hx := x.rows_eq ▸ h.packed.pos s.layout.capacity_pos x hx
  rows := by
    rw [h.length_rowsOf]
    exact congrArg totalLength (List.map_congr_left fun x _ => x.rows_eq)

theorem length_sortedRows {chunks : List Chunk} (hc : ∀ c ∈ chunks, c.WellFormed) :
    (chunks.flatMap Chunk.sortedRows).length = totalLength (chunks.map Chunk.rows) := by
  induction chunks with
  | nil => rfl
  | cons c chunks ih =>
    obtain ⟨hc, hrest⟩ := List.forall_mem_cons.mp hc
    simp only [List.flatMap_cons, List.length_append, hc.length_sortedRows, ih hrest, List.map_cons, totalLength_cons]

theorem length_contents {batches : List Batch} {contents : List Row} (h : s.Reads (s.sources batches) contents) :
    contents.length = (batches.flatMap (·.visibleRows 0)).length := by
  rw [← List.length_map Row.id, ids_of_sources h, List.length_flatMap, List.length_flatMap]
  simp only [List.length_map]

/-- What a job makes of its rows is as short as their number allows, whatever the comparator answers: full chunks and one
rest that is not empty. How full the chunks were that it loaded or was given makes no difference. -/
theorem jobs_compact (s : Sorter) (cmp : Comparator) (next : Nat) :
    (∀ batches run, (s.sortBy cmp batches next).result = .ok run →
      run.Compact s.layout.capacity (batches.flatMap (·.visibleRows 0)).length) ∧
    ∀ chunks, (∀ c ∈ chunks, c.WellFormed) → ∀ run, (s.mergeBy cmp chunks next).result = .ok run →
      run.Compact s.layout.capacity (totalLength (chunks.map Chunk.rows)) := by
  constructor
  · intro batches run h
    obtain ⟨_, contents, chunks, hreads, hsealed, hrun⟩ := (sortBy_result s cmp batches next).of_ok h
    have hlen := (hrun.perm_contents (orders_none cmp _) hsealed).length_eq
    rw [length_contents hreads] at hlen
    exact hlen ▸ hrun.sound.compact
  · intro chunks hc run h
    obtain ⟨handles, hloads, hrun⟩ := (mergeBy_result s cmp hc next).of_ok h
    have hlen := (hrun.perm_loads hloads).length_eq
    rw [length_sortedRows hc] at hlen
    exact hlen ▸ hrun.sound.compact

def sparseChunk : Chunk := ((Chunk.empty 9 [.int64] 5 (some 0)).load (twoOfThree 7) (some [1]) 2).state

theorem wellFormed_sparseChunk : sparseChunk.WellFormed :=
  ((Chunk.wellFormed_empty 9 [.int64] (by decide) (some 0)).load (twoOfThree 7) (some [1]) 2 {}).1

theorem jobs_compact_pairs :
    (∃ run, (pairSorter.sortBy (.constant .gt) [twoOfThree 7, twoOfThree 8] 0).result = .ok run ∧ run.Compact 2 4) ∧
      ∃ run, (pairSorter.mergeBy (.constant .gt) [sparseChunk, sparseChunk, sparseChunk] 10).result = .ok run ∧
        run.Compact 2 3 := by
  have key := jobs_compact pairSorter (.constant .gt)
  have hsort : (pairSorter.sortBy (.constant .gt) [twoOfThree 7, twoOfThree 8] 0).result.isOk = true := by cbv
  have hmerge : (pairSorter.mergeBy (.constant .gt) [sparseChunk, sparseChunk, sparseChunk] 10).result.isOk = true := by
    cbv
  obtain ⟨run, h⟩ := exists_of_isOk hsort
  obtain ⟨run', h'⟩ := exists_of_isOk hmerge
  refine ⟨⟨run, h, (key 0).1 _ run h⟩, run', h', (key 10).2 _ (fun c hc => ?_) run' h'⟩
  obtain rfl : c = sparseChunk := by simpa using hc
  exact wellFormed_sparseChunk

end Sorter
end ChunkSort
