import ChunkSort.Proofs.Sorter.Correctness

/-!
Bad rows in whole jobs. A job that compares anything does not succeed with one of them: each chunk of two rows or
more is sorted, and every other row comes to a merge whose inputs both have rows.
-/

namespace ChunkSort

def Comparator.FailedOnBad (cmp : Comparator) (schema : List ColumnType) (bad : Row → Prop) (rows : List Row)
    (error : SortError) : Prop :=
  ∃ chunk row cause a b u v, error = .fault chunk row cause ∧ a.Reads schema u ∧ b.Reads schema v ∧
    [u, v].Subperm rows ∧ (bad u ∨ bad v) ∧ cmp a b = .error cause

/-- A job fails exactly when rows are compared and one of them is bad, and then the comparator failed on it. -/
structure Comparator.Stops (cmp : Comparator) (schema : List ColumnType) (bad : Row → Prop) (rows : List Row)
    (compared : Prop) (result : Except SortError SortedRun) : Prop where
  fails_iff : (∃ error, result = .error error) ↔ compared ∧ ∃ row ∈ rows, bad row
  cause : ∀ error, result = .error error → cmp.FailedOnBad schema bad rows error

variable {cmp : Comparator} {schema : List ColumnType} {bad : Row → Prop} {rows : List Row}

theorem Comparator.FailedWithin.onBad {error : SortError} (h : cmp.FailedWithin schema rows error)
    (hf : cmp.FailsOn schema bad) : cmp.FailedOnBad schema bad rows error := by
  obtain ⟨chunk, row, cause, a, b, u, v, he, ha, hb, huv, hcmp⟩ := h
  exact ⟨chunk, row, cause, a, b, u, v, he, ha, hb, huv, (hf ha hb).mp ⟨cause, hcmp⟩, hcmp⟩

theorem Comparator.FailedOnBad.exists_bad {error : SortError} (h : cmp.FailedOnBad schema bad rows error) :
    ∃ row ∈ rows, bad row := by
  obtain ⟨_, _, _, _, _, u, v, _, _, _, huv, hbad, _⟩ := h
  rcases hbad with hbad | hbad
  · exact ⟨u, huv.subset List.mem_cons_self, hbad⟩
  · exact ⟨v, huv.subset (List.mem_cons_of_mem u List.mem_cons_self), hbad⟩

theorem Comparator.FailedWithin.two_le {error : SortError} (h : cmp.FailedWithin schema rows error) : 2 ≤ rows.length := by
  obtain ⟨_, _, _, _, _, _, _, _, _, _, huv, _⟩ := h
  exact huv.length_le

theorem stops_of_outcome {compared : Prop} {result : Except SortError SortedRun} (hf : cmp.FailsOn schema bad)
    (h : Outcome (fun _ => compared → cmp.Clears schema rows)
      (fun error => compared ∧ cmp.FailedWithin schema rows error) result) :
    cmp.Stops schema bad rows compared result := by
  cases result with
  | ok run =>
    refine ⟨⟨nofun, ?_⟩, nofun⟩
    rintro ⟨hcompared, row, hrow, hbad⟩
    exact absurd hbad (h hcompared bad hf row hrow)
  | error error =>
    have hcause := h.2.onBad hf
    refine ⟨⟨fun _ => ⟨h.1, hcause.exists_bad⟩, fun _ => ⟨error, rfl⟩⟩, ?_⟩
    rintro _ ⟨⟩
    exact hcause

namespace Sorter

variable {s : Sorter}

theorem exists_contents (batches : List Batch) (hb : ∀ b ∈ batches, s.Loadable b) :
    ∃ contents, s.Reads (s.sources batches) contents := by
  apply exists_forall₂
  intro r hr
  obtain ⟨b, hm, hr⟩ := List.mem_flatMap.mp hr
  obtain ⟨i, hi, rfl⟩ := List.mem_map.mp hr
  obtain ⟨row, hg, _⟩ := (hb b hm).rows i hi
  exact ⟨row, hg⟩

theorem sortBy_outcome (hcmp : cmp.NeverFails s.layout.schema) (batches : List Batch) (next : Nat) :
    Outcome (fun _ => ∀ b ∈ batches, s.Loadable b) (fun error => ∃ b ∈ batches, s.BatchCause b error ∧ ¬s.Loadable b)
      (s.sortBy cmp batches next).result := by
  refine (sortBy_result s cmp batches next).mono (fun _ h => h.1) fun error h => ?_
  exact h.resolve_right fun hfailed => hcmp.not_blamed error hfailed.1

theorem sortBy_ok_iff_loadable (hcmp : cmp.NeverFails s.layout.schema) (batches : List Batch) (next : Nat) :
    (∃ run, (s.sortBy cmp batches next).result = .ok run) ↔ ∀ b ∈ batches, s.Loadable b := by
  have hout := sortBy_outcome hcmp batches next
  constructor
  · rintro ⟨run, hr⟩
    exact hout.of_ok hr
  · intro hb
    cases hr : (s.sortBy cmp batches next).result with
    | ok run => exact ⟨run, rfl⟩
    | error error =>
      obtain ⟨b, hm, _, hnot⟩ := hout.of_error hr
      exact absurd (hb b hm) hnot

theorem Merged.clears_contents {orders : (Row → Row → Ordering) → Prop}
    (ho : ∀ ord, orders ord → cmp.Orders s.layout.schema ord) {run : SortedRun} {contents : List Row}
    {chunks : List Handle} (h : s.Merged cmp orders chunks run)
    (hsealed : List.Forall₂ (s.Sealed cmp) (s.layout.pack Row.payloadLength contents) chunks)
    (htwo : 2 ≤ contents.length) : cmp.Clears s.layout.schema contents := by
  by_cases hmerged : 2 ≤ run.stats.chunks
  · exact (h.clears hmerged).subset (h.perm_contents ho hsealed).symm.subset
  have hwhole : (s.layout.pack Row.payloadLength contents).flatten = contents := Layout.flatten_packFrom ..
  rw [h.count_settled hsealed] at hmerged
  generalize s.layout.pack Row.payloadLength contents = groups at hsealed hwhole
  subst hwhole
  cases hsealed with
  | nil => exact cmp.clears_nil _
  | cons hs hrest =>
    cases hrest with
    | nil =>
      rw [List.flatten_singleton] at htwo ⊢
      obtain ⟨c, hc, hsort⟩ := hs.sorted
      have hclears := Chunk.sort_clears hc.wellFormed (congrArg Attempt.result hsort) (hc.length_rows ▸ htwo)
      exact hc.ofSchema ▸ hclears.subset hc.sortedRows_perm.symm.subset
    | cons _ _ => exact absurd (Nat.le_add_left ..) hmerged

/-- No bad row comes through a job in which rows are compared: a sort of two rows or more, or a merge of two chunks
or more that have rows. -/
theorem jobs_stop (s : Sorter) (cmp : Comparator) (bad : Row → Prop) (hf : cmp.FailsOn s.layout.schema bad) (next : Nat) :
    (∀ batches : List Batch, (∀ b ∈ batches, s.Loadable b) →
      ∃ rows, readAll s.layout.schema (s.sources batches) = .ok rows ∧
        cmp.Stops s.layout.schema bad rows (2 ≤ rows.length) (s.sortBy cmp batches next).result) ∧
    ∀ chunks : List Chunk, (∀ c ∈ chunks, c.WellFormed ∧ s.chunkViolation? c = none) →
      ∃ rows, readAll s.layout.schema (recordSources chunks) = .ok rows ∧
        cmp.Stops s.layout.schema bad rows (2 ≤ (chunks.filter (0 < ·.rows)).length)
          (s.mergeBy cmp chunks next).result := by
  have hnone : ∀ ord, (fun _ => False) ord → cmp.Orders s.layout.schema ord := nofun
  constructor
  · intro batches hb
    obtain ⟨contents, hreads⟩ := exists_contents batches hb
    refine ⟨contents, readAll_eq hreads, stops_of_outcome hf ?_⟩
    refine (sortWith_agrees hnone (cmp.engine_confined s.schedule) batches next).2.mono ?_ ?_
    · rintro run ⟨_, contents', chunks, hreads', hsealed, hrun⟩ htwo
      obtain rfl := hreads.unique hreads'
      exact hrun.clears_contents hnone hsealed htwo
    · rintro error (⟨b, hm, _, hnot⟩ | hfailed)
      · exact absurd (hb b hm) hnot
      · exact ⟨(hfailed.2 contents hreads).two_le, hfailed.2 contents hreads⟩
  · intro chunks hc
    have hhold : ∀ c ∈ chunks, s.Holdable c := fun c hm => holdable_of_chunkViolation (hc c hm).1 (hc c hm).2
    have hslots := sortedRows_perm_slotRows fun c hm => (hhold c hm).wellFormed
    refine ⟨_, readAll_eq (recordSources_reads fun c hm => ⟨(hhold c hm).wellFormed, (hhold c hm).ofSchema⟩),
      stops_of_outcome hf ?_⟩
    refine (mergeWith_agrees hnone (cmp.engine_confined s.schedule) chunks (fun c hm => (hhold c hm).wellFormed)
      (fun _ _ => nofun) next).2.mono ?_ ?_
    · rintro run ⟨handles, hloads, hrun⟩ htwo
      rw [← length_filter_loads hloads, ← hrun.count] at htwo
      exact (hrun.clears htwo).subset ((hrun.perm_loads hloads).trans hslots).symm.subset
    · rintro error (⟨c, hm, v, hv, _⟩ | ⟨htwo, hfailed⟩)
      · rw [(hc c hm).2] at hv
        cases hv
      · exact ⟨htwo, hfailed.mono hslots.subperm⟩

theorem loadable_twoOfThree (id : UInt32) : pairSorter.Loadable (twoOfThree id) where
  rows_le := show 3 ≤ maxBatchRows by decide
  columns := show ∀ column ∈ [1], column < 2 by decide
  rows r hr := by
    have hsize : ((twoOfThree id).source pairSorter.projection r).payloadSize [.int64] = .ok 0 := by
      have hrows : (twoOfThree id).visibleRows 0 = [0, 2] := rfl
      rw [hrows] at hr
      rcases List.mem_pair.mp hr with rfl | rfl <;> rfl
    obtain ⟨row, hg, _⟩ := SourceRow.exists_gives_of_payloadSize rfl hsize
    exact ⟨row, hg, nofun⟩

theorem jobs_stop_pairs :
    ((Comparator.constant .lt).poisoned 0 (.int64 3) "three").Stops [.int64] (Poisoned 0 (.int64 3))
        [⟨rowId 7 0, [.int64 2]⟩, ⟨rowId 7 2, [.int64 3]⟩] (2 ≤ 2)
        (pairSorter.sortBy ((Comparator.constant .lt).poisoned 0 (.int64 3) "three") [twoOfThree 7] 0).result ∧
      ((Comparator.constant .lt).poisoned 0 (.int64 3) "three").Stops [.int64] (Poisoned 0 (.int64 3))
        [⟨rowId 7 0, [.int64 2]⟩, ⟨rowId 7 2, [.int64 3]⟩] (2 ≤ 1)
        (pairSorter.mergeBy ((Comparator.constant .lt).poisoned 0 (.int64 3) "three")
          [.empty 1 [.int64] 1 none, roomyChunk] 10).result := by
  have key := jobs_stop pairSorter _ _ (poisoned_failsOn [.int64] Nat.one_pos (.int64 3) "three" .lt)
  obtain ⟨rows, hrows, hsort⟩ := (key 0).1 [twoOfThree 7] fun b hb => List.mem_singleton.mp hb ▸ loadable_twoOfThree 7
  obtain ⟨rows', hrows', hmerge⟩ := (key 10).2 [.empty 1 [.int64] 1 none, roomyChunk] fun c hc => by
    rcases List.mem_pair.mp hc with rfl | rfl
    · exact ⟨Chunk.wellFormed_empty _ _ (by decide) _, rfl⟩
    · exact ⟨holdable_roomyChunk.wellFormed, rfl⟩
  obtain rfl : [⟨rowId 7 0, [.int64 2]⟩, ⟨rowId 7 2, [.int64 3]⟩] = rows := Except.ok.inj hrows
  obtain rfl : [⟨rowId 7 0, [.int64 2]⟩, ⟨rowId 7 2, [.int64 3]⟩] = rows' := Except.ok.inj hrows'
  exact ⟨hsort, hmerge⟩

end Sorter
end ChunkSort
