import ChunkSort.Proofs.Sorter.Rescheduled

/-!
Jobs with and without spill files. They come to the same under any two schedules, except that the schedule decides how many
chunks are resident at once and which of several failures is reported.
-/

namespace ChunkSort

/-- The same records in chunks of the same sizes, after the same merges. If they are to agree exactly then as many chunks
were resident at once. -/
structure SortedRun.Matches (exact : Prop) (run run' : SortedRun) : Prop where
  records : run.records = run'.records
  rows : run.chunks.map Handle.rows = run'.chunks.map Handle.rows
  chunks : run.stats.chunks = run'.stats.chunks
  rounds : run.stats.rounds = run'.stats.rounds
  merges : run.stats.merges = run'.stats.merges
  peak : exact → run.stats.peak = run'.stats.peak

namespace Sorter

variable {s : Sorter} {cmp : Comparator} {answer : Row → Row → Except DataError Ordering} {exact : Prop}
  {spills spills' : Bool} {schedule schedule' : Schedule}

theorem runJob_together {job job' : Job SortedRun} {next next' : Nat}
    (h : Job.Together exact (fun run _ run' _ => run.Matches exact run') (job ⟨next, { limit := s.window }, 0⟩)
      (job' ⟨next', { limit := s.window }, 0⟩)) :
    Outcomes (SortedRun.Matches exact) (SortError.Alike exact) ((s.spilling spills schedule).runJob next job).result
      ((s.spilling spills' schedule').runJob next' job').result := by
  unfold runJob EStateM.run
  dsimp only [spilling]
  match job ⟨next, { limit := s.window }, 0⟩, job' ⟨next', { limit := s.window }, 0⟩, h with
  | .ok _ _, .ok _ _, hrun => exact hrun
  | .error _ _, .error _ _, he => exact he

section

variable (ha : cmp.Answers s.layout.schema answer) (hspills : exact → spills = true) (hs : exact → schedule = schedule')
include ha hspills hs

theorem merge_together {chunks chunks' : List Handle} (h : s.Mirrored exact chunks chunks')
    (hc : ∀ x ∈ chunks, (s.spilling spills schedule).Settled (fun _ => False) x)
    (hc' : ∀ x ∈ chunks', (s.spilling spills' schedule').Settled (fun _ => False) x) {st st' : JobState}
    (hlevel : st.Level exact True 0 st') (hst : st.Holds 0) (hst' : st'.Holds 0) :
    Job.Together exact (fun run _ run' _ => run.Matches exact run')
      ((s.spilling spills schedule).merge (cmp.engine schedule) chunks st)
      ((s.spilling spills' schedule').merge (cmp.engine schedule') chunks' st') := by
  have hruns : List.Forall₂ (s.Mirrored exact) (startRuns chunks) (startRuns chunks') := by
    rw [List.forall₂_map_left_iff, List.forall₂_map_right_iff]
    refine (List.rel_filter (R := s.Mirrors exact) (fun h h' hm => ?_) h).imp fun _ _ hm => .cons hm .nil
    change decide (0 < h.rows) = true ↔ decide (0 < h'.rows) = true
    rw [hm.rows]
  refine (mergeRounds_together ha hspills hs 0 hruns (singleRuns chunks hc) (singleRuns chunks' hc') hlevel hst hst').bind ?_
  rintro ⟨run, rounds⟩ t ⟨run', _⟩ t' _ _ ⟨ht, hrun, rfl⟩
  exact ⟨hrun.records, hrun.rows, hruns.length_eq, rfl, ht.merges trivial, fun hx => congrArg Window.peak (ht.window hx)⟩

omit ha hspills hs in
theorem level_start (next next' : Nat) :
    JobState.Level exact True 0 ⟨next, { limit := s.window }, 0⟩ ⟨next', { limit := s.window }, 0⟩ :=
  ⟨fun _ => rfl, fun _ => rfl, fun _ => ⟨(s.holds_start next).roomy, (s.holds_start next').roomy⟩⟩

theorem sortBy_together (batches : List Batch) (next next' : Nat) :
    Outcomes (SortedRun.Matches exact) (SortError.Alike exact)
      ((s.spilling spills schedule).sortBy cmp batches next).result
      ((s.spilling spills' schedule').sortBy cmp batches next').result := by
  refine runJob_together ((ingest_inStep hspills hs cmp batches _ _ (level_start next next')).bind ?_)
  intro chunks t chunks' t' hingest hingest' ⟨ht, hchunks⟩
  obtain ⟨hholds, hsettled, _⟩ := ingested (s := s.spilling spills schedule) hingest
  obtain ⟨hholds', hsettled', _⟩ := ingested (s := s.spilling spills' schedule') hingest'
  exact merge_together ha hspills hs hchunks hsettled hsettled' ht hholds hholds'

theorem mergeBy_together {chunks : List Chunk} (hc : ∀ c ∈ chunks, c.WellFormed) (next next' : Nat) :
    Outcomes (SortedRun.Matches exact) (SortError.Alike exact)
      ((s.spilling spills schedule).mergeBy cmp chunks next).result
      ((s.spilling spills' schedule').mergeBy cmp chunks next').result := by
  refine runJob_together ((adopt_inStep hspills cmp chunks hc _ _ (level_start next next')).bind ?_)
  intro handles t handles' t' hadopt hadopt' ⟨ht, hhandles⟩
  obtain ⟨hholds, hsettled, _⟩ := adopted (s := s.spilling spills schedule) hc hadopt
  obtain ⟨hholds', hsettled', _⟩ := adopted (s := s.spilling spills' schedule') hc hadopt'
  exact merge_together ha hspills hs hhandles hsettled hsettled' ht hholds hholds'

end

/-- Two merges in a window of eight chunks. If they take turns then both hold their chunks at the same time. -/
example :
    let s : Sorter := { pairSorter with window := 8, window_ge := by decide }
    let peak := fun schedule => ((s.spilling false schedule).sortBy (.constant .gt)
      [twoOfThree 6, twoOfThree 7, twoOfThree 8, twoOfThree 9] 0).result.map (·.stats.peak)
    peak {} = .ok 4 ∧ peak { tasks := fun _ _ => [0, 1, 0, 1] } = .ok 8 := by
  cbv

end Sorter
end ChunkSort
