import Mathlib
import ChunkSort.Proofs.Sorter.Rounds

/-!
The merge phase never asks for more than it can have. That goes for every schedule of the pool, and the job that runs
the tasks one after the other is one of these.
-/

namespace ChunkSort
namespace Sorter

variable {s : Sorter} {e : Engine} {cmp : Comparator} {orders : (Row → Row → Ordering) → Prop}

/-! ### Jobs as runs of the pool -/

theorem mergeRound_reaches (s : Sorter) (e : Engine) (round : Nat) (runs : List Run) (st : JobState) :
    match s.mergeRound e round runs st with
    | .ok merged st' => s.Reaches e ⟨runs, [], [], st⟩ ⟨merged.1, [], [], st'⟩
    | .error error _ => ∃ pool, s.Reaches e ⟨runs, [], [], st⟩ pool ∧ .error error ∈ pool.tasks := by
  have hruns := s.mergeRound_leads e round runs st
  cases hr : s.mergeRound e round runs st with
  | error error st' =>
    rw [hr] at hruns
    obtain ⟨pool, hreach, hmem, _⟩ := hruns
    exact ⟨pool, ReachesWithin.reaches hreach, hmem⟩
  | ok merged st' =>
    rw [hr] at hruns
    obtain ⟨done, rest, hmerged, hrest, hreach⟩ := hruns
    dsimp only
    rw [hmerged]
    exact (ReachesWithin.reaches hreach).tail (.nextRound rest done st' hrest)

theorem mergeRounds_reaches (s : Sorter) (e : Engine) (round : Nat) (runs : List Run) (st : JobState) :
    match s.mergeRounds e round runs st with
    | .ok r st' => ∃ last, s.Reaches e ⟨runs, [], [], st⟩ ⟨last, [], [], st'⟩ ∧ last.length ≤ 1 ∧ last.flatten = r.1
    | .error error _ => ∃ pool, s.Reaches e ⟨runs, [], [], st⟩ pool ∧ .error error ∈ pool.tasks := by
  induction hn : runs.length using Nat.strongRecOn generalizing round runs st with
  | ind n ih =>
    match runs with
    | [] =>
      rw [mergeRounds]
      exact ⟨[], .refl, Nat.zero_le 1, rfl⟩
    | [run] =>
      rw [mergeRounds]
      exact ⟨[run], .refl, Nat.le_refl 1, List.flatten_singleton⟩
    | x :: y :: rest =>
      have hround := s.mergeRound_reaches e round (x :: y :: rest) st
      rw [mergeRounds, Job.bind_apply]
      cases hr : s.mergeRound e round (x :: y :: rest) st with
      | error error st' =>
        rw [hr] at hround
        exact hround
      | ok r st' =>
        obtain ⟨merged, hlen⟩ := r
        rw [hr] at hround
        have hlt : merged.length < n := by
          rw [hlen, ← hn, List.length_cons, List.length_cons]
          omega
        have hrest := ih merged.length hlt (round + 1) merged st' rfl
        dsimp only
        cases hm : s.mergeRounds e (round + 1) merged st' with
        | error error st'' =>
          rw [hm] at hrest
          obtain ⟨pool, hrest, hfailed⟩ := hrest
          exact ⟨pool, hround.trans hrest, hfailed⟩
        | ok r' st'' =>
          rw [hm] at hrest
          obtain ⟨last, hrest, hlast⟩ := hrest
          exact ⟨last, hround.trans hrest, hlast⟩

/-! ### What no schedule leads to -/

/-- What goes wrong in no schedule. All tasks fit into the window, and one that is about to ask for a lease gets it.
Neither a merge that is under way nor a task that has failed has another cause to fail than the comparator. -/
structure SafePool (s : Sorter) (cmp : Comparator) (pool : Pool) : Prop where
  slots : chunksPerMerge * pool.tasks.length ≤ s.window
  resident : pool.job.window.resident ≤ s.window
  leases : ∀ carry next rest out, .ok (.folding carry (next :: rest) out) ∈ pool.tasks →
    ∃ w, pool.job.window.lease chunksPerMerge = .ok w
  merges : ∀ carry next rest out, .ok (.holding carry next rest out) ∈ pool.tasks → ∀ i j schedule,
    Outcome (fun _ => True) (cmp.Blamed s.layout.schema)
      (MergeSet.merge ⟨carry, next.load, s.layout.destination i, s.layout.destination j⟩ cmp schedule).result
  failures : ∀ error, .error error ∈ pool.tasks → cmp.Blamed s.layout.schema error

variable {limit : Nat} {start : List Run}

theorem SoundPool.merges {pool : Pool} (h : s.SoundPool cmp (fun _ => False) limit start pool) {carry : Chunk} {next : Handle}
    {rest out : Run} (hmem : .ok (.holding carry next rest out) ∈ pool.tasks) (i j : Nat) (schedule : Schedule) :
    Outcome (fun _ => True) (cmp.Blamed s.layout.schema)
      (MergeSet.merge ⟨carry, next.load, s.layout.destination i, s.layout.destination j⟩ cmp schedule).result := by
  obtain ⟨_, pairs, _, _, htasks⟩ := h.shares
  obtain ⟨pair, _, htask⟩ := exists_left_of_forall₂ htasks hmem
  cases htask with
  | holding h =>
    obtain ⟨xs, ys, _, _, hxs, _, hc, _⟩ := h.folding_cases
    refine (merge_outcome cmp schedule hc.holdable hxs.head.sound.load i j).mono (fun _ _ => trivial) fun _ hfailed => ?_
    exact hfailed.blamed

theorem SoundPool.safe {pool : Pool} (h : s.SoundPool cmp (fun _ => False) s.window start pool) : s.SafePool cmp pool where
  slots := h.slots
  resident := by
    rw [h.leased.resident]
    exact Nat.le_trans (Nat.mul_le_mul_left _ List.countP_le_length) h.slots
  leases _ _ _ _ hmem := h.lease hmem
  merges _ _ _ _ hmem := h.merges hmem
  failures _ hmem := (h.failed hmem).blamed

theorem SoundPool.nextRound {runs merged : List Run} {st : JobState}
    (h : s.SoundPool cmp orders limit start ⟨runs, [], merged, st⟩) :
    s.SoundPool cmp orders limit (merged ++ runs) ⟨merged ++ runs, [], [], st⟩ := by
  obtain ⟨done, _, hstart, hdone, hnone⟩ := h.shares
  cases hnone
  refine ⟨fun run hrun => ?_, ⟨[], [], rfl, .nil, .nil⟩, h.limit_ge, Nat.zero_le _, h.leased⟩
  rcases List.mem_append.mp hrun with hrun | hrun
  · obtain ⟨pair, _, hjoined⟩ := exists_left_of_forall₂ hdone hrun
    exact hjoined.sound
  · exact h.sound run (hstart ▸ List.mem_append_right _ hrun)

theorem SoundPool.reaches {pool pool' : Pool} (h : s.SoundPool cmp (fun _ => False) limit start pool)
    (hreach : s.Reaches (cmp.engine s.schedule) pool pool') :
    ∃ start', s.SoundPool cmp (fun _ => False) limit start' pool' := by
  induction hreach with
  | refl => exact ⟨start, h⟩
  | tail _ hstep ih =>
    obtain ⟨start', h'⟩ := ih
    cases hstep with
    | within hstep => exact ⟨start', h'.step (orders_none cmp _) (cmp.engine_confined s.schedule) hstep⟩
    | nextRound => exact ⟨_, h'.nextRound⟩

/-! ### Jobs -/

/-- The merge of these chunks asks for no more than it can have, whatever the schedule. The job follows one of the
schedules, and it fails only if the comparator does. -/
structure NeverOverplans (s : Sorter) (cmp : Comparator) (chunks : List Handle) (st : JobState) : Prop where
  safe : ∀ pool, s.Reaches (cmp.engine s.schedule) ⟨startRuns chunks, [], [], st⟩ pool → s.SafePool cmp pool
  runs : ∀ run st', s.merge (cmp.engine s.schedule) chunks st = .ok run st' →
    ∃ last, s.Reaches (cmp.engine s.schedule) ⟨startRuns chunks, [], [], st⟩ ⟨last, [], [], st'⟩ ∧ last.length ≤ 1 ∧
      last.flatten = run.chunks
  fails : ∀ error st', s.merge (cmp.engine s.schedule) chunks st = .error error st' →
    (∃ pool, s.Reaches (cmp.engine s.schedule) ⟨startRuns chunks, [], [], st⟩ pool ∧ .error error ∈ pool.tasks) ∧
      cmp.Blamed s.layout.schema error

theorem neverOverplans {chunks : List Handle} (hc : ∀ h ∈ chunks, s.Settled (fun _ => False) h) {st : JobState}
    (hst : st.Holds 0) (hlimit : st.window.limit = s.window) : s.NeverOverplans cmp chunks st := by
  have hstart : s.SoundPool cmp (fun _ => False) s.window (startRuns chunks) ⟨startRuns chunks, [], [], st⟩ :=
    hlimit ▸ .start_sound (singleRuns chunks hc).sound hst
  have hsafe : ∀ pool, s.Reaches (cmp.engine s.schedule) ⟨startRuns chunks, [], [], st⟩ pool → s.SafePool cmp pool := by
    intro pool hreach
    obtain ⟨_, hpool⟩ := hstart.reaches hreach
    exact hpool.safe
  have hjob := s.mergeRounds_reaches (cmp.engine s.schedule) 0 (startRuns chunks) st
  refine ⟨hsafe, fun run st' h => ?_, fun error st' h => ?_⟩
  · obtain ⟨rounds, hrounds, _⟩ := merge_eq_ok h
    rw [hrounds] at hjob
    exact hjob
  · rw [merge_eq_error h] at hjob
    obtain ⟨pool, hreach, hfailed⟩ := hjob
    exact ⟨⟨pool, hreach, hfailed⟩, (hsafe pool hreach).failures error hfailed⟩

theorem ingest_neverOverplans {batches : List Batch} {next : Nat} {chunks : List Handle} {st : JobState}
    (h : s.ingest (cmp.engine s.schedule) batches ⟨next, { limit := s.window }, 0⟩ = .ok chunks st) : s.NeverOverplans cmp chunks st := by
  obtain ⟨hst, hsettled, _⟩ := ingested h
  obtain ⟨_, _, hspent, _⟩ := s.ingest_spends (cmp.engine s.schedule) batches _ (s.holds_start next) _ _ h
  exact neverOverplans hsettled hst hspent.limit

theorem adopt_neverOverplans {chunks : List Chunk} (hc : ∀ c ∈ chunks, c.WellFormed) {next : Nat} {handles : List Handle}
    {st : JobState} (h : s.adopt (cmp.engine s.schedule) chunks ⟨next, { limit := s.window }, 0⟩ = .ok handles st) :
    s.NeverOverplans cmp handles st := by
  obtain ⟨hst, hsettled, _⟩ := adopted hc h
  have hsteady := h ▸ s.adopt_steady (cmp.engine s.schedule) chunks ⟨next, { limit := s.window }, 0⟩
  exact neverOverplans hsettled hst (congrArg Window.limit hsteady.1)

def sortPeak : Nat → Nat
  | 0 => 0
  | 1 => 1
  | _ => chunksPerMerge

theorem max_min_one_eq_sortPeak (chunks : Nat) :
    max (min chunks 1) (if 2 ≤ chunks then chunksPerMerge else 0) = sortPeak chunks := by
  match chunks with
  | 0 => rfl
  | 1 => rfl
  | n + 2 =>
    rw [if_pos (Nat.le_add_left 2 n), Nat.min_eq_right (Nat.le_add_left 1 (n + 1))]
    rfl

theorem sortBy_peak {batches : List Batch} {next : Nat} {run : SortedRun} (h : (s.sortBy cmp batches next).result = .ok run) :
    (s.OnOneThread → run.stats.peak = sortPeak run.stats.chunks) ∧
      (run.stats.chunks = 0 ↔ batches.flatMap (·.visibleRows 0) = []) := by
  obtain ⟨contents, chunks, st, _, hreads, hsealed, hpeak, hcost⟩ := sortBy_phases h
  have hcount : run.stats.chunks = chunks.length := by
    rw [hcost.count, List.length_map, filter_rows_of_sealed hsealed]
  constructor
  · intro hs
    rw [hcost.peak hs, hpeak, ← hcount]
    exact max_min_one_eq_sortPeak _
  · rw [hcount, ← hsealed.length_eq, List.length_eq_zero_iff, Layout.pack_eq_nil_iff, ← List.length_eq_zero_iff,
      length_contents hreads, List.length_eq_zero_iff]

theorem mergeBy_peak {chunks : List Chunk} (hc : ∀ c ∈ chunks, c.WellFormed) {next : Nat} {run : SortedRun}
    (h : (s.mergeBy cmp chunks next).result = .ok run) :
    (s.OnOneThread → run.stats.peak = (if 2 ≤ run.stats.chunks then chunksPerMerge else 0)) ∧
      run.stats.chunks = (chunks.filter (0 < ·.rows)).length := by
  obtain ⟨handles, st, _, hloads, hpeak, hcost⟩ := mergeBy_phases hc h
  constructor
  · intro hs
    rw [hcost.peak hs, hpeak, Nat.zero_max]
  · rw [hcost.count, List.length_map, length_filter_loads hloads]

/-- No schedule of a merge phase asks for a lease that is refused or makes a merge step that breaks its contract, so only
the comparator makes it fail. Run on one thread, a job holds four chunks at once exactly when it has two to merge. -/
theorem jobs_never_overplan (s : Sorter) (cmp : Comparator) (next : Nat) :
    (∀ batches,
      (∀ chunks st, s.ingest (cmp.engine s.schedule) batches ⟨next, { limit := s.window }, 0⟩ = .ok chunks st →
        s.NeverOverplans cmp chunks st) ∧
      Outcome (fun run => (s.OnOneThread → run.stats.peak = sortPeak run.stats.chunks) ∧
          (run.stats.chunks = 0 ↔ batches.flatMap (·.visibleRows 0) = []))
        (fun error => (∃ b ∈ batches, s.BatchCause b error ∧ ¬s.Loadable b) ∨ cmp.Blamed s.layout.schema error)
        (s.sortBy cmp batches next).result) ∧
    ∀ chunks, (∀ c ∈ chunks, s.Holdable c) →
      (∀ handles st, s.adopt (cmp.engine s.schedule) chunks ⟨next, { limit := s.window }, 0⟩ = .ok handles st →
        s.NeverOverplans cmp handles st) ∧
      Outcome (fun run => (s.OnOneThread → run.stats.peak = (if 2 ≤ run.stats.chunks then chunksPerMerge else 0)) ∧
          run.stats.chunks = (chunks.filter (0 < ·.rows)).length)
        (cmp.Blamed s.layout.schema) (s.mergeBy cmp chunks next).result := by
  constructor
  · intro batches
    refine ⟨fun _ _ => ingest_neverOverplans, ?_⟩
    have hout := sortBy_result s cmp batches next
    cases hr : (s.sortBy cmp batches next).result with
    | ok run => exact sortBy_peak hr
    | error error =>
      rw [hr] at hout
      exact hout.imp_right And.left
  · intro chunks hc
    have hwf : ∀ c ∈ chunks, c.WellFormed := fun c hm => (hc c hm).wellFormed
    refine ⟨fun _ _ => adopt_neverOverplans hwf, ?_⟩
    have hout := mergeBy_result s cmp hwf next
    cases hr : (s.mergeBy cmp chunks next).result with
    | ok run => exact mergeBy_peak hwf hr
    | error error =>
      rw [hr] at hout
      rcases hout with ⟨c, hm, v, hv, _⟩ | ⟨_, hfailed⟩
      · exact absurd (faulted_of_chunkViolation ⟨(hc c hm).ofSchema, (hc c hm).rows_le⟩ hv).1 (hc c hm).status
      · exact hfailed.blamed

theorem reaches_of_advance {task task' : MergeTask} {st st' : JobState} (h : s.advance e task st = .ok task' st')
    (runs : List Run) (before after : List (Except SortError MergeTask)) (merged : List Run) :
    s.Reaches e ⟨runs, before ++ .ok task :: after, merged, st⟩ ⟨runs, before ++ .ok task' :: after, merged, st'⟩ := by
  have hstep := RoundStep.advance (s := s) (e := e) runs before (.ok task) after merged st
  rw [stepTask_ok h] at hstep
  exact .single (.within hstep)

theorem reaches_two_holding (s : Sorter) (e : Engine) (h : Handle) (hplan : plan e [h] [h] = .ok [h, h]) (next : Nat) :
    ∃ st, s.Reaches e ⟨[[h], [h], [h], [h]], [], [], ⟨next, { limit := 8 }, 0⟩⟩
      ⟨[], [.ok (.holding h.load h [] []), .ok (.holding h.load h [] [])], [], st⟩ := by
  have hfold : ∀ st, s.advance e (.dispatched [h] [h]) st = .ok (.folding h.load [h] []) st := by
    intro st
    rw [advance_dispatched, hplan]
  have hlease : ∀ st w, st.window.lease chunksPerMerge = .ok w →
      s.advance e (.folding h.load [h] []) st = .ok (.holding h.load h [] []) { st with window := w } := by
    intro st w hw
    rw [advance_folding, hw]
  refine ⟨⟨next, ⟨8, 8, 8⟩, 0⟩, ?_⟩
  refine .head (.within (.dispatch [h] [h] [[h], [h]] [] [] _ (show 0 < max (8 / 4) 1 by decide))) ?_
  refine .head (.within (.dispatch [h] [h] [] [.ok (.dispatched [h] [h])] [] _ (show 1 < max (8 / 4) 1 by decide))) ?_
  refine (reaches_of_advance (hfold _) [] [] [.ok (.dispatched [h] [h])] []).trans ?_
  refine (reaches_of_advance (hfold _) [] [.ok (.folding h.load [h] [])] [] []).trans ?_
  refine (reaches_of_advance (hlease _ ⟨8, 4, 4⟩ rfl) [] [] [.ok (.folding h.load [h] [])] []).trans ?_
  exact reaches_of_advance (hlease _ ⟨8, 8, 8⟩ rfl) [] [.ok (.holding h.load h [] [])] [] []

def wideSorter : Sorter := { pairSorter with window := 8, spills := false, window_ge := by decide }

theorem jobs_never_overplan_pairs :
    (∃ run, (pairSorter.sortBy (.constant .gt) [] 0).result = .ok run ∧ run.stats.peak = 0) ∧
    (∃ run, (pairSorter.sortBy (.constant .gt) [twoOfThree 7] 0).result = .ok run ∧ run.stats.peak = 1) ∧
    (∃ run, (pairSorter.sortBy (.constant .gt) [twoOfThree 7, twoOfThree 8] 0).result = .ok run ∧ run.stats.peak = 4) ∧
    (∃ run, (pairSorter.mergeBy (.constant .gt) [roomyChunk, roomyChunk] 10).result = .ok run ∧ run.stats.peak = 4) ∧
    ∃ handles st pool, wideSorter.adopt (Comparator.constant .gt).engine (List.replicate 4 roomyChunk)
        ⟨10, { limit := 8 }, 0⟩ = .ok handles st ∧
      wideSorter.Reaches (Comparator.constant .gt).engine ⟨startRuns handles, [], [], st⟩ pool ∧
      pool.tasks.countP holdsLease = 2 ∧ wideSorter.SafePool (.constant .gt) pool := by
  have hsort : ∀ batches chunks, (pairSorter.sortBy (.constant .gt) batches 0).result.map (·.stats.chunks) = .ok chunks →
      ∃ run, (pairSorter.sortBy (.constant .gt) batches 0).result = .ok run ∧ run.stats.peak = sortPeak chunks := by
    intro batches chunks h
    obtain ⟨run, hrun, rfl⟩ := map_eq_ok_iff.mp h
    have key := ((jobs_never_overplan pairSorter (.constant .gt) 0).1 batches).2
    rw [hrun] at key
    exact ⟨run, hrun, key.1 fun _ _ => rfl⟩
  have hmerge : (pairSorter.mergeBy (.constant .gt) [roomyChunk, roomyChunk] 10).result.isOk = true := by cbv
  obtain ⟨run, hrun⟩ := exists_of_isOk hmerge
  have hpeak := ((jobs_never_overplan pairSorter (.constant .gt) 10).2 [roomyChunk, roomyChunk] fun c hc => by
    obtain rfl : c = roomyChunk := by simpa using hc
    exact holdable_roomyChunk).2
  rw [hrun] at hpeak
  have hwide : ∀ c ∈ List.replicate 4 roomyChunk, wideSorter.Holdable c := fun c hc => by
    obtain rfl : c = roomyChunk := (List.mem_replicate.mp hc).2
    exact ⟨holdable_roomyChunk.wellFormed, holdable_roomyChunk.ofSchema, holdable_roomyChunk.rows_le,
      holdable_roomyChunk.status⟩
  obtain ⟨st, hreach⟩ := reaches_two_holding wideSorter (Comparator.constant .gt).engine (.resident roomyChunk)
    (by cbv) 10
  have hsafe := (((jobs_never_overplan wideSorter (.constant .gt) 10).2 _ hwide).1
    (List.replicate 4 (.resident roomyChunk)) ⟨10, { limit := 8 }, 0⟩ rfl).safe _ hreach
  refine ⟨hsort [] 0 (by cbv), hsort [twoOfThree 7] 1 (by cbv), hsort [twoOfThree 7, twoOfThree 8] 2 (by cbv),
    ⟨run, hrun, ?_⟩, List.replicate 4 (.resident roomyChunk), _, _, rfl, hreach, rfl, hsafe⟩
  have htwo : ([roomyChunk, roomyChunk].filter (0 < ·.rows)).length = 2 := by rfl
  rw [hpeak.1 fun _ _ => rfl, hpeak.2, htwo]
  rfl

end Sorter
end ChunkSort
