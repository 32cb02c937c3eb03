import Mathlib
import ChunkSort.Proofs.Sorter.Shape
import ChunkSort.Proofs.Sorter.Spending

/-!
The cost of a tournament. A round leaves one run for two, so the rounds are counted by a logarithm. What a pair of runs
costs depends on the chunks in them, which never get more.
-/

namespace ChunkSort
namespace Sorter

variable {s : Sorter} {e : Engine} {cmp : Comparator}

abbrev chunkCount (runs : List Run) : Nat := runs.flatten.length

@[simp]
theorem chunkCount_cons (run : Run) (runs : List Run) : chunkCount (run :: runs) = run.length + chunkCount runs := by
  rw [chunkCount, List.flatten_cons, List.length_append]

@[simp]
theorem chunkCount_append (runs runs' : List Run) : chunkCount (runs ++ runs') = chunkCount runs + chunkCount runs' := by
  rw [chunkCount, List.flatten_append, List.length_append]

/-- The rounds that a job went through from its runs to the last one, with what was left after each of them. -/
inductive Rounds (s : Sorter) (e : Engine) : Nat → List Run → JobState → List (List Run) → Run → JobState → Prop where
  | none {round : Nat} {st : JobState} : s.Rounds e round [] st [] [] st
  | last {round : Nat} {run : Run} {st : JobState} : s.Rounds e round [run] st [] run st
  | round {round : Nat} {runs : List Run} {st st' st'' : JobState} {merged : List Run} {history : List (List Run)}
      {run : Run} (htwo : 2 ≤ runs.length) (h : ∃ hlen, s.mergeRound e round runs st = .ok ⟨merged, hlen⟩ st')
      (rest : s.Rounds e (round + 1) merged st' history run st'') :
      s.Rounds e round runs st (merged :: history) run st''

theorem exists_rounds {round : Nat} {runs : List Run} {st st' : JobState} {r : Run × Nat}
    (h : s.mergeRounds e round runs st = .ok r st') :
    ∃ history, s.Rounds e round runs st history r.1 st' ∧ round + history.length = r.2 := by
  induction hn : runs.length using Nat.strongRecOn generalizing round runs st r with
  | ind n ih =>
    match runs with
    | [] =>
      rw [mergeRounds] at h
      cases h
      exact ⟨[], .none, rfl⟩
    | [run] =>
      rw [mergeRounds] at h
      cases h
      exact ⟨[], .last, rfl⟩
    | x :: y :: rest =>
      rw [mergeRounds] at h
      obtain ⟨⟨merged, hlen⟩, mid, hround, hrest⟩ := Job.bind_eq_ok.mp h
      have hlt : merged.length < n := by
        rw [hlen, ← hn, List.length_cons, List.length_cons]
        omega
      obtain ⟨history, hrounds, hcount⟩ := ih merged.length hlt hrest rfl
      refine ⟨merged :: history, .round (Nat.le_add_left 2 rest.length) ⟨hlen, hround⟩ hrounds, ?_⟩
      rw [← hcount, List.length_cons, Nat.add_right_comm]
      rfl

/-! ### One round -/

def pairMerges : List Run → Nat
  | x :: y :: runs => x.length + y.length - 1 + pairMerges runs
  | _ => 0

theorem pairMerges_of_length {runs : List Run} (h : runs.length ≤ 1) : pairMerges runs = 0 := by
  match runs with
  | [] | [_] => rfl

end Sorter

namespace MergeTask

def mergesLeft : MergeTask → Nat
  | dispatched x y => x.length + y.length - 1
  | folding _ rest _ => rest.length
  | holding _ _ rest _ => rest.length + 1
  | finished _ => 0

def chunks : MergeTask → Nat
  | dispatched x y => x.length + y.length
  | folding _ rest out => out.length + rest.length + 1
  | holding _ _ rest out => out.length + rest.length + 2
  | finished run => run.length

end MergeTask

namespace Sorter

variable {s : Sorter} {e : Engine} {cmp : Comparator}

theorem Advanced.cost {task task' : MergeTask} {st st' : JobState} (h : s.Advanced e st task (.ok task') st') :
    st'.merges + task'.mergesLeft = st.merges + task.mergesLeft ∧ task'.chunks ≤ task.chunks := by
  cases h with
  | done => exact ⟨rfl, Nat.le_refl _⟩
  | spent => exact ⟨rfl, Nat.le_add_right _ 1⟩
  | leased => exact ⟨rfl, Nat.le_refl _⟩
  | @nothing x y hplan =>
    have hlength : 0 = x.length + y.length := (length_plan e x y).of_ok hplan
    simp only [MergeTask.mergesLeft, MergeTask.chunks, ← hlength]
    exact ⟨trivial, Nat.le_refl _⟩
  | @planned x y rest first hplan =>
    have hlength : rest.length + 1 = x.length + y.length := (length_plan e x y).of_ok hplan
    simp only [MergeTask.mergesLeft, MergeTask.chunks, ← hlength, List.length_nil, Nat.zero_add]
    exact ⟨rfl, Nat.le_refl _⟩
  | parked _ hpark =>
    have hst := hpark ▸ s.park_steady e _ st
    simp only [MergeTask.mergesLeft, MergeTask.chunks, List.length_append, hst.2.1]
    exact ⟨rfl, Nat.le_refl _⟩
  | @merged carry carry' next rest out full st' hheld =>
    have hst := hheld ▸ s.mergeHeld_steady e carry next st
    obtain ⟨_, hmerges, hfull⟩ := hst
    simp only [MergeTask.mergesLeft, MergeTask.chunks, List.length_append, hmerges]
    dsimp only at hfull
    omega

def tally (f : MergeTask → Nat) (tasks : List (Except SortError MergeTask)) : Nat :=
  (tasks.map fun | .ok task => f task | .error _ => 0).sum

section Tally

variable (f : MergeTask → Nat)

@[simp]
theorem tally_nil : tally f [] = 0 := rfl

@[simp]
theorem tally_cons (task : MergeTask) (tasks : List (Except SortError MergeTask)) :
    tally f (.ok task :: tasks) = f task + tally f tasks := List.sum_cons

@[simp]
theorem tally_append (before after : List (Except SortError MergeTask)) :
    tally f (before ++ after) = tally f before + tally f after := by
  rw [tally, List.map_append, List.sum_append]
  rfl

theorem tally_finished (out : List Run) :
    tally f (out.map fun run => .ok (.finished run)) = (out.map fun run => f (.finished run)).sum := by
  rw [tally, List.map_map]
  rfl

end Tally

@[simp]
theorem tally_mergesLeft_finished (out : List Run) : tally MergeTask.mergesLeft (out.map fun run => .ok (.finished run)) = 0 := by
  rw [tally_finished]
  refine List.sum_eq_zero fun n hn => ?_
  obtain ⟨_, _, rfl⟩ := List.mem_map.mp hn
  rfl

@[simp]
theorem tally_chunks_finished (out : List Run) :
    tally MergeTask.chunks (out.map fun run => .ok (.finished run)) = chunkCount out := by
  rw [tally_finished, chunkCount, List.length_flatten]
  rfl

def allMerges (pool : Pool) : Nat := pool.job.merges + tally MergeTask.mergesLeft pool.tasks + pairMerges pool.runs

def allChunks (pool : Pool) : Nat := chunkCount pool.merged + tally MergeTask.chunks pool.tasks + chunkCount pool.runs

theorem RoundStep.cost {pool pool' : Pool} (h : s.RoundStep e pool pool') (hok : ∀ error, .error error ∉ pool'.tasks) :
    (∀ error, .error error ∉ pool.tasks) ∧ allMerges pool' = allMerges pool ∧ allChunks pool' ≤ allChunks pool := by
  cases h with
  | dispatch x y runs tasks merged st =>
    refine ⟨fun error hmem => hok error (List.mem_append_left _ hmem), ?_, Nat.le_of_eq ?_⟩
    · simp [allMerges, MergeTask.mergesLeft, pairMerges]
      omega
    · simp [allChunks, MergeTask.chunks]
      omega
  | advance runs before task after merged st =>
    cases task with
    | error error => exact absurd (List.mem_append_right _ List.mem_cons_self) (hok error)
    | ok task =>
      have hstep := s.stepTask_advanced e task st
      cases hr : (s.stepTask e (.ok task) st).1 with
      | error error => exact absurd (hr ▸ List.mem_append_right _ List.mem_cons_self) (hok error)
      | ok task' =>
        rw [hr] at hok hstep
        obtain ⟨hmerges, hchunks⟩ := hstep.cost
        refine ⟨fun error hmem => ?_, ?_, ?_⟩
        · rcases List.mem_append.mp hmem with hmem | hmem
          · exact hok error (List.mem_append_left _ hmem)
          · have hmem := List.mem_of_ne_of_mem (by simp) hmem
            exact hok error (List.mem_append_right _ (List.mem_cons_of_mem _ hmem))
        · simp only [allMerges, tally_append, tally_cons]
          omega
        · simp only [allChunks, tally_append, tally_cons]
          omega
  | collect runs out merged st =>
    refine ⟨fun error hmem => ?_, by simp [allMerges], by simp [allChunks]⟩
    obtain ⟨run, _, h⟩ := List.mem_map.mp hmem
    cases h

theorem ReachesWithin.cost {pool pool' : Pool} (h : s.ReachesWithin e pool pool') (hok : ∀ error, .error error ∉ pool'.tasks) :
    (∀ error, .error error ∉ pool.tasks) ∧ allMerges pool' = allMerges pool ∧ allChunks pool' ≤ allChunks pool := by
  -- from the end, where no task has failed
  induction h using Relation.ReflTransGen.head_induction_on with
  | refl => exact ⟨hok, rfl, Nat.le_refl _⟩
  | head hstep _ ih =>
    obtain ⟨hok', hmerges, hchunks⟩ := ih
    obtain ⟨hok'', hmerges', hchunks'⟩ := hstep.cost hok'
    exact ⟨hok'', hmerges.trans hmerges', Nat.le_trans hchunks hchunks'⟩

structure RoundCost (runs merged : List Run) (merges : Nat) : Prop where
  pairs_le : runs.length / 2 ≤ merges
  merges_le : merges + runs.length / 2 ≤ chunkCount runs
  count_le : chunkCount merged ≤ chunkCount runs

theorem pairMerges_bounds (runs : List Run) (hne : ∀ run ∈ runs, run ≠ []) :
    runs.length / 2 ≤ pairMerges runs ∧ pairMerges runs + runs.length / 2 ≤ chunkCount runs := by
  induction runs using pairMerges.induct with
  | case1 x y runs ih =>
    obtain ⟨hx, hne⟩ := List.forall_mem_cons.mp hne
    obtain ⟨hy, hne⟩ := List.forall_mem_cons.mp hne
    have hrest := ih hne
    have hxpos := List.length_pos_of_ne_nil hx
    have hypos := List.length_pos_of_ne_nil hy
    simp only [pairMerges, chunkCount_cons, List.length_cons] at hrest ⊢
    omega
  | case2 runs hshort =>
    match runs, hshort with
    | [], _ => exact ⟨Nat.le_refl 0, Nat.le_refl 0⟩
    | [run], _ => simp [pairMerges]
    | x :: y :: runs, hshort => exact absurd rfl (hshort x y runs)

/-- What a round costs depends on the chunks in its runs, and not on the turns that its merges get. -/
theorem mergeRound_cost {round : Nat} {runs merged : List Run} {hlen : merged.length = (runs.length + 1) / 2}
    {st st' : JobState} (h : s.mergeRound e round runs st = .ok ⟨merged, hlen⟩ st') :
    st'.merges = st.merges + pairMerges runs ∧ chunkCount merged ≤ chunkCount runs := by
  have hruns := s.mergeRound_leads e round runs st
  rw [h] at hruns
  obtain ⟨done, rest, rfl, hrest, hreach⟩ := hruns
  obtain ⟨_, hmerges, hchunks⟩ := ReachesWithin.cost hreach fun _ => List.not_mem_nil
  simp only [allMerges, allChunks, tally_nil, pairMerges_of_length hrest, Nat.add_zero] at hmerges hchunks
  rw [chunkCount_append]
  exact ⟨hmerges, Nat.le_trans hchunks (Nat.le_of_eq (Nat.zero_add _))⟩

/-! ### All rounds -/

structure RoundsCost (runs : List Run) (history : List (List Run)) (merges : Nat) : Prop where
  rounds : history.length = Nat.clog 2 runs.length
  merges_ge : runs.length - 1 ≤ merges
  merges_le : merges ≤ history.length * (chunkCount runs - 1)
  shrinks : (runs :: history).IsChain fun runs merged => chunkCount merged ≤ chunkCount runs

theorem RoundCost.cons {runs merged : List Run} {history : List (List Run)} {merges merges' : Nat}
    (h : RoundCost runs merged merges) (htwo : 2 ≤ runs.length) (hlen : merged.length = (runs.length + 1) / 2)
    (hrest : RoundsCost merged history merges') : RoundsCost runs (merged :: history) (merges + merges') where
  rounds := by
    rw [Nat.clog_of_two_le Nat.one_lt_two htwo, List.length_cons, hrest.rounds, hlen]
    rfl
  merges_ge := by
    have hpairs := h.pairs_le
    have hmore := hrest.merges_ge
    omega
  merges_le := by
    have hone : merges ≤ chunkCount runs - 1 := by
      have hle := h.merges_le
      omega
    calc merges + merges' ≤ (chunkCount runs - 1) + history.length * (chunkCount merged - 1) :=
          Nat.add_le_add hone hrest.merges_le
      _ ≤ (chunkCount runs - 1) + history.length * (chunkCount runs - 1) :=
          Nat.add_le_add_left (Nat.mul_le_mul_left _ (Nat.sub_le_sub_right h.count_le 1)) _
      _ = (merged :: history).length * (chunkCount runs - 1) := by rw [List.length_cons, Nat.succ_mul, Nat.add_comm]
  shrinks := .cons_cons h.count_le hrest.shrinks

theorem Rounds.cost {round : Nat} {runs : List Run} {st st' : JobState} {history : List (List Run)} {run : Run}
    (h : s.Rounds (cmp.engine s.schedule) round runs st history run st') (hst : st.Holds 0)
    (hr : ∀ run ∈ runs, s.SoundRun (fun _ => False) run) (hne : ∀ run ∈ runs, run ≠ []) :
    ∃ merges, st'.merges = st.merges + merges ∧ RoundsCost runs history merges := by
  induction h with
  | none =>
    refine ⟨0, rfl, ?_, Nat.le_refl 0, Nat.zero_le _, .singleton _⟩
    exact (Nat.clog_zero_right 2).symm
  | last =>
    refine ⟨0, rfl, ?_, Nat.le_refl 0, Nat.zero_le _, .singleton _⟩
    exact (Nat.clog_one_right 2).symm
  | @round round runs _ _ _ _ _ _ htwo h _ ih =>
    obtain ⟨hlen, hround⟩ := h
    -- No run gets empty, so the next round has no pair for nothing.
    obtain ⟨hmid, hover, _⟩ :=
      (mergeRound_agrees (orders_none cmp _) (cmp.engine_confined s.schedule) round runs hr hne).of_ok hst hround
    obtain ⟨hmerges, hcount⟩ := mergeRound_cost hround
    obtain ⟨hge, hle⟩ := pairMerges_bounds runs hne
    have hcost : RoundCost runs _ (pairMerges runs) := ⟨hge, hle, hcount⟩
    obtain ⟨more, hmore, hcost'⟩ := ih hmid hover.sound hover.nonempty
    exact ⟨pairMerges runs + more, by rw [hmore, hmerges, Nat.add_assoc], hcost.cons htwo hlen hcost'⟩

/-! ### Jobs -/

abbrev startRuns (chunks : List Handle) : List Run := (chunks.filter (0 < ·.rows)).map ([·])

theorem chunkCount_startRuns (chunks : List Handle) : chunkCount (startRuns chunks) = (startRuns chunks).length := by
  rw [chunkCount, startRuns, ← List.flatMap_def, List.flatMap_singleton', List.length_map]

theorem merge_eq_ok {chunks : List Handle} {st st' : JobState} {run : SortedRun} (h : s.merge e chunks st = .ok run st') :
    ∃ rounds, s.mergeRounds e 0 (startRuns chunks) st = .ok (run.chunks, rounds) st' ∧
      run.stats = ⟨(startRuns chunks).length, rounds, st'.merges, st'.window.peak⟩ := by
  obtain ⟨⟨last, rounds⟩, mid, hrounds, h⟩ := Job.bind_eq_ok.mp h
  cases h
  exact ⟨rounds, hrounds, rfl⟩

theorem merge_eq_error {chunks : List Handle} {st st' : JobState} {error : SortError}
    (h : s.merge e chunks st = .error error st') : s.mergeRounds e 0 (startRuns chunks) st = .error error st' := by
  unfold merge at h
  rw [Job.bind_apply] at h
  cases hr : s.mergeRounds e 0 (startRuns chunks) st with
  | ok r mid =>
    rw [hr] at h
    cases h
  | error error' mid =>
    rw [hr] at h
    cases h
    rfl

theorem RoundsCost.merges_pos_iff {chunks : List Handle} {history : List (List Run)} {merges : Nat}
    (h : RoundsCost (startRuns chunks) history merges) : 0 < merges ↔ 2 ≤ (startRuns chunks).length := by
  have hge := h.merges_ge
  have hle := h.merges_le
  rw [chunkCount_startRuns] at hle
  refine ⟨fun hpos => ?_, fun htwo => Nat.lt_of_lt_of_le (Nat.sub_pos_of_lt htwo) hge⟩
  by_contra hone
  rw [Nat.sub_eq_zero_of_le (Nat.le_of_lt_succ (Nat.lt_of_not_le hone)), Nat.mul_zero] at hle
  exact absurd hpos (Nat.not_lt_of_le hle)

/-- How a job that merges these chunks came to its run: the rounds that it went through, and their cost. -/
structure Tournament (s : Sorter) (e : Engine) (chunks : List Handle) (st : JobState) (run : SortedRun) : Prop where
  count : run.stats.chunks = (startRuns chunks).length
  rounds : run.stats.rounds = Nat.clog 2 run.stats.chunks
  merges_ge : run.stats.chunks - 1 ≤ run.stats.merges
  merges_le : run.stats.merges ≤ run.stats.rounds * (run.stats.chunks - 1)
  peak : s.OnOneThread → run.stats.peak = max st.window.peak (if 2 ≤ run.stats.chunks then chunksPerMerge else 0)
  history : ∃ history st', s.Rounds e 0 (startRuns chunks) st history run.chunks st' ∧ history.length = run.stats.rounds ∧
    (startRuns chunks :: history).IsChain fun runs merged => chunkCount merged ≤ chunkCount runs

theorem merge_tournament {chunks : List Handle} {st st' : JobState} {run : SortedRun}
    (h : s.merge (cmp.engine s.schedule) chunks st = .ok run st') (hst : st.Holds 0) (hmerges : st.merges = 0)
    (hc : ∀ h ∈ chunks, s.Settled (fun _ => False) h) : s.Tournament (cmp.engine s.schedule) chunks st run := by
  obtain ⟨rounds, hrounds, hstats⟩ := merge_eq_ok h
  obtain ⟨history, hplayed, hcount⟩ := exists_rounds hrounds
  obtain ⟨hsound, hne, _⟩ := singleRuns chunks hc
  obtain ⟨m, hm, hcost⟩ := hplayed.cost hst hsound hne
  rw [hmerges, Nat.zero_add] at hm
  obtain ⟨last, stats⟩ := run
  obtain rfl : stats = _ := hstats
  rw [Nat.zero_add] at hcount
  refine ⟨rfl, hcount.symm.trans hcost.rounds, hm ▸ hcost.merges_ge, ?_, fun hs => ?_, history, st', hplayed, hcount,
    hcost.shrinks⟩
  · have hle := hcost.merges_le
    rw [chunkCount_startRuns, hcount] at hle
    exact hm ▸ hle
  · change st'.window.peak = max st.window.peak (if 2 ≤ (startRuns chunks).length then chunksPerMerge else 0)
    obtain ⟨m', p, hspent, rfl⟩ := mergeRounds_spends _ hs 0 (startRuns chunks) st hst _ _ hrounds
    obtain rfl : m = m' := by
      rw [← hm, hspent.merges, hmerges, Nat.zero_add]
    rw [hspent.peak]
    congr 1
    split
    next htwo => rw [Nat.min_eq_right (hcost.merges_pos_iff.mpr htwo), Nat.mul_one]
    next hone => rw [Nat.eq_zero_of_not_pos (mt hcost.merges_pos_iff.mp hone), Nat.zero_min, Nat.mul_zero]

theorem sortBy_phases {batches : List Batch} {next : Nat} {run : SortedRun}
    (h : (s.sortBy cmp batches next).result = .ok run) :
    ∃ contents chunks st, s.ingest (cmp.engine s.schedule) batches ⟨next, { limit := s.window }, 0⟩ = .ok chunks st ∧
      s.Reads (s.sources batches) contents ∧
      List.Forall₂ (s.Sealed cmp) (s.layout.pack Row.payloadLength contents) chunks ∧
      st.window.peak = min chunks.length 1 ∧ s.Tournament (cmp.engine s.schedule) chunks st run := by
  obtain ⟨chunks, st, st', hingest, hmerge⟩ := exists_of_sortBy h
  obtain ⟨hst, hsettled, contents, hreads, hsealed⟩ := ingested hingest
  obtain ⟨m, p, hspent, rfl, rfl⟩ := s.ingest_spends (cmp.engine s.schedule) batches _ (s.holds_start next) _ _ hingest
  exact ⟨contents, chunks, st, hingest, hreads, hsealed, hspent.peak.trans (Nat.zero_max _),
    merge_tournament hmerge hst hspent.merges hsettled⟩

theorem mergeBy_phases {chunks : List Chunk} (hc : ∀ c ∈ chunks, c.WellFormed) {next : Nat} {run : SortedRun}
    (h : (s.mergeBy cmp chunks next).result = .ok run) :
    ∃ handles st, s.adopt (cmp.engine s.schedule) chunks ⟨next, { limit := s.window }, 0⟩ = .ok handles st ∧
      handles.map Handle.load = chunks ∧ st.window.peak = 0 ∧ s.Tournament (cmp.engine s.schedule) handles st run := by
  obtain ⟨handles, st, st', hadopt, hmerge⟩ := exists_of_mergeBy h
  obtain ⟨hst, hsettled, hloads⟩ := adopted hc hadopt
  have hsteady := hadopt ▸ s.adopt_steady (cmp.engine s.schedule) chunks ⟨next, { limit := s.window }, 0⟩
  exact ⟨handles, st, hadopt, hloads, congrArg Window.peak hsteady.1, merge_tournament hmerge hst hsteady.2.1 hsettled⟩

/-- A job that succeeds has gone through as many rounds as halve the number of its chunks to one, and merges make the
runs shorter only. Each round takes fewer merges than there were chunks to start from. -/
theorem jobs_tournament (s : Sorter) (cmp : Comparator) (next : Nat) :
    (∀ batches run, (s.sortBy cmp batches next).result = .ok run →
      ∃ chunks st, s.ingest (cmp.engine s.schedule) batches ⟨next, { limit := s.window }, 0⟩ = .ok chunks st ∧
        (∀ h ∈ chunks, 0 < h.rows) ∧ s.Tournament (cmp.engine s.schedule) chunks st run) ∧
    ∀ chunks, (∀ c ∈ chunks, c.WellFormed) → ∀ run, (s.mergeBy cmp chunks next).result = .ok run →
      ∃ handles st, s.adopt (cmp.engine s.schedule) chunks ⟨next, { limit := s.window }, 0⟩ = .ok handles st ∧
        handles.map Handle.load = chunks ∧ s.Tournament (cmp.engine s.schedule) handles st run := by
  constructor
  · intro batches run h
    obtain ⟨_, chunks, st, hingest, _, hsealed, _, hcost⟩ := sortBy_phases h
    exact ⟨chunks, st, hingest, rows_pos_of_sealed hsealed, hcost⟩
  · intro chunks hc run h
    obtain ⟨handles, st, hadopt, hloads, _, hcost⟩ := mergeBy_phases hc h
    exact ⟨handles, st, hadopt, hloads, hcost⟩

theorem jobs_tournament_pairs :
    (∃ run, (pairSorter.sortBy (.constant .gt) [twoOfThree 7, twoOfThree 8, twoOfThree 9] 0).result = .ok run ∧
      run.stats = ⟨3, 2, 3, 4⟩ ∧ ∃ chunks st, pairSorter.ingest (Comparator.constant .gt).engine
          [twoOfThree 7, twoOfThree 8, twoOfThree 9] ⟨0, { limit := 4 }, 0⟩ = .ok chunks st ∧
        (∀ h ∈ chunks, 0 < h.rows) ∧ pairSorter.Tournament (Comparator.constant .gt).engine chunks st run) ∧
    ∃ run, (pairSorter.mergeBy (.constant .gt) [sparseChunk, roomyChunk, sparseChunk] 10).result = .ok run ∧
      run.stats = ⟨3, 2, 3, 4⟩ ∧ ∃ handles st, pairSorter.adopt (Comparator.constant .gt).engine
          [sparseChunk, roomyChunk, sparseChunk] ⟨10, { limit := 4 }, 0⟩ = .ok handles st ∧
        handles.map Handle.load = [sparseChunk, roomyChunk, sparseChunk] ∧
        pairSorter.Tournament (Comparator.constant .gt).engine handles st run := by
  have key := jobs_tournament pairSorter (.constant .gt)
  have hsort : (pairSorter.sortBy (.constant .gt) [twoOfThree 7, twoOfThree 8, twoOfThree 9] 0).result.map
      SortedRun.stats = .ok ⟨3, 2, 3, 4⟩ := by cbv
  have hmerge : (pairSorter.mergeBy (.constant .gt) [sparseChunk, roomyChunk, sparseChunk] 10).result.map
      SortedRun.stats = .ok ⟨3, 2, 3, 4⟩ := by cbv
  have hwf : ∀ c ∈ [sparseChunk, roomyChunk, sparseChunk], c.WellFormed := by
    simp [wellFormed_sparseChunk, holdable_roomyChunk.wellFormed]
  obtain ⟨run, h, hstats⟩ := map_eq_ok_iff.mp hsort
  obtain ⟨run', h', hstats'⟩ := map_eq_ok_iff.mp hmerge
  exact ⟨⟨run, h, hstats, (key 0).1 _ run h⟩, run', h', hstats', (key 10).2 _ hwf run' h'⟩

end Sorter
end ChunkSort
