import ChunkSort.Proofs.Sorter.Tasks

/-!
Rounds of merges. Every round keeps the rows of all runs and leaves runs in order, so the last run has all rows
in order.
-/

namespace ChunkSort
namespace Sorter

variable {s : Sorter} {e : Engine} {cmp : Comparator} {schedule : Schedule} {orders : (Row → Row → Ordering) → Prop}

structure RunsOver (s : Sorter) (orders : (Row → Row → Ordering) → Prop) (rows : List Row) (runs : List Run) : Prop where
  sound : ∀ run ∈ runs, s.SoundRun orders run
  nonempty : ∀ run ∈ runs, run ≠ []
  perm : (runs.flatMap rowsOf).Perm rows

theorem RunsOver.cons {rows rows' : List Row} {run : Run} {runs : List Run} (hs : s.SoundRun orders run) (hne : run ≠ [])
    (hp : (rowsOf run).Perm rows) (h : s.RunsOver orders rows' runs) : s.RunsOver orders (rows ++ rows') (run :: runs) where
  sound := List.forall_mem_cons.mpr ⟨hs, h.sound⟩
  nonempty := List.forall_mem_cons.mpr ⟨hne, h.nonempty⟩
  perm := by
    rw [List.flatMap_cons]
    exact hp.append h.perm

theorem SoundRun.ne_nil_of_perm {run merged : Run} (hr : s.SoundRun orders run) (hne : run ≠ []) {rows : List Row}
    (hp : (rowsOf merged).Perm (rowsOf run ++ rows)) : merged ≠ [] := by
  rintro rfl
  obtain ⟨h, rest, rfl⟩ := List.exists_cons_of_ne_nil hne
  have hpos := hr.packed.head_pos s.layout.capacity_pos
  rw [← hr.head.sound.load.wellFormed.length_sortedRows] at hpos
  have hlen := hp.length_eq
  rw [rowsOf_cons, List.length_append, List.length_append] at hlen
  change 0 = _ at hlen
  omega

variable (ho : ∀ ord, orders ord → cmp.Orders s.layout.schema ord) (he : e.Confined cmp schedule)

theorem runsOver_of_joined {pairs : List (Run × Run)} {merged rest : List Run}
    (h : List.Forall₂ (fun pair run => s.Joined cmp orders pair.1 pair.2 run) pairs merged)
    (hrest : ∀ run ∈ rest, s.SoundRun orders run) (hr : ∀ run ∈ bothOf pairs, s.SoundRun orders run)
    (hne : ∀ run ∈ bothOf pairs ++ rest, run ≠ []) :
    s.RunsOver orders ((bothOf pairs ++ rest).flatMap rowsOf) (merged ++ rest) := by
  induction h with
  | nil => exact ⟨hrest, hne, .refl _⟩
  | @cons pair run pairs merged hjoined _ ih =>
    have hboth : bothOf (pair :: pairs) = pair.1 :: pair.2 :: bothOf pairs := rfl
    rw [hboth] at hr hne ⊢
    obtain ⟨hx, hr⟩ := List.forall_mem_cons.mp hr
    obtain ⟨_, hr⟩ := List.forall_mem_cons.mp hr
    obtain ⟨hxne, hne⟩ := List.forall_mem_cons.mp hne
    obtain ⟨_, hne⟩ := List.forall_mem_cons.mp hne
    rw [List.cons_append, List.cons_append, List.flatMap_cons, List.flatMap_cons, ← List.append_assoc]
    exact (ih hr hne).cons hjoined.sound (hx.ne_nil_of_perm hxne hjoined.perm) hjoined.perm

theorem clears_of_joined {pairs : List (Run × Run)} {merged rest : List Run}
    (h : List.Forall₂ (fun pair run => s.Joined cmp orders pair.1 pair.2 run) pairs merged) (hrest : rest.length ≤ 1)
    (hne : ∀ run ∈ bothOf pairs ++ rest, run ≠ []) (htwo : (bothOf pairs ++ rest).length = 2) :
    cmp.Clears s.layout.schema ((merged ++ rest).flatMap rowsOf) := by
  -- One pair has been merged, and no other run is left.
  cases h with
  | nil =>
    change rest.length = 2 at htwo
    omega
  | @cons pair run pairs _ hjoined hmore =>
    have hnone : bothOf pairs ++ rest = [] := List.eq_nil_of_length_eq_zero (Nat.succ.inj (Nat.succ.inj htwo))
    obtain ⟨hpairs, rfl⟩ := List.append_eq_nil_iff.mp hnone
    cases hmore with
    | cons => cases hpairs
    | nil =>
      change cmp.Clears _ (rowsOf run ++ [])
      rw [List.append_nil]
      exact hjoined.clears (hne _ List.mem_cons_self) (hne _ (List.mem_cons_of_mem _ List.mem_cons_self))

include ho he in
theorem mergeRound_agrees (round : Nat) (runs : List Run) (hr : ∀ run ∈ runs, s.SoundRun orders run)
    (hne : ∀ run ∈ runs, run ≠ []) :
    Job.Agrees 0 (s.mergeRound e round runs) (s.mergeRound (cmp.engine schedule) round runs)
      (fun merged => s.RunsOver orders (runs.flatMap rowsOf) merged.1 ∧
        (runs.length = 2 → cmp.Clears s.layout.schema (merged.1.flatMap rowsOf)))
      (cmp.FailedWithin s.layout.schema (runs.flatMap rowsOf)) := by
  intro st hst
  have hstart : s.SoundPool cmp orders st.window.limit runs ⟨runs, [], [], st⟩ := .start_sound hr hst
  have hsame : s.TakeSameSteps e (cmp.engine schedule) ⟨runs, [], [], st⟩ :=
    fun pool hreach task hmem => (hstart.within ho he hreach).same_step ho he hmem
  obtain ⟨heq, hruns⟩ := mergeRound_runs round runs st hsame
  refine ⟨heq, ?_⟩
  cases hm : s.mergeRound e round runs st with
  | error error st' =>
    rw [hm] at hruns
    obtain ⟨pool, hreach, hmem, _⟩ := hruns
    exact (hstart.within ho he hreach).failed hmem
  | ok merged st' =>
    rw [hm] at hruns
    obtain ⟨merged, hlen⟩ := merged
    obtain ⟨done, rest, rfl, hrest, hreach⟩ := hruns
    have hpool := hstart.within ho he hreach
    obtain ⟨pairs, _, hpairs, hjoined, hnone⟩ := hpool.shares
    cases hnone
    rw [List.append_nil] at hpairs
    change runs = bothOf pairs ++ rest at hpairs
    subst hpairs
    obtain ⟨hboth, hleft⟩ := List.forall_mem_append.mp hr
    exact ⟨⟨hpool.leased.resident, hpool.leased.limit.symm ▸ hst.limit⟩, runsOver_of_joined hjoined hleft hboth hne,
      clears_of_joined hjoined hrest hne⟩

include ho he in
theorem mergeRounds_agrees (round : Nat) (runs : List Run) (hr : ∀ run ∈ runs, s.SoundRun orders run)
    (hne : ∀ run ∈ runs, run ≠ []) :
    Job.Agrees 0 (s.mergeRounds e round runs) (s.mergeRounds (cmp.engine schedule) round runs)
      (fun r => s.SoundRun orders r.1 ∧ (rowsOf r.1).Perm (runs.flatMap rowsOf) ∧
        (2 ≤ runs.length → cmp.Clears s.layout.schema (rowsOf r.1)))
      (fun error => 2 ≤ runs.length ∧ cmp.FailedWithin s.layout.schema (runs.flatMap rowsOf) error) := by
  -- the number of runs goes down in each round
  induction hn : runs.length using Nat.strongRecOn generalizing round runs with
  | ind n ih =>
    match runs, hr, hne with
    | [], _, _ =>
      rw [mergeRounds, mergeRounds]
      exact .pure ⟨.nil s orders, .refl _, fun _ => cmp.clears_nil _⟩
    | [run], hr, _ =>
      rw [mergeRounds, mergeRounds]
      subst hn
      exact .pure ⟨hr run (List.mem_cons_self ..), .of_eq (List.append_nil _).symm,
        fun htwo => absurd htwo (Nat.lt_irrefl 1)⟩
    | x :: y :: rest, hr, hne =>
      have htwo : 2 ≤ n := hn ▸ Nat.le_add_left 2 rest.length
      rw [mergeRounds, mergeRounds]
      refine ((mergeRound_agrees ho he round (x :: y :: rest) hr hne).mono (fun _ h => h) fun _ h => ⟨htwo, h⟩).bind ?_
      rintro ⟨merged, hlen⟩ ⟨hover, hlast⟩
      have hlt : merged.length < n := by
        rw [hlen, ← hn, List.length_cons, List.length_cons]
        omega
      refine (ih merged.length hlt (round + 1) merged hover.sound hover.nonempty rfl).mono ?_ ?_
      · rintro ⟨run, rounds⟩ ⟨hsound, hperm, hclears⟩
        refine ⟨hsound, hperm.trans hover.perm, fun _ => ?_⟩
        -- A round of more than two runs leaves more than one.
        rcases Nat.lt_or_ge merged.length 2 with hone | hmore
        · have hlen' : (x :: y :: rest).length = 2 := by omega
          exact (hlast hlen').subset hperm.subset
        · exact hclears hmore
      · exact fun _ h => ⟨htwo, h.2.mono hover.perm.subperm⟩

theorem singleRuns (chunks : List Handle) (hc : ∀ h ∈ chunks, s.Settled orders h) :
    s.RunsOver orders (rowsOf chunks) ((chunks.filter (0 < ·.rows)).map ([·])) := by
  induction chunks with
  | nil => exact ⟨nofun, nofun, .refl _⟩
  | cons h chunks ih =>
    have hh := hc h (List.mem_cons_self ..)
    have hrest := ih fun h' hm => hc h' (List.mem_cons_of_mem _ hm)
    have hone : rowsOf [h] = h.load.sortedRows := List.append_nil _
    rw [List.filter_cons, rowsOf_cons]
    split
    next hpos =>
      have hrows : 0 < h.load.rows := h.rows_eq ▸ of_decide_eq_true hpos
      rw [List.map_cons]
      refine hrest.cons ⟨List.forall_mem_singleton.mpr hh, ⟨hrows, hh.sound.load.rows_le⟩, ?_⟩ (List.cons_ne_nil _ _) ?_
      · rw [hone]
        exact hh.inOrder
      · rw [hone]
    next hz =>
      have hrows : h.load.rows = 0 := by
        have hle : ¬0 < h.rows := fun hpos => hz (decide_eq_true hpos)
        rw [h.rows_eq] at hle
        omega
      rw [hh.sound.load.wellFormed.sortedRows_of_rows hrows]
      exact hrest

/-- What a merge makes of sorted chunks. With two of them that have rows, each row was compared. -/
structure Merged (s : Sorter) (cmp : Comparator) (orders : (Row → Row → Ordering) → Prop) (chunks : List Handle)
    (run : SortedRun) : Prop where
  sound : s.SoundRun orders run.chunks
  perm : (rowsOf run.chunks).Perm (rowsOf chunks)
  count : run.stats.chunks = (chunks.filter (0 < ·.rows)).length
  clears : 2 ≤ run.stats.chunks → cmp.Clears s.layout.schema (rowsOf run.chunks)

include ho he in
theorem merge_agrees (chunks : List Handle) (hc : ∀ h ∈ chunks, s.Settled orders h) :
    Job.Agrees 0 (s.merge e chunks) (s.merge (cmp.engine schedule) chunks) (s.Merged cmp orders chunks) (fun error =>
      2 ≤ (chunks.filter (0 < ·.rows)).length ∧ cmp.FailedWithin s.layout.schema (rowsOf chunks) error) := by
  have hover := singleRuns chunks hc
  refine ((mergeRounds_agrees ho he 0 _ hover.sound hover.nonempty).mono (fun _ h => h) fun _ h => ?_).bind ?_
  · rw [List.length_map] at h
    exact ⟨h.1, h.2.mono hover.perm.subperm⟩
  rintro ⟨run, rounds⟩ ⟨hsound, hperm, hclears⟩
  exact .get_bind fun st => .pure ⟨hsound, hperm.trans hover.perm, List.length_map .., hclears⟩

end Sorter
end ChunkSort
