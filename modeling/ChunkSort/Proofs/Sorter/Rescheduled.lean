import ChunkSort.Proofs.Sorter.Mirroring
import ChunkSort.Proofs.Sorter.Rounds

/-!
Rounds of merges under two schedules. Under the same schedule the merges of both rounds take the same turns. Under different
ones each merge still comes to what it would come to with a window to itself, so both rounds leave the same runs.
-/

namespace ChunkSort
namespace Sorter

variable {s : Sorter} {cmp : Comparator} {answer : Row → Row → Except DataError Ordering} {exact counted : Prop}
  {spills spills' : Bool} {schedule schedule' : Schedule}

/-! ### The same turns -/

theorem interleave_some {e : Engine} {turn : Nat} {tasks : List MergeTask} {task : MergeTask} (h : tasks[turn]? = some task)
    (turns : Turns) : s.interleave e (turn :: turns) tasks = (do
      let task ← s.advance e task
      let runs ← s.interleave e turns (tasks.set turn task)
      return ⟨runs.1, runs.2.trans List.length_set⟩) := by
  rw [interleave]
  split
  next task' h' =>
    rw [h] at h'
    cases h'
    rfl
  next h' =>
    rw [h] at h'
    cases h'

theorem interleave_none {e : Engine} {turn : Nat} {tasks : List MergeTask} (h : tasks[turn]? = none) (turns : Turns) :
    s.interleave e (turn :: turns) tasks = s.interleave e turns tasks := by
  rw [interleave]
  split
  next task h' =>
    rw [h] at h'
    cases h'
  next => rfl

section Exact

variable (ha : cmp.Answers s.layout.schema answer) (hspills : exact → spills = true) (hs : exact → schedule = schedule')
  (hx : exact)
include ha hspills hs hx

theorem advance_inStep {task task' : MergeTask} (h : s.MirrorsTask exact task task') :
    Job.InStep exact counted 0 0 (s.MirrorsTask exact) ((s.spilling spills schedule).advance (cmp.engine schedule) task)
      ((s.spilling spills' schedule').advance (cmp.engine schedule') task') :=
  fun _ _ hst => (advance_together ha hspills hs h (hst.of_exact hx _)).mono fun _ _ _ _ ⟨hmirrors, hlevel⟩ =>
    ⟨hlevel.of_exact hx 0, hmirrors⟩

theorem finish_inStep {task task' : MergeTask} (h : s.MirrorsTask exact task task') :
    Job.InStep exact counted 0 0 (s.Mirrored exact) ((s.spilling spills schedule).finish (cmp.engine schedule) task)
      ((s.spilling spills' schedule').finish (cmp.engine schedule') task') := by
  induction hn : task.steps using Nat.strongRecOn generalizing task task' with
  | ind n ih =>
    by_cases hfinished : ∃ run, task = .finished run
    · obtain ⟨run, rfl⟩ := hfinished
      cases h with
      | finished h => exact .pure h
    · rw [finish_eq, finish_eq]
      intro st st' hst
      refine (advance_inStep ha hspills hs hx h st st' hst).bind fun t u t' u' hadvance _ ⟨hlevel, hmirrors⟩ => ?_
      have hlt := (advanced_of_ok hadvance).steps_lt.resolve_left hfinished
      exact ih t.steps (hn ▸ hlt) hmirrors rfl u u' hlevel

theorem finishAll_inStep {tasks tasks' : List MergeTask} (h : List.Forall₂ (s.MirrorsTask exact) tasks tasks') :
    Job.InStep exact counted 0 0 (fun runs runs' => List.Forall₂ (s.Mirrored exact) runs.1 runs'.1)
      ((s.spilling spills schedule).finishAll (cmp.engine schedule) tasks)
      ((s.spilling spills' schedule').finishAll (cmp.engine schedule') tasks') := by
  induction h with
  | nil => exact .pure .nil
  | cons htask _ ih =>
    refine (finish_inStep ha hspills hs hx htask).bind fun run run' hrun => ih.bind fun runs runs' hruns => ?_
    exact .pure (.cons hrun hruns)

theorem interleave_inStep (turns : Turns) {tasks tasks' : List MergeTask}
    (h : List.Forall₂ (s.MirrorsTask exact) tasks tasks') :
    Job.InStep exact counted 0 0 (fun runs runs' => List.Forall₂ (s.Mirrored exact) runs.1 runs'.1)
      ((s.spilling spills schedule).interleave (cmp.engine schedule) turns tasks)
      ((s.spilling spills' schedule').interleave (cmp.engine schedule') turns tasks') := by
  induction turns generalizing tasks tasks' with
  | nil => exact finishAll_inStep ha hspills hs hx h
  | cons turn turns ih =>
    by_cases hlt : turn < tasks.length
    · have hlt' : turn < tasks'.length := h.length_eq ▸ hlt
      rw [interleave_some (List.getElem?_eq_getElem hlt), interleave_some (List.getElem?_eq_getElem hlt')]
      refine (advance_inStep ha hspills hs hx (h.get hlt hlt')).bind fun task task' htask => ?_
      have hset : List.Forall₂ (s.MirrorsTask exact) (tasks.set turn task) (tasks'.set turn task') := by
        rw [List.set_eq_take_append_cons_drop, if_pos hlt, List.set_eq_take_append_cons_drop, if_pos hlt']
        exact List.rel_append (List.forall₂_take _ h) (.cons htask (List.forall₂_drop _ h))
      exact (ih hset).bind fun runs runs' hruns => .pure hruns
    · have hge : tasks.length ≤ turn := Nat.le_of_not_lt hlt
      rw [interleave_none (List.getElem?_eq_none hge), interleave_none (List.getElem?_eq_none (h.length_eq ▸ hge))]
      exact ih h

theorem mergeGroups_inStep (slots : Nat) (turns : Nat → Turns) {tasks tasks' : List MergeTask}
    (h : List.Forall₂ (s.MirrorsTask exact) tasks tasks') :
    Job.InStep exact counted 0 0 (fun runs runs' => List.Forall₂ (s.Mirrored exact) runs.1 runs'.1)
      ((s.spilling spills schedule).mergeGroups (cmp.engine schedule) slots turns tasks)
      ((s.spilling spills' schedule').mergeGroups (cmp.engine schedule') slots turns tasks') := by
  -- the number of merges that wait goes down with each group
  obtain ⟨n, hn⟩ : ∃ n, tasks.length ≤ n := ⟨_, Nat.le_refl _⟩
  induction n generalizing tasks tasks' turns with
  | zero =>
    obtain rfl := List.eq_nil_of_length_eq_zero (Nat.le_zero.mp hn)
    cases h
    rw [mergeGroups, mergeGroups]
    exact .pure .nil
  | succ n ih =>
    cases h with
    | nil =>
      rw [mergeGroups, mergeGroups]
      exact .pure .nil
    | @cons task _ tasks _ htask htasks =>
      rw [mergeGroups, mergeGroups]
      refine (interleave_inStep ha hspills hs hx (turns 0) (.cons htask (List.forall₂_take _ htasks))).bind ?_
      intro runs runs' hruns
      have hle : (tasks.drop (slots - 1)).length ≤ n := by
        rw [List.length_drop]
        exact Nat.le_trans (Nat.sub_le ..) (Nat.le_of_succ_le_succ hn)
      refine (ih _ (List.forall₂_drop _ htasks) hle).bind fun more more' hmore => .pure ?_
      exact List.rel_append hruns hmore

omit ha hspills hs hx in
theorem forall₂_pairUp {runs runs' : List Run} (h : List.Forall₂ (s.Mirrored exact) runs runs') :
    List.Forall₂ (s.MirrorsTask exact) (pairUp runs).1 (pairUp runs').1 ∧
      List.Forall₂ (s.Mirrored exact) (pairUp runs).2 (pairUp runs').2 := by
  induction runs using pairUp.induct generalizing runs' with
  | case1 =>
    cases h
    exact ⟨.nil, .nil⟩
  | case2 run =>
    obtain ⟨run', _, hrun, hnil, rfl⟩ := List.forall₂_cons_left_iff.mp h
    cases hnil
    exact ⟨.nil, .cons hrun .nil⟩
  | case3 x y runs tasks rest hpair ih =>
    obtain ⟨x', _, hx, hrest, rfl⟩ := List.forall₂_cons_left_iff.mp h
    obtain ⟨y', runs', hy, hruns, rfl⟩ := List.forall₂_cons_left_iff.mp hrest
    obtain ⟨htasks, hleft⟩ := ih hruns
    rw [hpair] at htasks hleft
    simp only [pairUp, hpair]
    exact ⟨.cons (.dispatched hx hy) htasks, hleft⟩

theorem mergeRound_inStep (round : Nat) {runs runs' : List Run} (h : List.Forall₂ (s.Mirrored exact) runs runs') :
    Job.InStep exact counted 0 0 (fun merged merged' => List.Forall₂ (s.Mirrored exact) merged.1 merged'.1)
      ((s.spilling spills schedule).mergeRound (cmp.engine schedule) round runs)
      ((s.spilling spills' schedule').mergeRound (cmp.engine schedule') round runs') := by
  obtain ⟨htasks, hleft⟩ := forall₂_pairUp h
  refine .get_bind fun st st' hst => ?_
  obtain rfl := hs hx
  dsimp only
  rw [hst.window hx]
  refine (mergeGroups_inStep ha hspills hs hx _ _ htasks).bind fun merged merged' hmerged => .pure ?_
  exact List.rel_append hmerged hleft

end Exact

/-! ### A window for each merge -/

def answer? {α : Type} : EStateM.Result SortError JobState α → Except SortError α
  | .ok a _ => .ok a
  | .error error _ => .error error

/-- What two runs are merged to in a window of their own. -/
def alone (s : Sorter) (e : Engine) (pair : Run × Run) : Except SortError Run :=
  answer? (s.finish e (.dispatched pair.1 pair.2) ⟨0, { limit := chunksPerMerge }, 0⟩)

/-- A task among others, and the merge of the pair on its own: it has got equally far, or it fails as well. -/
inductive Shadows (s : Sorter) (e : Engine) (t : Sorter) (pair : Run × Run) : Except SortError MergeTask → Prop where
  | going {task task' : MergeTask} {st' : JobState} (h : s.MirrorsTask False task task') (hst : st'.Roomy task.held)
      (hrest : t.alone e pair = answer? (t.finish e task' st')) : Shadows s e t pair (.ok task)
  | failed {error error' : SortError} (h : t.alone e pair = .error error') : Shadows s e t pair (.error error)

section Loose

variable (ha : cmp.Answers s.layout.schema answer)
include ha

theorem Shadows.step {pair : Run × Run} {task : MergeTask}
    (h : Shadows s (cmp.engine schedule') (s.spilling spills' schedule') pair (.ok task)) {st : JobState}
    (hst : st.Roomy task.held) :
    Shadows s (cmp.engine schedule') (s.spilling spills' schedule') pair
      ((s.spilling spills schedule).stepTask (cmp.engine schedule) (.ok task) st).1 := by
  cases h with
  | @going _ task' st' h hst' hrest =>
    have hlevel : st.Level False False task.held st' := ⟨False.elim, False.elim, fun _ => ⟨hst, hst'⟩⟩
    have hstep : Job.Together False (fun t u t' u' => s.MirrorsTask False t t' ∧ u.Level False False t.held u')
        ((s.spilling spills schedule).advance (cmp.engine schedule) task st)
        ((s.spilling spills' schedule').advance (cmp.engine schedule') task' st') :=
      advance_together ha False.elim False.elim h hlevel
    rw [finish_eq, Job.bind_apply] at hrest
    rw [stepTask]
    cases hr : (s.spilling spills schedule).advance (cmp.engine schedule) task st with
    | ok next u =>
      cases hr' : (s.spilling spills' schedule').advance (cmp.engine schedule') task' st' with
      | ok next' u' =>
        rw [hr, hr'] at hstep
        rw [hr'] at hrest
        exact .going hstep.1 (hstep.2.room not_false).2 hrest
      | error error' u' =>
        rw [hr, hr'] at hstep
        cases hstep
    | error error u =>
      cases hr' : (s.spilling spills' schedule').advance (cmp.engine schedule') task' st' with
      | ok next' u' =>
        rw [hr, hr'] at hstep
        cases hstep
      | error error' u' =>
        rw [hr'] at hrest
        exact .failed hrest

omit ha in
theorem SoundPool.roomy {orders : (Row → Row → Ordering) → Prop} {limit : Nat} {start runs merged : List Run}
    {before after : List (Except SortError MergeTask)} {task : MergeTask} {st : JobState}
    (h : s.SoundPool cmp orders limit start ⟨runs, before ++ .ok task :: after, merged, st⟩) : st.Roomy task.held := by
  have hroom := h.room
  obtain ⟨hlimit, hresident⟩ := h.leased
  dsimp only at hlimit hresident
  rw [countP_middle] at hresident
  have hheld : task.held = chunksPerMerge * if holdsLease (.ok task) then 1 else 0 := by
    cases task <;> rfl
  rw [Nat.mul_add, ← hheld] at hresident
  rw [Nat.mul_add, Nat.mul_one] at hroom
  constructor <;> omega

/-- Of the pairs of a round the first ones are done, and each came to what it would come to on its own. Others are under
way. -/
def Shadowed (s : Sorter) (e : Engine) (t : Sorter) (pairs : List (Run × Run)) (rest : List Run) (pool : Pool) : Prop :=
  ∃ done going wait, pairs = done ++ (going ++ wait) ∧
    List.Forall₂ (fun pair run => ∃ run', t.alone e pair = .ok run' ∧ s.Mirrored False run run') done pool.merged ∧
    List.Forall₂ (fun pair task => Shadows s e t pair task) going pool.tasks ∧
    List.Forall₂ (s.Mirrored False) pool.runs (bothOf wait ++ rest)

theorem Shadowed.step {pairs : List (Run × Run)} {rest start : List Run} {pool pool' : Pool} {limit : Nat}
    (hrest : rest.length ≤ 1) (h : Shadowed s (cmp.engine schedule') (s.spilling spills' schedule') pairs rest pool)
    (hpool : (s.spilling spills schedule).SoundPool cmp (fun _ => False) limit start pool)
    (hstep : (s.spilling spills schedule).RoundStep (cmp.engine schedule) pool pool') :
    Shadowed s (cmp.engine schedule') (s.spilling spills' schedule') pairs rest pool' := by
  obtain ⟨done, going, wait, rfl, hdone, hgoing, hwait⟩ := h
  cases hstep with
  | dispatch x y runs tasks merged st hslots =>
    obtain ⟨x', _, hx, htail, hruns⟩ := List.forall₂_cons_left_iff.mp hwait
    obtain ⟨y', runs', hy, hruns', rfl⟩ := List.forall₂_cons_left_iff.mp htail
    cases wait with
    | nil =>
      rw [bothOf, List.flatMap_nil, List.nil_append] at hruns
      rw [hruns, List.length_cons, List.length_cons] at hrest
      omega
    | cons pair wait =>
      injection hruns with hx' hruns
      injection hruns with hy' hruns
      subst hx' hy' hruns
      refine ⟨done, going ++ [pair], wait, by rw [List.append_assoc]; rfl, hdone, ?_, hruns'⟩
      refine List.rel_append hgoing (.cons (.going (.dispatched hx hy) ?_ rfl) .nil)
      exact ⟨Nat.le_refl 0, Nat.le_refl _⟩
  | advance runs before task after merged st =>
    obtain ⟨going₁, pair, going₂, rfl, hbefore, htask, hafter⟩ := exists_of_forall₂_middle hgoing
    refine ⟨done, _, wait, rfl, hdone, List.rel_append hbefore (.cons ?_ hafter), hwait⟩
    cases task with
    | error error => exact htask
    | ok task => exact htask.step ha hpool.roomy
  | collect runs out merged st =>
    refine ⟨done ++ going, [], wait, by rw [List.nil_append, List.append_assoc], List.rel_append hdone ?_, .nil, hwait⟩
    rw [List.forall₂_map_right_iff] at hgoing
    refine hgoing.imp fun pair run hrun => ?_
    cases hrun with
    | going h _ hrest =>
      cases h with
      | finished h => exact ⟨_, hrest, h⟩

omit ha in
theorem Shadowed.over {e : Engine} {t : Sorter} {pairs : List (Run × Run)} {rest last out : List Run} {st : JobState}
    (h : Shadowed s e t pairs rest ⟨last, [], out, st⟩) (hlast : last.length ≤ 1) :
    ∃ left, pairs.mapM (t.alone e) = .ok left ∧ List.Forall₂ (s.Mirrored False) (out ++ last) (left ++ rest) := by
  obtain ⟨done, going, wait, rfl, hdone, hgoing, hwait⟩ := h
  cases hgoing
  cases wait with
  | cons pair wait =>
    have hlength := hwait.length_eq
    rw [bothOf, List.flatMap_cons, List.length_append, List.length_append] at hlength
    change last.length = 2 + _ + _ at hlength
    omega
  | nil =>
    obtain ⟨left, hleft, hout⟩ := exists_forall₂_through hdone
    rw [List.append_nil, List.append_nil]
    exact ⟨left, mapM_eq_ok_iff.mpr hleft, List.rel_append hout hwait⟩

omit ha in
theorem Shadowed.fails {e : Engine} {t : Sorter} {pairs : List (Run × Run)} {rest : List Run} {pool : Pool}
    (h : Shadowed s e t pairs rest pool) {error : SortError} (hmem : .error error ∈ pool.tasks) :
    ∃ error', pairs.mapM (t.alone e) = .error error' := by
  obtain ⟨done, going, wait, rfl, _, hgoing, _⟩ := h
  obtain ⟨pair, hpair, hfailed⟩ := exists_left_of_forall₂ hgoing hmem
  cases hall : List.mapM (t.alone e) (done ++ (going ++ wait)) with
  | error error' => exact ⟨error', rfl⟩
  | ok left =>
    have hmem : pair ∈ done ++ (going ++ wait) := List.mem_append_right _ (List.mem_append_left _ hpair)
    obtain ⟨run, _, hrun⟩ := exists_right_of_forall₂ (mapM_eq_ok_iff.mp hall) hmem
    cases hfailed with
    | failed herror =>
      rw [hrun] at herror
      cases herror

variable (spills spills' schedule schedule') in
theorem mergeRound_alone (round : Nat) {pairs : List (Run × Run)} {runs rest : List Run} (hrest : rest.length ≤ 1)
    (h : List.Forall₂ (s.Mirrored False) runs (bothOf pairs ++ rest))
    (hr : ∀ run ∈ runs, (s.spilling spills schedule).SoundRun (fun _ => False) run) {st : JobState} (hst : st.Holds 0) :
    Outcomes (fun merged left => List.Forall₂ (s.Mirrored False) merged.1 (left ++ rest)) (fun _ _ => True)
      (answer? ((s.spilling spills schedule).mergeRound (cmp.engine schedule) round runs st))
      (pairs.mapM ((s.spilling spills' schedule').alone (cmp.engine schedule'))) := by
  have hstart : (s.spilling spills schedule).SoundPool cmp (fun _ => False) st.window.limit runs ⟨runs, [], [], st⟩ :=
    .start_sound hr hst
  have hshadowed : ∀ pool, (s.spilling spills schedule).ReachesWithin (cmp.engine schedule) ⟨runs, [], [], st⟩ pool →
      Shadowed s (cmp.engine schedule') (s.spilling spills' schedule') pairs rest pool := by
    intro pool hreach
    induction hreach with
    | refl => exact ⟨[], [], pairs, rfl, .nil, .nil, h⟩
    | tail hreach hstep ih =>
      exact ih.step ha hrest (hstart.within (orders_none cmp _) (cmp.engine_confined schedule) hreach) hstep
  have hruns := (s.spilling spills schedule).mergeRound_leads (cmp.engine schedule) round runs st
  cases hm : (s.spilling spills schedule).mergeRound (cmp.engine schedule) round runs st with
  | ok merged st' =>
    rw [hm] at hruns
    obtain ⟨merged, hlen⟩ := merged
    obtain ⟨out, last, rfl, hlast, hreach⟩ := hruns
    obtain ⟨left, hleft, hmirrored⟩ := (hshadowed _ hreach).over hlast
    rw [hleft]
    exact hmirrored
  | error error st' =>
    rw [hm] at hruns
    obtain ⟨pool, hreach, hmem, _⟩ := hruns
    obtain ⟨error', herror⟩ := (hshadowed pool hreach).fails hmem
    rw [herror]
    trivial

end Loose

/-! ### Rounds -/

theorem Mirrored.meet {run run' run'' : Run} (h : s.Mirrored False run run'') (h' : s.Mirrored False run' run'') :
    s.Mirrored False run run' :=
  forall₂_meet h h' fun _ _ _ hm hm' => ⟨False.elim, hm.sound, hm'.sound, hm.twin.trans hm'.twin.symm⟩

theorem Mirrored.right {run run' run'' : Run} (h : s.Mirrored exact run run') (h' : s.Mirrored exact run run'') :
    s.Mirrored False run' run'' :=
  forall₂_meet h.flip h'.flip fun _ _ _ hm hm' => ⟨False.elim, hm.sound', hm'.sound', hm.twin.symm.trans hm'.twin⟩

theorem pairMerges_congr {runs runs' : List Run} (h : List.Forall₂ (s.Mirrored exact) runs runs') :
    pairMerges runs = pairMerges runs' := by
  induction runs using pairMerges.induct generalizing runs' with
  | case1 x y runs ih =>
    obtain ⟨x', _, hx, htail, rfl⟩ := List.forall₂_cons_left_iff.mp h
    obtain ⟨y', runs', hy, hruns, rfl⟩ := List.forall₂_cons_left_iff.mp htail
    rw [pairMerges, pairMerges, hx.length_eq, hy.length_eq, ih hruns]
  | case2 runs hshort =>
    have hle : runs.length ≤ 1 := by
      rcases runs with _ | ⟨x, _ | ⟨y, runs⟩⟩
      · exact Nat.zero_le 1
      · exact Nat.le_refl 1
      · exact absurd rfl (hshort x y runs)
    rw [pairMerges_of_length hle, pairMerges_of_length (h.length_eq ▸ hle)]

variable (cmp schedule) in
theorem RunsOver.mergeRound {rows : List Row} {runs : List Run} (hr : s.RunsOver (fun _ => False) rows runs) (round : Nat) :
    Job.Agrees 0 (s.mergeRound (cmp.engine schedule) round runs) (s.mergeRound (cmp.engine schedule) round runs)
      (fun merged => s.RunsOver (fun _ => False) (runs.flatMap rowsOf) merged.1)
      (cmp.FailedWithin s.layout.schema (runs.flatMap rowsOf)) :=
  (mergeRound_agrees (orders_none cmp _) (cmp.engine_confined schedule) round runs hr.sound hr.nonempty).mono
    (fun _ h => h.1) fun _ h => h

theorem failures_alike {schema : List ColumnType} {rows rows' : List Row} {error error' : SortError}
    (h : cmp.FailedWithin schema rows error) (h' : cmp.FailedWithin schema rows' error') : error.Alike False error' := by
  obtain ⟨_, _, _, _, _, _, _, rfl, _⟩ := h
  obtain ⟨_, _, _, _, _, _, _, rfl, _⟩ := h'
  exact .fault _ _ False.elim

section

variable (ha : cmp.Answers s.layout.schema answer) (hspills : exact → spills = true) (hs : exact → schedule = schedule')
include ha hspills hs

theorem mergeRound_together (round : Nat) {runs runs' : List Run} {rows rows' : List Row}
    (h : List.Forall₂ (s.Mirrored exact) runs runs')
    (hr : (s.spilling spills schedule).RunsOver (fun _ => False) rows runs)
    (hr' : (s.spilling spills' schedule').RunsOver (fun _ => False) rows' runs') {st st' : JobState}
    (hlevel : st.Level exact True 0 st') (hst : st.Holds 0) (hst' : st'.Holds 0) :
    Job.Together exact (fun merged t merged' t' => t.Level exact True 0 t' ∧
        List.Forall₂ (s.Mirrored exact) merged.1 merged'.1)
      ((s.spilling spills schedule).mergeRound (cmp.engine schedule) round runs st)
      ((s.spilling spills' schedule').mergeRound (cmp.engine schedule') round runs' st') := by
  by_cases hx : exact
  · exact mergeRound_inStep ha hspills hs hx round h st st' hlevel
  obtain rfl : exact = False := eq_false hx
  obtain ⟨pairs, rest, _, rfl, hrest⟩ := exists_pairUp runs'
  have halone := mergeRound_alone spills spills' schedule schedule' ha round hrest h hr.sound hst
  have halone' := mergeRound_alone spills' spills' schedule' schedule' ha round hrest
    (forall₂_meet h.flip h.flip fun _ _ _ => Mirrored.right) hr'.sound hst'
  have hboth := halone.meet halone'
  have hagrees := hr.mergeRound cmp schedule round
  have hagrees' := hr'.mergeRound cmp schedule' round
  cases hm : (s.spilling spills schedule).mergeRound (cmp.engine schedule) round runs st with
  | ok merged t =>
    cases hm' : (s.spilling spills' schedule').mergeRound (cmp.engine schedule') round (bothOf pairs ++ rest) st' with
    | ok merged' t' =>
      rw [hm, hm'] at hboth
      obtain ⟨left, hmerged, hmerged'⟩ := hboth
      refine ⟨⟨False.elim, fun hc => ?_, fun _ => ⟨(hagrees.of_ok hst hm).1.roomy, (hagrees'.of_ok hst' hm').1.roomy⟩⟩, ?_⟩
      · rw [(mergeRound_cost hm).1, (mergeRound_cost hm').1, hlevel.merges hc, pairMerges_congr h]
      · exact forall₂_meet hmerged hmerged' fun _ _ _ => Mirrored.meet
    | error error' t' =>
      rw [hm, hm'] at hboth
      exact hboth.elim
  | error error t =>
    cases hm' : (s.spilling spills' schedule').mergeRound (cmp.engine schedule') round (bothOf pairs ++ rest) st' with
    | ok merged' t' =>
      rw [hm, hm'] at hboth
      exact hboth.elim
    | error error' t' => exact failures_alike (hagrees.of_error hst hm) (hagrees'.of_error hst' hm')

theorem mergeRounds_together (round : Nat) {runs runs' : List Run} {rows rows' : List Row}
    (h : List.Forall₂ (s.Mirrored exact) runs runs')
    (hr : (s.spilling spills schedule).RunsOver (fun _ => False) rows runs)
    (hr' : (s.spilling spills' schedule').RunsOver (fun _ => False) rows' runs') {st st' : JobState}
    (hlevel : st.Level exact True 0 st') (hst : st.Holds 0) (hst' : st'.Holds 0) :
    Job.Together exact (fun r t r' t' => t.Level exact True 0 t' ∧ s.Mirrored exact r.1 r'.1 ∧ r.2 = r'.2)
      ((s.spilling spills schedule).mergeRounds (cmp.engine schedule) round runs st)
      ((s.spilling spills' schedule').mergeRounds (cmp.engine schedule') round runs' st') := by
  -- the number of runs goes down in each round
  induction hn : runs.length using Nat.strongRecOn generalizing round runs runs' rows rows' st st' with
  | ind n ih =>
    match h with
    | .nil =>
      rw [mergeRounds, mergeRounds]
      exact ⟨hlevel, .nil, rfl⟩
    | .cons hrun .nil =>
      rw [mergeRounds, mergeRounds]
      exact ⟨hlevel, hrun, rfl⟩
    | .cons hx (.cons hy hrest) =>
      rw [mergeRounds, mergeRounds]
      refine (mergeRound_together ha hspills hs round (.cons hx (.cons hy hrest)) hr hr' hlevel hst hst').bind ?_
      rintro ⟨merged, hlen⟩ t ⟨merged', hlen'⟩ t' hm hm' ⟨ht, hmerged⟩
      have hlt : merged.length < n := by
        rw [hlen, ← hn, List.length_cons, List.length_cons]
        omega
      obtain ⟨hholds, hover⟩ := (hr.mergeRound cmp schedule round).of_ok hst hm
      obtain ⟨hholds', hover'⟩ := (hr'.mergeRound cmp schedule' round).of_ok hst' hm'
      exact ih merged.length hlt (round + 1) hmerged hover hover' ht hholds hholds' rfl

end

end Sorter
end ChunkSort
