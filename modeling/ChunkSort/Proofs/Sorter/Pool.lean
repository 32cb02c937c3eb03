import Mathlib.Logic.Relation
import ChunkSort.Proofs.Sorter.Job
import ChunkSort.Proofs.Window
import ChunkSort.Sorter.Tournament

/-!
The merge phase on a pool of threads. Pairs of runs are dispatched to tasks, no more of them at once than merges fit
into the window. The tasks go on in any order, also when one of them has failed. Whatever turns they get in a job, the
job is one of the runs of the pool, so what every step of the pool keeps holds of the job.
-/

namespace ChunkSort

structure Pool where
  /-- Runs of this round that are not dispatched yet. -/
  runs : List Run
  tasks : List (Except SortError MergeTask)
  /-- Runs that this round has left so far. -/
  merged : List Run
  job : JobState

abbrev Pool.underway (runs : List Run) (tasks : List MergeTask) (merged : List Run) (job : JobState) : Pool :=
  ⟨runs, tasks.map .ok, merged, job⟩

namespace Sorter

def stepTask (s : Sorter) (e : Engine) : Except SortError MergeTask → JobState → Except SortError MergeTask × JobState
  | .ok task, st =>
    match s.advance e task st with
    | .ok task st => (.ok task, st)
    | .error error st => (.error error, st)
  | .error error, st => (.error error, st)

/-- A step of the pool within a round. Finished tasks are collected together. -/
inductive RoundStep (s : Sorter) (e : Engine) : Pool → Pool → Prop where
  | dispatch (x y : Run) (runs : List Run) (tasks : List (Except SortError MergeTask)) (merged : List Run) (st : JobState)
      (hslots : tasks.length < st.window.mergeSlots) :
      s.RoundStep e ⟨x :: y :: runs, tasks, merged, st⟩ ⟨runs, tasks ++ [.ok (.dispatched x y)], merged, st⟩
  | advance (runs : List Run) (before : List (Except SortError MergeTask)) (task : Except SortError MergeTask)
      (after : List (Except SortError MergeTask)) (merged : List Run) (st : JobState) :
      s.RoundStep e ⟨runs, before ++ task :: after, merged, st⟩
        ⟨runs, before ++ (s.stepTask e task st).1 :: after, merged, (s.stepTask e task st).2⟩
  | collect (runs out merged : List Run) (st : JobState) :
      s.RoundStep e ⟨runs, out.map fun run => .ok (.finished run), merged, st⟩ ⟨runs, [], merged ++ out, st⟩

/-- A round is over when there is no pair left. A run without a partner goes to the next round. -/
inductive PoolStep (s : Sorter) (e : Engine) : Pool → Pool → Prop where
  | within {pool pool' : Pool} (h : s.RoundStep e pool pool') : s.PoolStep e pool pool'
  | nextRound (runs merged : List Run) (st : JobState) (hrest : runs.length ≤ 1) :
      s.PoolStep e ⟨runs, [], merged, st⟩ ⟨merged ++ runs, [], [], st⟩

abbrev Reaches (s : Sorter) (e : Engine) : Pool → Pool → Prop := Relation.ReflTransGen (s.PoolStep e)

abbrev ReachesWithin (s : Sorter) (e : Engine) : Pool → Pool → Prop := Relation.ReflTransGen (s.RoundStep e)

theorem ReachesWithin.reaches {s : Sorter} {e : Engine} {pool pool' : Pool} (h : s.ReachesWithin e pool pool') :
    s.Reaches e pool pool' := h.lift id fun _ _ => .within

variable {s : Sorter} {e e' : Engine}

/-! ### Steps of a task -/

theorem stepTask_ok {task task' : MergeTask} {st st' : JobState} (h : s.advance e task st = .ok task' st') :
    s.stepTask e (.ok task) st = (.ok task', st') := by
  rw [stepTask, h]

theorem stepTask_error {task : MergeTask} {st st' : JobState} {error : SortError}
    (h : s.advance e task st = .error error st') : s.stepTask e (.ok task) st = (.error error, st') := by
  rw [stepTask, h]

theorem finish_eq (s : Sorter) (e : Engine) (task : MergeTask) : s.finish e task = s.advance e task >>= s.finish e := by
  cases task with
  | dispatched x y =>
    rw [finish, advance, mergeRuns, bind_assoc]
    congr 1
    funext all
    cases all with
    | nil => rfl
    | cons first rest => simp only [pure_bind, finish, List.nil_append, bind_pure]
  | folding carry rest out =>
    cases rest with
    | nil =>
      rw [finish, advance, mergeInto]
      split
      next => simp only [pure_bind, finish, List.append_nil]
      next => simp only [bind_assoc, pure_bind, finish]
    | cons next rest =>
      simp only [finish, advance, mergeInto, mergeStep, Job.withLease, bind_assoc, pure_bind]
  | holding carry next rest out => simp only [finish, advance, bind_assoc, pure_bind, List.append_assoc]
  | finished run => rw [advance, pure_bind]

theorem park_steady (s : Sorter) (e : Engine) (c : Chunk) : (s.park e c).Steady 0 fun _ => True := by
  unfold park
  split
  next =>
    refine .get_bind fun st => .bind (.modify fun _ => ⟨rfl, rfl⟩) fun _ _ => ?_
    split
    next => exact .pure trivial
    next => exact .throw
  next => exact .pure trivial

theorem mergeHeld_steady (s : Sorter) (e : Engine) (carry : Chunk) (next : Handle) :
    (s.mergeHeld e carry next).Steady 1 fun r => r.2.length ≤ 1 := by
  have hdestination : s.newDestination.Steady 0 fun _ => True := .bind .takeNumber fun _ _ => .pure trivial
  refine .bind hdestination fun low _ => .bind hdestination fun high _ => .bind (.ofAttempt _) ?_
  rintro ⟨_, merged⟩ -
  refine .count ?_
  split
  next => exact .bind (s.park_steady e merged.low) fun _ _ => .pure (Nat.le_refl 1)
  next => exact .pure (Nat.zero_le 1)

section Advance

variable (s : Sorter) (e : Engine) (st : JobState)

theorem advance_dispatched (x y : Run) : s.advance e (.dispatched x y) st =
    match plan e x y with
    | .ok [] => .ok (.finished []) st
    | .ok (first :: rest) => .ok (.folding first.load rest []) st
    | .error error => .error error st := by
  rw [advance, Job.bind_apply]
  cases plan e x y with
  | error error => rfl
  | ok all => cases all <;> rfl

theorem advance_last (carry : Chunk) (out : Run) : s.advance e (.folding carry [] out) st =
    if carry.isEmpty then .ok (.finished out) st
    else match s.park e carry st with
      | .ok last st => .ok (.finished (out ++ [last])) st
      | .error error st => .error error st := by
  rw [advance]
  split
  next => rfl
  next =>
    rw [Job.bind_apply]
    cases s.park e carry st <;> rfl

theorem advance_folding (carry : Chunk) (next : Handle) (rest out : Run) :
    s.advance e (.folding carry (next :: rest) out) st =
      match st.window.lease chunksPerMerge with
      | .ok window => .ok (.holding carry next rest out) { st with window }
      | .error violation => .error (.contractViolation violation) st := by
  rw [advance, Job.bind_apply]
  cases hw : st.window.lease chunksPerMerge with
  | ok window =>
    rw [Job.lease_granted hw]
    rfl
  | error violation => rw [Job.lease_refused hw]

theorem advance_holding (carry : Chunk) (next : Handle) (rest out : Run) :
    s.advance e (.holding carry next rest out) st =
      match s.mergeHeld e carry next st with
      | .ok r st => .ok (.folding r.1 rest (out ++ r.2)) { st with window := st.window.release chunksPerMerge }
      | .error error st => .error error { st with window := st.window.release chunksPerMerge } := by
  rw [advance, Job.bind_apply, Job.releasing_apply]
  cases s.mergeHeld e carry next st <;> rfl

end Advance

inductive Advanced (s : Sorter) (e : Engine) (st : JobState) : MergeTask → Except SortError MergeTask → JobState → Prop where
  | nothing {x y : Run} (h : plan e x y = .ok []) : s.Advanced e st (.dispatched x y) (.ok (.finished [])) st
  | planned {x y rest : Run} {first : Handle} (h : plan e x y = .ok (first :: rest)) :
      s.Advanced e st (.dispatched x y) (.ok (.folding first.load rest [])) st
  | unplanned {x y : Run} {error : SortError} (h : plan e x y = .error error) :
      s.Advanced e st (.dispatched x y) (.error error) st
  | spent {carry : Chunk} {out : Run} (h : carry.isEmpty) : s.Advanced e st (.folding carry [] out) (.ok (.finished out)) st
  | parked {carry : Chunk} {out : Run} {last : Handle} {st' : JobState} (hrows : ¬carry.isEmpty)
      (h : s.park e carry st = .ok last st') :
      s.Advanced e st (.folding carry [] out) (.ok (.finished (out ++ [last]))) st'
  | unparked {carry : Chunk} {out : Run} {error : SortError} {st' : JobState} (h : s.park e carry st = .error error st') :
      s.Advanced e st (.folding carry [] out) (.error error) st'
  | leased {carry : Chunk} {next : Handle} {rest out : Run} {w : Window} (h : st.window.lease chunksPerMerge = .ok w) :
      s.Advanced e st (.folding carry (next :: rest) out) (.ok (.holding carry next rest out)) { st with window := w }
  | refused {carry : Chunk} {next : Handle} {rest out : Run} {violation : Violation}
      (h : st.window.lease chunksPerMerge = .error violation) :
      s.Advanced e st (.folding carry (next :: rest) out) (.error (.contractViolation violation)) st
  | merged {carry carry' : Chunk} {next : Handle} {rest out full : Run} {st' : JobState}
      (h : s.mergeHeld e carry next st = .ok (carry', full) st') :
      s.Advanced e st (.holding carry next rest out) (.ok (.folding carry' rest (out ++ full)))
        { st' with window := st'.window.release chunksPerMerge }
  | unmerged {carry : Chunk} {next : Handle} {rest out : Run} {error : SortError} {st' : JobState}
      (h : s.mergeHeld e carry next st = .error error st') :
      s.Advanced e st (.holding carry next rest out) (.error error)
        { st' with window := st'.window.release chunksPerMerge }
  | done {run : Run} : s.Advanced e st (.finished run) (.ok (.finished run)) st

theorem stepTask_advanced (s : Sorter) (e : Engine) (task : MergeTask) (st : JobState) :
    s.Advanced e st task (s.stepTask e (.ok task) st).1 (s.stepTask e (.ok task) st).2 := by
  rw [stepTask]
  cases task with
  | dispatched x y =>
    rw [advance_dispatched]
    cases h : plan e x y with
    | error error => exact .unplanned h
    | ok all =>
      cases all with
      | nil => exact .nothing h
      | cons first rest => exact .planned h
  | folding carry rest out =>
    cases rest with
    | nil =>
      rw [advance_last]
      by_cases hrows : carry.isEmpty = true
      · rw [if_pos hrows]
        exact .spent hrows
      · rw [if_neg hrows]
        cases h : s.park e carry st with
        | ok last st' => exact .parked hrows h
        | error error st' => exact .unparked h
    | cons next rest =>
      rw [advance_folding]
      cases h : st.window.lease chunksPerMerge with
      | ok w => exact .leased h
      | error violation => exact .refused h
  | holding carry next rest out =>
    rw [advance_holding]
    cases h : s.mergeHeld e carry next st with
    | ok r st' => exact .merged h
    | error error st' => exact .unmerged h
  | finished run => exact .done

theorem advanced_of_ok {task task' : MergeTask} {st st' : JobState} (h : s.advance e task st = .ok task' st') :
    s.Advanced e st task (.ok task') st' := by
  have hstep := s.stepTask_advanced e task st
  rwa [stepTask_ok h] at hstep

theorem Advanced.limit {task : MergeTask} {result : Except SortError MergeTask} {st st' : JobState}
    (h : s.Advanced e st task result st') : st'.window.limit = st.window.limit := by
  cases h with
  | nothing | planned | unplanned | spent | refused | done => rfl
  | leased h => exact Window.lease_limit h
  | parked _ h | unparked h =>
    have hpark := h ▸ s.park_steady e _ st
    simp only [hpark]
  | merged h | unmerged h =>
    have hmerge := h ▸ s.mergeHeld_steady e _ _ st
    simp only [Window.release, hmerge]

theorem ReachesWithin.limit {pool pool' : Pool} (h : s.ReachesWithin e pool pool') :
    pool'.job.window.limit = pool.job.window.limit := by
  induction h with
  | refl => rfl
  | tail _ hstep ih =>
    rw [← ih]
    cases hstep with
    | dispatch | collect => rfl
    | advance runs before task after merged st =>
      cases task with
      | error error => rfl
      | ok task => exact (s.stepTask_advanced e task st).limit

/-! ### The end of a merge -/

theorem plan_cons (e : Engine) (x : Handle) (xs : Run) (y : Handle) (ys : Run) :
    plan e (x :: xs) (y :: ys) = (do
      match ← e.compareFirst x y with
      | .gt => return y :: (← plan e (x :: xs) ys)
      | _ => return x :: (← plan e xs (y :: ys))) := plan.eq_3 e x xs y ys

@[simp] theorem plan_nil_right (e : Engine) (xs : Run) : plan e xs [] = .ok xs := by
  cases xs with
  | nil => rw [plan]
  | cons x xs => simp only [plan]

theorem length_plan (e : Engine) (x y : Run) :
    Outcome (fun all => all.length = x.length + y.length) (fun _ => True) (plan e x y) := by
  induction x, y using plan.induct with
  | case1 ys =>
    rw [plan]
    exact (Nat.zero_add _).symm
  | case2 xs _ =>
    rw [plan_nil_right]
    exact rfl
  | case3 x xs y ys ihy ihx =>
    rw [plan_cons]
    refine (Outcome.of_forall (Q := fun _ => True) fun _ => trivial).bind fun o _ => ?_
    split
    next => exact ihy.bind fun rest hrest => congrArg (· + 1) hrest
    next => exact ihx.bind fun rest hrest => (congrArg (· + 1) hrest).trans (Nat.add_right_comm ..)

end Sorter

def MergeTask.steps : MergeTask → Nat
  | dispatched x y => 2 * (x.length + y.length) + 2
  | folding _ rest _ => 2 * rest.length + 1
  | holding _ _ rest _ => 2 * rest.length + 2
  | finished _ => 0

namespace Sorter

variable {s : Sorter} {e e' : Engine}

theorem Advanced.steps_lt {task task' : MergeTask} {st st' : JobState} (h : s.Advanced e st task (.ok task') st') :
    (∃ run, task = .finished run) ∨ task'.steps < task.steps := by
  cases h with
  | nothing | spent | parked => exact .inr (Nat.succ_pos _)
  | merged => exact .inr (Nat.lt_succ_self _)
  | done => exact .inl ⟨_, rfl⟩
  | leased =>
    simp only [MergeTask.steps, List.length_cons]
    omega
  | @planned x y rest first h =>
    have hlength := (length_plan e x y).of_ok h
    rw [List.length_cons] at hlength
    simp only [MergeTask.steps]
    omega

/-! ### Jobs -/

/-- From a state the jobs do the same, and what they do the pool can do: an answer is what it has come to then, and an
error that of a task. -/
structure Follows {α : Type} (s : Sorter) (e : Engine) (start : Pool) (after : α → JobState → Pool) (job job' : Job α)
    (st : JobState) : Prop where
  same : job st = job' st
  leads : match job st with
    | .ok a st' => s.ReachesWithin e start (after a st')
    | .error error st' => ∃ pool, s.ReachesWithin e start pool ∧ .error error ∈ pool.tasks ∧ pool.job = st'

namespace Follows

variable {α β : Type} {start : Pool} {job job' : Job α} {after : α → JobState → Pool} {st : JobState}

theorem pure {a : α} (h : s.ReachesWithin e start (after a st)) :
    s.Follows e start after (Pure.pure a) (Pure.pure a) st := ⟨rfl, h⟩

theorem bind {f f' : α → Job β} {after' : β → JobState → Pool} (h : s.Follows e start after job job' st)
    (hf : ∀ a st', job st = .ok a st' → s.ReachesWithin e start (after a st') →
      s.Follows e start after' (f a) (f' a) st') : s.Follows e start after' (job >>= f) (job' >>= f') st := by
  obtain ⟨hsame, hleads⟩ := h
  constructor
  · rw [Job.bind_apply, Job.bind_apply, ← hsame]
    cases hr : job st with
    | error error st' => rfl
    | ok a st' =>
      rw [hr] at hleads
      exact (hf a st' hr hleads).same
  · rw [Job.bind_apply]
    cases hr : job st with
    | error error st' =>
      rw [hr] at hleads
      exact hleads
    | ok a st' =>
      rw [hr] at hleads
      exact (hf a st' hr hleads).leads

end Follows

def TakeSameSteps (s : Sorter) (e e' : Engine) (start : Pool) : Prop :=
  ∀ pool, s.ReachesWithin e start pool → ∀ task, .ok task ∈ pool.tasks → s.advance e task pool.job = s.advance e' task pool.job

section

variable {start : Pool} (hsame : s.TakeSameSteps e e' start) {rest merged : List Run} {st : JobState}
include hsame

theorem advance_follows {before after : List MergeTask} {task : MergeTask}
    (h : s.ReachesWithin e start (.underway rest (before ++ task :: after) merged st)) :
    s.Follows e start (fun task st => .underway rest (before ++ task :: after) merged st) (s.advance e task)
      (s.advance e' task) st := by
  refine ⟨hsame _ h task (List.mem_map_of_mem (List.mem_append_right before List.mem_cons_self)), ?_⟩
  rw [Pool.underway, List.map_append, List.map_cons] at h
  have hstep := h.tail (.advance rest (before.map .ok) (.ok task) (after.map .ok) merged st)
  cases hr : s.advance e task st with
  | ok task' st' =>
    rw [stepTask_ok hr] at hstep
    simpa only [Pool.underway, List.map_append, List.map_cons] using hstep
  | error error st' =>
    rw [stepTask_error hr] at hstep
    exact ⟨_, hstep, List.mem_append_right _ List.mem_cons_self, rfl⟩

theorem finish_follows {before after : List MergeTask} {task : MergeTask}
    (h : s.ReachesWithin e start (.underway rest (before ++ task :: after) merged st)) :
    s.Follows e start (fun run st => .underway rest (before ++ .finished run :: after) merged st) (s.finish e task)
      (s.finish e' task) st := by
  induction hn : task.steps using Nat.strongRecOn generalizing task st with
  | ind n ih =>
    by_cases hfinished : ∃ run, task = .finished run
    · obtain ⟨run, rfl⟩ := hfinished
      exact .pure h
    · rw [finish_eq, finish_eq]
      refine (advance_follows hsame h).bind fun task' st' hadvance h' => ?_
      have hlt := (advanced_of_ok hadvance).steps_lt.resolve_left hfinished
      exact ih task'.steps (hn ▸ hlt) h' rfl

theorem finishAll_follows (done : List Run) (tasks : List MergeTask)
    (h : s.ReachesWithin e start (.underway rest (done.map .finished ++ tasks) merged st)) :
    s.Follows e start (fun runs st => .underway rest ((done ++ runs.1).map .finished) merged st) (s.finishAll e tasks)
      (s.finishAll e' tasks) st := by
  induction tasks generalizing done st with
  | nil =>
    refine .pure ?_
    rw [List.append_nil] at h ⊢
    exact h
  | cons task tasks ih =>
    refine (finish_follows hsame h).bind fun run st' _ h' => ?_
    rw [List.append_cons, show [MergeTask.finished run] = [run].map .finished from rfl, ← List.map_append] at h'
    refine (ih (done ++ [run]) h').bind ?_
    rintro ⟨runs, hlen⟩ st'' - h''
    refine .pure ?_
    rw [List.append_assoc] at h''
    exact h''

theorem interleave_follows (turns : Turns) (tasks : List MergeTask)
    (h : s.ReachesWithin e start (.underway rest tasks merged st)) :
    s.Follows e start (fun runs st => .underway rest (runs.1.map .finished) merged st) (s.interleave e turns tasks)
      (s.interleave e' turns tasks) st := by
  induction turns generalizing tasks st with
  | nil => exact finishAll_follows hsame [] tasks h
  | cons turn turns ih =>
    rw [interleave, interleave]
    split
    next task htask =>
      obtain ⟨hlt, rfl⟩ := List.getElem?_eq_some_iff.mp htask
      rw [← List.take_append_drop turn tasks, List.drop_eq_getElem_cons hlt] at h
      refine (advance_follows hsame h).bind fun task' st' _ h' => ?_
      have hset : tasks.set turn task' = tasks.take turn ++ task' :: tasks.drop (turn + 1) := by
        rw [List.set_eq_take_append_cons_drop, if_pos hlt]
      rw [← hset] at h'
      exact (ih _ h').bind fun runs st'' _ h'' => .pure h''
    next => exact ih tasks h

end

abbrev bothOf (pairs : List (Run × Run)) : List Run := pairs.flatMap fun pair => [pair.1, pair.2]

abbrev dispatchAll (pairs : List (Run × Run)) : List MergeTask := pairs.map fun pair => .dispatched pair.1 pair.2

theorem exists_pairUp (runs : List Run) :
    ∃ pairs rest, pairUp runs = (dispatchAll pairs, rest) ∧ runs = bothOf pairs ++ rest ∧ rest.length ≤ 1 := by
  induction runs using pairUp.induct with
  | case1 => exact ⟨[], [], rfl, rfl, Nat.zero_le 1⟩
  | case2 run => exact ⟨[], [run], rfl, rfl, Nat.le_refl 1⟩
  | case3 x y runs tasks rest hpair ih =>
    obtain ⟨pairs, rest', hpairs, hruns, hrest⟩ := ih
    exact ⟨(x, y) :: pairs, rest', by rw [pairUp, hpairs]; rfl, congrArg (x :: y :: ·) hruns, hrest⟩

theorem reaches_dispatchAll (pairs : List (Run × Run)) (rest : List Run) (tasks : List MergeTask) (merged : List Run)
    {st : JobState} (hslots : tasks.length + pairs.length ≤ st.window.mergeSlots) :
    s.ReachesWithin e (.underway (bothOf pairs ++ rest) tasks merged st)
      (.underway rest (tasks ++ dispatchAll pairs) merged st) := by
  -- The tasks that are under way grow along with the induction.
  induction pairs generalizing tasks with
  | nil =>
    rw [dispatchAll, List.map_nil, List.append_nil]
    exact .refl
  | cons pair pairs ih =>
    refine .head (.dispatch pair.1 pair.2 _ _ merged st ?_) ?_
    · rw [List.length_map]
      exact Nat.lt_of_lt_of_le (Nat.lt_add_of_pos_right (Nat.succ_pos _)) hslots
    have hrest := ih (tasks ++ [.dispatched pair.1 pair.2]) (by
      rw [List.length_append, List.length_singleton, Nat.add_assoc, Nat.add_comm 1]
      exact hslots)
    rw [Pool.underway, List.map_append, List.append_assoc] at hrest
    exact hrest

/-- The window has room for a group of tasks, whatever has been done so far. -/
theorem reaches_group {start : Pool} {slots : Nat} (hslots : slots = start.job.window.mergeSlots) {pair : Run × Run}
    {pairs : List (Run × Run)} {rest merged : List Run} {st : JobState}
    (h : s.ReachesWithin e start ⟨bothOf (pair :: pairs) ++ rest, [], merged, st⟩) :
    s.ReachesWithin e start (.underway (bothOf (pairs.drop (slots - 1)) ++ rest)
      (.dispatched pair.1 pair.2 :: (dispatchAll pairs).take (slots - 1)) merged st) := by
  have hruns : bothOf (pair :: pairs) ++ rest =
      bothOf (pair :: pairs.take (slots - 1)) ++ (bothOf (pairs.drop (slots - 1)) ++ rest) := by
    rw [← List.append_assoc, ← List.flatMap_append, List.cons_append, List.take_append_drop]
  have hgroup : ([] : List MergeTask).length + (pair :: pairs.take (slots - 1)).length ≤ st.window.mergeSlots := by
    have hpos : 0 < st.window.mergeSlots := Nat.le_max_right ..
    have hkept : st.window.mergeSlots = slots := by
      rw [hslots, Window.mergeSlots, h.limit]
      rfl
    rw [List.length_nil, List.length_cons, List.length_take]
    omega
  rw [hruns] at h
  have hdispatch := h.trans (reaches_dispatchAll _ _ [] merged hgroup)
  rwa [List.nil_append, dispatchAll, List.map_cons, List.map_take] at hdispatch

theorem mergeGroups_follows {start : Pool} (hsame : s.TakeSameSteps e e' start) {slots : Nat}
    (hslots : slots = start.job.window.mergeSlots) (turns : Nat → Turns) {pairs : List (Run × Run)} {tasks : List MergeTask}
    (htasks : tasks = dispatchAll pairs) {rest merged : List Run} {st : JobState}
    (h : s.ReachesWithin e start ⟨bothOf pairs ++ rest, [], merged, st⟩) :
    s.Follows e start (fun runs st => ⟨rest, [], merged ++ runs.1, st⟩) (s.mergeGroups e slots turns tasks)
      (s.mergeGroups e' slots turns tasks) st := by
  -- the number of pairs that wait goes down with each group
  induction hn : pairs.length using Nat.strongRecOn generalizing pairs tasks turns merged st with
  | ind n ih =>
    subst htasks
    cases pairs with
    | nil =>
      rw [dispatchAll, List.map_nil, mergeGroups, mergeGroups]
      refine .pure ?_
      rw [List.append_nil]
      exact h
    | cons pair pairs =>
      rw [dispatchAll, List.map_cons, mergeGroups, mergeGroups]
      refine (interleave_follows hsame (turns 0) _ (reaches_group hslots h)).bind ?_
      rintro ⟨runs, hlen⟩ st' - h'
      have hcollect : s.ReachesWithin e start ⟨bothOf (pairs.drop (slots - 1)) ++ rest, [], merged ++ runs, st'⟩ := by
        refine h'.tail ?_
        rw [Pool.underway, List.map_map]
        exact .collect _ runs merged st'
      have hlt : (pairs.drop (slots - 1)).length < n := by
        rw [← hn, List.length_drop, List.length_cons]
        omega
      refine (ih _ hlt _ List.map_drop.symm hcollect rfl).bind ?_
      rintro ⟨more, hmore⟩ st'' - h''
      refine .pure ?_
      rw [List.append_assoc] at h''
      exact h''

theorem mergeRound_apply (s : Sorter) (e : Engine) (round : Nat) (runs : List Run) (st : JobState) :
    s.mergeRound e round runs st =
      match s.mergeGroups e st.window.mergeSlots (s.schedule.tasks round) (pairUp runs).1 st with
      | .ok merged st' =>
        .ok ⟨merged.1 ++ (pairUp runs).2, by rw [List.length_append, merged.2, length_pairUp]⟩ st'
      | .error error st' => .error error st' := by
  change EStateM.bind (s.mergeGroups e st.window.mergeSlots (s.schedule.tasks round) (pairUp runs).1) _ st = _
  unfold EStateM.bind
  cases s.mergeGroups e st.window.mergeSlots (s.schedule.tasks round) (pairUp runs).1 st <;> rfl

theorem mergeRound_runs (round : Nat) (runs : List Run) (st : JobState) (hsame : s.TakeSameSteps e e' ⟨runs, [], [], st⟩) :
    s.mergeRound e round runs st = s.mergeRound e' round runs st ∧
      match s.mergeRound e round runs st with
      | .ok merged st' => ∃ done rest, merged.1 = done ++ rest ∧ rest.length ≤ 1 ∧
          s.ReachesWithin e ⟨runs, [], [], st⟩ ⟨rest, [], done, st'⟩
      | .error error st' => ∃ pool, s.ReachesWithin e ⟨runs, [], [], st⟩ pool ∧ .error error ∈ pool.tasks ∧
          pool.job = st' := by
  obtain ⟨pairs, rest, hpairs, hruns, hrest⟩ := exists_pairUp runs
  have htasks : (pairUp runs).1 = dispatchAll pairs := congrArg Prod.fst hpairs
  have hleft : (pairUp runs).2 = rest := congrArg Prod.snd hpairs
  have hstart : s.ReachesWithin e ⟨runs, [], [], st⟩ ⟨bothOf pairs ++ rest, [], [], st⟩ := hruns ▸ .refl
  obtain ⟨hgroups, hleads⟩ := mergeGroups_follows hsame rfl (s.schedule.tasks round) htasks hstart
  dsimp only at hgroups hleads
  rw [mergeRound_apply, mergeRound_apply, ← hgroups]
  refine ⟨rfl, ?_⟩
  cases hr : s.mergeGroups e st.window.mergeSlots (s.schedule.tasks round) (pairUp runs).1 st with
  | error error st' =>
    rw [hr] at hleads
    exact hleads
  | ok merged st' =>
    rw [hr] at hleads
    exact ⟨merged.1, rest, congrArg (merged.1 ++ ·) hleft, hrest, hleads⟩

theorem mergeRound_leads (s : Sorter) (e : Engine) (round : Nat) (runs : List Run) (st : JobState) :
    match s.mergeRound e round runs st with
    | .ok merged st' => ∃ done rest, merged.1 = done ++ rest ∧ rest.length ≤ 1 ∧
        s.ReachesWithin e ⟨runs, [], [], st⟩ ⟨rest, [], done, st'⟩
    | .error error st' => ∃ pool, s.ReachesWithin e ⟨runs, [], [], st⟩ pool ∧ .error error ∈ pool.tasks ∧ pool.job = st' :=
  (mergeRound_runs round runs st fun _ _ _ _ => rfl).2

end Sorter
end ChunkSort
