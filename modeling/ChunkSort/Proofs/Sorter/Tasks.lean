import Mathlib.Data.List.Flatten
import ChunkSort.Proofs.Sorter.CarryFold

/-!
Merges that are under way together. A step of one of them keeps what it is to come to, and accounts for its lease. So all
of them keep their chunks in order, and none of them is refused a lease.
-/

namespace ChunkSort
namespace Sorter

variable {s : Sorter} {e : Engine} {cmp : Comparator} {schedule : Schedule} {orders : (Row → Row → Ordering) → Prop}

structure Joined (s : Sorter) (cmp : Comparator) (orders : (Row → Row → Ordering) → Prop) (x y run : Run) : Prop where
  sound : s.SoundRun orders run
  perm : (rowsOf run).Perm (rowsOf x ++ rowsOf y)
  clears : x ≠ [] → y ≠ [] → cmp.Clears s.layout.schema (rowsOf run)

/-- A merge of two runs at any of its stages. While it goes on, the carry stands in front of what is left of both runs, and
whatever that is folded to completes what was given out. -/
inductive Underway (s : Sorter) (cmp : Comparator) (orders : (Row → Row → Ordering) → Prop) (x y : Run) :
    MergeTask → Prop where
  | dispatched (hx : s.SoundRun orders x) (hy : s.SoundRun orders y) : s.Underway cmp orders x y (.dispatched x y)
  | folding {carry : Chunk} {rest out xs ys : Run} (hall : Interleaving orders xs ys rest) (hxs : s.SoundRun orders xs)
      (hys : s.SoundRun orders ys) (hc : s.Carries orders carry xs ys)
      (hjoined : ∀ more, s.Folded cmp orders carry xs ys more → s.Joined cmp orders x y (out ++ more))
      (hrows : (carry.sortedRows ++ (rowsOf xs ++ rowsOf ys)).Subperm (rowsOf x ++ rowsOf y)) :
      s.Underway cmp orders x y (.folding carry rest out)
  | holding {carry : Chunk} {next : Handle} {rest out : Run} (h : s.Underway cmp orders x y (.folding carry (next :: rest) out)) :
      s.Underway cmp orders x y (.holding carry next rest out)
  | finished {run : Run} (h : s.Joined cmp orders x y run) : s.Underway cmp orders x y (.finished run)

theorem Interleaving.symm {xs ys all : Run} (h : Interleaving orders xs ys all) : Interleaving orders ys xs all := by
  induction h with
  | nil => exact .nil
  | left h _ ih => exact .right h ih
  | right h _ ih => exact .left h ih

theorem Underway.folding_cases {x y rest out : Run} {carry : Chunk} {next : Handle}
    (h : s.Underway cmp orders x y (.folding carry (next :: rest) out)) :
    ∃ xs ys, Interleaving orders xs ys rest ∧ (∀ y ∈ ys.head?, FirstLe orders next y) ∧ s.SoundRun orders (next :: xs) ∧
      s.SoundRun orders ys ∧ s.Carries orders carry (next :: xs) ys ∧
      (∀ more, s.Folded cmp orders carry (next :: xs) ys more → s.Joined cmp orders x y (out ++ more)) ∧
      (carry.sortedRows ++ (rowsOf (next :: xs) ++ rowsOf ys)).Subperm (rowsOf x ++ rowsOf y) := by
  -- The two runs may change places, so the next chunk can be taken for one of the first.
  cases h with
  | folding hall hxs hys hc hjoined hrows =>
    cases hall with
    | @left _ xs _ _ hfirst tail => exact ⟨xs, _, tail, hfirst, hxs, hys, hc, hjoined, hrows⟩
    | @right _ _ ys _ hfirst tail =>
      refine ⟨ys, _, tail.symm, hfirst, hys, hxs, hc.symm, fun more hmore => hjoined more hmore.symm, ?_⟩
      exact (List.perm_append_comm.append_left _).subperm.trans hrows

section

variable (ho : ∀ ord, orders ord → cmp.Orders s.layout.schema ord)
include ho

theorem Underway.merged {x y rest out full : Run} {carry carry' : Chunk} {next : Handle}
    (h : s.Underway cmp orders x y (.folding carry (next :: rest) out)) {st st' : JobState}
    (hlimit : chunksPerMerge ≤ st.window.limit)
    (hheld : s.mergeHeld (cmp.engine schedule) carry next st = .ok (carry', full) st') :
    s.Underway cmp orders x y (.folding carry' rest (out ++ full)) := by
  obtain ⟨xs, ys, hall, hfirst, hxs, hys, hc, hjoined, hrows⟩ := h.folding_cases
  obtain ⟨_, rows, hperm, hsorted, hclears, hstep⟩ := (mergeHeld_agrees ho (cmp.engine_confined schedule) hc.holdable
    hc.inOrder hxs.head).of_ok ⟨rfl, hlimit⟩ hheld
  have hfold : s.FoldStep orders carry next xs ys rows := ⟨hfirst, hxs, hys, hc, hperm, hsorted⟩
  have hclears := hclears (hc.pos (.inl (List.cons_ne_nil next xs))) (hxs.packed.head_pos s.layout.capacity_pos)
  refine .folding hall hxs.tail hys (hfold.carries_next hstep) (fun more hmore => ?_) ?_
  · rw [List.append_assoc]
    exact hjoined _ (hfold.folded ho hstep hclears hmore)
  · exact (hfold.rest_subperm hstep).trans hrows

theorem Underway.planned {x y rest : Run} {first : Handle} (hx : s.SoundRun orders x) (hy : s.SoundRun orders y)
    (hplan : plan (cmp.engine schedule) x y = .ok (first :: rest)) :
    s.Underway cmp orders x y (.folding first.load rest []) := by
  have hall := (hx.plans hy ho (cmp.engine_confined schedule)).2.of_ok hplan
  obtain ⟨xs, ys, tail, hxs, hys, hc, hperm, hleft⟩ := hall.exists_carries hx hy
  refine .folding tail hxs hys hc (fun more hmore => ?_) hperm.subperm
  exact ⟨hmore.sound, hmore.perm.trans hperm, fun hx hy => hmore.clears (hleft hx hy)⟩

theorem Underway.unmerged {x y rest out : Run} {carry : Chunk} {next : Handle}
    (h : s.Underway cmp orders x y (.folding carry (next :: rest) out)) {st st' : JobState} {error : SortError}
    (hlimit : chunksPerMerge ≤ st.window.limit)
    (hheld : s.mergeHeld (cmp.engine schedule) carry next st = .error error st') :
    cmp.FailedWithin s.layout.schema (rowsOf x ++ rowsOf y) error := by
  obtain ⟨xs, ys, _, _, hxs, hys, hc, _, hrows⟩ := h.folding_cases
  have hfailed := (mergeHeld_agrees ho (cmp.engine_confined schedule) hc.holdable hc.inOrder hxs.head).of_error
    ⟨rfl, hlimit⟩ hheld
  refine hfailed.mono (List.Subperm.trans ?_ hrows)
  rw [rowsOf_cons, List.append_assoc, ← List.append_assoc]
  exact (List.sublist_append_left _ _).subperm

theorem Underway.step {x y : Run} {task : MergeTask} (h : s.Underway cmp orders x y task) {st st' : JobState}
    (hlimit : chunksPerMerge ≤ st.window.limit)
    (hlease : ∀ carry next rest out, task = .folding carry (next :: rest) out → ∃ w, st.window.lease chunksPerMerge = .ok w)
    {result : Except SortError MergeTask} (hstep : s.Advanced (cmp.engine schedule) st task result st') :
    Outcome (s.Underway cmp orders x y) (cmp.FailedWithin s.layout.schema (rowsOf x ++ rowsOf y)) result := by
  cases hstep with
  | nothing hplan =>
    cases h with
    | dispatched hx hy =>
      cases (hx.plans hy ho (cmp.engine_confined schedule)).2.of_ok hplan
      exact .finished ⟨hx, .refl _, fun hne => absurd rfl hne⟩
  | planned hplan =>
    cases h with
    | dispatched hx hy => exact .planned ho hx hy hplan
  | unplanned hplan =>
    cases h with
    | dispatched hx hy => exact (hx.plans hy ho (cmp.engine_confined schedule)).2.of_error hplan
  | spent hempty =>
    cases h with
    | folding hall hxs hys hc hjoined hrows =>
      cases hall
      have hlast := hjoined _ (hc.folded_empty (of_decide_eq_true hempty))
      rw [List.append_nil] at hlast
      exact .finished hlast
  | parked hrows hpark =>
    cases h with
    | folding hall hxs hys hc hjoined _ =>
      cases hall
      have hpos : 0 < _ := Nat.pos_of_ne_zero fun hz => hrows (decide_eq_true hz)
      obtain ⟨last, _, hok, hsound, hchunk⟩ := park_sound cmp schedule hc.holdable hlimit
      cases hpark.symm.trans hok
      exact .finished (hjoined _ (hc.folded_last hpos hsound hchunk))
  | unparked hpark =>
    cases h with
    | folding hall hxs hys hc hjoined _ =>
      obtain ⟨_, _, hok, _⟩ := park_sound cmp schedule hc.holdable hlimit
      cases hpark.symm.trans hok
  | leased => exact .holding h
  | refused hw =>
    obtain ⟨w, hw'⟩ := hlease _ _ _ _ rfl
    rw [hw'] at hw
    cases hw
  | merged hheld =>
    cases h with
    | holding h => exact h.merged ho hlimit hheld
  | unmerged hheld =>
    cases h with
    | holding h => exact h.unmerged ho hlimit hheld
  | done => exact h

theorem Underway.same_step (he : e.Confined cmp schedule) {x y : Run} {task : MergeTask}
    (h : s.Underway cmp orders x y task) {st : JobState} (hlimit : chunksPerMerge ≤ st.window.limit) :
    s.advance e task st = s.advance (cmp.engine schedule) task st := by
  have hst : st.Holds st.window.resident := ⟨rfl, hlimit⟩
  cases h with
  | dispatched hx hy => rw [advance_dispatched, advance_dispatched, (hx.plans hy ho he).1]
  | @folding carry rest out xs ys hall hxs hys hc hjoined hrows =>
    cases rest with
    | nil => rw [advance_last, advance_last, (park_agrees (E := fun _ => False) he hc.holdable st hst).1]
    | cons next rest => rw [advance_folding, advance_folding]
  | holding h =>
    obtain ⟨xs, ys, _, _, hxs, hys, hc, _⟩ := h.folding_cases
    rw [advance_holding, advance_holding, (mergeHeld_agrees ho he hc.holdable hc.inOrder hxs.head st hst).1]
  | finished h => rfl

end

/-! ### Leases -/

structure Leased (limit merges : Nat) (st : JobState) : Prop where
  limit : st.window.limit = limit
  resident : st.window.resident = chunksPerMerge * merges

def holdsLease : Except SortError MergeTask → Bool
  | .ok (.holding ..) => true
  | _ => false

namespace Leased

variable {limit merges : Nat} {st st' : JobState}

theorem of_window (h : Leased limit merges st) (hw : st'.window = st.window) : Leased limit merges st' :=
  ⟨hw ▸ h.limit, hw ▸ h.resident⟩

theorem lease (h : Leased limit merges st) (hroom : chunksPerMerge * (merges + 1) ≤ limit) :
    ∃ w, st.window.lease chunksPerMerge = .ok w := by
  have hfits : st.window.resident + chunksPerMerge ≤ st.window.limit := by
    rw [h.resident, h.limit]
    exact hroom
  exact ⟨_, if_pos hfits⟩

theorem leased (h : Leased limit merges st) {w : Window} (hw : st.window.lease chunksPerMerge = .ok w) :
    Leased limit (merges + 1) { st with window := w } where
  limit := (Window.lease_limit hw).trans h.limit
  resident := by
    unfold Window.lease at hw
    split at hw <;> cases hw
    exact congrArg (· + chunksPerMerge) h.resident

theorem release (h : Leased limit (merges + 1) st) :
    Leased limit merges { st with window := st.window.release chunksPerMerge } where
  limit := h.limit
  resident := (congrArg (· - chunksPerMerge) h.resident).trans (Nat.add_sub_cancel ..)

theorem step {task : MergeTask} {result : Except SortError MergeTask} {others : Nat}
    (h : Leased limit (others + if holdsLease (.ok task) then 1 else 0) st) (hstep : s.Advanced e st task result st') :
    Leased limit (others + if holdsLease result then 1 else 0) st' := by
  cases hstep with
  | nothing | planned | unplanned | spent | refused | done => exact h
  | leased hw => exact Leased.leased h hw
  | parked _ hpark | unparked hpark =>
    have hw := hpark ▸ s.park_steady e _ st
    exact h.of_window (by simp only [hw])
  | merged hheld | unmerged hheld =>
    have hw := hheld ▸ s.mergeHeld_steady e _ _ st
    exact Leased.release (h.of_window (by simp only [hw]))

end Leased

/-! ### All tasks of a round -/

/-- Every two neighbours of the runs that a round started with were merged, are being merged, or are still to be
dispatched. What is resident is what the tasks hold, and all of them could hold their chunks at once. -/
structure SoundPool (s : Sorter) (cmp : Comparator) (orders : (Row → Row → Ordering) → Prop) (limit : Nat) (start : List Run)
    (pool : Pool) : Prop where
  sound : ∀ run ∈ start, s.SoundRun orders run
  shares : ∃ done pairs, start = bothOf (done ++ pairs) ++ pool.runs ∧
    List.Forall₂ (fun pair run => s.Joined cmp orders pair.1 pair.2 run) done pool.merged ∧
    List.Forall₂ (fun pair task => Outcome (s.Underway cmp orders pair.1 pair.2)
      (cmp.FailedWithin s.layout.schema (rowsOf pair.1 ++ rowsOf pair.2)) task) pairs pool.tasks
  limit_ge : chunksPerMerge ≤ limit
  slots : chunksPerMerge * pool.tasks.length ≤ limit
  leased : Leased limit (pool.tasks.countP holdsLease) pool.job

theorem countP_middle {α : Type} (p : α → Bool) (before after : List α) (a : α) :
    (before ++ a :: after).countP p = (before ++ after).countP p + if p a then 1 else 0 := by
  rw [List.countP_append, List.countP_append, List.countP_cons, Nat.add_assoc]

namespace SoundPool

variable {limit : Nat} {start : List Run}

theorem start_sound {runs : List Run} {st : JobState} (hr : ∀ run ∈ runs, s.SoundRun orders run) (hst : st.Holds 0) :
    s.SoundPool cmp orders st.window.limit runs ⟨runs, [], [], st⟩ :=
  ⟨hr, ⟨[], [], rfl, .nil, .nil⟩, hst.limit, Nat.zero_le _, rfl, hst.resident⟩

theorem room {runs merged : List Run} {before after : List (Except SortError MergeTask)} {task : Except SortError MergeTask}
    {st : JobState} (h : s.SoundPool cmp orders limit start ⟨runs, before ++ task :: after, merged, st⟩) :
    chunksPerMerge * ((before ++ after).countP holdsLease + 1) ≤ limit := by
  have hothers := List.countP_le_length (p := holdsLease) (l := before ++ after)
  have hlength : (before ++ task :: after).length = (before ++ after).length + 1 := by simp [Nat.add_assoc]
  calc chunksPerMerge * ((before ++ after).countP holdsLease + 1)
      ≤ chunksPerMerge * (before ++ task :: after).length :=
        Nat.mul_le_mul_left _ (hlength.symm ▸ Nat.succ_le_succ hothers)
    _ ≤ limit := h.slots

theorem lease {pool : Pool} (h : s.SoundPool cmp orders limit start pool) {carry : Chunk} {next : Handle} {rest out : Run}
    (hmem : .ok (.folding carry (next :: rest) out) ∈ pool.tasks) : ∃ w, pool.job.window.lease chunksPerMerge = .ok w := by
  obtain ⟨runs, tasks, merged, st⟩ := pool
  obtain ⟨before, after, rfl⟩ := List.append_of_mem hmem
  have hleased := h.leased
  rw [countP_middle] at hleased
  exact hleased.lease h.room

theorem limit_le {pool : Pool} (h : s.SoundPool cmp orders limit start pool) : chunksPerMerge ≤ pool.job.window.limit :=
  h.leased.limit.symm ▸ h.limit_ge

theorem failed {pool : Pool} (h : s.SoundPool cmp orders limit start pool) {error : SortError} (hmem : .error error ∈ pool.tasks) :
    cmp.FailedWithin s.layout.schema (start.flatMap rowsOf) error := by
  obtain ⟨done, pairs, hstart, _, htasks⟩ := h.shares
  obtain ⟨pair, hpair, hfailed⟩ := exists_left_of_forall₂ htasks hmem
  obtain ⟨before, after, hsplit⟩ := List.append_of_mem (List.mem_append_right done hpair)
  refine Comparator.FailedWithin.mono hfailed (List.Sublist.subperm ?_)
  have hboth : [pair.1, pair.2].Sublist start := by
    rw [hstart, hsplit, bothOf, List.flatMap_append, List.flatMap_cons, List.append_assoc, List.append_assoc]
    exact (List.sublist_append_left ..).trans (List.sublist_append_right ..)
  have hrows := hboth.flatMap rowsOf
  rwa [List.flatMap_cons, List.flatMap_singleton] at hrows

theorem dispatched {x y : Run} {runs merged : List Run} {tasks : List (Except SortError MergeTask)} {st : JobState}
    (h : s.SoundPool cmp orders limit start ⟨x :: y :: runs, tasks, merged, st⟩)
    (hslots : tasks.length < st.window.mergeSlots) :
    s.SoundPool cmp orders limit start ⟨runs, tasks ++ [.ok (.dispatched x y)], merged, st⟩ := by
  obtain ⟨done, pairs, hstart, hdone, htasks⟩ := h.shares
  have hx : x ∈ start := hstart ▸ List.mem_append_right _ List.mem_cons_self
  have hy : y ∈ start := hstart ▸ List.mem_append_right _ (List.mem_cons_of_mem x List.mem_cons_self)
  refine ⟨h.sound, ⟨done, pairs ++ [(x, y)], ?_, hdone, ?_⟩, h.limit_ge, ?_, ?_⟩
  · simp only [hstart, bothOf, List.flatMap_append, List.append_assoc]
    rfl
  · exact List.rel_append htasks (.cons (.dispatched (h.sound x hx) (h.sound y hy)) .nil)
  · have hroom := Window.mul_le_of_lt_mergeSlots h.limit_le hslots
    rw [h.leased.limit] at hroom
    rwa [List.length_append, List.length_singleton]
  · rw [List.countP_append]
    exact h.leased

theorem collected {runs out merged : List Run} {st : JobState}
    (h : s.SoundPool cmp orders limit start ⟨runs, out.map fun run => .ok (.finished run), merged, st⟩) :
    s.SoundPool cmp orders limit start ⟨runs, [], merged ++ out, st⟩ := by
  obtain ⟨done, pairs, hstart, hdone, htasks⟩ := h.shares
  have hnone : (out.map fun run => Except.ok (MergeTask.finished run)).countP holdsLease = 0 := by
    rw [List.countP_map]
    exact List.countP_eq_zero.mpr fun _ _ => Bool.false_ne_true
  have hleased := h.leased
  rw [hnone] at hleased
  have hout : List.Forall₂ (fun pair run => s.Joined cmp orders pair.1 pair.2 run) pairs out := by
    rw [List.forall₂_map_right_iff] at htasks
    refine htasks.imp fun pair run hrun => ?_
    cases hrun with
    | finished h => exact h
  refine ⟨h.sound, ⟨done ++ pairs, [], ?_, List.rel_append hdone hout, .nil⟩, h.limit_ge, Nat.zero_le _, hleased⟩
  rw [List.append_nil]
  exact hstart

variable (ho : ∀ ord, orders ord → cmp.Orders s.layout.schema ord) (he : e.Confined cmp schedule)
include ho he

theorem same_step {pool : Pool} (h : s.SoundPool cmp orders limit start pool) {task : MergeTask} (hmem : .ok task ∈ pool.tasks) :
    s.advance e task pool.job = s.advance (cmp.engine schedule) task pool.job := by
  obtain ⟨_, pairs, _, _, htasks⟩ := h.shares
  obtain ⟨pair, _, htask⟩ := exists_left_of_forall₂ htasks hmem
  exact Underway.same_step ho he htask h.limit_le

theorem advanced {runs merged : List Run} {before after : List (Except SortError MergeTask)} {task : MergeTask}
    {st : JobState} (h : s.SoundPool cmp orders limit start ⟨runs, before ++ .ok task :: after, merged, st⟩) :
    s.SoundPool cmp orders limit start
      ⟨runs, before ++ (s.stepTask e (.ok task) st).1 :: after, merged, (s.stepTask e (.ok task) st).2⟩ := by
  obtain ⟨done, pairs, hstart, hdone, htasks⟩ := h.shares
  obtain ⟨pairs₁, pair, pairs₂, rfl, hbefore, htask, hafter⟩ := exists_of_forall₂_middle htasks
  have hmem : Except.ok task ∈ before ++ .ok task :: after := List.mem_append_right before List.mem_cons_self
  have hstep := s.stepTask_advanced (cmp.engine schedule) task st
  rw [stepTask, ← h.same_step ho he hmem] at hstep
  have hlease : ∀ carry next rest out, task = .folding carry (next :: rest) out →
      ∃ w, st.window.lease chunksPerMerge = .ok w := by
    rintro carry next rest out rfl
    exact h.lease hmem
  have htask' := Underway.step ho htask h.limit_le hlease hstep
  have hleased := h.leased
  rw [countP_middle] at hleased
  have hslots := h.slots
  rw [List.length_append, List.length_cons] at hslots
  refine ⟨h.sound, ⟨done, _, hstart, hdone, List.rel_append hbefore (.cons htask' hafter)⟩, h.limit_ge, ?_, ?_⟩
  · rw [List.length_append, List.length_cons]
    exact hslots
  · rw [countP_middle]
    exact hleased.step hstep

theorem step {pool pool' : Pool} (h : s.SoundPool cmp orders limit start pool) (hstep : s.RoundStep e pool pool') :
    s.SoundPool cmp orders limit start pool' := by
  cases hstep with
  | dispatch x y runs tasks merged st hslots => exact h.dispatched hslots
  | advance runs before task after merged st =>
    cases task with
    | error error => exact h
    | ok task => exact h.advanced ho he
  | collect runs out merged st => exact h.collected

theorem within {pool pool' : Pool} (h : s.SoundPool cmp orders limit start pool) (hreach : s.ReachesWithin e pool pool') :
    s.SoundPool cmp orders limit start pool' := by
  induction hreach with
  | refl => exact h
  | tail _ hstep ih => exact ih.step ho he hstep

end SoundPool
end Sorter
end ChunkSort
