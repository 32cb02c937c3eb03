import ChunkSort.Proofs.Sorter.Correctness
import ChunkSort.Proofs.Sorter.InStep

/-!
Sorters of one layout that do the same with chunks of different numbers, with files or in memory. With files a job takes
more chunk numbers, and the order of two chunks is decided by copies of their first records. Under a comparator of contents
nothing depends on that.
-/

namespace ChunkSort

/-- The comparator looks at identifiers and values only. It may answer or fail as it likes. -/
def Comparator.Answers (cmp : Comparator) (schema : List ColumnType)
    (answer : Row → Row → Except DataError Ordering) : Prop :=
  ∀ {a b : Record} {u v : Row}, a.Reads schema u → b.Reads schema v → cmp a b = answer u v

theorem Chunk.WellFormed.twin {c c' : Chunk} (hc : c.WellFormed) (h : c.Twin c') : c'.WellFormed := by
  obtain ⟨id, rfl⟩ := h
  exact { hc with }

namespace Sorter

variable {s : Sorter} {exact counted : Prop}

def spilling (s : Sorter) (spills : Bool) (schedule : Schedule := {}) : Sorter := { s with spills, schedule }

theorem Holdable.twin {c c' : Chunk} (hc : s.Holdable c) (h : c.Twin c') : s.Holdable c' where
  wellFormed := hc.wellFormed.twin h
  ofSchema := by
    obtain ⟨id, rfl⟩ := h
    exact hc.ofSchema
  rows_le := h.rows ▸ hc.rows_le
  status := by
    obtain ⟨id, rfl⟩ := h
    exact hc.status

/-- Two handles of the same chunk but for its number. If they are to agree exactly then the first one is spilled, so that
no fault tells the row of a record that it copied. -/
structure Mirrors (s : Sorter) (exact : Prop) (h h' : Handle) : Prop where
  spilled : exact → h.isSpilled = true
  sound : s.Sound h
  sound' : s.Sound h'
  twin : h.load.Twin h'.load

namespace Mirrors

variable {h h' : Handle} (hm : s.Mirrors exact h h')
include hm

theorem rows : h'.rows = h.rows := by
  rw [h'.rows_eq, h.rows_eq, hm.twin.rows]

theorem head? : h'.load.sortedRows.head? = h.load.sortedRows.head? := by
  obtain ⟨id, hid⟩ := hm.twin
  rw [hid]
  rfl

end Mirrors

abbrev Mirrored (s : Sorter) (exact : Prop) : Run → Run → Prop := List.Forall₂ (s.Mirrors exact)

theorem Mirrored.records {chunks chunks' : Run} (h : s.Mirrored exact chunks chunks') :
    chunks.flatMap (·.load.sortedRecords) = chunks'.flatMap (·.load.sortedRecords) := by
  induction h with
  | nil => rfl
  | cons hm _ ih => rw [List.flatMap_cons, List.flatMap_cons, ih, hm.twin.sortedRecords]

theorem Mirrored.rows {chunks chunks' : Run} (h : s.Mirrored exact chunks chunks') :
    chunks.map Handle.rows = chunks'.map Handle.rows := by
  induction h with
  | nil => rfl
  | cons hm _ ih => rw [List.map_cons, List.map_cons, ih, hm.rows]

theorem park_eq (spills : Bool) (schedule : Schedule) (cmp : Comparator) {c : Chunk} (hc : s.Holdable c) (st : JobState) :
    ∃ h next, (s.spilling spills schedule).park (cmp.engine schedule) c st = .ok h { st with next } ∧ s.Sound h ∧
      h.load = c ∧ (spills = true → h.isSpilled = true) := by
  cases spills with
  | false => exact ⟨.resident c, st.next, rfl, hc.resident, rfl, nofun⟩
  | true =>
    obtain ⟨head, next, heq, hsound⟩ := hc.head st.next
    refine ⟨.spilled c.spill head, next, ?_, hsound, rfl, fun _ => rfl⟩
    have hhead : (cmp.engine schedule).head c st.next = (.ok head, next) := heq
    have hget : (get : Job JobState) st = .ok st st := rfl
    rw [park, if_pos (show (s.spilling true schedule).spills = true from rfl)]
    simp only [Job.bind_apply, hget, hhead]
    rfl

section

variable {spills spills' : Bool} {schedule schedule' : Schedule} (hspills : exact → spills = true)
  (hs : exact → schedule = schedule')

include hspills in
theorem park_inStep (cmp : Comparator) {n : Nat} {c c' : Chunk} (hc : s.Holdable c) (h : c.Twin c') :
    Job.InStep exact counted n n (s.Mirrors exact) ((s.spilling spills schedule).park (cmp.engine schedule) c)
      ((s.spilling spills' schedule').park (cmp.engine schedule') c') := by
  intro st st' hst
  obtain ⟨x, next, heq, hx, hload, hspilled⟩ := park_eq spills schedule cmp hc st
  obtain ⟨x', next', heq', hx', hload', -⟩ := park_eq spills' schedule' cmp (hc.twin h) st'
  rw [heq, heq']
  refine ⟨hst.of_windows rfl rfl hst.merges, fun he => hspilled (hspills he), hx, hx', ?_⟩
  rw [hload, hload']
  exact h

/-! ### Loading and sorting -/

variable (cmp : Comparator)

include hs

omit cmp in
theorem load_alike {c c' : Chunk} (h : c.Twin c') (b : Batch) (projection : Option (List Nat)) (offset : Nat) :
    Attempt.Alike exact Chunk.Twin (c.load b projection offset schedule) (c'.load b projection offset schedule') :=
  (h.load b projection offset schedule).trans (Chunk.load_alike hs c' b projection offset)

include hspills

theorem settle_inStep {c c' : Chunk} (hc : s.Holdable c) (h : c.Twin c') :
    Job.InStep exact counted 0 0 (s.Mirrors exact) ((s.spilling spills schedule).settle (cmp.engine schedule) c)
      ((s.spilling spills' schedule').settle (cmp.engine schedule') c') := by
  have hsort : Attempt.Alike exact Chunk.Twin (c.sort cmp schedule) (c'.sort cmp schedule') :=
    (h.sort cmp schedule).trans (Chunk.sort_alike hs c' cmp)
  have hsorted : Job.InStep exact counted 0 0 (fun r r' : Unit × Chunk => s.Holdable r.2 ∧ r.2.Twin r'.2)
      (Job.withLease 1 (Job.ofAttempt (c.sort cmp schedule))) (Job.withLease 1 (Job.ofAttempt (c'.sort cmp schedule'))) := by
    apply Job.InStep.withLease (by decide)
    refine .ofAttempt (R := fun d d' => s.Holdable d ∧ d.Twin d') hsort fun v hok htwin => ⟨?_, htwin⟩
    obtain ⟨hr, hstatus⟩ := Chunk.sort_reordered hc.wellFormed cmp schedule
    rw [hok] at hstatus
    exact hc.reordered hr (by rw [hstatus]; decide)
  exact hsorted.bind fun _ _ ⟨hd, ht⟩ => park_inStep hspills cmp hd ht

theorem loadBatch_inStep (b : Batch) {offset : Nat} (hoff : offset ≤ b.rows) {c c' : Chunk} (hc : s.Loading c)
    (h : c.Twin c') :
    Job.InStep exact counted 0 0 (fun r r' => s.Mirrored exact r.1 r'.1 ∧ s.Loading r.2 ∧ r.2.Twin r'.2)
      ((s.spilling spills schedule).loadBatch (cmp.engine schedule) b offset c)
      ((s.spilling spills' schedule').loadBatch (cmp.engine schedule') b offset c') := by
  induction offset, c using Sorter.loadBatch.induct (s.spilling spills schedule) (cmp.engine schedule) b generalizing c' with
  | case1 offset c attempt error hr =>
    obtain ⟨error', hr', halike⟩ := (load_alike hs h b s.projection offset).of_error hr
    rw [loadBatch_error hr, loadBatch_error (s := s.spilling spills' schedule') (e := cmp.engine schedule') hr']
    exact .throw halike
  | case2 offset c attempt o hr hs' =>
    obtain ⟨hr', htwin⟩ := (load_alike hs h b s.projection offset).of_ok hr
    obtain ⟨_, _, _, placed, contents, hl⟩ := loaded_of_ok (cmp.engine_confined schedule) hc hoff hr
    rw [loadBatch_success hr hs', loadBatch_success (s := s.spilling spills' schedule') (e := cmp.engine schedule') hr' hs']
    exact .pure ⟨.nil, hc.load hl, htwin⟩
  | case3 offset c attempt o hr hs' hempty =>
    obtain ⟨hr', htwin⟩ := (load_alike hs h b s.projection offset).of_ok hr
    rw [loadBatch_oversized hr hs' hempty, loadBatch_oversized (s := s.spilling spills' schedule')
      (e := cmp.engine schedule') hr' hs' (htwin.isEmpty.trans hempty)]
    exact .throw (.violation _)
  | case4 offset c attempt o hr hs' hempty hlt ih =>
    obtain ⟨hr', htwin⟩ := (load_alike hs h b s.projection offset).of_ok hr
    obtain ⟨_, _, _, placed, contents, hl⟩ := loaded_of_ok (cmp.engine_confined schedule) hc hoff hr
    rw [loadBatch_more hr hs' hempty, loadBatch_more (s := s.spilling spills' schedule') (e := cmp.engine schedule') hr' hs'
      (htwin.isEmpty ▸ hempty)]
    refine .bind .takeNumber fun number number' _ => ?_
    refine (settle_inStep hspills hs cmp (hc.load hl).toHoldable htwin).bind fun full full' hfull => ?_
    refine (ih number hl.le_rows (s.loading_chunk number) ⟨number', rfl⟩).bind ?_
    rintro ⟨more, last⟩ ⟨more', last'⟩ ⟨hmore, hlast, htwin⟩
    exact .pure ⟨.cons hfull hmore, hlast, htwin⟩

theorem loadBatches_inStep (batches : List Batch) {c c' : Chunk} (hc : s.Loading c) (h : c.Twin c') :
    Job.InStep exact counted 0 0 (fun r r' => s.Mirrored exact r.1 r'.1 ∧ s.Loading r.2 ∧ r.2.Twin r'.2)
      ((s.spilling spills schedule).loadBatches (cmp.engine schedule) batches c)
      ((s.spilling spills' schedule').loadBatches (cmp.engine schedule') batches c') := by
  induction batches generalizing c c' with
  | nil => exact .pure ⟨.nil, hc, h⟩
  | cons b bs ih =>
    refine (loadBatch_inStep hspills hs cmp b (Nat.zero_le _) hc h).bind ?_
    rintro ⟨settled, d⟩ ⟨settled', d'⟩ ⟨hsettled, hd, htwin⟩
    refine (ih hd htwin).bind ?_
    rintro ⟨more, last⟩ ⟨more', last'⟩ ⟨hmore, hlast⟩
    exact .pure ⟨List.rel_append hsettled hmore, hlast⟩

theorem ingest_inStep (batches : List Batch) :
    Job.InStep exact counted 0 0 (s.Mirrored exact) ((s.spilling spills schedule).ingest (cmp.engine schedule) batches)
      ((s.spilling spills' schedule').ingest (cmp.engine schedule') batches) := by
  have hnew : Job.InStep exact counted 0 0 (fun c c' => s.Loading c ∧ c.Twin c') (s.spilling spills schedule).newChunk
      (s.spilling spills' schedule').newChunk :=
    .bind .takeNumber fun number number' _ => .pure ⟨s.loading_chunk number, number', rfl⟩
  refine hnew.bind fun c c' ⟨hc, h⟩ => (loadBatches_inStep hspills hs cmp batches hc h).bind ?_
  rintro ⟨settled, last⟩ ⟨settled', last'⟩ ⟨hsettled, hlast, htwin⟩
  dsimp only
  rw [htwin.isEmpty]
  split
  next => exact .pure hsettled
  next =>
    refine (settle_inStep hspills hs cmp hlast.toHoldable htwin).bind fun full full' hfull => .pure ?_
    exact List.rel_append hsettled (.cons hfull .nil)

omit hs in
theorem adopt_inStep (chunks : List Chunk) (hc : ∀ c ∈ chunks, c.WellFormed) :
    Job.InStep exact counted 0 0 (s.Mirrored exact) ((s.spilling spills schedule).adopt (cmp.engine schedule) chunks)
      ((s.spilling spills' schedule').adopt (cmp.engine schedule') chunks) := by
  unfold adopt
  induction chunks with
  | nil => exact .pure .nil
  | cons c chunks ih =>
    rw [List.mapM_cons, List.mapM_cons]
    have hrest := ih fun x hx => hc x (.tail _ hx)
    refine Job.InStep.bind (Q := s.Mirrors exact) ?_ fun h h' hm => hrest.bind fun hs hs' hms => .pure (.cons hm hms)
    have hviolation : (s.spilling spills schedule).chunkViolation? c = s.chunkViolation? c ∧
        (s.spilling spills' schedule').chunkViolation? c = s.chunkViolation? c := ⟨rfl, rfl⟩
    rw [hviolation.1, hviolation.2]
    cases hv : s.chunkViolation? c with
    | some v => exact .throw (.violation v)
    | none => exact park_inStep hspills cmp (holdable_of_chunkViolation (hc c List.mem_cons_self) hv) (.refl c)

/-! ### Merging -/

omit hspills in
theorem merge_inStep {n : Nat} {carry carry' : Chunk} (hc : s.Holdable carry) (h : carry.Twin carry') {next next' : Handle}
    (hn : s.Mirrors exact next next') (i i' j j' : Nat) :
    Job.InStep exact counted n n (fun r r' : Unit × MergeSet => s.Holdable r.2.low ∧ s.Holdable r.2.high ∧ r.2.Twin r'.2)
      (Job.ofAttempt (MergeSet.merge ⟨carry, next.load, s.layout.destination i, s.layout.destination j⟩ cmp schedule))
      (Job.ofAttempt
        (MergeSet.merge ⟨carry', next'.load, s.layout.destination i', s.layout.destination j'⟩ cmp schedule')) := by
  have hload := hn.sound.load
  have hm := (mergeable hc hload i j).2
  have hm' := (mergeable (hc.twin h) hn.sound'.load i' j').2
  have hsets : MergeSet.Twin ⟨carry, next.load, s.layout.destination i, s.layout.destination j⟩
      ⟨carry', next'.load, s.layout.destination i', s.layout.destination j'⟩ :=
    ⟨h, hn.twin, ⟨i', rfl⟩, ⟨j', rfl⟩⟩
  have hmerge := (hsets.merge cmp schedule (MergeSet.layoutViolation?_eq_none_iff.mpr hm)
    (MergeSet.layoutViolation?_eq_none_iff.mpr hm') rfl rfl).trans (MergeSet.merge_alike hs _ cmp)
  have hout := merge_outcome cmp schedule hc hload i j
  refine .ofAttempt (R := fun m m' => s.Holdable m.low ∧ s.Holdable m.high ∧ m.Twin m') hmerge fun u hok htwin => ?_
  dsimp only at hout
  rw [hok] at hout
  obtain ⟨rows, hd, _⟩ := hout
  obtain ⟨hlow, hhigh, _⟩ := delivered_holdable hc hload hd
  exact ⟨hlow, hhigh, htwin⟩

theorem mergeHeld_inStep {n : Nat} {carry carry' : Chunk} (hc : s.Holdable carry) (h : carry.Twin carry')
    {next next' : Handle} (hn : s.Mirrors exact next next') :
    Job.InStep exact counted n n (fun r r' => s.Holdable r.1 ∧ r.1.Twin r'.1 ∧ s.Mirrored exact r.2 r'.2)
      ((s.spilling spills schedule).mergeHeld (cmp.engine schedule) carry next)
      ((s.spilling spills' schedule').mergeHeld (cmp.engine schedule') carry' next') := by
  have hdest : Job.InStep exact counted n n (fun d d' => ∃ i i', d = s.layout.destination i ∧ d' = s.layout.destination i')
      (s.spilling spills schedule).newDestination (s.spilling spills' schedule').newDestination :=
    .bind .takeNumber fun i i' _ => .pure ⟨i, i', rfl, rfl⟩
  refine hdest.bind ?_
  rintro _ _ ⟨i, i', rfl, rfl⟩
  refine hdest.bind ?_
  rintro _ _ ⟨j, j', rfl, rfl⟩
  refine (merge_inStep hs cmp hc h hn i i' j j').bind ?_
  rintro ⟨_, m⟩ ⟨_, m'⟩ ⟨hlow, hhigh, htwin⟩
  refine .bind .countMerge fun _ _ _ => ?_
  rw [htwin.low.rows]
  change Job.InStep _ _ _ _ _ (if m.low.rows = s.layout.capacity then _ else _)
    (if m.low.rows = s.layout.capacity then _ else _)
  split
  next =>
    refine (park_inStep hspills cmp hlow htwin.low).bind fun full full' hfull => .pure ?_
    exact ⟨hhigh, htwin.high, .cons hfull .nil⟩
  next => exact .pure ⟨hlow, htwin.low, .nil⟩

omit hspills hs

variable {cmp} {answer : Row → Row → Except DataError Ordering} (ha : cmp.Answers s.layout.schema answer)
include ha

theorem compareFirst_alike {x x' y y' : Handle} (hx : s.Mirrors exact x x') (hy : s.Mirrors exact y y') :
    Outcomes Eq (SortError.Alike exact) (Handle.compareFirst cmp x y) (Handle.compareFirst cmp x' y') := by
  -- Both orders are decided by the same rows. Of a copied record the row is not told.
  have hxr := hx.head?
  have hyr := hy.head?
  unfold Handle.compareFirst
  rcases hx.sound.first_cases with ⟨hf, hr⟩ | ⟨a, u, hf, hr, hau⟩ <;>
    rcases hx.sound'.first_cases with ⟨hf', hr'⟩ | ⟨a', u', hf', hr', hau'⟩ <;>
    rw [hr, hr'] at hxr <;> cases hxr
  · rw [hf, hf']
    exact rfl
  rcases hy.sound.first_cases with ⟨hg, ht⟩ | ⟨b, v, hg, ht, hbv⟩ <;>
    rcases hy.sound'.first_cases with ⟨hg', ht'⟩ | ⟨b', v', hg', ht', hbv'⟩ <;>
    rw [ht, ht'] at hyr <;> cases hyr
  · rw [hf, hf', hg, hg']
    exact rfl
  rw [hf, hf', hg, hg']
  dsimp only
  rw [ha hau hbv, ha hau' hbv']
  cases answer u v with
  | ok o => exact rfl
  | error cause =>
    refine .fault _ _ fun he => ⟨rfl, .inr ?_⟩
    split
    · exact if_pos (hy.spilled he)
    · exact if_pos (hx.spilled he)

theorem plan_alike {xs xs' ys ys' : Run} (hx : s.Mirrored exact xs xs') (hy : s.Mirrored exact ys ys') :
    Outcomes (s.Mirrored exact) (SortError.Alike exact) (plan (cmp.engine schedule) xs ys)
      (plan (cmp.engine schedule') xs' ys') := by
  induction xs, ys using plan.induct generalizing xs' ys' with
  | case1 ys =>
    cases hx
    rw [plan, plan]
    exact hy
  | case2 xs _ =>
    cases hy
    rw [plan_nil_right, plan_nil_right]
    exact hx
  | case3 x xs y ys ihy ihx =>
    obtain ⟨x', xs', hx₀, hxs, rfl⟩ := List.forall₂_cons_left_iff.mp hx
    obtain ⟨y', ys', hy₀, hys, rfl⟩ := List.forall₂_cons_left_iff.mp hy
    rw [plan_cons, plan_cons]
    refine (compareFirst_alike ha hx₀ hy₀).bind ?_
    rintro o _ rfl
    cases o with
    | gt => exact (ihy hx hys).bind fun _ _ hrest => .cons hy₀ hrest
    | lt | eq => exact (ihx hxs hy).bind fun _ _ hrest => .cons hx₀ hrest

end

inductive MirrorsTask (s : Sorter) (exact : Prop) : MergeTask → MergeTask → Prop where
  | dispatched {x x' y y' : Run} (hx : s.Mirrored exact x x') (hy : s.Mirrored exact y y') :
      s.MirrorsTask exact (.dispatched x y) (.dispatched x' y')
  | folding {carry carry' : Chunk} {rest rest' out out' : Run} (hc : s.Holdable carry) (h : carry.Twin carry')
      (hrest : s.Mirrored exact rest rest') (hout : s.Mirrored exact out out') :
      s.MirrorsTask exact (.folding carry rest out) (.folding carry' rest' out')
  | holding {carry carry' : Chunk} {next next' : Handle} {rest rest' out out' : Run} (hc : s.Holdable carry)
      (h : carry.Twin carry') (hn : s.Mirrors exact next next') (hrest : s.Mirrored exact rest rest')
      (hout : s.Mirrored exact out out') : s.MirrorsTask exact (.holding carry next rest out) (.holding carry' next' rest' out')
  | finished {run run' : Run} (h : s.Mirrored exact run run') : s.MirrorsTask exact (.finished run) (.finished run')

end Sorter

def MergeTask.held : MergeTask → Nat
  | holding .. => chunksPerMerge
  | _ => 0

namespace Sorter

variable {s : Sorter} {exact counted : Prop} {cmp : Comparator} {answer : Row → Row → Except DataError Ordering}
  {spills spills' : Bool} {schedule schedule' : Schedule}

theorem advance_together (ha : cmp.Answers s.layout.schema answer) (hspills : exact → spills = true)
    (hs : exact → schedule = schedule') {task task' : MergeTask} (h : s.MirrorsTask exact task task') {st st' : JobState}
    (hst : st.Level exact counted task.held st') :
    Job.Together exact (fun t u t' u' => s.MirrorsTask exact t t' ∧ u.Level exact counted t.held u')
      ((s.spilling spills schedule).advance (cmp.engine schedule) task st)
      ((s.spilling spills' schedule').advance (cmp.engine schedule') task' st') := by
  suffices hstep : ∃ n, Job.InStep exact counted task.held n (fun t t' => s.MirrorsTask exact t t' ∧ t.held = n)
      ((s.spilling spills schedule).advance (cmp.engine schedule) task)
      ((s.spilling spills' schedule').advance (cmp.engine schedule') task') by
    obtain ⟨n, hstep⟩ := hstep
    exact (hstep st st' hst).mono fun _ _ _ _ ⟨hlevel, hmirrors, hheld⟩ => ⟨hmirrors, hheld ▸ hlevel⟩
  cases h with
  | dispatched hx hy =>
    refine ⟨0, .bind (.ofExcept (plan_alike ha hx hy)) fun all all' hall => ?_⟩
    cases hall with
    | nil => exact .pure ⟨.finished .nil, rfl⟩
    | cons hfirst hrest => exact .pure ⟨.folding hfirst.sound.load hfirst.twin hrest .nil, rfl⟩
  | @folding carry carry' rest rest' out out' hc h hrest hout =>
    cases hrest with
    | nil =>
      refine ⟨0, ?_⟩
      rw [advance, advance, h.isEmpty]
      split
      next => exact .pure ⟨.finished hout, rfl⟩
      next =>
        refine (park_inStep hspills cmp hc h).bind fun last last' hlast => .pure ⟨.finished ?_, rfl⟩
        exact List.rel_append hout (.cons hlast .nil)
    | cons hn hrest =>
      exact ⟨chunksPerMerge, .bind (.lease (Nat.le_refl _)) fun _ _ _ => .pure ⟨.holding hc h hn hrest hout, rfl⟩⟩
  | holding hc h hn hrest hout =>
    refine ⟨0, .bind (.releasing (mergeHeld_inStep hspills hs cmp hc h hn)) ?_⟩
    rintro ⟨next, full⟩ ⟨next', full'⟩ ⟨hnext, htwin, hfull⟩
    exact .pure ⟨.folding hnext htwin hrest (List.rel_append hout hfull), rfl⟩
  | finished h => exact ⟨0, .pure ⟨.finished h, rfl⟩⟩

end Sorter
end ChunkSort
