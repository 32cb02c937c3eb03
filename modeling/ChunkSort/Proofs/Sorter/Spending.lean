import ChunkSort.Proofs.Sorter.Ingest
import ChunkSort.Proofs.Sorter.Pool

/-!
What the parts of a job cost on one thread: the merges that they count, and the chunks that are resident at once. Only
parts that succeed are looked at, and what they cost does not depend on what the engine does.
-/

namespace ChunkSort

/-- As many chunks are resident in both states. Between them merges were counted, and `peak` chunks were resident at
most. -/
structure JobState.Spent (st st' : JobState) (merges peak : Nat) : Prop where
  resident : st'.window.resident = st.window.resident
  limit : st'.window.limit = st.window.limit
  merges : st'.merges = st.merges + merges
  peak : st'.window.peak = max st.window.peak peak

namespace JobState.Spent

variable {st mid st' : JobState} {m m' p p' n : Nat}

theorem refl (st : JobState) : st.Spent st 0 0 := ⟨rfl, rfl, rfl, (Nat.max_zero _).symm⟩

theorem trans (h : st.Spent mid m p) (h' : mid.Spent st' m' p') : st.Spent st' (m + m') (max p p') where
  resident := h'.resident.trans h.resident
  limit := h'.limit.trans h.limit
  merges := by rw [h'.merges, h.merges, Nat.add_assoc]
  peak := by rw [h'.peak, h.peak, Nat.max_assoc]

theorem holds (h : st.Spent st' m p) (hst : st.Holds n) : st'.Holds n :=
  ⟨h.resident.trans hst.resident, h.limit.symm ▸ hst.limit⟩

end JobState.Spent

namespace Job

/-- An answer satisfies `Q`, together with the merges that were counted for it and the largest number of chunks that
became resident for it. -/
def Spends {α : Type} (n : Nat) (job : Job α) (Q : α → Nat → Nat → Prop) : Prop :=
  ∀ st : JobState, st.Holds n → ∀ a st', job st = .ok a st' → ∃ merges peak, st.Spent st' merges peak ∧ Q a merges peak

namespace Spends

variable {α β : Type} {n : Nat} {job : Job α} {Q : α → Nat → Nat → Prop}

theorem pure {a : α} (h : Q a 0 0) : Spends n (Pure.pure a) Q := by
  rintro st _ _ _ ⟨⟩
  exact ⟨0, 0, .refl st, h⟩

theorem throw {e : SortError} : Spends n (α := α) (MonadExcept.throw e) Q := fun _ _ _ _ h => nomatch h

theorem bind {f : α → Job β} {R : β → Nat → Nat → Prop} (h : Spends n job Q)
    (hf : ∀ a m p, Q a m p → Spends n (f a) fun b m' p' => R b (m + m') (max p p')) : Spends n (job >>= f) R := by
  intro st hst b st' hok
  obtain ⟨a, mid, hj, hok⟩ := bind_eq_ok.mp hok
  obtain ⟨m, p, hmid, hQ⟩ := h st hst a mid hj
  obtain ⟨m', p', hst', hR⟩ := hf a m p hQ mid (hmid.holds hst) b st' hok
  exact ⟨m + m', max p p', hmid.trans hst', hR⟩

theorem mono {Q' : α → Nat → Nat → Prop} (h : Spends n job Q) (hQ : ∀ a m p, Q a m p → Q' a m p) : Spends n job Q' := by
  intro st hst a st' hok
  obtain ⟨m, p, hst', ha⟩ := h st hst a st' hok
  exact ⟨m, p, hst', hQ a m p ha⟩

theorem ofExcept {r : Except SortError α} {E : SortError → Prop} (h : Outcome (fun a => Q a 0 0) E r) :
    Spends n (MonadExcept.ofExcept r) Q := by
  cases r with
  | ok a => exact pure h
  | error e => exact throw

theorem get_bind {f : JobState → Job α} (h : ∀ st, Spends n (f st) Q) : Spends n (MonadState.get >>= f) Q :=
  fun st hst => h st st hst

theorem of_steady {merges : Nat} {R : α → Prop} (h : job.Steady merges R) :
    Spends n job fun a m p => m = merges ∧ p = 0 ∧ R a := by
  intro st _ a st' hok
  have hst := h st
  rw [hok] at hst
  obtain ⟨hw, hm, ha⟩ := hst
  exact ⟨merges, 0, ⟨congrArg Window.resident hw, congrArg Window.limit hw, hm, by rw [hw, Nat.max_zero]⟩, rfl, rfl, ha⟩

theorem steady_bind {f : α → Job β} {R : β → Nat → Nat → Prop} (h : job.Steady 0 fun _ => True)
    (hf : ∀ a, Spends n (f a) R) : Spends n (job >>= f) R := by
  refine (of_steady h).bind ?_
  rintro a _ _ ⟨rfl, rfl, -⟩
  simpa only [Nat.zero_add, Nat.zero_max] using hf a

theorem withLease (hn : n ≤ chunksPerMerge) (h : Spends n job Q) :
    Spends 0 (Job.withLease n job) fun a m p => ∃ p', p = max n p' ∧ Q a m p' := by
  intro st hst a st' hok
  obtain ⟨w, hlease, hlimit, hpeak, hholds⟩ := hst.lease hn
  rw [withLease_apply hlease, releasing_apply] at hok
  revert hok
  cases hj : job { st with window := w } with
  | error e mid => exact nofun
  | ok b mid =>
    rintro ⟨⟩
    obtain ⟨m, p, hmid, hQ⟩ := h _ hholds a mid hj
    refine ⟨m, max n p, ⟨?_, hmid.limit.trans hlimit, hmid.merges, ?_⟩, p, rfl, hQ⟩
    · exact (hmid.holds hholds).release.resident.trans hst.resident.symm
    · rw [← Nat.max_assoc, ← hpeak]
      exact hmid.peak

end Spends
end Job

namespace Sorter

variable (s : Sorter) (e : Engine)

/-! ### Loading -/

def Loads (settled : List Handle) (merges peak : Nat) : Prop := merges = 0 ∧ peak = min settled.length 1

theorem Loads.append {settled more : List Handle} {m m' p p' : Nat} (h : Loads settled m p) (h' : Loads more m' p') :
    Loads (settled ++ more) (m + m') (max p p') := by
  obtain ⟨rfl, rfl⟩ := h
  obtain ⟨rfl, rfl⟩ := h'
  refine ⟨rfl, ?_⟩
  rw [List.length_append]
  omega

theorem settle_spends (c : Chunk) : Job.Spends 0 (s.settle e c) fun h => Loads [h] := by
  refine .bind (.withLease (by decide) (.of_steady (.ofAttempt (e.sort c)))) ?_
  rintro ⟨_, c'⟩ _ _ ⟨_, rfl, rfl, rfl, -⟩
  refine (Job.Spends.of_steady (s.park_steady e c')).mono ?_
  rintro h _ _ ⟨rfl, rfl, -⟩
  exact ⟨rfl, rfl⟩

theorem loadBatch_spends (b : Batch) (offset : Nat) (c : Chunk) :
    Job.Spends 0 (s.loadBatch e b offset c) fun r => Loads r.1 := by
  induction offset, c using Sorter.loadBatch.induct s e b with
  | case1 offset c attempt error h =>
    rw [loadBatch_error h]
    exact .throw
  | case2 offset c attempt o h hs =>
    rw [loadBatch_success h hs]
    exact .pure ⟨rfl, rfl⟩
  | case3 offset c attempt o h hs hempty =>
    rw [loadBatch_oversized h hs hempty]
    exact .throw
  | case4 offset c attempt o h hs hempty hlt ih =>
    rw [loadBatch_more h hs hempty]
    refine .steady_bind .takeNumber fun number => ?_
    refine (s.settle_spends e _).bind fun full _ _ hfull => (ih number).bind ?_
    rintro ⟨more, last⟩ _ _ hmore
    exact .pure (by rw [Nat.max_zero]; exact hfull.append hmore)

theorem loadBatches_spends (batches : List Batch) (c : Chunk) :
    Job.Spends 0 (s.loadBatches e batches c) fun r => Loads r.1 := by
  induction batches generalizing c with
  | nil => exact .pure ⟨rfl, rfl⟩
  | cons b bs ih =>
    refine (s.loadBatch_spends e b 0 c).bind ?_
    rintro ⟨settled, c'⟩ _ _ hsettled
    refine (ih c').bind ?_
    rintro ⟨more, last⟩ _ _ hmore
    exact .pure (by rw [Nat.max_zero]; exact hsettled.append hmore)

theorem ingest_spends (batches : List Batch) : Job.Spends 0 (s.ingest e batches) Loads := by
  refine .steady_bind (.bind .takeNumber fun _ _ => .pure trivial) fun c => ?_
  refine (s.loadBatches_spends e batches c).bind ?_
  rintro ⟨settled, last⟩ _ _ hsettled
  dsimp only
  split
  next => exact .pure (by rw [Nat.max_zero]; exact hsettled)
  next =>
    refine (s.settle_spends e last).bind fun h _ _ hlast => .pure ?_
    rw [Nat.max_zero]
    exact hsettled.append hlast

theorem adopt_steady (chunks : List Chunk) : (s.adopt e chunks).Steady 0 fun _ => True := by
  unfold adopt
  induction chunks with
  | nil => exact .pure trivial
  | cons c chunks ih =>
    rw [List.mapM_cons]
    refine Job.Steady.bind (Q := fun _ => True) ?_ fun h _ => .bind ih fun handles _ => .pure trivial
    split
    next => exact .throw
    next => exact s.park_steady e c

/-! ### Merging on one thread -/

def OneAtATime (merges peak : Nat) : Prop := peak = chunksPerMerge * min merges 1

theorem oneAtATime_zero : OneAtATime 0 0 := rfl

theorem OneAtATime.add {m m' p p' : Nat} (h : OneAtATime m p) (h' : OneAtATime m' p') :
    OneAtATime (m + m') (max p p') := by
  unfold OneAtATime chunksPerMerge at *
  omega

theorem mergeInto_spends (carry : Chunk) (all : Run) :
    Job.Spends 0 (s.mergeInto e carry all) fun _ => OneAtATime := by
  induction all generalizing carry with
  | nil =>
    rw [mergeInto]
    split
    next => exact .pure oneAtATime_zero
    next => exact .steady_bind (s.park_steady e carry) fun h => .pure oneAtATime_zero
  | cons next rest ih =>
    rw [mergeInto]
    refine (Job.Spends.withLease (Nat.le_refl _) (.of_steady (s.mergeHeld_steady e carry next))).bind ?_
    rintro ⟨carry', full⟩ _ _ ⟨_, rfl, rfl, rfl, -⟩
    have hstep : OneAtATime 1 chunksPerMerge := rfl
    refine (ih carry').bind fun run m p hrest => .pure ?_
    rw [Nat.max_zero, Nat.max_zero]
    exact hstep.add hrest

theorem mergeRuns_spends (x y : Run) : Job.Spends 0 (s.mergeRuns e x y) fun _ => OneAtATime := by
  refine (Job.Spends.ofExcept (Q := fun _ m p => m = 0 ∧ p = 0) (.of_forall fun _ => ⟨rfl, rfl⟩)).bind ?_
  rintro all _ _ ⟨rfl, rfl⟩
  cases all with
  | nil => exact .pure oneAtATime_zero
  | cons first rest => simpa only [Nat.zero_add, Nat.zero_max] using s.mergeInto_spends e first.load rest

theorem finishAll_spends (pairs : List (Run × Run)) :
    Job.Spends 0 (s.finishAll e (dispatchAll pairs)) fun _ => OneAtATime := by
  induction pairs with
  | nil => exact .pure oneAtATime_zero
  | cons pair pairs ih =>
    refine (s.mergeRuns_spends e pair.1 pair.2).bind fun run m p hrun => ih.bind fun runs m' p' hruns => .pure ?_
    rw [Nat.max_zero]
    exact hrun.add hruns

/-- None of the merges gets a turn before those in front of it are over. -/
def OnOneThread (s : Sorter) : Prop := ∀ round group, s.schedule.tasks round group = []

theorem mergeGroups_spends (slots : Nat) {turns : Nat → Turns} (hturns : ∀ group, turns group = []) {tasks : List MergeTask}
    {pairs : List (Run × Run)} (htasks : tasks = dispatchAll pairs) :
    Job.Spends 0 (s.mergeGroups e slots turns tasks) fun _ => OneAtATime := by
  induction hn : pairs.length using Nat.strongRecOn generalizing pairs tasks turns with
  | ind n ih =>
    subst htasks
    cases pairs with
    | nil =>
      rw [dispatchAll, List.map_nil, mergeGroups]
      exact .pure oneAtATime_zero
    | cons pair pairs =>
      rw [dispatchAll, List.map_cons, mergeGroups, hturns, interleave]
      have hgroup := s.finishAll_spends e (pair :: pairs.take (slots - 1))
      rw [dispatchAll, List.map_cons, List.map_take] at hgroup
      refine hgroup.bind fun runs m p hruns => ?_
      have hlt : (pairs.drop (slots - 1)).length < n := by
        rw [← hn, List.length_drop, List.length_cons]
        omega
      refine (ih _ hlt (fun group => hturns (group + 1)) List.map_drop.symm rfl).bind fun more m' p' hmore => .pure ?_
      rw [Nat.max_zero]
      exact hruns.add hmore

variable {s}

theorem mergeRound_spends (hs : s.OnOneThread) (round : Nat) (runs : List Run) :
    Job.Spends 0 (s.mergeRound e round runs) fun _ => OneAtATime := by
  obtain ⟨pairs, rest, hpairs, _⟩ := exists_pairUp runs
  refine .get_bind fun st => ?_
  refine (s.mergeGroups_spends e _ (hs round) (congrArg Prod.fst hpairs)).bind fun merged m p hmerged => .pure ?_
  rw [Nat.max_zero]
  exact hmerged

theorem mergeRounds_spends (hs : s.OnOneThread) (round : Nat) (runs : List Run) :
    Job.Spends 0 (s.mergeRounds e round runs) fun _ => OneAtATime := by
  induction hn : runs.length using Nat.strongRecOn generalizing round runs with
  | ind n ih =>
    match runs with
    | [] | [_] =>
      rw [mergeRounds]
      exact .pure oneAtATime_zero
    | x :: y :: rest =>
      rw [mergeRounds]
      refine (mergeRound_spends e hs round _).bind ?_
      rintro ⟨merged, hlen⟩ m p hmerged
      have hlt : merged.length < n := by
        rw [hlen, ← hn, List.length_cons, List.length_cons]
        omega
      exact (ih merged.length hlt (round + 1) merged rfl).mono fun _ m' p' hrest => hmerged.add hrest

end Sorter
end ChunkSort
