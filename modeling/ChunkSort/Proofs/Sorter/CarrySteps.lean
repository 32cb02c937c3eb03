import Mathlib
import ChunkSort.Proofs.Sorter.Pool
import ChunkSort.Proofs.Sorter.Shape

/-!
The steps of a merge of two runs. Wherever in its window a job has room for a merge, two runs merge into a run, and each
step of that gives out only what stands before everything that is still to come.
-/

namespace ChunkSort

def JobState.HasRoom (st : JobState) : Prop := st.window.resident + chunksPerMerge ≤ st.window.limit

namespace Sorter

/-- Chunks that make a run for a sorter: each in good order and not empty, each but the last one full, and all records
in order. -/
structure IsRun (s : Sorter) (cmp : Comparator) (run : Run) : Prop where
  sound : ∀ h ∈ run, s.Sound h
  nonempty : ∀ h ∈ run, 0 < h.load.rows
  full : ∀ h ∈ run.dropLast, h.load.rows = s.layout.capacity
  inOrder : (run.flatMap (·.load.sortedRecords)).Pairwise cmp.Le

/-- A merge step that may give out what it does: `rest` is what comes after it. -/
structure SafeStep (s : Sorter) (cmp : Comparator) (carry : Chunk) (rest : Run) (carry' : Chunk) (given : Run) :
    Prop where
  carry_pos : 0 < carry.rows
  carry_le : carry.rows ≤ s.layout.capacity
  full : ∀ h ∈ given, h.load.rows = s.layout.capacity
  below : ∀ h ∈ given, ∀ a ∈ h.load.sortedRecords,
    ∀ b ∈ carry'.sortedRecords ++ rest.flatMap (·.load.sortedRecords), cmp.Le a b

/-- A fold of chunks into a carry that succeeds, all of its steps being safe. -/
inductive SafeFold (s : Sorter) (cmp : Comparator) : Chunk → Run → JobState → Run → JobState → Prop where
  | last {carry : Chunk} {st st' : JobState} {out : Run} (h : s.mergeInto (cmp.engine s.schedule) carry [] st = .ok out st') :
      s.SafeFold cmp carry [] st out st'
  | step {carry carry' : Chunk} {next : Handle} {rest full out : Run} {st mid st' : JobState}
      (h : s.mergeStep (cmp.engine s.schedule) carry next st = .ok (carry', full) mid) (safe : s.SafeStep cmp carry rest carry' full)
      (tail : s.SafeFold cmp carry' rest mid out st') : s.SafeFold cmp carry (next :: rest) st (full ++ out) st'

variable {s : Sorter} {cmp : Comparator}

theorem SafeFold.mergeInto_eq {carry : Chunk} {rest out : Run} {st st' : JobState}
    (h : s.SafeFold cmp carry rest st out st') : s.mergeInto (cmp.engine s.schedule) carry rest st = .ok out st' := by
  induction h with
  | last h => exact h
  | step h _ _ ih =>
    rw [mergeInto, Job.bind_eq_ok]
    refine ⟨_, _, h, ?_⟩
    rw [Job.bind_eq_ok]
    exact ⟨_, _, ih, rfl⟩

/-! ### Runs as they are given, and as proofs keep them -/

theorem Packed.of_full {capacity : Nat} {run : Run} (hpos : ∀ h ∈ run, 0 < h.load.rows)
    (hle : ∀ h ∈ run, h.load.rows ≤ capacity) (hfull : ∀ h ∈ run.dropLast, h.load.rows = capacity) :
    Packed capacity run := by
  induction run with
  | nil => trivial
  | cons h run ih =>
    obtain ⟨hp, hpos⟩ := List.forall_mem_cons.mp hpos
    obtain ⟨hl, hle⟩ := List.forall_mem_cons.mp hle
    cases run with
    | nil => exact ⟨hp, hl⟩
    | cons h' run =>
      obtain ⟨hf, hfull⟩ := List.forall_mem_cons.mp (List.dropLast_cons_cons ▸ hfull)
      exact ⟨hf, ih hpos hle hfull⟩

theorem isRun_iff {ord : Row → Row → Ordering} (ho : cmp.Orders s.layout.schema ord) {run : Run} :
    s.IsRun cmp run ↔ s.SoundRun (· = ord) run := by
  constructor
  · intro h
    have hrows : (rowsOf run).Pairwise fun u v => ord u v ≠ .gt :=
      pairwise_of_forall₂ (rowsOf_reads h.sound).flip h.inOrder fun _ _ _ _ ha hb => (ho.le_iff ha hb).mp
    refine ⟨fun x hx => ⟨h.sound x hx, ?_⟩, .of_full h.nonempty (fun x hx => (h.sound x hx).load.rows_le) h.full, ?_⟩
    · rintro _ rfl
      have hsub := (List.singleton_sublist.mpr hx).flatMap (·.load.sortedRows)
      rw [List.flatMap_singleton] at hsub
      exact hrows.sublist hsub
    · rintro _ rfl
      exact hrows
  · intro h
    exact ⟨fun x hx => (h.settled x hx).sound, h.packed.pos s.layout.capacity_pos, h.packed.full,
      pairwise_of_forall₂ h.reads (h.inOrder ord rfl) fun _ _ _ _ ha hb => (ho.le_iff ha hb).mpr⟩

theorem Interleaving.perm {orders : (Row → Row → Ordering) → Prop} {xs ys all : Run}
    (h : Interleaving orders xs ys all) : all.Perm (xs ++ ys) := by
  induction h with
  | nil => exact .refl _
  | left _ _ ih => exact ih.cons _
  | right _ _ ih => exact (ih.cons _).trans List.perm_middle.symm

theorem rowsOf_perm {xs ys all : Run} (h : all.Perm (xs ++ ys)) : (rowsOf all).Perm (rowsOf xs ++ rowsOf ys) := by
  rw [rowsOf, rowsOf, rowsOf, ← List.flatMap_append]
  exact h.flatMap_right _

/-! ### The steps -/

section

variable {ord : Row → Row → Ordering} (ho : cmp.Orders s.layout.schema ord)
include ho

theorem orders_only : ∀ ord', ord' = ord → cmp.Orders s.layout.schema ord' := fun _ h => h ▸ ho

theorem mergeStep_ok {carry : Chunk} {next : Handle} (hc : s.Holdable carry) (hcr : InOrder (· = ord) carry.sortedRows)
    (hn : s.Settled (· = ord) next) {st : JobState} (hst : st.HasRoom) :
    ∃ carry' given mid rows, s.mergeStep (cmp.engine s.schedule) carry next st = .ok (carry', given) mid ∧ mid.HasRoom ∧
      rows.Perm (carry.sortedRows ++ next.load.sortedRows) ∧ InOrder (· = ord) rows ∧
      (0 < carry.rows → 0 < next.load.rows → cmp.Clears s.layout.schema rows) ∧
      s.Stepped (· = ord) rows (carry', given) := by
  obtain ⟨w, hlease, hresident, hlimit⟩ : ∃ w, st.window.lease chunksPerMerge = .ok w ∧
      w.resident = st.window.resident + chunksPerMerge ∧ w.limit = st.window.limit := ⟨_, if_pos hst, rfl, rfl⟩
  have hholds : JobState.Holds w.resident { st with window := w } :=
    ⟨rfl, hlimit ▸ Nat.le_trans (Nat.le_add_left ..) hst⟩
  obtain ⟨_, hout⟩ := mergeHeld_agrees (orders_only ho) (cmp.engine_confined s.schedule) hc hcr hn _ hholds
  have hkeeps := s.mergeHeld_steady (cmp.engine s.schedule) carry next { st with window := w }
  rw [mergeStep, Job.withLease_apply hlease, Job.releasing_apply]
  cases hr : s.mergeHeld (cmp.engine s.schedule) carry next { st with window := w } with
  | error error mid =>
    rw [hr] at hout
    exact absurd hout.blamed (ho.not_blamed error)
  | ok r mid =>
    rw [hr] at hout hkeeps
    obtain ⟨-, rows, hperm, hsorted, hclears, hstep⟩ := hout
    refine ⟨r.1, r.2, _, rows, rfl, ?_, hperm, hsorted, hclears, hstep⟩
    change mid.window.resident - chunksPerMerge + chunksPerMerge ≤ mid.window.limit
    rw [hkeeps.1, hresident, hlimit, Nat.add_sub_cancel]
    exact hst

theorem FoldStep.safe {carry carry' : Chunk} {x : Handle} {xs ys all given : Run} {rows : List Row}
    (h : s.FoldStep (· = ord) carry x xs ys rows) (hall : all.Perm (xs ++ ys))
    (hstep : s.Stepped (· = ord) rows (carry', given)) : s.SafeStep cmp carry all carry' given := by
  have hpos := h.carries.pos (.inl (List.cons_ne_nil x xs))
  cases hstep with
  | carried => exact ⟨hpos, h.carries.holdable.rows_le, List.forall_mem_nil _, List.forall_mem_nil _⟩
  | @emitted _ full hc hrows hfull hfirst hlen =>
    have hgiven := hfull.sound.load
    refine ⟨hpos, h.carries.holdable.rows_le, List.forall_mem_singleton.mpr ?full, List.forall_mem_singleton.mpr ?below⟩
    case full =>
      rw [← hgiven.wellFormed.length_sortedRows, hfirst, List.length_take]
      exact Nat.min_eq_left hlen
    case below =>
      have hsound : ∀ y ∈ all, s.Sound y := by
        intro y hy
        rcases List.mem_append.mp (hall.mem_iff.mp hy) with hy | hy
        · exact (h.left.tail.settled y hy).sound
        · exact (h.right.settled y hy).sound
      have hkept := List.rel_append (hc.ofSchema ▸ hc.wellFormed.sortedRecords_reads) (rowsOf_reads hsound)
      intro a ha b hb
      obtain ⟨u, hu, hau⟩ := exists_right_of_forall₂ hgiven.wellFormed.sortedRecords_reads ha
      obtain ⟨t, ht, hbt⟩ := exists_right_of_forall₂ hkept hb
      rw [hfirst] at hu
      rw [hrows] at ht
      rw [hgiven.ofSchema] at hau
      exact (ho.le_iff hau hbt).mpr
        (h.emitted_le (orders_only ho) rfl u hu t (((rowsOf_perm hall).append_left _).mem_iff.mp ht))

theorem safeFold_cons {carry : Chunk} {x : Handle} {xs ys all : Run} (hfirst : ∀ y ∈ ys.head?, FirstLe (· = ord) x y)
    (hxs : s.SoundRun (· = ord) (x :: xs)) (hys : s.SoundRun (· = ord) ys) (hc : s.Carries (· = ord) carry (x :: xs) ys)
    (hall : all.Perm (xs ++ ys)) {st : JobState} (hst : st.HasRoom)
    (ih : ∀ {carry' : Chunk} {mid : JobState}, s.Carries (· = ord) carry' xs ys → mid.HasRoom →
      ∃ out st', s.SafeFold cmp carry' all mid out st' ∧ s.Folded cmp (· = ord) carry' xs ys out) :
    ∃ out st', s.SafeFold cmp carry (x :: all) st out st' ∧ s.Folded cmp (· = ord) carry (x :: xs) ys out := by
  obtain ⟨carry', given, mid, rows, hok, hmid, hperm, hsorted, hclears, hstep⟩ :=
    mergeStep_ok ho hc.holdable hc.inOrder hxs.head hst
  have hfold : s.FoldStep (· = ord) carry x xs ys rows := ⟨hfirst, hxs, hys, hc, hperm, hsorted⟩
  have hclears := hclears (hc.pos (.inl (List.cons_ne_nil x xs))) (hxs.packed.head_pos s.layout.capacity_pos)
  obtain ⟨out, st', hsafe, hfolded⟩ := ih (hfold.carries_next hstep) hmid
  exact ⟨_, _, .step hok (hfold.safe ho hall hstep) hsafe, hfold.folded (orders_only ho) hstep hclears hfolded⟩

theorem exists_safeFold {xs ys all : Run} (hall : Interleaving (· = ord) xs ys all) (hxs : s.SoundRun (· = ord) xs)
    (hys : s.SoundRun (· = ord) ys) {carry : Chunk} (hc : s.Carries (· = ord) carry xs ys) {st : JobState}
    (hst : st.HasRoom) :
    ∃ out st', s.SafeFold cmp carry all st out st' ∧ s.Folded cmp (· = ord) carry xs ys out := by
  induction hall generalizing carry st with
  | nil =>
    by_cases hempty : carry.isEmpty = true
    · have heq : s.mergeInto (cmp.engine s.schedule) carry [] = pure [] := by rw [mergeInto, if_pos hempty]
      exact ⟨[], st, .last (by rw [heq]; rfl), hc.folded_empty (of_decide_eq_true hempty)⟩
    · have heq : s.mergeInto (cmp.engine s.schedule) carry [] = s.park (cmp.engine s.schedule) carry >>= fun last => pure [last] := by
        rw [mergeInto, if_neg hempty]
      have hpos : 0 < carry.rows := Nat.pos_of_ne_zero fun hz => hempty (decide_eq_true hz)
      obtain ⟨last, st', hpark, hsound, hload⟩ :=
        park_sound cmp s.schedule hc.holdable (Nat.le_trans (Nat.le_add_left ..) hst)
      exact ⟨[last], st', .last (heq ▸ Job.bind_eq_ok.mpr ⟨_, _, hpark, rfl⟩), hc.folded_last hpos hsound hload⟩
  | left hfirst rest ih =>
    exact safeFold_cons ho hfirst hxs hys hc rest.perm hst fun hc' hmid => ih hxs.tail hys hc' hmid
  | right hfirst rest ih =>
    obtain ⟨out, st', hsafe, hfolded⟩ := safeFold_cons ho hfirst hys hxs hc.symm
      (rest.perm.trans List.perm_append_comm) hst fun hc' hmid => by
        obtain ⟨out, st', hsafe, hfolded⟩ := ih hxs hys.tail hc'.symm hmid
        exact ⟨out, st', hsafe, hfolded.symm⟩
    exact ⟨out, st', hsafe, hfolded.symm⟩

end

/-- Two runs merge into a run of all their records, chunk by chunk in the order of the first records. -/
theorem mergeRuns_safe (s : Sorter) (cmp : Comparator) (ord : Row → Row → Ordering)
    (ho : cmp.Orders s.layout.schema ord) (x y : Run) (hx : s.IsRun cmp x) (hy : s.IsRun cmp y)
    (hne : x ≠ [] ∨ y ≠ []) (st : JobState) (hst : st.HasRoom) :
    ∃ out st', s.mergeRuns (cmp.engine s.schedule) x y st = .ok out st' ∧ s.IsRun cmp out ∧
      (∃ xs ys rows, readRecords s.layout.schema (x.flatMap (·.load.sortedRecords)) = .ok xs ∧
        readRecords s.layout.schema (y.flatMap (·.load.sortedRecords)) = .ok ys ∧
        readRecords s.layout.schema (out.flatMap (·.load.sortedRecords)) = .ok rows ∧ rows.Perm (xs ++ ys)) ∧
      ∃ first rest, plan (cmp.engine s.schedule) x y = .ok (first :: rest) ∧ s.SafeFold cmp first.load rest st out st' := by
  rw [isRun_iff ho] at hx hy
  have hout := (hx.plans hy (orders_only ho) (cmp.engine_confined s.schedule)).2
  have hfold : ∃ first rest out st', plan (cmp.engine s.schedule) x y = .ok (first :: rest) ∧
      s.SafeFold cmp first.load rest st out st' ∧ s.SoundRun (· = ord) out ∧
      (rowsOf out).Perm (rowsOf x ++ rowsOf y) := by
    cases hplan : plan (cmp.engine s.schedule) x y with
    | error error =>
      rw [hplan] at hout
      exact absurd hout.blamed (ho.not_blamed error)
    | ok all =>
      rw [hplan] at hout
      change Interleaving _ x y all at hout
      cases all with
      | nil =>
        cases hout
        simp at hne
      | cons first rest =>
        obtain ⟨xs, ys, tail, hxs, hys, hc, hperm, -⟩ := hout.exists_carries hx hy
        obtain ⟨out, st', hsafe, hfolded⟩ := exists_safeFold ho tail hxs hys hc hst
        exact ⟨first, rest, out, st', rfl, hsafe, hfolded.sound, hfolded.perm.trans hperm⟩
  obtain ⟨first, rest, out, st', hplan, hsafe, hsound, hperm⟩ := hfold
  refine ⟨out, st', ?_, (isRun_iff ho).mpr hsound, ⟨_, _, _, readRecords_eq hx.reads, readRecords_eq hy.reads,
    readRecords_eq hsound.reads, hperm⟩, first, rest, hplan, hsafe⟩
  rw [mergeRuns, hplan]
  exact hsafe.mergeInto_eq

def filed (c : Chunk) : Handle := .spilled c.spill (c.head 0).1.toOption.join

theorem Holdable.filed {c : Chunk} (hc : s.Holdable c) : s.Sound (filed c) := by
  obtain ⟨head, _, heq, hsound⟩ := hc.head 0
  rw [Sorter.filed, heq]
  exact hsound

def threeRows : Run := [.resident roomyChunk, filed sparseChunk]

theorem isRun_threeRows : pairSorter.IsRun .byId threeRows where
  sound := List.forall_mem_cons.mpr ⟨holdable_roomyChunk.resident, List.forall_mem_singleton.mpr
    (Holdable.filed ⟨wellFormed_sparseChunk, rfl, by decide, by decide⟩)⟩
  nonempty := List.forall_mem_cons.mpr ⟨by decide, List.forall_mem_singleton.mpr (by decide)⟩
  full := List.forall_mem_singleton.mpr (by decide)
  inOrder := by
    have hrecords : threeRows.flatMap (·.load.sortedRecords) =
        [roomyChunk.recordAt 0, roomyChunk.recordAt 1, sparseChunk.recordAt 0] := by cbv
    rw [hrecords, List.pairwise_cons, List.pairwise_pair, List.forall_mem_cons, List.forall_mem_singleton]
    exact ⟨⟨⟨.lt, rfl, by decide⟩, .lt, rfl, by decide⟩, .eq, rfl, by decide⟩

theorem isRun_filed : pairSorter.IsRun .byId [filed roomyChunk] where
  sound := List.forall_mem_singleton.mpr holdable_roomyChunk.filed
  nonempty := List.forall_mem_singleton.mpr (by decide)
  full := List.forall_mem_nil _
  inOrder := by
    have hrecords : [filed roomyChunk].flatMap (·.load.sortedRecords) =
        [roomyChunk.recordAt 0, roomyChunk.recordAt 1] := by cbv
    rw [hrecords, List.pairwise_pair]
    exact ⟨.lt, rfl, by decide⟩

theorem mergeRuns_safe_threeRows :
    ∃ out st', pairSorter.mergeRuns Comparator.byId.engine threeRows [filed roomyChunk]
        ⟨3, { limit := 9, resident := 5 }, 0⟩ = .ok out st' ∧ pairSorter.IsRun .byId out ∧
      ∃ first rest, plan Comparator.byId.engine threeRows [filed roomyChunk] = .ok (first :: rest) ∧
        pairSorter.SafeFold .byId first.load rest ⟨3, { limit := 9, resident := 5 }, 0⟩ out st' := by
  have hroom : JobState.HasRoom ⟨3, { limit := 9, resident := 5 }, 0⟩ := by
    change 5 + chunksPerMerge ≤ 9
    decide
  obtain ⟨out, st', hok, hrun, -, hfold⟩ := mergeRuns_safe pairSorter .byId _ (Comparator.byId_orders _) threeRows
    [filed roomyChunk] isRun_threeRows isRun_filed (.inl (List.cons_ne_nil _ _)) _ hroom
  exact ⟨out, st', hok, hrun, hfold⟩

end Sorter
end ChunkSort
