import ChunkSort.Proofs.Sorter.Confined
import ChunkSort.Proofs.Sorter.Job

/-!
The chunks of a job in good order, and the steps of a sorter on one of them.
-/

namespace ChunkSort

/-! ### Failures of the comparator -/

def Comparator.Blamed (cmp : Comparator) (schema : List ColumnType) (error : SortError) : Prop :=
  ∃ chunk row cause a b u v, error = .fault chunk row cause ∧ a.Reads schema u ∧ b.Reads schema v ∧
    cmp a b = .error cause

theorem Comparator.NeverFails.not_blamed {cmp : Comparator} {schema : List ColumnType} (h : cmp.NeverFails schema)
    (error : SortError) : ¬cmp.Blamed schema error := by
  rintro ⟨_, _, cause, a, b, u, v, _, ha, hb, he⟩
  obtain ⟨o, ho⟩ := h ha hb
  rw [ho] at he
  cases he

theorem Comparator.Orders.not_blamed {cmp : Comparator} {schema : List ColumnType} {ord : Row → Row → Ordering}
    (h : cmp.Orders schema ord) (error : SortError) : ¬cmp.Blamed schema error :=
  Comparator.NeverFails.not_blamed (fun ha hb => ⟨_, h.answers ha hb⟩) error

def Comparator.FailedWithin (cmp : Comparator) (schema : List ColumnType) (rows : List Row) (error : SortError) : Prop :=
  ∃ chunk row cause a b u v, error = .fault chunk row cause ∧ a.Reads schema u ∧ b.Reads schema v ∧
    [u, v].Subperm rows ∧ cmp a b = .error cause

namespace Comparator.FailedWithin

variable {cmp : Comparator} {schema : List ColumnType} {rows : List Row} {error : SortError}

theorem mono {rows' : List Row} (h : cmp.FailedWithin schema rows error) (hr : rows.Subperm rows') :
    cmp.FailedWithin schema rows' error := by
  obtain ⟨chunk, row, cause, a, b, u, v, he, ha, hb, huv, hcmp⟩ := h
  exact ⟨chunk, row, cause, a, b, u, v, he, ha, hb, huv.trans hr, hcmp⟩

theorem blamed (h : cmp.FailedWithin schema rows error) : cmp.Blamed schema error := by
  obtain ⟨chunk, row, cause, a, b, u, v, he, ha, hb, _, hcmp⟩ := h
  exact ⟨chunk, row, cause, a, b, u, v, he, ha, hb, hcmp⟩

end Comparator.FailedWithin

theorem EntryFault.Arises.failedWithin {f : EntryFault} {cmp : Comparator} {record : UInt32 → Record}
    {entries : List UInt32} (h : f.Arises cmp record entries) {schema : List ColumnType} {content : UInt32 → Row}
    (hreads : ∀ e ∈ entries, (record e).Reads schema (content e)) (chunk : Nat) (row : Option Nat) :
    cmp.FailedWithin schema (entries.map content) (.fault chunk row f.cause) := by
  obtain ⟨a, b, hab, hcmp, _⟩ := h
  have hmem := hab.subset
  obtain ⟨l, hperm, hsub⟩ := hab
  exact ⟨chunk, row, f.cause, _, _, content a, content b, rfl, hreads a (hmem List.mem_cons_self),
    hreads b (hmem (List.mem_cons_of_mem _ List.mem_cons_self)), ⟨_, hperm.map content, hsub.map content⟩, hcmp⟩

theorem Chunk.SortFault.failedWithin {c : Chunk} (hc : c.WellFormed) {cmp : Comparator} {error : SortError}
    (h : c.SortFault cmp error) : cmp.FailedWithin c.schema c.sortedRows error := by
  obtain ⟨f, hf, rfl⟩ := h
  exact hf.failedWithin (fun e he => hc.reads (hc.lt_of_mem_entries he)) _ _

theorem MergeSet.OrderFault.failedWithin {s : MergeSet} (h : s.WellFormed) (hxy : s.y.schema = s.x.schema)
    {cmp : Comparator} {f : EntryFault} (hf : s.OrderFault cmp f) :
    cmp.FailedWithin s.x.schema (s.x.sortedRows ++ s.y.sortedRows) (s.faultAt f) := by
  rw [← h.map_rowOf_joint]
  exact EntryFault.Arises.failedWithin hf (fun e he => h.reads_recordOf hxy he) _ _

/-! ### Steps of a sorter on one chunk -/

namespace Sorter

variable {s : Sorter} {n : Nat} {schedule : Schedule}

structure Holdable (s : Sorter) (c : Chunk) : Prop where
  wellFormed : c.WellFormed
  ofSchema : c.schema = s.layout.schema
  rows_le : c.rows ≤ s.layout.capacity
  status : c.status ≠ .fault

/-- A handle that a job of the sorter may hold: what it shows in memory is the first row of its chunk. -/
structure Sound (s : Sorter) (h : Handle) : Prop where
  load : s.Holdable h.load
  front : ∀ c, h.front = some c → c.WellFormed ∧ c.schema = s.layout.schema
  first : h.front.bind (·.sortedRows.head?) = h.load.sortedRows.head?

theorem Holdable.resident {c : Chunk} (hc : s.Holdable c) : s.Sound (.resident c) where
  load := hc
  front c' hc' := by
    cases hc'
    exact ⟨hc.wellFormed, hc.ofSchema⟩
  first := rfl

theorem Holdable.head {c : Chunk} (hc : s.Holdable c) (next : Nat) :
    ∃ head next', c.head next = (.ok head, next') ∧ s.Sound (.spilled c.spill head) := by
  rcases Chunk.head_spec hc.wellFormed next with ⟨hz, heq⟩ | ⟨hd, row, heq, hrow, happ⟩
  · refine ⟨none, next, heq, hc, (fun _ h => nomatch h), ?_⟩
    change none = c.sortedRows.head?
    rw [hc.wellFormed.sortedRows_of_rows hz]
    rfl
  · have hempty : (Chunk.empty next c.schema 1 none).WellFormed := Chunk.wellFormed_empty _ _ (by decide) none
    refine ⟨some hd, next + 1, heq, hc, ?_, ?_⟩
    · intro c' hc'
      cases hc'
      exact ⟨happ.wellFormed, (happ.schema.trans (Chunk.schema_empty ..)).trans hc.ofSchema⟩
    · change hd.sortedRows.head? = c.sortedRows.head?
      rw [happ.sortedRows hempty, hrow]
      rfl

theorem park_agrees {e : Engine} {cmp : Comparator} (he : e.Confined cmp schedule) {c : Chunk} (hc : s.Holdable c)
    {E : SortError → Prop} :
    Job.Agrees n (s.park e c) (s.park (cmp.engine schedule) c) (fun h => s.Sound h ∧ h.load = c) E := by
  unfold park
  split
  next =>
    refine .get_bind fun st => ?_
    obtain ⟨head, next', heq, hsound⟩ := hc.head st.next
    rw [he.head_eq hc.wellFormed, (cmp.engine_confined schedule).head_eq hc.wellFormed, heq]
    exact .bind (.modify fun st hst => ⟨hst.resident, hst.limit⟩) fun _ _ => .pure ⟨hsound, rfl⟩
  next => exact .pure ⟨hc.resident, rfl⟩

theorem park_sound (cmp : Comparator) (schedule : Schedule) {c : Chunk} (hc : s.Holdable c) {st : JobState}
    (hlimit : chunksPerMerge ≤ st.window.limit) :
    ∃ h st', s.park (cmp.engine schedule) c st = .ok h st' ∧ s.Sound h ∧ h.load = c := by
  have hpark : Job.Agrees st.window.resident _ _ _ fun _ => False := park_agrees (cmp.engine_confined schedule) hc
  obtain ⟨_, hout⟩ := hpark st ⟨rfl, hlimit⟩
  cases hr : s.park (cmp.engine schedule) c st with
  | error error st' =>
    rw [hr] at hout
    exact hout.elim
  | ok h st' =>
    rw [hr] at hout
    exact ⟨h, st', rfl, hout.2⟩

theorem Sound.first_cases {h : Handle} (hh : s.Sound h) :
    (h.first? = none ∧ h.load.sortedRows.head? = none) ∨
      ∃ a u, h.first? = some a ∧ h.load.sortedRows.head? = some u ∧ a.Reads s.layout.schema u := by
  rw [Handle.first?_eq, ← hh.first]
  cases hf : h.front with
  | none => exact .inl ⟨rfl, rfl⟩
  | some c =>
    obtain ⟨hc, hschema⟩ := hh.front c hf
    rcases Nat.eq_zero_or_pos c.rows with hz | hr
    · have hnil := hc.sortedRows_of_rows hz
      refine .inl ⟨?_, ?_⟩
      · change c.first? = none
        rw [Chunk.first?, Chunk.isEmpty, decide_eq_true hz]
        rfl
      · change c.sortedRows.head? = none
        rw [hnil]
        rfl
    · obtain ⟨slot, hs, hfirst, hrow⟩ := Chunk.exists_first hc hr
      exact .inr ⟨_, _, hfirst, hrow, hschema ▸ hc.reads hs⟩

variable {e : Engine} {cmp : Comparator}

theorem compareFirst_outcome (cmp : Comparator) {x y : Handle} (hx : s.Sound x) (hy : s.Sound y) :
    Outcome (fun o => ∀ ord, cmp.Orders s.layout.schema ord → ∀ u v, x.load.sortedRows.head? = some u →
      y.load.sortedRows.head? = some v → o = ord u v)
      (cmp.FailedWithin s.layout.schema (x.load.sortedRows ++ y.load.sortedRows)) (Handle.compareFirst cmp x y) := by
  unfold Handle.compareFirst
  rcases hx.first_cases with ⟨hxn, hun⟩ | ⟨a, u, ha, hu, hau⟩
  · rw [hxn]
    intro ord _ u v hu
    rw [hun] at hu
    cases hu
  rcases hy.first_cases with ⟨hyn, hvn⟩ | ⟨b, v, hb, hv, hbv⟩
  · rw [ha, hyn]
    intro ord _ u v _ hv
    rw [hvn] at hv
    cases hv
  rw [ha, hb]
  dsimp only
  cases hcmp : cmp a b with
  | error cause =>
    have hus := List.singleton_sublist.mpr (List.mem_of_head? hu)
    have hvs := List.singleton_sublist.mpr (List.mem_of_head? hv)
    exact ⟨_, _, cause, a, b, u, v, rfl, hau, hbv, (hus.append hvs).subperm, hcmp⟩
  | ok o =>
    intro ord hord u' v' hu' hv'
    rw [hu] at hu'
    rw [hv] at hv'
    cases hu'
    cases hv'
    rw [hord.answers hau hbv] at hcmp
    exact (Except.ok.inj hcmp).symm

/-- In order under each of the orders that are asked for. -/
def InOrder (orders : (Row → Row → Ordering) → Prop) (rows : List Row) : Prop :=
  ∀ ord, orders ord → rows.Pairwise fun u v => ord u v ≠ .gt

theorem orders_none (cmp : Comparator) (schema : List ColumnType) : ∀ ord, (fun _ => False) ord → cmp.Orders schema ord :=
  fun _ => False.elim

theorem inOrder_none (rows : List Row) : InOrder (fun _ => False) rows := fun _ => False.elim

structure Settled (s : Sorter) (orders : (Row → Row → Ordering) → Prop) (h : Handle) : Prop where
  sound : s.Sound h
  inOrder : InOrder orders h.load.sortedRows

def rowsOf (chunks : List Handle) : List Row := chunks.flatMap (·.load.sortedRows)

@[simp] theorem rowsOf_cons (h : Handle) (chunks : List Handle) :
    rowsOf (h :: chunks) = h.load.sortedRows ++ rowsOf chunks := List.flatMap_cons

variable {orders : (Row → Row → Ordering) → Prop} (ho : ∀ ord, orders ord → cmp.Orders s.layout.schema ord)

theorem Holdable.reordered {c c' : Chunk} (hc : s.Holdable c) (hr : c.Reordered c') (hst : c'.status ≠ .fault) :
    s.Holdable c' where
  wellFormed := hr.wellFormed
  ofSchema := hr.schema.trans hc.ofSchema
  rows_le := hr.rows ▸ hc.rows_le
  status := hst

theorem settle_agrees (he : e.Confined cmp schedule) {c : Chunk} (hc : s.Holdable c) :
    Job.Agrees 0 (s.settle e c) (s.settle (cmp.engine schedule) c) (fun h => s.Sound h ∧ c.sort cmp = ⟨h.load, .ok ()⟩)
      (cmp.FailedWithin s.layout.schema c.sortedRows) := by
  have hsort : Job.Agrees 0 (Job.withLease 1 (Job.ofAttempt (e.sort c)))
      (Job.withLease 1 (Job.ofAttempt ((cmp.engine schedule).sort c)))
      (fun r => s.Holdable r.2 ∧ c.sort cmp = ⟨r.2, .ok ()⟩) (cmp.FailedWithin s.layout.schema c.sortedRows) := by
    apply Job.Agrees.withLease (by decide)
    rw [he.sort_eq hc.wellFormed]
    apply Job.Agrees.ofAttempt
    obtain ⟨hr, hres⟩ := Chunk.sort_reordered hc.wellFormed cmp schedule
    cases hs : (c.sort cmp schedule).result with
    | error err =>
      rw [hs] at hres
      exact hc.ofSchema ▸ hres.2.failedWithin hc.wellFormed
    | ok u =>
      rw [hs] at hres
      have heq : c.sort cmp schedule = ⟨(c.sort cmp schedule).state, .ok ()⟩ := hs ▸ rfl
      exact ⟨hc.reordered hr (by rw [hres]; decide), Chunk.sort_eq_ok_iff.mp heq⟩
  refine hsort.bind fun ⟨_, c'⟩ ⟨hc', heq⟩ => (park_agrees he hc').mono ?_ fun _ h => h
  rintro h ⟨hh, hload⟩
  exact ⟨hh, hload.symm ▸ heq⟩

include ho in
theorem Sound.settled {h : Handle} (hh : s.Sound h) {c : Chunk} (hc : s.Holdable c)
    (hsort : c.sort cmp = ⟨h.load, .ok ()⟩) : s.Settled orders h ∧ h.load.sortedRows.Perm c.sortedRows := by
  have hr := (Chunk.sort_reordered hc.wellFormed cmp {}).1
  rw [hsort] at hr
  refine ⟨⟨hh, fun ord hord => ?_⟩, hr.sortedRows_perm⟩
  have hsorted := (Chunk.sort_sorted hc.wellFormed (hc.ofSchema ▸ ho ord hord) {}).2
  rwa [hsort] at hsorted

end Sorter
end ChunkSort
