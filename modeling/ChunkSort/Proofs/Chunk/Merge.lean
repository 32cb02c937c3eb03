import ChunkSort.Proofs.Chunk.Append
import ChunkSort.Proofs.Chunk.MergeOrder

/-!
Merging two chunks. Whatever the comparator answers, a merge leaves four well-formed chunks: both inputs went
to the destinations, or the inputs are as before up to order, or they are lost in a fault. Without a fault it
fails only when the destinations are unfit or too small.
-/

namespace ChunkSort

structure Chunk.Consumed (c : Chunk) (status : Status) (c' : Chunk) : Prop where
  id : c'.id = c.id
  store : c'.store = c.store
  capacity : c'.capacity = c.capacity
  rows : c'.rows = 0
  index : c'.index = Array.replicate (paddedSize c.capacity) padding
  side : c'.side = ⟨c.side.limit, #[]⟩
  status : c'.status = status

theorem Chunk.consumed_clear (c : Chunk) (status : Status) : c.Consumed status (c.clear.withStatus status) :=
  ⟨rfl, rfl, rfl, rfl, rfl, rfl, rfl⟩

namespace MergeSet

structure Mergeable (s : MergeSet) : Prop where
  y_schema : s.y.schema = s.x.schema
  low_schema : s.low.schema = s.x.schema
  high_schema : s.high.schema = s.x.schema
  x_status : s.x.status ≠ .fault
  y_status : s.y.status ≠ .fault
  low_rows : s.low.rows = 0
  high_rows : s.high.rows = 0
  slots : s.x.rows + s.y.rows ≤ s.low.capacity + s.high.capacity

theorem layoutViolation?_eq_none_iff {s : MergeSet} : s.layoutViolation? = none ↔ s.Mergeable := by
  have hinputs : [s.x, s.y].find? (·.status = .fault) = none ↔ s.x.status ≠ .fault ∧ s.y.status ≠ .fault := by
    simp
  unfold layoutViolation?
  constructor
  · intro h
    split at h
    · cases h
    next hschema =>
      split at h
      · cases h
      next hfault =>
        split at h
        · cases h
        next hempty =>
          split at h
          · cases h
          next hslots =>
            simp [Chunk.isEmpty] at hschema hempty
            obtain ⟨hx, hy⟩ := hinputs.mp hfault
            exact ⟨hschema.1, hschema.2.1, hschema.2.2, hx, hy, hempty.1, hempty.2, Nat.le_of_not_lt hslots⟩
  · intro h
    rw [if_neg (by simp [h.y_schema, h.low_schema, h.high_schema]), hinputs.mpr ⟨h.x_status, h.y_status⟩]
    simp only [Chunk.isEmpty, h.low_rows, h.high_rows, decide_true, Bool.not_true, Bool.or_self, Bool.false_eq_true,
      if_false, if_neg (Nat.not_lt_of_le h.slots)]

structure Fits (s : MergeSet) (merged : List UInt32) : Prop where
  low : s.low.side.Takes (totalLength (((merged.map s.rowOf).take s.low.capacity).map Row.payloadLength))
  high : s.high.side.Takes (totalLength (((merged.map s.rowOf).drop s.low.capacity).map Row.payloadLength))

theorem fits_of_unlimited {s : MergeSet} (hlow : s.low.side.limit = none) (hhigh : s.high.side.limit = none)
    (merged : List UInt32) : s.Fits merged := by
  constructor
  · rw [SideBuffer.Takes, hlow]
    exact fun _ h => nomatch h
  · rw [SideBuffer.Takes, hhigh]
    exact fun _ h => nomatch h

/-- Both inputs went to the destinations, in the order of `rows`. -/
structure Delivered (s s' : MergeSet) (rows : List Row) : Prop where
  perm : rows.Perm (s.x.sortedRows ++ s.y.sortedRows)
  low : s.low.Appended (rows.take s.low.capacity) s'.low
  high : s.high.Appended (rows.drop s.low.capacity) s'.high
  low_status : s'.low.status = .success
  high_status : s'.high.status = .success
  x : s'.x = s.x.clear.withStatus .success
  y : s'.y = s.y.clear.withStatus .success

/-- What a merge that fails leaves behind, and why it failed. -/
inductive Refused (s : MergeSet) (cmp : Comparator) : MergeSet → SortError → Prop where
  | layout (v : Violation) (h : s.layoutViolation? = some v) : s.Refused cmp s (.contractViolation v)
  | bytes (v : Violation) (merged : List UInt32) (h : merged.Perm s.joint)
      (hv : s.shortfall? (s.split merged) (merged.map fun e => (s.rowOf e).payloadLength) = some v) :
      s.Refused cmp (s.restored merged) (.contractViolation v)
  | fault (f : EntryFault) (h : s.OrderFault cmp f) : s.Refused cmp s.abandoned (s.faultAt f)

theorem take_split (s : MergeSet) {α : Type} (f : UInt32 → α) (merged : List UInt32) :
    (merged.map f).take (s.split merged) = (merged.map f).take s.low.capacity := by
  rw [List.take_eq_take_min (i := s.low.capacity), List.length_map, split]

theorem drop_split (s : MergeSet) {α : Type} (f : UInt32 → α) (merged : List UInt32) :
    (merged.map f).drop (s.split merged) = (merged.map f).drop s.low.capacity := by
  rw [List.drop_eq_drop_min (i := s.low.capacity), List.length_map, split]

theorem shortfall?_eq_none_iff {s : MergeSet} (h : s.WellFormed) (merged : List UInt32) :
    s.shortfall? (s.split merged) (merged.map fun e => (s.rowOf e).payloadLength) = none ↔ s.Fits merged := by
  have htake : (merged.map fun e => (s.rowOf e).payloadLength).take (s.split merged) =
      ((merged.map s.rowOf).take s.low.capacity).map Row.payloadLength := by
    rw [s.take_split, List.map_take, List.map_map]
    rfl
  have hdrop : (merged.map fun e => (s.rowOf e).payloadLength).drop (s.split merged) =
      ((merged.map s.rowOf).drop s.low.capacity).map Row.payloadLength := by
    rw [s.drop_split, List.map_drop, List.map_map]
    rfl
  have hlow : s.low.side.Takes 0 := h.low.side_le
  have hhigh : s.high.side.Takes 0 := h.high.side_le
  have hfits : s.Fits merged ↔ _ ∧ _ := ⟨fun h => ⟨h.low, h.high⟩, fun h => ⟨h.1, h.2⟩⟩
  rw [hfits, ← SideBuffer.fits_room_iff hlow, ← SideBuffer.fits_room_iff hhigh, totalLength, totalLength, ← htake,
    ← hdrop]
  unfold shortfall?
  simp

section

variable {s : MergeSet} (h : s.WellFormed) (hm : s.Mergeable) {merged : List UInt32} (hp : merged.Perm s.joint)
include h hm hp

theorem payloadSizes_eq (schedule : Schedule) :
    s.payloadSizes merged schedule = .ok (merged.map fun e => (s.rowOf e).payloadLength) := by
  rw [payloadSizes, collect_eq_ok_iff, mapM_eq_ok_iff, List.forall₂_map_right_iff, List.forall₂_same]
  intro e he
  have hread := h.reads_recordOf hm.y_schema (hp.mem_iff.mp he)
  rw [hm.low_schema, hread.gives.payloadSize]
  rfl

theorem forall₂_gives (entries : List UInt32) (hsub : ∀ e ∈ entries, e ∈ merged) :
    List.Forall₂ (fun r row => SourceRow.Gives r s.x.schema row) (entries.map fun e => (s.recordOf e).toSource)
      (entries.map s.rowOf) := by
  rw [List.forall₂_map_left_iff, List.forall₂_map_right_iff, List.forall₂_same]
  exact fun e he => (h.reads_recordOf hm.y_schema (hp.mem_iff.mp (hsub e he))).gives

theorem copyInto_spec {c : Chunk} (hc : c.WellFormed) (hs : c.schema = s.x.schema) {entries : List UInt32}
    (hsub : ∀ e ∈ entries, e ∈ merged) (hfree : entries.length ≤ c.freeRows)
    (ht : c.side.Takes (totalLength ((entries.map s.rowOf).map Row.payloadLength))) :
    ∃ c', s.copyInto c entries = .ok c' ∧ c.Appended (entries.map s.rowOf) c' ∧ c'.status = .success := by
  obtain ⟨c', ha, happ⟩ := Chunk.append_spec hc (hs ▸ forall₂_gives h hm hp entries hsub)
    (by rwa [List.length_map]) ht
  exact ⟨c'.withStatus .success, by rw [copyInto, ha], happ.withStatus .success, rfl⟩

theorem copied_spec (hf : s.Fits merged) :
    ∃ low high, s.copied merged = .ok (low, high) ∧ s.low.Appended ((merged.map s.rowOf).take s.low.capacity) low ∧
      s.high.Appended ((merged.map s.rowOf).drop s.low.capacity) high ∧ low.status = .success ∧
      high.status = .success := by
  have hlen := hp.length_eq.trans h.length_joint
  have hslots := hm.slots
  have htake : (merged.take (s.split merged)).map s.rowOf = (merged.map s.rowOf).take s.low.capacity := by
    rw [List.map_take, s.take_split]
  have hdrop : (merged.drop (s.split merged)).map s.rowOf = (merged.map s.rowOf).drop s.low.capacity := by
    rw [List.map_drop, s.drop_split]
  obtain ⟨low, hl, hla, hls⟩ := copyInto_spec h hm hp h.low hm.low_schema
    (fun e he => List.mem_of_mem_take he) (by
      rw [List.length_take, Chunk.freeRows, hm.low_rows, split]
      omega) (htake ▸ hf.low)
  obtain ⟨high, hh, hha, hhs⟩ := copyInto_spec h hm hp h.high hm.high_schema
    (fun e he => List.mem_of_mem_drop he) (by
      rw [List.length_drop, Chunk.freeRows, hm.high_rows, split]
      omega) (hdrop ▸ hf.high)
  exact ⟨low, high, by simp only [copied, hl, hh, bind, Except.bind, pure, Except.pure], htake ▸ hla, hdrop ▸ hha, hls,
    hhs⟩

end

/-! ### Whole merges -/

theorem merge_of_layout {s : MergeSet} {v : Violation} (hl : s.layoutViolation? = some v) (cmp : Comparator)
    (schedule : Schedule) : s.merge cmp schedule = ⟨s, .error (.contractViolation v)⟩ := by rw [merge, hl]

section

variable {s : MergeSet} (hm : s.Mergeable) {merged : List UInt32} {cmp : Comparator} {schedule : Schedule}
include hm

theorem merge_of_fault {f : EntryFault} (ho : s.order cmp schedule = .error (.failed f)) :
    s.merge cmp schedule = ⟨s.abandoned, .error (s.faultAt f)⟩ := by
  simp only [merge, afterOrder, layoutViolation?_eq_none_iff.mpr hm, ho, stopError]

variable (h : s.WellFormed) (ho : s.order cmp schedule = .ok merged) (hp : merged.Perm s.joint)
include h ho hp

theorem merge_of_shortfall {v : Violation}
    (hv : s.shortfall? (s.split merged) (merged.map fun e => (s.rowOf e).payloadLength) = some v) :
    s.merge cmp schedule = ⟨s.restored merged, .error (.contractViolation v)⟩ := by
  simp only [merge, afterOrder, deliver, layoutViolation?_eq_none_iff.mpr hm, ho, payloadSizes_eq h hm hp, hv]

theorem merge_delivered (hf : s.Fits merged) :
    (s.merge cmp schedule).result = .ok () ∧ s.Delivered (s.merge cmp schedule).state (merged.map s.rowOf) := by
  obtain ⟨low, high, hc, hla, hha, hls, hhs⟩ := copied_spec h hm hp hf
  have heq : s.merge cmp schedule = ⟨⟨s.x.clear.withStatus .success, s.y.clear.withStatus .success, low, high⟩, .ok ()⟩ := by
    simp only [merge, afterOrder, deliver, layoutViolation?_eq_none_iff.mpr hm, ho, payloadSizes_eq h hm hp,
      (shortfall?_eq_none_iff h merged).mpr hf, hc]
  rw [heq]
  exact ⟨rfl, h.map_rowOf_joint ▸ hp.map s.rowOf, hla, hha, hls, hhs, rfl, rfl⟩

end

theorem merge_spec {s : MergeSet} (h : s.WellFormed) (cmp : Comparator) (schedule : Schedule) :
    match (s.merge cmp schedule).result with
    | .ok _ => s.Mergeable ∧ ∃ rows, s.Delivered (s.merge cmp schedule).state rows
    | .error e => s.Refused cmp (s.merge cmp schedule).state e := by
  cases hl : s.layoutViolation? with
  | some v =>
    rw [merge_of_layout hl]
    exact .layout v hl
  | none =>
    have hm := layoutViolation?_eq_none_iff.mp hl
    have horder := order_outcome h cmp schedule
    cases ho : s.order cmp schedule with
    | error stop =>
      rw [ho] at horder
      obtain ⟨f, hf, rfl⟩ := horder
      rw [merge_of_fault hm ho]
      exact .fault f hf
    | ok merged =>
      rw [ho] at horder
      cases hv : s.shortfall? (s.split merged) (merged.map fun e => (s.rowOf e).payloadLength) with
      | some v =>
        rw [merge_of_shortfall hm h ho horder hv]
        exact .bytes v merged horder hv
      | none =>
        obtain ⟨hres, hd⟩ := merge_delivered hm h ho horder ((shortfall?_eq_none_iff h merged).mp hv)
        rw [hres]
        exact ⟨hm, _, hd⟩

namespace Delivered

variable {s s' : MergeSet} {rows : List Row} (hd : s.Delivered s' rows) (h : s.WellFormed) (hm : s.Mergeable)
include hd h hm

theorem low_sortedRows : s'.low.sortedRows = rows.take s.low.capacity := by
  rw [hd.low.sortedRows h.low, h.low.sortedRows_of_rows hm.low_rows, List.nil_append]

theorem high_sortedRows : s'.high.sortedRows = rows.drop s.low.capacity := by
  rw [hd.high.sortedRows h.high, h.high.sortedRows_of_rows hm.high_rows, List.nil_append]

theorem sortedRows_eq : s'.low.sortedRows ++ s'.high.sortedRows = rows := by
  rw [hd.low_sortedRows h hm, hd.high_sortedRows h hm, List.take_append_drop]

end Delivered

theorem WellFormed.merge {s : MergeSet} (h : s.WellFormed) (cmp : Comparator) (schedule : Schedule) :
    (s.merge cmp schedule).state.WellFormed ∧ (s.merge cmp schedule).state.x.shape = s.x.shape ∧
      (s.merge cmp schedule).state.y.shape = s.y.shape ∧ (s.merge cmp schedule).state.low.shape = s.low.shape ∧
        (s.merge cmp schedule).state.high.shape = s.high.shape := by
  have hspec := merge_spec h cmp schedule
  generalize s.merge cmp schedule = a at hspec
  obtain ⟨s', result⟩ := a
  cases result with
  | ok u =>
    obtain ⟨hm, rows, hd⟩ := hspec
    simp only at hd ⊢
    rw [hd.x, hd.y]
    refine ⟨⟨?_, ?_, hd.low.wellFormed, hd.high.wellFormed⟩, rfl, rfl, hd.low.shape, hd.high.shape⟩
    · rw [hd.x]
      exact h.x.clear.withStatus .success
    · rw [hd.y]
      exact h.y.clear.withStatus .success
  | error e =>
    cases hspec with
    | layout v hv => exact ⟨h, rfl, rfl, rfl, rfl⟩
    | bytes v merged hp hv =>
      exact ⟨⟨(h.restored_x hp).wellFormed, (h.restored_y hp).wellFormed, h.low, h.high⟩, rfl, rfl, rfl, rfl⟩
    | fault f hf =>
      exact ⟨⟨h.x.clear.withStatus .fault, h.y.clear.withStatus .fault, h.low.withStatus .fault,
        h.high.withStatus .fault⟩, rfl, rfl, rfl, rfl⟩

theorem merge_sorted {s : MergeSet} (h : s.WellFormed) (hm : s.Mergeable) (hlow : s.low.side.limit = none)
    (hhigh : s.high.side.limit = none) {cmp : Comparator} {ord : Row → Row → Ordering}
    (ho : cmp.Orders s.x.schema ord) (hx : s.x.sortedRows.Pairwise fun u v => ord u v ≠ .gt)
    (hy : s.y.sortedRows.Pairwise fun u v => ord u v ≠ .gt) (schedule : Schedule) :
    (s.merge cmp schedule).result = .ok () ∧ ∃ rows, s.Delivered (s.merge cmp schedule).state rows ∧
      rows.Pairwise fun u v => ord u v ≠ .gt := by
  obtain ⟨merged, hmerged, hp, hsorted⟩ := order_sorted h ho hm.y_schema hx hy schedule
  obtain ⟨hres, hd⟩ := merge_delivered hm h hmerged hp (fits_of_unlimited hlow hhigh merged)
  exact ⟨hres, _, hd, hsorted⟩

theorem Delivered.pairwise {s : MergeSet} {cmp : Comparator} {schedule : Schedule} {rows : List Row}
    (hd : s.Delivered (s.merge cmp schedule).state rows) (h : s.WellFormed) (hm : s.Mergeable) (hlow : s.low.side.limit = none)
    (hhigh : s.high.side.limit = none) {ord : Row → Row → Ordering} (ho : cmp.Orders s.x.schema ord)
    (hx : s.x.sortedRows.Pairwise fun u v => ord u v ≠ .gt) (hy : s.y.sortedRows.Pairwise fun u v => ord u v ≠ .gt) :
    rows.Pairwise fun u v => ord u v ≠ .gt := by
  obtain ⟨_, rows', hd', hsorted⟩ := merge_sorted h hm hlow hhigh ho hx hy schedule
  rwa [← hd'.sortedRows_eq h hm, hd.sortedRows_eq h hm] at hsorted

end MergeSet
end ChunkSort
