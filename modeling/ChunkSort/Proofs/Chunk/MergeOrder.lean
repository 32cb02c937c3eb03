import ChunkSort.Proofs.Chunk.Joint

/-!
The order in which a merge takes the rows of its inputs. Whatever the comparator answers it is a permutation
of the joint entries; under a total preorder it is sorted when both inputs are.
-/

namespace ChunkSort
namespace MergeSet

def leftSlots (s : MergeSet) : Array UInt32 := renumber s.x.index s.x.rows s.half 0

def rightSlots (s : MergeSet) : Array UInt32 := renumber s.y.index s.y.rows s.half (UInt32.ofNat s.half)

abbrev exchange (s : MergeSet) (cmp : Comparator) : UInt32 → UInt32 → Except EntryFault Bool :=
  outOfOrder cmp s.recordOf s.ties

def network (s : MergeSet) (cmp : Comparator) (schedule : Schedule := {}) :
    Except (Stop EntryFault) (Array UInt32 × Array UInt32) :=
  if s.x.isEmpty || s.y.isEmpty then .ok (s.leftSlots, s.rightSlots)
  else mergeNetwork (s.exchange cmp) s.leftSlots s.rightSlots schedule.lanes

theorem order_eq (s : MergeSet) (cmp : Comparator) (schedule : Schedule) :
    s.order cmp schedule = (s.network cmp schedule).map fun p => (p.1.toList ++ p.2.toList).filter (· ≠ padding) := by
  unfold order network
  split
  · rfl
  · change (mergeNetwork (s.exchange cmp) s.leftSlots s.rightSlots schedule.lanes >>= _) = _
    cases mergeNetwork (s.exchange cmp) s.leftSlots s.rightSlots schedule.lanes <;> rfl

@[simp] theorem size_leftSlots (s : MergeSet) : s.leftSlots.size = s.half :=
  Array.size_mapIdx.trans (size_resize ..)

@[simp] theorem size_rightSlots (s : MergeSet) : s.rightSlots.size = s.half :=
  Array.size_mapIdx.trans (size_resize ..)

/-- The order of the rows does not depend on the schedule. -/
theorem order_eq_ok_iff {s : MergeSet} {cmp : Comparator} {schedule : Schedule} {merged : List UInt32} :
    s.order cmp schedule = .ok merged ↔ s.order cmp = .ok merged := by
  have hnetwork (p : Array UInt32 × Array UInt32) : s.network cmp schedule = .ok p ↔ s.network cmp = .ok p := by
    unfold network
    split
    · rfl
    · obtain ⟨k, hk⟩ := paddedSize_eq (max s.x.rows s.y.rows)
      exact mergeNetwork_eq_ok_iff _ (s.size_leftSlots.trans hk) (s.size_rightSlots.trans hk)
  rw [order_eq, order_eq, map_eq_ok_iff, map_eq_ok_iff]
  simp only [hnetwork]

namespace WellFormed

variable {s : MergeSet} (h : s.WellFormed)
include h

theorem toList_leftSlots :
    s.leftSlots.toList = s.x.entries ++ List.replicate (s.half - s.x.rows) padding := by
  rw [leftSlots, toList_renumber 0 h.x.rows_le_index s.x_rows_le_half]
  congr 1
  conv_rhs => rw [← List.map_id s.x.entries]
  exact List.map_congr_left fun e _ => UInt32.add_zero e

theorem toList_rightSlots : s.rightSlots.toList =
    s.y.entries.map (· + UInt32.ofNat s.half) ++ List.replicate (s.half - s.y.rows) padding :=
  toList_renumber _ h.y.rows_le_index s.y_rows_le_half

theorem mem_slots {e : UInt32} (he : e ∈ s.leftSlots.toList ++ s.rightSlots.toList) : e = padding ∨ e ∈ s.joint := by
  rw [h.toList_leftSlots, h.toList_rightSlots] at he
  simp only [List.mem_append, List.mem_replicate] at he
  rcases he with (hx | ⟨_, rfl⟩) | (hy | ⟨_, rfl⟩)
  · exact .inr (List.mem_append_left _ hx)
  · exact .inl rfl
  · exact .inr (List.mem_append_right _ hy)
  · exact .inl rfl

theorem filter_slots : (s.leftSlots.toList ++ s.rightSlots.toList).filter (· ≠ padding) = s.joint := by
  have keep : ∀ l : List UInt32, (∀ e ∈ l, e ∈ s.joint) → l.filter (· ≠ padding) = l := by
    intro l hl
    apply List.filter_eq_self.mpr
    intro e he
    exact decide_eq_true (h.ne_padding_of_mem_joint (hl e he))
  have drop : ∀ n, (List.replicate n padding).filter (· ≠ padding) = [] := by
    intro n
    apply List.filter_eq_nil_iff.mpr
    intro e he
    rw [List.eq_of_mem_replicate he]
    decide
  rw [h.toList_leftSlots, h.toList_rightSlots]
  simp only [List.filter_append, drop, List.append_nil]
  rw [keep _ fun e he => List.mem_append_left _ he, keep _ fun e he => List.mem_append_right _ he, joint]

theorem filter_perm {a b : Array UInt32}
    (hp : (a.toList ++ b.toList).Perm (s.leftSlots.toList ++ s.rightSlots.toList)) :
    ((a.toList ++ b.toList).filter (· ≠ padding)).Perm s.joint := by
  rw [← h.filter_slots]
  exact hp.filter _

end WellFormed

def OrderFault (s : MergeSet) (cmp : Comparator) (f : EntryFault) : Prop :=
  f.Arises cmp s.recordOf s.joint

theorem order_outcome {s : MergeSet} (h : s.WellFormed) (cmp : Comparator) (schedule : Schedule) :
    Outcome (fun merged => merged.Perm s.joint) (fun stop => ∃ f, s.OrderFault cmp f ∧ stop = .failed f)
      (s.order cmp schedule) := by
  rw [order_eq, network]
  split
  · exact h.filter_perm (.refl _)
  · obtain ⟨k, hk⟩ := paddedSize_eq (max s.x.rows s.y.rows)
    obtain ⟨turns, hsplit, -⟩ := exists_turns_mergeNetwork (α := UInt32) (ε := EntryFault) (k := k) schedule.lanes
    have hsplit := hsplit (s.exchange cmp) _ _ (s.size_leftSlots.trans hk) (s.size_rightSlots.trans hk)
    have hrun := runPasses_outcome (s.exchange cmp) (2 * 1 <<< k) (s.leftSlots ++ s.rightSlots)
      (mergeSchedule (2 * 1 <<< k)) turns
    revert hsplit hrun
    cases mergeNetwork (s.exchange cmp) s.leftSlots s.rightSlots schedule.lanes with
    | ok p =>
      cases runPasses (s.exchange cmp) (2 * 1 <<< k) (s.leftSlots ++ s.rightSlots) (mergeSchedule (2 * 1 <<< k)) turns with
      | error f => exact fun hsplit => hsplit.elim
      | ok slots =>
        rintro ⟨_, _, rfl⟩ hs
        apply h.filter_perm
        have key := hs.toList_perm
        rwa [Array.toList_append, Array.toList_append] at key
    | error stop =>
      cases runPasses (s.exchange cmp) (2 * 1 <<< k) (s.leftSlots ++ s.rightSlots) (mergeSchedule (2 * 1 <<< k)) turns with
      | ok slots => exact fun hsplit => hsplit.elim
      | error halted =>
        rintro rfl hs
        obtain ⟨a, b, f, hab, he, hstop⟩ := hs.failed
        obtain ⟨hap, hbp, hcmp, hf⟩ := outOfOrder_error he
        refine ⟨f, ⟨a, b, ?_, hcmp, hf⟩, hstop⟩
        -- neither of them is padding
        have hkeep := hab.filter (· ≠ padding)
        have hall : liveEntries (s.leftSlots ++ s.rightSlots) (2 * 1 <<< k) = s.leftSlots.toList ++ s.rightSlots.toList := by
          have hlen := s.size_leftSlots.trans hk
          have hlen' := s.size_rightSlots.trans hk
          rw [liveEntries, List.take_of_length_le (by rw [Array.length_toList, Array.size_append]; omega),
            Array.toList_append]
        rw [hall, h.filter_slots] at hkeep
        simpa [hap, hbp] using hkeep

theorem order_congr {s s' : MergeSet} (h : s.WellFormed) {cmp cmp' : Comparator} (hleft : s.leftSlots = s'.leftSlots)
    (hright : s.rightSlots = s'.rightSlots) (hties : s.ties = s'.ties)
    (hempty : (s.x.isEmpty || s.y.isEmpty) = (s'.x.isEmpty || s'.y.isEmpty))
    (agree : ∀ a ∈ s.joint, ∀ b ∈ s.joint, cmp (s.recordOf a) (s.recordOf b) = cmp' (s'.recordOf a) (s'.recordOf b))
    (schedule : Schedule) : s.order cmp schedule = s'.order cmp' schedule := by
  have hnetwork : s.network cmp schedule = s'.network cmp' schedule := by
    unfold network
    rw [hempty, ← hleft, ← hright]
    split
    · rfl
    · obtain ⟨k, hk⟩ := paddedSize_eq (max s.x.rows s.y.rows)
      refine mergeNetwork_congr _ (s.size_leftSlots.trans hk) (s.size_rightSlots.trans hk) (fun a ha b hb => ?_) _
      rw [exchange, exchange, ← hties]
      apply outOfOrder_congr
      intro x hx hxp y hy hyp
      have hx' : x ∈ s.joint := (h.mem_slots (by rcases hx with rfl | rfl <;> assumption)).resolve_left hxp
      have hy' : y ∈ s.joint := (h.mem_slots (by rcases hy with rfl | rfl <;> assumption)).resolve_left hyp
      exact agree x hx' y hy'
  rw [order_eq, order_eq, hnetwork]

instance (s : MergeSet) : Std.TransCmp s.ties :=
  inferInstanceAs (Std.TransCmp (compareOn fun e : UInt32 => decide (s.half ≤ e.toNat)))

section Sorted

variable {s : MergeSet} (h : s.WellFormed) {cmp : Comparator}
include h

section Records

variable (ht : cmp.TotalOn s.Live)
include ht

theorem pairwise_left (hx : s.x.sortedRecords.Pairwise cmp.Le) :
    s.x.entries.Pairwise (EntryLe cmp s.recordOf s.ties) := by
  rw [Chunk.sortedRecords_eq, List.pairwise_map] at hx
  refine hx.imp_of_mem fun {a b} ha hb hle => .inr ⟨h.x.ne_padding_of_mem_entries ha, ?_⟩
  have hties : s.ties a b = .eq := by
    rw [ties, decide_eq_false (Nat.not_le_of_lt (h.locate_left ha).1),
      decide_eq_false (Nat.not_le_of_lt (h.locate_left hb).1)]
    rfl
  rw [hties, Ordering.then_eq, ← ht.le_iff (h.live_recordOf (List.mem_append_left _ ha))
    (h.live_recordOf (List.mem_append_left _ hb))]
  rwa [recordOf_eq, recordOf_eq, (h.locate_left ha).2, (h.locate_left hb).2]

theorem pairwise_right (hy : s.y.sortedRecords.Pairwise cmp.Le) :
    (s.y.entries.map (· + UInt32.ofNat s.half)).Pairwise (EntryLe cmp s.recordOf s.ties) := by
  rw [Chunk.sortedRecords_eq, List.pairwise_map] at hy
  rw [List.pairwise_map]
  refine hy.imp_of_mem fun {a b} ha hb hle => ?_
  have hja : a + UInt32.ofNat s.half ∈ s.joint := List.mem_append_right _ (List.mem_map_of_mem ha)
  have hjb : b + UInt32.ofNat s.half ∈ s.joint := List.mem_append_right _ (List.mem_map_of_mem hb)
  have hties : s.ties (a + UInt32.ofNat s.half) (b + UInt32.ofNat s.half) = .eq := by
    rw [ties, decide_eq_true (h.locate_right ha).1, decide_eq_true (h.locate_right hb).1]
    rfl
  refine .inr ⟨h.ne_padding_of_mem_joint hja, ?_⟩
  rw [hties, Ordering.then_eq, ← ht.le_iff (h.live_recordOf hja) (h.live_recordOf hjb)]
  rwa [recordOf_eq, recordOf_eq, (h.locate_right ha).2.2, (h.locate_right hb).2.2]

omit h ht in
theorem pairwise_padded {l : List UInt32} (hl : l.Pairwise (EntryLe cmp s.recordOf s.ties)) (n : Nat) :
    (l ++ List.replicate n padding).Pairwise (EntryLe cmp s.recordOf s.ties) := by
  rw [List.pairwise_append]
  exact ⟨hl, List.pairwise_replicate.mpr (.inr (.inl rfl)), fun _ _ _ hb => .inl (List.eq_of_mem_replicate hb)⟩

theorem order_pairwise (hx : s.x.sortedRecords.Pairwise cmp.Le) (hy : s.y.sortedRecords.Pairwise cmp.Le)
    (schedule : Schedule) :
    ∃ merged, s.order cmp schedule = .ok merged ∧ merged.Perm s.joint ∧
      merged.Pairwise (EntryLe cmp s.recordOf s.ties) := by
  have hleft := pairwise_left h ht hx
  have hright := pairwise_right h ht hy
  simp only [@order_eq_ok_iff s cmp schedule]
  rw [order_eq, network]
  split
  next hempty =>
    refine ⟨_, rfl, h.filter_perm (.refl _), ?_⟩
    simp only [h.filter_slots, joint]
    rcases Bool.or_eq_true_iff.mp hempty with he | he
    · rwa [h.x.entries_of_rows (of_decide_eq_true he)]
    · rwa [h.y.entries_of_rows (of_decide_eq_true he), List.map_nil, List.append_nil]
  next =>
    have hd : Decides (s.exchange cmp) (fun e => e = padding ∨ e ∈ s.joint) (EntryLe cmp s.recordOf s.ties) :=
      outOfOrder_decides ht fun e he hp => h.live_recordOf (he.resolve_left hp)
    obtain ⟨k, hk⟩ := paddedSize_eq (max s.x.rows s.y.rows)
    have hsplit := mergeNetwork_split (s.exchange cmp) (s.size_leftSlots.trans hk) (s.size_rightSlots.trans hk)
    obtain ⟨slots, hr, hperm, hsorted⟩ := runPasses_mergeSchedule hd
      (fun e he => h.mem_slots (List.mem_append_left _ he)) (fun e he => h.mem_slots (List.mem_append_right _ he))
      (s.size_leftSlots.trans hk) (s.size_rightSlots.trans hk) (h.toList_leftSlots ▸ pairwise_padded hleft _)
      (h.toList_rightSlots ▸ pairwise_padded hright _) inTurn
    rw [hr] at hsplit
    show ∃ merged, Except.map _ (mergeNetwork (s.exchange cmp) s.leftSlots s.rightSlots) = .ok merged ∧ _
    cases hm : mergeNetwork (s.exchange cmp) s.leftSlots s.rightSlots with
    | error f =>
      rw [hm] at hsplit
      exact hsplit.elim
    | ok p =>
      rw [hm] at hsplit
      obtain ⟨_, _, rfl⟩ := hsplit
      rw [Array.toList_append] at hperm hsorted
      exact ⟨_, rfl, h.filter_perm hperm, hsorted.filter _⟩

theorem pairwise_records {merged : List UInt32} (hp : merged.Perm s.joint)
    (hsorted : merged.Pairwise (EntryLe cmp s.recordOf s.ties)) : (merged.map s.recordOf).Pairwise cmp.Le := by
  rw [List.pairwise_map]
  refine hsorted.imp_of_mem fun {a b} ha hb hle => ?_
  have ha := hp.mem_iff.mp ha
  have hb := hp.mem_iff.mp hb
  obtain ⟨_, hle⟩ := hle.resolve_left (h.ne_padding_of_mem_joint hb)
  rw [ht.le_iff (h.live_recordOf ha) (h.live_recordOf hb)]
  intro hgt
  rw [hgt] at hle
  exact hle rfl

end Records

theorem Live.exists_reads (hxy : s.y.schema = s.x.schema) {r : Record} (hr : s.Live r) :
    ∃ row, r.Reads s.x.schema row := by
  rcases hr with hr | hr
  · exact hr.exists_reads h.x
  · exact hxy ▸ hr.exists_reads h.y

theorem reads_merged (hxy : s.y.schema = s.x.schema) {merged : List UInt32} (hp : merged.Perm s.joint) :
    List.Forall₂ (fun r row => Record.Reads r s.x.schema row) (merged.map s.recordOf) (merged.map s.rowOf) := by
  rw [List.forall₂_map_left_iff, List.forall₂_map_right_iff, List.forall₂_same]
  exact fun e he => h.reads_recordOf hxy (hp.mem_iff.mp he)

theorem order_sorted {ord : Row → Row → Ordering} (ho : cmp.Orders s.x.schema ord) (hxy : s.y.schema = s.x.schema)
    (hx : s.x.sortedRows.Pairwise fun u v => ord u v ≠ .gt) (hy : s.y.sortedRows.Pairwise fun u v => ord u v ≠ .gt)
    (schedule : Schedule) :
    ∃ merged, s.order cmp schedule = .ok merged ∧ merged.Perm s.joint ∧
      (merged.map s.rowOf).Pairwise fun u v => ord u v ≠ .gt := by
  have ht : cmp.TotalOn s.Live := ho.totalOn.mono fun _ hr => hr.exists_reads h hxy
  obtain ⟨merged, hmerged, hp, hsorted⟩ :=
    order_pairwise h ht ((h.x.sorted_iff ho).mpr hx) ((h.y.sorted_iff (hxy ▸ ho)).mpr hy) schedule
  exact ⟨merged, hmerged, hp, pairwise_of_forall₂ (reads_merged h hxy hp).flip (pairwise_records h ht hp hsorted)
    fun _ _ _ _ ha hb => (ho.le_iff ha hb).mp⟩

end Sorted
end MergeSet
end ChunkSort
