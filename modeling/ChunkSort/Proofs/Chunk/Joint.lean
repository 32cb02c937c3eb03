import ChunkSort.Chunk.Merge
import ChunkSort.Proofs.Chunk.Sort
import ChunkSort.Proofs.Network.Halves

/-!
The joint numbering of a merge. Its entries are those of the first input and the shifted ones of the second
input; they never meet each other or the padding, so both indexes can be read off them again.
-/

namespace ChunkSort

@[simp] theorem size_resize (entries : List UInt32) (length : Nat) : (resize entries length).size = length := by
  simp [resize]

theorem toList_renumber {index : Array UInt32} {rows half : Nat} (offset : UInt32) (hi : rows ≤ index.size)
    (hh : rows ≤ half) : (renumber index rows half offset).toList =
      (index.toList.take rows).map (· + offset) ++ List.replicate (half - rows) padding := by
  have hlen : ((index.toList.take rows).map (· + offset)).length = rows := by
    rw [List.length_map, List.length_take, Array.length_toList]
    exact Nat.min_eq_left hi
  apply List.ext_getElem
  · rw [renumber, Array.length_toList, Array.size_mapIdx, size_resize, List.length_append, hlen, List.length_replicate]
    omega
  · intro i h₁ h₂
    rw [Array.getElem_toList]
    simp only [renumber, Array.getElem_mapIdx, resize, List.getElem_toArray, List.getElem_take]
    split
    next hlt =>
      have hsize : i < index.toList.length := by
        rw [Array.length_toList]
        exact Nat.lt_of_lt_of_le hlt hi
      rw [List.getElem_append_left hsize, List.getElem_append_left (by rwa [hlen]), List.getElem_map, List.getElem_take]
    next hge =>
      rw [List.getElem_append_right (by rw [hlen]; exact Nat.le_of_not_lt hge), List.getElem_replicate]

namespace MergeSet

structure WellFormed (s : MergeSet) : Prop where
  x : s.x.WellFormed
  y : s.y.WellFormed
  low : s.low.WellFormed
  high : s.high.WellFormed

def joint (s : MergeSet) : List UInt32 := s.x.entries ++ s.y.entries.map (· + UInt32.ofNat s.half)

def rowOf (s : MergeSet) (entry : UInt32) : Row := (s.locate entry).1.rowAt (s.locate entry).2

theorem recordOf_eq (s : MergeSet) (entry : UInt32) :
    s.recordOf entry = (s.locate entry).1.recordAt (s.locate entry).2 := rfl

def Live (s : MergeSet) (r : Record) : Prop := s.x.Live r ∨ s.y.Live r

theorem x_rows_le_half (s : MergeSet) : s.x.rows ≤ s.half :=
  Nat.le_trans (Nat.le_max_left ..) (le_paddedSize _)

theorem y_rows_le_half (s : MergeSet) : s.y.rows ≤ s.half :=
  Nat.le_trans (Nat.le_max_right ..) (le_paddedSize _)

namespace WellFormed

variable {s : MergeSet} (h : s.WellFormed)
include h

theorem half_le : s.half ≤ maxCapacity := by
  rw [maxCapacity_eq]
  apply paddedSize_le
  rw [← maxCapacity_eq]
  exact Nat.max_le.mpr ⟨h.x.rows_le_max, h.y.rows_le_max⟩

theorem toNat_shifted {e : UInt32} (he : e ∈ s.y.entries) : (e + UInt32.ofNat s.half).toNat = e.toNat + s.half := by
  have hlt := h.y.lt_of_mem_entries he
  have hle := s.y_rows_le_half
  have hmax := h.half_le
  have hh : (UInt32.ofNat s.half).toNat = s.half := UInt32.toNat_ofNat_of_lt' (Nat.lt_of_le_of_lt hmax (by decide))
  rw [UInt32.toNat_add, hh, Nat.mod_eq_of_lt]
  rw [maxCapacity] at hmax
  omega

theorem locate_left {e : UInt32} (he : e ∈ s.x.entries) : e.toNat < s.half ∧ s.locate e = (s.x, e.toNat) := by
  have hlt := Nat.lt_of_lt_of_le (h.x.lt_of_mem_entries he) s.x_rows_le_half
  exact ⟨hlt, if_pos hlt⟩

theorem locate_right {e : UInt32} (he : e ∈ s.y.entries) :
    s.half ≤ (e + UInt32.ofNat s.half).toNat ∧ (e + UInt32.ofNat s.half).toNat < 2 * s.half ∧
      s.locate (e + UInt32.ofNat s.half) = (s.y, e.toNat) := by
  have hlt := Nat.lt_of_lt_of_le (h.y.lt_of_mem_entries he) s.y_rows_le_half
  rw [locate, h.toNat_shifted he, if_neg (by omega), Nat.add_sub_cancel]
  exact ⟨by omega, by omega, rfl⟩

theorem locate_joint {e : UInt32} (he : e ∈ s.joint) :
    ((s.locate e).1 = s.x ∧ (s.locate e).2 < s.x.rows) ∨ ((s.locate e).1 = s.y ∧ (s.locate e).2 < s.y.rows) := by
  rcases List.mem_append.mp he with hx | hy
  · rw [(h.locate_left hx).2]
    exact .inl ⟨rfl, h.x.lt_of_mem_entries hx⟩
  · obtain ⟨f, hf, rfl⟩ := List.mem_map.mp hy
    rw [(h.locate_right hf).2.2]
    exact .inr ⟨rfl, h.y.lt_of_mem_entries hf⟩

theorem ne_padding_of_mem_joint {e : UInt32} (he : e ∈ s.joint) : e ≠ padding := by
  rcases List.mem_append.mp he with hx | hy
  · exact h.x.ne_padding_of_mem_entries hx
  · obtain ⟨f, hf, rfl⟩ := List.mem_map.mp hy
    intro hp
    have hlt := (h.locate_right hf).2.1
    have hmax := h.half_le
    rw [hp] at hlt
    have : padding.toNat = 4294967295 := rfl
    rw [maxCapacity] at hmax
    omega

theorem live_recordOf {e : UInt32} (he : e ∈ s.joint) : s.Live (s.recordOf e) := by
  rw [recordOf_eq]
  rcases h.locate_joint he with ⟨hc, hs⟩ | ⟨hc, hs⟩
  · exact .inl ⟨_, hs, by rw [hc]⟩
  · exact .inr ⟨_, hs, by rw [hc]⟩

theorem reads_recordOf (hxy : s.y.schema = s.x.schema) {e : UInt32} (he : e ∈ s.joint) :
    (s.recordOf e).Reads s.x.schema (s.rowOf e) := by
  rw [recordOf_eq, rowOf]
  rcases h.locate_joint he with ⟨hc, hs⟩ | ⟨hc, hs⟩
  · rw [hc]
    exact h.x.reads hs
  · rw [hc, ← hxy]
    exact h.y.reads hs

theorem map_rowOf_left : s.x.entries.map s.rowOf = s.x.sortedRows := by
  apply List.map_congr_left
  intro e he
  rw [rowOf, (h.locate_left he).2]

theorem map_rowOf_right : (s.y.entries.map (· + UInt32.ofNat s.half)).map s.rowOf = s.y.sortedRows := by
  rw [List.map_map]
  apply List.map_congr_left
  intro e he
  rw [Function.comp_apply, rowOf, (h.locate_right he).2.2]

theorem map_rowOf_joint : s.joint.map s.rowOf = s.x.sortedRows ++ s.y.sortedRows := by
  rw [joint, List.map_append, h.map_rowOf_left, h.map_rowOf_right]

theorem length_joint : s.joint.length = s.x.rows + s.y.rows := by
  rw [joint, List.length_append, List.length_map, h.x.length_entries, h.y.length_entries]

/-! ### The indexes read off the joint entries -/

theorem filter_left : s.joint.filter (fun e => 0 ≤ e.toNat && e.toNat < s.half) = s.x.entries := by
  have hx : ∀ e ∈ s.x.entries, (0 ≤ e.toNat && e.toNat < s.half) = true := by
    intro e he
    simp only [Nat.zero_le, decide_true, Bool.true_and, decide_eq_true_eq]
    exact (h.locate_left he).1
  have hy : ∀ e ∈ s.y.entries.map (· + UInt32.ofNat s.half), ¬(0 ≤ e.toNat && e.toNat < s.half) = true := by
    intro e he
    obtain ⟨f, hf, rfl⟩ := List.mem_map.mp he
    simp only [Nat.zero_le, decide_true, Bool.true_and, decide_eq_true_eq]
    exact Nat.not_lt_of_le (h.locate_right hf).1
  rw [joint, List.filter_append, List.filter_eq_self.mpr hx, List.filter_eq_nil_iff.mpr hy, List.append_nil]

theorem filter_right : s.joint.filter (fun e => s.half ≤ e.toNat && e.toNat < 2 * s.half) =
    s.y.entries.map (· + UInt32.ofNat s.half) := by
  have hx : ∀ e ∈ s.x.entries, ¬(s.half ≤ e.toNat && e.toNat < 2 * s.half) = true := by
    intro e he
    have hlt := (h.locate_left he).1
    simp only [Bool.and_eq_true, decide_eq_true_eq]
    omega
  have hy : ∀ e ∈ s.y.entries.map (· + UInt32.ofNat s.half), (s.half ≤ e.toNat && e.toNat < 2 * s.half) = true := by
    intro e he
    obtain ⟨f, hf, rfl⟩ := List.mem_map.mp he
    simp only [Bool.and_eq_true, decide_eq_true_eq]
    exact ⟨(h.locate_right hf).1, (h.locate_right hf).2.1⟩
  rw [joint, List.filter_append, List.filter_eq_nil_iff.mpr hx, List.filter_eq_self.mpr hy, List.nil_append]

theorem filter_not_left : s.joint.filter (fun e => !(0 ≤ e.toNat && e.toNat < s.half)) =
    s.y.entries.map (· + UInt32.ofNat s.half) := by
  rw [← h.filter_right]
  apply List.filter_congr
  intro e he
  rw [Bool.eq_iff_iff]
  simp only [Nat.zero_le, decide_true, Bool.true_and, Bool.not_eq_true', decide_eq_false_iff_not, Nat.not_lt,
    Bool.and_eq_true, decide_eq_true_eq]
  refine ⟨fun hle => ⟨hle, ?_⟩, And.left⟩
  rcases List.mem_append.mp he with hx | hy
  · exact absurd (h.locate_left hx).1 (Nat.not_lt_of_le hle)
  · obtain ⟨f, hf, rfl⟩ := List.mem_map.mp hy
    exact (h.locate_right hf).2.1

end WellFormed
end MergeSet

theorem toList_restoreIndex {length start stop : Nat} {merged : List UInt32}
    (h : ((merged.filter fun e => start ≤ e.toNat && e.toNat < stop).map (· - UInt32.ofNat start)).length ≤ length) :
    (restoreIndex length merged start stop).toList =
      (merged.filter fun e => start ≤ e.toNat && e.toNat < stop).map (· - UInt32.ofNat start) ++
        List.replicate (length -
          ((merged.filter fun e => start ≤ e.toNat && e.toNat < stop).map (· - UInt32.ofNat start)).length) padding := by
  rw [restoreIndex, resize, List.take_append, List.take_of_length_le h, List.take_replicate, Nat.min_eq_left (Nat.sub_le ..)]

namespace Chunk

section Restored

variable {c : Chunk} (hc : c.WellFormed) {merged : List UInt32} {start stop : Nat}
  (hp : ((merged.filter fun e => start ≤ e.toNat && e.toNat < stop).map (· - UInt32.ofNat start)).Perm c.entries)
include hc hp

theorem WellFormed.toList_restored : (restoreIndex c.index.size merged start stop).toList =
    (merged.filter fun e => start ≤ e.toNat && e.toNat < stop).map (· - UInt32.ofNat start) ++
      List.replicate (c.index.size - c.rows) padding := by
  have hlen := hp.length_eq.trans hc.length_entries
  rw [toList_restoreIndex (hlen ▸ hc.rows_le_index), hlen]

theorem WellFormed.entries_restored : Chunk.entries { c with index := restoreIndex c.index.size merged start stop } =
    (merged.filter fun e => start ≤ e.toNat && e.toNat < stop).map (· - UInt32.ofNat start) := by
  rw [entries, hc.toList_restored hp]
  exact List.take_left' (hp.length_eq.trans hc.length_entries)

theorem WellFormed.restored : c.Reordered { c with index := restoreIndex c.index.size merged start stop } := by
  have hentries := hp
  rw [← hc.entries_restored hp] at hentries
  refine ⟨hc.reindex ?_ hentries ?_ c.status, rfl, rfl, rfl, rfl, rfl, hentries⟩
  · rw [← Array.length_toList, hc.toList_restored hp, List.length_append, List.length_replicate, hp.length_eq,
      hc.length_entries]
    exact Nat.add_sub_cancel' hc.rows_le_index
  · intro e he
    rw [hc.toList_restored hp, List.drop_left' (hp.length_eq.trans hc.length_entries)] at he
    exact List.eq_of_mem_replicate he

end Restored

end Chunk

namespace MergeSet.WellFormed

variable {s : MergeSet} (h : s.WellFormed) {merged : List UInt32} (hm : merged.Perm s.joint)
include h hm

theorem restored_entries_x :
    ((merged.filter fun e => 0 ≤ e.toNat && e.toNat < s.half).map (· - UInt32.ofNat 0)).Perm s.x.entries := by
  have key := (hm.filter fun e => 0 ≤ e.toNat && e.toNat < s.half).map (· - UInt32.ofNat 0)
  have hid : s.x.entries.map (· - UInt32.ofNat 0) = s.x.entries := by
    conv_rhs => rw [← List.map_id s.x.entries]
    exact List.map_congr_left fun e _ => UInt32.sub_zero e
  rwa [h.filter_left, hid] at key

theorem restored_entries_y :
    ((merged.filter fun e => s.half ≤ e.toNat && e.toNat < 2 * s.half).map (· - UInt32.ofNat s.half)).Perm
      s.y.entries := by
  have key := (hm.filter fun e => s.half ≤ e.toNat && e.toNat < 2 * s.half).map (· - UInt32.ofNat s.half)
  have hid : (s.y.entries.map (· + UInt32.ofNat s.half)).map (· - UInt32.ofNat s.half) = s.y.entries := by
    rw [List.map_map]
    conv_rhs => rw [← List.map_id s.y.entries]
    exact List.map_congr_left fun e _ => UInt32.add_sub_cancel e _
  rwa [h.filter_right, hid] at key

theorem restored_x : s.x.Reordered (s.restored merged).x := h.x.restored (h.restored_entries_x hm)

theorem restored_y : s.y.Reordered (s.restored merged).y := h.y.restored (h.restored_entries_y hm)

theorem restored_records_x : (s.restored merged).x.sortedRecords =
    (merged.filter fun e => 0 ≤ e.toNat && e.toNat < s.half).map s.recordOf := by
  rw [Chunk.sortedRecords_eq, restored, h.x.entries_restored (h.restored_entries_x hm), List.map_map]
  apply List.map_congr_left
  intro e he
  have hx := (hm.filter fun e => 0 ≤ e.toNat && e.toNat < s.half).subset he
  rw [h.filter_left] at hx
  rw [Function.comp_apply, recordOf_eq, (h.locate_left hx).2]
  exact congrArg (fun f : UInt32 => s.x.recordAt f.toNat) (UInt32.sub_zero e)

theorem restored_records_y : (s.restored merged).y.sortedRecords =
    (merged.filter fun e => s.half ≤ e.toNat && e.toNat < 2 * s.half).map s.recordOf := by
  rw [Chunk.sortedRecords_eq, restored, h.y.entries_restored (h.restored_entries_y hm), List.map_map]
  apply List.map_congr_left
  intro e he
  have hy := (hm.filter fun e => s.half ≤ e.toNat && e.toNat < 2 * s.half).subset he
  rw [h.filter_right] at hy
  obtain ⟨f, hf, rfl⟩ := List.mem_map.mp hy
  rw [Function.comp_apply, recordOf_eq, (h.locate_right hf).2.2]
  exact congrArg (fun f : UInt32 => s.y.recordAt f.toNat) (UInt32.add_sub_cancel f _)

end MergeSet.WellFormed
end ChunkSort
